import MessageBridge.Folder
import MessageBridge.Settings.Value
import MessageBridge.Text.Utf8
import MessageBridge.Toml.Document

/-!
# Settings in layers

Settings are put together from the defaults, a file, an extra file and the
variables of the environment, each layer over those before it. The extra file may
be missing, the other one may not. What comes out is read once, in the end, so
what one layer gets wrong another one may put right.

Files may be in several formats. What reads them is a parameter: a load works with any
`Readers`, and two of the formats have a reader here.
-/

namespace MessageBridge.Settings

/-- The formats of settings files. -/
inductive Format where
  | toml
  | json
  | yaml
  | ini
  | ron
  | json5
  deriving DecidableEq, Repr

namespace Format

def all : List Format :=
  [toml, json, yaml, ini, ron, json5]

/-- The extensions of the files in a format. -/
def extensions : Format → List String
  | toml => ["toml"]
  | json => ["json"]
  | yaml => ["yaml", "yml"]
  | ini => ["ini"]
  | ron => ["ron"]
  | json5 => ["json5"]

/-- The format that belongs to an extension. -/
def ofExtension? (name : String) : Option Format :=
  all.find? (·.extensions.contains name)

end Format

/-- What files are read with. -/
structure Readers where
  /-- The text of a file, if it is one. -/
  decode? : ByteArray → Option String := Text.decode?
  /-- The table in a text. The keys of tables may come in any order. -/
  read? : Format → String → Option (Entries Value)
  /-- The formats in the order in which a file without extension is looked for. -/
  order : List Format := Format.all

/-- The readers there are here. The other formats are known, but their files are refused. -/
def Readers.own : Readers where
  read? format text :=
    match format with
    | .toml => (Toml.read? text).map Value.entries
    | .json =>
      match Json.read? text with
      | some (.object entries) => some (Value.ofEntries entries)
      | _ => none
    | .yaml | .ini | .ron | .json5 => none

/-- The extension of a path. A name that begins with its only point has none. -/
def extension (path : String) : String :=
  let name := (Text.pieces '/' path).getLastD ""
  match (Text.pieces '.' name).reverse with
  | last :: first :: rest => if rest.isEmpty && first.isEmpty then "" else last
  | _ => ""

/-- The settings file that a path names. An existing file has to be of a known
format; otherwise the extensions are tried behind the path. -/
def find? (readers : Readers) (folder : Folder) (path : String) : Option (Format × ByteArray) :=
  match folder.file? path with
  | some bytes => (Format.ofExtension? (extension path)).map fun format => (format, bytes)
  | none =>
    readers.order.findSome? fun format =>
      format.extensions.findSome? fun name =>
        (folder.file? (path ++ "." ++ name)).map fun bytes => (format, bytes)

/-- The text of the settings file that a path names. -/
def textOf? (readers : Readers) (folder : Folder) (path : String) : Option (Format × String) :=
  (find? readers folder path).bind fun (format, bytes) =>
    (readers.decode? bytes).map fun text => (format, text)

/-- The layer of the main file. -/
def mainLayer? (readers : Readers) (folder : Folder) : Option String → Option (Entries Value)
  | none => some []
  | some path =>
    (textOf? readers folder path).bind fun (format, text) => readers.read? format text

/-- The layer of the extra file: empty when there is no such file, but a file
that is there has to be well-formed. -/
def extraLayer? (readers : Readers) (folder : Folder) : Option String → Option (Entries Value)
  | none => some []
  | some path =>
    match textOf? readers folder path with
    | none => some []
    | some (format, text) => readers.read? format text

/-- What the names of variables begin with, in any case. -/
def variableStart : String := "bridge__"

/-- The key for the name of a variable without its beginning: two underscores
divide the parts of a path. -/
def dotted : List Char → List Char
  | [] => []
  | '_' :: '_' :: rest => '.' :: dotted rest
  | c :: rest => c :: dotted rest

/-- The value for the text of a variable. -/
def ofVariable (text : String) : Value :=
  let word := text.toLower
  if word = "true" then .bool true
  else if word = "false" then .bool false
  else
    match integer? text with
    | some n => .integer n
    | none =>
      match float? text with
      | some x => .float x
      | none => .text text

/-- The layer of the environment. -/
def variableLayer (env : Entries String) : Entries Value :=
  env.filterMap fun (name, text) =>
    let cs := (lowerKey name).toList
    if variableStart.toList.isPrefixOf cs then
      some (String.ofList (dotted (cs.drop variableStart.length)), ofVariable text)
    else none

/-- The characters of the keys in a path. -/
def isKeyChar (c : Char) : Bool :=
  c.isAlphanum || c = ' ' || c = '_' || c = '-'

/-- The number of an item behind its opening bracket. There may be blanks around it. -/
def itemNumber? : List Char → Option Int
  | '[' :: cs =>
    let isBlank (c : Char) : Bool := c = ' ' || c = '\t'
    match ((cs.dropWhile isBlank).reverse.dropWhile isBlank).reverse with
    | '+' :: _ => none
    | cs => integer? (String.ofList cs)
  | _ => none

/-- The steps that a part of a path stands for: a key, and perhaps items in brackets. -/
def steps? (part : List Char) : Option (List Step) :=
  let name := part.takeWhile isKeyChar
  let brackets := (Text.split ']' (part.dropWhile isKeyChar)).reverse
  match name, brackets with
  | _ :: _, [] :: items =>
    (items.reverse.mapM itemNumber?).map fun numbers =>
      .key (String.ofList name) :: numbers.map .item
  | _, _ => none

/-- The steps that a key of a layer stands for, in lower case: those of a path if it is one,
and otherwise itself. -/
def keyPath (key : String) : List Step :=
  let low := lowerKey key
  let parts := (Text.split '.' low.toList).map steps?
  if parts.all Option.isSome then parts.flatMap (·.getD []) else [.key low]

/-- Put a layer over what is there. -/
def overlay (layer : Entries Value) (target : Value) : Value :=
  layer.foldl (fun target (key, value) => Value.setPath (keyPath key) value target) target

/-- Load settings from a folder and an environment. -/
def loadWith? (readers : Readers) (folder : Folder) (path extra : Option String)
    (env : Entries String) : Option Settings := do
  let main ← mainLayer? readers folder path
  let extra ← extraLayer? readers folder extra
  let defaults := (Value.ofJson (toJson {})).entries
  let merged := [defaults, main, extra, variableLayer env].foldl
    (fun target layer => overlay layer target) (.table [])
  read Value.reading merged

/-- Load settings with the readers there are here. -/
def load? (folder : Folder) (path extra : Option String) (env : Entries String) :
    Option Settings :=
  loadWith? .own folder path extra env

end MessageBridge.Settings
