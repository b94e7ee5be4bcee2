import MessageBridge.Toml.Scalar

/-!
# Documents of TOML

A document is a list of lines that give keys their values, under headers that
open tables. A table may be opened once, and a key may be given a value once; a
table that exists only because a longer path goes through it may still be
opened, and one that was made by a dotted key grows by dotted keys only.
-/

namespace MessageBridge.Toml

open Settings (Value)

/-- How a table came to be. -/
inductive Origin where
  /-- By a header. -/
  | header
  /-- Because the path of another header goes through it. -/
  | implied
  /-- By a dotted key. -/
  | dotted
  deriving DecidableEq

/-- What stands at a key. -/
inductive Item where
  | value (value : Value)
  | table (origin : Origin) (entries : List (String × Item))
  /-- An array of tables, each opened by a header. -/
  | tables (items : List (List (String × Item)))

abbrev Table := List (String × Item)

mutual

def Item.toValue : Item → Value
  | .value value => value
  | .table _ entries => .table (entriesToValues entries)
  | .tables items => .array (tablesToValues items)

def entriesToValues : List (String × Item) → List (String × Value)
  | [] => []
  | (key, item) :: rest => (key, item.toValue) :: entriesToValues rest

def tablesToValues : List (List (String × Item)) → List Value
  | [] => []
  | entries :: rest => .table (entriesToValues entries) :: tablesToValues rest

end

/-- Give a key its value, making the tables of a dotted key. -/
def addKey (value : Value) : List String → Table → Option Table
  | [], _ => none
  | [key], table => if Entries.has key table then none else some (table ++ [(key, .value value)])
  | key :: rest, table =>
    match Entries.get? key table with
    | none => (addKey value rest []).map fun inner => table ++ [(key, .table .dotted inner)]
    | some (.table .dotted inner) =>
      (addKey value rest inner).map fun inner => Entries.set key (.table .dotted inner) table
    | some _ => none

/-- Change the last table of an array. -/
def modifyLast (f : Table → Option Table) : List Table → Option (List Table)
  | [] => none
  | [table] => (f table).map ([·])
  | table :: rest => (modifyLast f rest).map (table :: ·)

/-- Change the table at a path, making the tables on the way. In an array of
tables the way goes through the last one. -/
def modifyAt (f : Table → Option Table) : List String → Table → Option Table
  | [], table => f table
  | key :: rest, table =>
    match Entries.get? key table with
    | none => (modifyAt f rest []).map fun inner => table ++ [(key, .table .implied inner)]
    | some (.table origin inner) =>
      (modifyAt f rest inner).map fun inner => Entries.set key (.table origin inner) table
    | some (.tables items) =>
      (modifyLast (modifyAt f rest) items).map fun items => Entries.set key (.tables items) table
    | some (.value _) => none

/-- Open a table. -/
def openTable (key : String) (table : Table) : Option Table :=
  match Entries.get? key table with
  | none => some (table ++ [(key, .table .header [])])
  | some (.table .implied inner) => some (Entries.set key (.table .header inner) table)
  | some _ => none

/-- Open the next table of an array. -/
def openNext (key : String) (table : Table) : Option Table :=
  match Entries.get? key table with
  | none => some (table ++ [(key, .tables [[]])])
  | some (.tables items) => some (Entries.set key (.tables (items ++ [[]])) table)
  | some _ => none

/-- The characters of keys without quotes. -/
def isKeyChar (c : Char) : Bool :=
  c.isAlphanum || c = '_' || c = '-'

/-- One part of a key. -/
def keyPart : Reader String
  | '"' :: rest => basic [] .plain rest
  | '\'' :: rest => literal [] rest
  | cs =>
    let key := cs.takeWhile isKeyChar
    if key.isEmpty then none else some (String.ofList key, cs.drop key.length)

/-- A key, which may have parts with dots between them, with a budget of parts. -/
def key : Nat → Reader (List String)
  | 0, _ => none
  | budget + 1, cs => do
    let (part, rest) ← keyPart (skipSpace cs)
    match skipSpace rest with
    | '.' :: rest =>
      let (parts, rest) ← key budget rest
      return (part :: parts, rest)
    | rest => return ([part], rest)

mutual

/-- A value, with a budget for all that is nested in it. -/
def value : Nat → Reader Value
  | 0, _ => none
  | budget + 1, cs =>
    match cs with
    | '[' :: rest => (items budget [] rest).map fun (items, rest) => (.array items, rest)
    | '{' :: rest =>
      match skipSpace rest with
      | '}' :: rest => some (.table [], rest)
      | rest =>
        (entries budget [] rest).map fun (table, rest) => (.table (entriesToValues table), rest)
    | c :: _ =>
      if c = '"' || c = '\'' then (string cs).map fun (s, rest) => (.text s, rest)
      else scalar cs
    | [] => none

/-- The rest of an array; a comma may stand before its end. -/
def items : Nat → List Value → Reader (List Value)
  | 0, _, _ => none
  | budget + 1, read, cs =>
    match skipBlank false cs with
    | none => none
    | some (']' :: rest) => some (read, rest)
    | some rest =>
      match value budget rest with
      | none => none
      | some (item, rest) =>
        match skipBlank false rest with
        | some (',' :: rest) => items budget (read ++ [item]) rest
        | some (']' :: rest) => some (read ++ [item], rest)
        | _ => none

/-- The rest of a table within a line. -/
def entries : Nat → Table → Reader Table
  | 0, _, _ => none
  | budget + 1, read, cs =>
    match key budget cs with
    | some (path, '=' :: rest) =>
      match value budget (skipSpace rest) with
      | none => none
      | some (item, rest) =>
        match addKey item path read with
        | none => none
        | some read =>
          match skipSpace rest with
          | ',' :: rest => entries budget read rest
          | '}' :: rest => some (read, rest)
          | _ => none
    | _ => none

end

/-- The lines of a document from some line on, where the table at the given path
is open. -/
def lines : Nat → List String → Table → List Char → Option Table
  | 0, _, _, _ => none
  | budget + 1, path, table, cs => do
    match ← skipBlank false cs with
    | [] => return table
    | '[' :: '[' :: rest =>
      match ← key budget rest with
      | (path, ']' :: ']' :: rest) =>
        let table ← modifyAt (openNext (path.getLastD "")) path.dropLast table
        lines budget path table (← skipLine false rest)
      | _ => none
    | '[' :: rest =>
      match ← key budget rest with
      | (path, ']' :: rest) =>
        let table ← modifyAt (openTable (path.getLastD "")) path.dropLast table
        lines budget path table (← skipLine false rest)
      | _ => none
    | rest =>
      match ← key budget rest with
      | (names, '=' :: rest) =>
        let (item, rest) ← value budget (skipSpace rest)
        let table ← modifyAt (addKey item names) path table
        lines budget path table (← skipLine false rest)
      | _ => none

/-- A text may begin with a byte order mark. -/
def skipMark : List Char → List Char
  | '\uFEFF' :: rest => rest
  | cs => cs

/-- The table that a text holds. The text itself is the budget. -/
def read? (text : String) : Option Value :=
  let cs := skipMark text.toList
  (lines (cs.length + 2) [] [] cs).map fun table => .table (entriesToValues table)

end MessageBridge.Toml
