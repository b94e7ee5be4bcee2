/-!
# Blanks and strings of TOML

Reading goes character by character. A reader takes the characters that are left
and gives back what it has read with those that are left then, or nothing when
the text is not TOML.
-/

namespace MessageBridge.Toml

/-- Reads something off the beginning of a text. -/
abbrev Reader (α : Type) := List Char → Option (α × List Char)

/-- Space within a line. -/
def isSpace (c : Char) : Bool :=
  c = ' ' || c = '\t'

/-- Control characters may not stand anywhere, the tabulator excepted. -/
def isControl (c : Char) : Bool :=
  (c.toNat < 0x20 && c ≠ '\t') || c.toNat = 0x7F

/-- Drop space within a line. -/
def skipSpace (cs : List Char) : List Char :=
  cs.dropWhile isSpace

/-- Drop space, line ends and comments. -/
def skipBlank (inComment : Bool) : List Char → Option (List Char)
  | [] => some []
  | '\n' :: rest => skipBlank false rest
  | '\r' :: '\n' :: rest => skipBlank false rest
  | c :: rest =>
    if inComment then if isControl c then none else skipBlank true rest
    else if isSpace c then skipBlank false rest
    else if c = '#' then skipBlank true rest
    else some (c :: rest)

/-- Drop the rest of a line, on which only a comment may stand. -/
def skipLine (inComment : Bool) : List Char → Option (List Char)
  | [] => some []
  | '\n' :: rest => some rest
  | '\r' :: '\n' :: rest => some rest
  | c :: rest =>
    if inComment then if isControl c then none else skipLine true rest
    else if isSpace c then skipLine false rest
    else if c = '#' then skipLine true rest
    else none

/-- The value of a hexadecimal digit. -/
def hexDigit? (c : Char) : Option Nat :=
  if '0' ≤ c && c ≤ '9' then some (c.toNat - 48)
  else if 'a' ≤ c && c ≤ 'f' then some (c.toNat - 87)
  else if 'A' ≤ c && c ≤ 'F' then some (c.toNat - 55)
  else none

/-- The character for a letter behind a backslash. -/
def escaped? (c : Char) : Option Char :=
  match c with
  | 'b' => some '\x08'
  | 't' => some '\t'
  | 'n' => some '\n'
  | 'f' => some '\x0c'
  | 'r' => some '\r'
  | '"' => some '"'
  | '\\' => some '\\'
  | _ => none

/-- Where in a string with escapes the reader is. -/
inductive Place where
  | plain
  /-- Behind a backslash. -/
  | escape
  /-- In an escape by number, with so many digits to come. -/
  | number (left value : Nat)
  /-- Behind a backslash and space, where the line has to end. -/
  | lineEnd
  /-- Behind an escaped line end, where blanks count for nothing. -/
  | gap

/-- Where an escape leads, and the character it stands for if it is complete. -/
def escape? (c : Char) : Option (Place × Option Char) :=
  match escaped? c with
  | some d => some (.plain, some d)
  | none =>
    if c = 'u' then some (.number 4 0, none)
    else if c = 'U' then some (.number 8 0, none)
    else none

/-- One more digit of an escape by number. -/
def digit? (left value : Nat) (c : Char) : Option (Place × Option Char) :=
  match hexDigit? c with
  | none => none
  | some d =>
    let value := 16 * value + d
    if 1 < left then some (.number (left - 1) value, none)
    else if value < 0xD800 || (0xE000 ≤ value && value < 0x110000) then
      some (.plain, some (Char.ofNat value))
    else none

/-- The rest of a string in double quotes. What has been read stands last first. -/
def basic (read : List Char) : Place → Reader String
  | _, [] => none
  | .escape, c :: rest =>
    match escape? c with
    | none => none
    | some (place, d) => basic (d.toList ++ read) place rest
  | .number left value, c :: rest =>
    match digit? left value c with
    | none => none
    | some (place, d) => basic (d.toList ++ read) place rest
  | _, c :: rest =>
    if c = '"' then some (String.ofList read.reverse, rest)
    else if c = '\\' then basic read .escape rest
    else if isControl c then none
    else basic (c :: read) .plain rest

/-- The rest of a string in three double quotes. One or two quotes may stand
before those that end it. -/
def longBasic (read : List Char) : Place → Reader String
  | _, [] => none
  | .escape, c :: rest =>
    if isSpace c then longBasic read .lineEnd rest
    else if c = '\n' then longBasic read .gap rest
    else if c = '\r' then longBasic read .lineEnd rest
    else
      match escape? c with
      | none => none
      | some (place, d) => longBasic (d.toList ++ read) place rest
  | .number left value, c :: rest =>
    match digit? left value c with
    | none => none
    | some (place, d) => longBasic (d.toList ++ read) place rest
  | .lineEnd, c :: rest =>
    if isSpace c || c = '\r' then longBasic read .lineEnd rest
    else if c = '\n' then longBasic read .gap rest
    else none
  | _, '"' :: '"' :: '"' :: '"' :: '"' :: rest =>
    some (String.ofList ('"' :: '"' :: read).reverse, rest)
  | _, '"' :: '"' :: '"' :: '"' :: rest => some (String.ofList ('"' :: read).reverse, rest)
  | _, '"' :: '"' :: '"' :: rest => some (String.ofList read.reverse, rest)
  | .gap, '\r' :: '\n' :: rest => longBasic read .gap rest
  | .plain, '\r' :: '\n' :: rest => longBasic ('\n' :: read) .plain rest
  | .gap, c :: rest =>
    if isSpace c || c = '\n' then longBasic read .gap rest
    else if c = '\\' then longBasic read .escape rest
    else if isControl c then none
    else longBasic (c :: read) .plain rest
  | .plain, c :: rest =>
    if c = '\\' then longBasic read .escape rest
    else if isControl c && c ≠ '\n' then none
    else longBasic (c :: read) .plain rest

/-- The rest of a string in single quotes. -/
def literal (read : List Char) : Reader String
  | [] => none
  | c :: rest =>
    if c = '\'' then some (String.ofList read.reverse, rest)
    else if isControl c then none
    else literal (c :: read) rest

/-- The rest of a string in three single quotes. -/
def longLiteral (read : List Char) : Reader String
  | [] => none
  | '\'' :: '\'' :: '\'' :: '\'' :: '\'' :: rest =>
    some (String.ofList ('\'' :: '\'' :: read).reverse, rest)
  | '\'' :: '\'' :: '\'' :: '\'' :: rest => some (String.ofList ('\'' :: read).reverse, rest)
  | '\'' :: '\'' :: '\'' :: rest => some (String.ofList read.reverse, rest)
  | '\r' :: '\n' :: rest => longLiteral ('\n' :: read) rest
  | c :: rest => if isControl c && c ≠ '\n' then none else longLiteral (c :: read) rest

/-- A line end right behind the opening quotes of a long string counts for
nothing. -/
def skipLineEnd : List Char → List Char
  | '\n' :: rest => rest
  | '\r' :: '\n' :: rest => rest
  | cs => cs

/-- A string of any kind. -/
def string : Reader String
  | '"' :: '"' :: '"' :: rest => longBasic [] .plain (skipLineEnd rest)
  | '"' :: rest => basic [] .plain rest
  | '\'' :: '\'' :: '\'' :: rest => longLiteral [] (skipLineEnd rest)
  | '\'' :: rest => literal [] rest
  | _ => none

end MessageBridge.Toml
