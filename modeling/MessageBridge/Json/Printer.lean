import MessageBridge.Json.Basic
import MessageBridge.Decimal.Shortest

/-!
# Writing JSON documents

Documents are written without blank space. A string escapes the quote, the
backslash and the characters below U+0020, five of them by a letter and the
others by four hexadecimal digits; all other characters stand for themselves.
-/

namespace MessageBridge.Json

/-- Floating-point numbers stand in positions from `0.00001` up to below `1e+16`,
always with a digit behind the point. -/
def floatLayout : Decimal.Layout :=
  ⟨some (-5, 15), true⟩

def integerChars (n : Int) : List Char :=
  if n < 0 then '-' :: Decimal.digitsOf n.natAbs else Decimal.digitsOf n.natAbs

def numberChars : JsonNumber → List Char
  | .integer n => integerChars n
  | .float x => floatLayout.chars x

/-- The hexadecimal digit of a number below sixteen. -/
def hexChar (n : Nat) : Char :=
  Char.ofNat (if n < 10 then 48 + n else 87 + n)

/-- A character inside a string. -/
def escape (c : Char) : List Char :=
  if c = '"' then ['\\', '"']
  else if c = '\\' then ['\\', '\\']
  else if c = '\x08' then ['\\', 'b']
  else if c = '\x0c' then ['\\', 'f']
  else if c = '\n' then ['\\', 'n']
  else if c = '\r' then ['\\', 'r']
  else if c = '\t' then ['\\', 't']
  else if c.toNat < 0x20 then
    ['\\', 'u', '0', '0', hexChar (c.toNat / 16), hexChar (c.toNat % 16)]
  else [c]

/-- A string with its quotes. -/
def stringChars (s : String) : List Char :=
  '"' :: s.toList.flatMap escape ++ ['"']

mutual

def chars : Json → List Char
  | .null => ['n', 'u', 'l', 'l']
  | .bool true => ['t', 'r', 'u', 'e']
  | .bool false => ['f', 'a', 'l', 's', 'e']
  | .number n => numberChars n
  | .string s => stringChars s
  | .array [] => ['[', ']']
  | .array (item :: rest) => '[' :: chars item ++ itemsChars rest ++ [']']
  | .object [] => ['{', '}']
  | .object ((key, value) :: rest) =>
    '{' :: stringChars key ++ ':' :: chars value ++ entriesChars rest ++ ['}']

/-- Items that follow another one. -/
def itemsChars : List Json → List Char
  | [] => []
  | item :: rest => ',' :: chars item ++ itemsChars rest

/-- Entries that follow another one. -/
def entriesChars : List (String × Json) → List Char
  | [] => []
  | (key, value) :: rest =>
    ',' :: stringChars key ++ ':' :: chars value ++ entriesChars rest

end

/-- The text of a document. -/
def write (doc : Json) : String :=
  String.ofList doc.chars

end MessageBridge.Json
