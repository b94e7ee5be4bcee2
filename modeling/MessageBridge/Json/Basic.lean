import MessageBridge.Decimal.Binary64
import MessageBridge.Decimal.Word
import MessageBridge.Entries

/-!
# JSON documents

A document is a value of the type `Json`. An object is a list of entries in the
order of first appearance; the reader makes each key stand once. A number is an
integer when its literal is one that fits 64 bits, with or without a sign, and a
floating-point number otherwise, so `1` and `1.0` are different documents.
-/

namespace MessageBridge

/-- A JSON number. -/
inductive JsonNumber where
  | integer (n : Int)
  | float (x : Binary64)
  deriving DecidableEq, Repr, Inhabited

/-- A JSON document. -/
inductive Json where
  | null
  | bool (b : Bool)
  | number (n : JsonNumber)
  | string (s : String)
  | array (items : List Json)
  | object (entries : List (String × Json))
  deriving Inhabited, Repr

namespace Json

/-- The integers that a number literal can stand for. -/
def fitsInteger (n : Int) : Bool :=
  Word.isAny n

/-- The name of the kind of a document, as it stands in messages. -/
def kindName : Json → String
  | .null => "null"
  | .bool _ => "boolean"
  | .number _ => "number"
  | .string _ => "string"
  | .array _ => "array"
  | .object _ => "object"

/-- A boolean, a number or a string. -/
def isPrimitive : Json → Bool
  | .bool _ | .number _ | .string _ => true
  | .null | .array _ | .object _ => false

end Json

end MessageBridge
