import MessageBridge.Decimal.Shortest
import MessageBridge.Settings.Reading

/-!
# Values of settings

Settings that come from several places are put together as values, and only then
read. A value is converted to the type that a field wants: numbers, booleans and
texts stand for one another as far as that makes sense.

Tables are merged key by key. Keys are compared in lower case.
-/

namespace MessageBridge.Settings

inductive Value where
  | null
  | bool (b : Bool)
  | integer (n : Int)
  | float (x : Binary64)
  | text (s : String)
  | array (items : List Value)
  | table (entries : List (String × Value))
  deriving Inhabited, Repr

/-- A step into a value: to a key of a table, or to an item of an array. -/
inductive Step where
  | key (name : String)
  | item (number : Int)
  deriving DecidableEq, Repr

/-- The value of a run of decimal digits. There must be one. -/
def natural? (digits : List Char) : Option Nat :=
  if digits.isEmpty || !digits.all Char.isDigit then none
  else some (digits.foldl (fun acc c => 10 * acc + (c.toNat - 48)) 0)

/-- A natural number with an optional plus sign. -/
def unsigned? : List Char → Option Nat
  | '+' :: digits => natural? digits
  | digits => natural? digits

/-- An integer of 64 bits with an optional sign. -/
def integer? (text : String) : Option Int :=
  let n : Option Int :=
    match text.toList with
    | '-' :: digits => (natural? digits).map fun n => -n
    | cs => (unsigned? cs).map fun n => (n : Int)
  n.filter Word.isSigned

/-- The digits at the beginning, and the rest. -/
def leadingDigits (cs : List Char) : List Char × List Char :=
  (cs.takeWhile Char.isDigit, cs.dropWhile Char.isDigit)

/-- The exponent at the end of a number, which may be missing. -/
def exponent? : List Char → Option Int
  | [] => some 0
  | c :: rest =>
    if c = 'e' ∨ c = 'E' then
      match rest with
      | '-' :: digits => (natural? digits).map fun n => -n
      | digits => (unsigned? digits).map fun n => (n : Int)
    else none

/-- A decimal without sign: digits, perhaps a point among or beside them, and
perhaps an exponent. -/
def decimal? (cs : List Char) : Option Binary64 :=
  let (whole, rest) := leadingDigits cs
  let (fraction, rest) :=
    match rest with
    | '.' :: rest => leadingDigits rest
    | rest => ([], rest)
  if whole.isEmpty && fraction.isEmpty then none
  else
    (exponent? rest).map fun e =>
      .ofDecimal ((whole ++ fraction).map fun c => c.toNat - 48) (e - fraction.length)

/-- A floating-point number, infinity and what is no number included. -/
def float? (text : String) : Option Binary64 :=
  let size (cs : List Char) : Option Binary64 :=
    let name := (String.ofList cs).toLower
    if name = "inf" || name = "infinity" then some .infinity
    else if name = "nan" then some .notANumber
    else decimal? cs
  match text.toList with
  | '-' :: cs => (size cs).map Binary64.neg
  | '+' :: cs => size cs
  | cs => size cs

/-- What a word stands for where a truth value is wanted. -/
def truth? (text : String) : Option Bool :=
  let word := text.toLower
  if ["true", "on", "yes"].contains word then some true
  else if ["false", "off", "no"].contains word then some false
  else none

/-- A character in lower case. The Kelvin sign is the only one beside the capital letters
whose lower case is a letter from a to z, and other letters stand in no key that is read. -/
def lowerChar (c : Char) : Char :=
  if c = '\u212A' then 'k' else c.toLower

/-- A key in lower case. -/
def lowerKey (key : String) : String :=
  String.ofList (key.toList.map lowerChar)

namespace Value

def bool? : Value → Option Bool
  | bool b => some b
  | integer n => some (n ≠ 0)
  | float x => some (!x.isZero)
  | text s => if s = "1" then some true else if s = "0" then some false else truth? s
  | null | array _ | table _ => none

/-- A natural number up to a limit. A float is rounded first. -/
def natural? (limit : Nat) (value : Value) : Option Nat :=
  let n : Option Nat :=
    match value with
    | bool b => some b.toNat
    | integer n => if 0 ≤ n then some n.toNat else none
    | float x => some (x.roundToNat Word.largest)
    | text s =>
      match truth? s with
      | some b => some b.toNat
      | none => unsigned? s.toList
    | null | array _ | table _ => none
  n.filter (· ≤ limit)

def float? : Value → Option Binary64
  | bool b => some (.ofNat b.toNat)
  | integer n => some (.ofInt n)
  | float x => some x
  | text s =>
    match truth? s with
    | some b => some (.ofNat b.toNat)
    | none => Settings.float? s
  | null | array _ | table _ => none

/-- Floats in texts have as few digits as possible and no exponent. -/
def floatLayout : Decimal.Layout :=
  ⟨none, false⟩

def text? : Value → Option String
  | bool b => some (if b then "true" else "false")
  | integer n => some (String.ofList (Json.integerChars n))
  | float x => some (String.ofList (floatLayout.chars x))
  | text s => some s
  | null | array _ | table _ => none

def isNull : Value → Bool
  | null => true
  | _ => false

/-- The named fields of a table, or the leading items of an array. -/
def fields? (names : List String) : Value → Option (List (Option Value))
  | table entries => some (names.map fun name => Entries.get? name entries)
  | array items =>
    some (((items.take names.length).map some)
      ++ List.replicate (names.length - items.length) none)
  | _ => none

def reading : Reading Value where
  fields? := fields?
  isNull := isNull
  bool? := bool?
  natural? := natural?
  float? := float?
  text? := text?

/-- The entries of a table; anything else has none. -/
def entries : Value → Entries Value
  | table entries => entries
  | _ => []

mutual

/-- Set a key of a table, which is made if there is none. A table is merged into
what is there, key by key, and anything else takes its place. -/
def set (key : String) (value : Value) (target : Value) : Value :=
  match value with
  | table incoming =>
    let existing := (Entries.get? (lowerKey key) target.entries).getD (table [])
    table (Entries.set (lowerKey key) (mergeEntries incoming existing) target.entries)
  | other => table (Entries.set (lowerKey key) other target.entries)

/-- Set several keys of a table, one after the other. -/
def mergeEntries : List (String × Value) → Value → Value
  | [], target => target
  | (key, value) :: rest, target => mergeEntries rest (set key value target)

end

/-- The items of an array; anything else has none. -/
def items : Value → List Value
  | array items => items
  | _ => []

/-- Where an item is in an array. Negative numbers count from its end. -/
def itemPlace (number : Int) (items : List Value) : Nat :=
  (if number < 0 then items.length + number else number).toNat

/-- Put an item into an array. One that is too short is filled up with nulls. -/
def setItem (place : Nat) (value : Value) (items : List Value) : List Value :=
  (items ++ List.replicate (place + 1 - items.length) null).set place value

/-- Set what lies at the end of some steps, making the tables and arrays on the way. -/
def setPath : List Step → Value → Value → Value
  | [], value, _ => value
  | [.key key], value, target => set key value target
  | .key key :: rest, value, target =>
    let child := (Entries.get? key target.entries).getD null
    table (Entries.set key (setPath rest value child) target.entries)
  | .item number :: rest, value, target =>
    let place := itemPlace number target.items
    let child := target.items.getD place null
    array (setItem place (setPath rest value child) target.items)

mutual

/-- The value of a document. Integers that do not fit 64 bits with a sign become
floats. -/
def ofJson : Json → Value
  | .null => null
  | .bool b => bool b
  | .number (.integer n) =>
    if Word.isSigned n then integer n else float (.ofInt n)
  | .number (.float x) => float x
  | .string s => text s
  | .array items => array (ofItems items)
  | .object entries => table (ofEntries entries)

def ofItems : List Json → List Value
  | [] => []
  | item :: rest => ofJson item :: ofItems rest

def ofEntries : List (String × Json) → List (String × Value)
  | [] => []
  | (key, value) :: rest => (key, ofJson value) :: ofEntries rest

end

end Value

end MessageBridge.Settings
