import MessageBridge.Json.Basic
import MessageBridge.Json.Tree

/-!
# Reading JSON documents

A tree becomes a document when its strings and numbers stand for something and
it nests no deeper than `depthLimit`. A key that is repeated keeps its first
place and takes its last value.

A number literal without point and exponent is an integer if it fits, `-0`
excepted. Any other literal is a significand scaled by a power of ten. The
significand takes as many digits as fit 64 bits: further digits before the point
count for the exponent only, and from the first further digit behind the point on
the digits count for nothing. A literal beyond the finite values is refused, and
one that is too small for them is zero.
-/

namespace MessageBridge.Json

/-- How many containers may be open at once. -/
def depthLimit : Nat := 127

/-- The characters of a string. Code units must be characters by themselves, or
the two halves of one. -/
def characters? : List StringPart → Option (List Char)
  | [] => some []
  | .char c :: rest => (characters? rest).map (c :: ·)
  | .invalid :: _ => none
  | .unit n :: rest =>
    if 0xD800 ≤ n ∧ n < 0xDC00 then
      match rest with
      | .unit m :: rest =>
        if 0xDC00 ≤ m ∧ m < 0xE000 then
          (characters? rest).map (Char.ofNat (0x10000 + (n - 0xD800) * 0x400 + (m - 0xDC00)) :: ·)
        else none
      | _ => none
    else if 0xDC00 ≤ n ∧ n < 0xE000 then none
    else (characters? rest).map (Char.ofNat n :: ·)

/-- The text of a string. -/
def text? (parts : List StringPart) : Option String :=
  (characters? parts).map String.ofList

/-- A decimal significand of at most 64 bits with its power of ten. -/
structure Significand where
  value : Nat
  exponent : Int

namespace Significand

/-- Whether one more digit still fits. -/
def fits (s : Significand) (digit : Nat) : Bool :=
  s.value * 10 + digit < Word.limit

/-- The digits before the point. -/
def ofWhole : List Nat → Significand → Significand
  | [], s => s
  | d :: ds, s =>
    if s.fits d then ofWhole ds ⟨s.value * 10 + d, s.exponent⟩
    else ⟨s.value, s.exponent + (ds.length + 1)⟩

/-- The digits behind the point. -/
def withFraction : List Nat → Significand → Significand
  | [], s => s
  | d :: ds, s =>
    if s.fits d then withFraction ds ⟨s.value * 10 + d, s.exponent - 1⟩
    else s

end Significand

/-- A natural number from its digits. -/
def naturalOf (digits : List Nat) : Nat :=
  digits.foldl (fun acc d => acc * 10 + d) 0

namespace NumberLiteral

/-- The integer that a literal stands for, if it stands for one. -/
def integer? (l : NumberLiteral) : Option Int :=
  if l.fraction.isSome || l.exponent.isSome then none
  else
    let n := naturalOf l.whole
    let z : Int := if l.negative then -n else n
    if fitsInteger z && !(l.negative && n == 0) then some z else none

/-- The floating-point value that a literal stands for, if it is not too large. -/
def float? (l : NumberLiteral) : Option Binary64 :=
  let s := (Significand.ofWhole l.whole ⟨0, 0⟩).withFraction (l.fraction.getD [])
  let exponent : Int :=
    match l.exponent with
    | none => s.exponent
    | some (negative, ds) =>
      let e : Int := naturalOf ds
      if negative then s.exponent - e else s.exponent + e
  (Binary64.scaled s.value exponent).map fun x => if l.negative then x.neg else x

def toNumber? (l : NumberLiteral) : Option JsonNumber :=
  match l.integer? with
  | some n => some (.integer n)
  | none => l.float?.map .float

end NumberLiteral

mutual

/-- The document that a tree stands for, with at most `depth` containers open at
once. -/
def Tree.toJson? (depth : Nat) : Tree → Option Json
  | .null => some .null
  | .bool b => some (.bool b)
  | .number literal => literal.toNumber?.map .number
  | .string parts => (text? parts).map .string
  | .array items =>
    match depth with
    | 0 => none
    | depth + 1 => (Tree.itemsToJson? depth items).map .array
  | .object entries =>
    match depth with
    | 0 => none
    | depth + 1 => (Tree.entriesToJson? depth [] entries).map .object

def Tree.itemsToJson? (depth : Nat) : List Tree → Option (List Json)
  | [] => some []
  | item :: rest =>
    match Tree.toJson? depth item, Tree.itemsToJson? depth rest with
    | some item, some rest => some (item :: rest)
    | _, _ => none

/-- Entries are set one after the other, so the last value of a key stands. -/
def Tree.entriesToJson? (depth : Nat) (read : Entries Json) :
    List (List StringPart × Tree) → Option (Entries Json)
  | [] => some read
  | (key, value) :: rest =>
    match text? key, Tree.toJson? depth value with
    | some key, some value => Tree.entriesToJson? depth (read.set key value) rest
    | _, _ => none

end

/-- The document that a text holds. -/
def read? (text : String) : Option Json :=
  (Tree.ofText? text).bind (Tree.toJson? depthLimit)

end MessageBridge.Json
