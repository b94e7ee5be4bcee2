/-!
# Machine words

The bounds of the integers that fit 64 bits, with and without a sign.
-/

namespace MessageBridge.Word

/-- Natural numbers of 64 bits are below this one. -/
def limit : Nat := 18446744073709551616

/-- The largest natural number of 64 bits. -/
def largest : Nat := 18446744073709551615

/-- The largest natural number of 32 bits. -/
def largestHalf : Nat := 4294967295

/-- The largest integer of 32 bits with a sign. -/
def largestSignedHalf : Nat := 2147483647

/-- Whether an integer fits 64 bits with a sign. -/
def isSigned (n : Int) : Bool :=
  -9223372036854775808 ≤ n && n < 9223372036854775808

/-- Whether an integer fits 64 bits, with a sign or without. -/
def isAny (n : Int) : Bool :=
  -9223372036854775808 ≤ n && n < 18446744073709551616

end MessageBridge.Word
