/-!
# Binary floating point of 64 bits

Numbers that are no integers of 64 bits are kept as their 64 bits: a sign, an
exponent of eleven bits and a fraction of fifty-two. Everything that rounds goes
through `nearest`, which takes a quotient of natural numbers to the closest
value, and to the even one of two that are equally close. The products and
quotients of finite values are computed exactly first and rounded once.
-/

namespace MessageBridge

/-- A floating-point number of 64 bits, given by these bits. -/
structure Binary64 where
  bits : UInt64
  deriving DecidableEq, Repr, Inhabited

namespace Binary64

/-- The bit of the sign, `2 ^ 63`. -/
def signBit : Nat := 9223372036854775808

/-- The leading bit of a significand, `2 ^ 52`, which is not among the bits of the
fraction. -/
def hiddenBit : Nat := 4503599627370496

/-- The bits without the sign. -/
def magnitude (x : Binary64) : Nat :=
  x.bits.toNat % signBit

def isNegative (x : Binary64) : Bool :=
  signBit ≤ x.bits.toNat

/-- The eleven bits of the exponent. -/
def exponentField (x : Binary64) : Nat :=
  x.magnitude / hiddenBit

/-- The fifty-two bits of the fraction. -/
def fraction (x : Binary64) : Nat :=
  x.magnitude % hiddenBit

def isNaN (x : Binary64) : Bool :=
  x.exponentField = 2047 && x.fraction ≠ 0

def isInfinite (x : Binary64) : Bool :=
  x.exponentField = 2047 && x.fraction = 0

def isZero (x : Binary64) : Bool :=
  x.magnitude = 0

/-- The integer `m` of the size of a finite value, which is `m * 2 ^ q`. -/
def significand (x : Binary64) : Nat :=
  if x.exponentField = 0 then x.fraction else hiddenBit + x.fraction

/-- The exponent `q` of the size of a finite value, which is `m * 2 ^ q`. -/
def exponent (x : Binary64) : Int :=
  if x.exponentField = 0 then -1074 else (x.exponentField : Int) - 1075

/-- The value whose bits without the sign are the given ones. -/
def ofMagnitude (negative : Bool) (magnitude : Nat) : Binary64 :=
  ⟨UInt64.ofNat (if negative then signBit + magnitude else magnitude)⟩

/-- The bits of infinity; those of the finite values are below. -/
def infinityMagnitude : Nat :=
  2047 * hiddenBit

def infinity : Binary64 :=
  ofMagnitude false infinityMagnitude

def notANumber : Binary64 :=
  ofMagnitude false (infinityMagnitude + hiddenBit / 2)

def zero : Binary64 :=
  ofMagnitude false 0

def neg (x : Binary64) : Binary64 :=
  ofMagnitude (!x.isNegative) x.magnitude

/-- `2 ^ q` as a factor of a numerator: `1` when `q` is negative. -/
def up (q : Int) : Nat :=
  Nat.pow 2 q.toNat

/-- A quotient rounded to the nearest integer, and to the even one of two. -/
def roundHalfEven (num den : Nat) : Nat :=
  let quotient := num / den
  let twice := 2 * (num % den)
  if twice < den then quotient
  else if den < twice then quotient + 1
  else quotient + quotient % 2

/-- The exponent of the leading bit of a quotient of positive numbers. -/
def leadingExponent (num den : Nat) : Int :=
  let e : Int := (num.log2 : Int) - den.log2
  if den * up e ≤ num * up (-e) then e else e - 1

/-- The value nearest to a quotient of natural numbers, infinity when the
quotient is too large. The significand is rounded for the exponent of the
leading bit, or for the least exponent there is; a significand that rounds up to
`2 ^ 53` carries into the exponent by itself, since the two stand side by side
in the bits. -/
def nearest (num den : Nat) : Binary64 :=
  if num = 0 then zero
  else
    let q := max (-1074) (leadingExponent num den - 52)
    let m := roundHalfEven (num * up (-q)) (den * up q)
    ofMagnitude false (min infinityMagnitude ((q + 1074).toNat * hiddenBit + m))

def ofNat (n : Nat) : Binary64 :=
  nearest n 1

def ofInt (n : Int) : Binary64 :=
  if n < 0 then (ofNat n.natAbs).neg else ofNat n.natAbs

/-- The product of two finite values that are not negative. -/
def mul (x y : Binary64) : Binary64 :=
  let q := x.exponent + y.exponent
  nearest (x.significand * y.significand * up q) (up (-q))

/-- The quotient of two finite values that are not negative. -/
def div (x y : Binary64) : Binary64 :=
  let q := x.exponent - y.exponent
  nearest (x.significand * up q) (y.significand * up (-q))

/-- The largest power of ten below infinity is `10 ^ 308`. -/
def powerOfTen (k : Nat) : Binary64 :=
  ofNat (Nat.pow 10 k)

/-- A quotient by powers of ten, `10 ^ 308` at a time as long as the exponent
asks for more and there is something left to divide. -/
def divPowerOfTen (x : Binary64) (k : Nat) : Binary64 :=
  if k ≤ 308 then x.div (powerOfTen k)
  else if x.isZero then x
  else divPowerOfTen (x.div (powerOfTen 308)) (k - 308)
termination_by k

/-- A number scaled by a power of ten, with one rounding for the number and one
for each product or quotient. There is none when it grows beyond the finite
values. -/
def scaled (n : Nat) (exponent : Int) : Option Binary64 :=
  let x := ofNat n
  if exponent < 0 then some (x.divPowerOfTen exponent.natAbs)
  else if exponent ≤ 308 then
    let y := x.mul (powerOfTen exponent.toNat)
    if y.isInfinite then none else some y
  else if x.isZero then some x
  else none

/-- The value nearest to a number scaled by a power of ten, with a single
rounding. Exponents that are out of reach whatever the number are cut short. -/
def ofDecimal (digits : List Nat) (exponent : Int) : Binary64 :=
  let n := digits.foldl (fun acc d => 10 * acc + d) 0
  if n = 0 then zero
  else if 400 < exponent + digits.length ∧ 400 < exponent then infinity
  else if exponent + digits.length < -400 then zero
  else nearest (n * Nat.pow 10 exponent.toNat) (Nat.pow 10 (-exponent).toNat)

/-- The nearest integer to a value that is not negative, a half going up, and
cut off at the largest one given. -/
def roundToNat (limit : Nat) (x : Binary64) : Nat :=
  if x.isNaN || x.isNegative then 0
  else if x.isInfinite then limit
  else
    let q := x.exponent
    min limit ((2 * x.significand * up q + up (-q)) / (2 * up (-q)))

/-- A value with the given sign. -/
def withSign (negative : Bool) (x : Binary64) : Binary64 :=
  if negative then x.neg else x

/-- The product of any two values. What is no number stays so, and infinity times
zero is no number either. -/
def times (x y : Binary64) : Binary64 :=
  let negative := x.isNegative != y.isNegative
  if x.isNaN || y.isNaN then notANumber
  else if x.isInfinite || y.isInfinite then
    if x.isZero || y.isZero then notANumber else infinity.withSign negative
  else (x.mul y).withSign negative

/-- The power of a value, by squaring: the squares whose bit is set in the
exponent are multiplied from the least bit up, and every product is rounded. -/
def powFrom (power square : Binary64) (n : Nat) : Binary64 :=
  if n = 0 then power
  else
    let power := if n % 2 = 1 then power.times square else power
    powFrom power (square.times square) (n / 2)
termination_by n
decreasing_by omega

def pow (x : Binary64) (n : Nat) : Binary64 :=
  powFrom (ofNat 1) x n

/-- The whole part of a value: none of a negative one or of what is no number,
and cut off at the largest one given. -/
def truncateToNat (limit : Nat) (x : Binary64) : Nat :=
  if x.isNaN || x.isNegative then 0
  else if x.isInfinite then limit
  else min limit (x.significand * up x.exponent / up (-x.exponent))

end Binary64

end MessageBridge
