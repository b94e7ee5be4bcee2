import MessageBridge.Decimal.Binary64

/-!
# The fewest decimal digits of a floating-point value

A decimal reads back to a value exactly when it lies in the interval of reals
that round to this value. `shortest` looks for such a decimal on the grids of
one digit, two digits and so on. The first grid with a point in the interval
wins, and if any of its points lies there, so does one of the two neighbours of
the value on it. Of two neighbours in the interval the nearer is taken; an exact
tie goes to the even one.

`Layout` says how the digits are laid out as text.
-/

namespace MessageBridge.Decimal

/-- A decimal number, `digits * 10 ^ exponent`. -/
structure Scientific where
  digits : Nat
  exponent : Int
  deriving DecidableEq, Repr

/-- The decimal digits of a natural number. -/
def digitsOf (n : Nat) : List Char :=
  Nat.toDigits 10 n

/-- A positive value and the interval that rounds to it, as multiples of
`2 ^ exponent`. -/
structure Interval where
  low : Nat
  value : Nat
  high : Nat
  exponent : Int
  /-- Whether the two ends round to the value as well. -/
  closed : Bool

/-- The interval of a positive finite value. Below a power of two the next value
is only half as far away as above it. -/
def interval (x : Binary64) : Interval :=
  let m := x.significand
  let below := if m = Binary64.hiddenBit ∧ 1 < x.exponentField then 1 else 2
  ⟨4 * m - below, 4 * m, 4 * m + 2, x.exponent - 2, m % 2 = 0⟩

/-- The number of digits before the point of a positive quotient; it is not
positive when the quotient begins with zeros behind the point. -/
def pointPosition (num den : Nat) : Int :=
  if den ≤ num then (digitsOf (num / den)).length
  else 1 - (digitsOf ((num + den - 1) / num - 1)).length

/-- The point of the grid `10 ^ grid` that lies in the interval and is nearest to
the value, if one of the neighbours of the value lies in it. -/
def Interval.onGrid? (i : Interval) (grid : Int) : Option Scientific :=
  let scale := Binary64.up i.exponent * Nat.pow 10 (-grid).toNat
  let unit := Binary64.up (-i.exponent) * Nat.pow 10 grid.toNat
  let (low, value, high) := (i.low * scale, i.value * scale, i.high * scale)
  let inside (n : Nat) : Bool :=
    if i.closed then low ≤ n * unit && n * unit ≤ high else low < n * unit && n * unit < high
  let floor := value / unit
  let twice := 2 * (value - floor * unit)
  match inside floor, inside (floor + 1) with
  | true, true =>
    if twice < unit then some ⟨floor, grid⟩
    else if unit < twice then some ⟨floor + 1, grid⟩
    else some ⟨floor + floor % 2, grid⟩
  | true, false => some ⟨floor, grid⟩
  | false, true => some ⟨floor + 1, grid⟩
  | false, false => none

/-- A decimal without zeros at the end of its digits. -/
def Scientific.trimmed (s : Scientific) : Scientific :=
  if h : s.digits ≠ 0 ∧ s.digits % 10 = 0 then
    trimmed ⟨s.digits / 10, s.exponent + 1⟩
  else s
termination_by s.digits
decreasing_by exact Nat.div_lt_self (Nat.pos_of_ne_zero h.1) (by decide)

/-- The shortest decimal that reads back to a positive finite value. Seventeen
digits are always enough. -/
def shortest (x : Binary64) : Scientific :=
  let i := interval x
  let point := pointPosition (i.value * Binary64.up i.exponent) (Binary64.up (-i.exponent))
  let found := (List.range 17).findSome? fun (n : Nat) => i.onGrid? (point - (n + 1))
  (found.getD ⟨i.value * Binary64.up i.exponent, 0⟩).trimmed

/-- How the digits of a floating-point number are laid out. -/
structure Layout where
  /-- The decimal exponents of the leading digit that are written in positions,
  all of them if there is no bound. -/
  positional : Option (Int × Int)
  /-- Whether an integer keeps a zero behind the point. -/
  pointZero : Bool

/-- The digits of a positive decimal in positions. -/
def positions (pointZero : Bool) (s : Scientific) : List Char :=
  let digits := digitsOf s.digits
  let whole : Int := digits.length + s.exponent
  if 0 ≤ s.exponent then
    digits ++ List.replicate s.exponent.toNat '0' ++ (if pointZero then ['.', '0'] else [])
  else if 0 < whole then
    digits.take whole.toNat ++ '.' :: digits.drop whole.toNat
  else
    '0' :: '.' :: List.replicate (-whole).toNat '0' ++ digits

/-- The digits of a positive decimal with an exponent, which always has a sign. -/
def withExponent (s : Scientific) : List Char :=
  let digits := digitsOf s.digits
  let e : Int := digits.length - 1 + s.exponent
  let fraction := digits.drop 1
  digits.take 1 ++ (if fraction.isEmpty then [] else '.' :: fraction)
    ++ 'e' :: (if e < 0 then '-' else '+') :: digitsOf e.natAbs

/-- The text of a floating-point number. -/
def Layout.chars (layout : Layout) (x : Binary64) : List Char :=
  if x.isNaN then ['N', 'a', 'N']
  else
    let size :=
      if x.isInfinite then ['i', 'n', 'f']
      else if x.isZero then if layout.pointZero then ['0', '.', '0'] else ['0']
      else
        let s := shortest x
        let e : Int := (digitsOf s.digits).length - 1 + s.exponent
        match layout.positional with
        | some (least, greatest) =>
          if least ≤ e ∧ e ≤ greatest then positions layout.pointZero s else withExponent s
        | none => positions layout.pointZero s
    if x.isNegative then '-' :: size else size

end MessageBridge.Decimal
