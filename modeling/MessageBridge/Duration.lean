import MessageBridge.Decimal.Word
import MessageBridge.Text.Blank

/-!
# Durations

A duration is a number of nanoseconds. As text it is a sequence of numbers with
units, such as `1h 30m`: blanks may stand anywhere except inside a unit, and a
unit ends at a blank, at the next number or at the end. A year has 365.25 days
and a month 30.44 days. The seconds of a duration fit 64 bits, and so does every
number on the way.
-/

namespace MessageBridge

structure Duration where
  nanos : Nat
  deriving DecidableEq, Repr, Inhabited

namespace Duration

def zero : Duration := ⟨0⟩

def ofMillis (n : Nat) : Duration := ⟨n * 1000000⟩

def ofSeconds (n : Nat) : Duration := ⟨n * 1000000000⟩

/-- Whole milliseconds, the rest dropped. -/
def millis (d : Duration) : Nat := d.nanos / 1000000

/-- The milliseconds after which the duration has passed. -/
def millisUp (d : Duration) : Nat := (d.nanos + 999999) / 1000000

/-- Whole seconds, the rest dropped. -/
def seconds (d : Duration) : Nat := d.nanos / 1000000000

/-- What a unit multiplies a number by: seconds, or else nanoseconds. -/
inductive Scale where
  | seconds (factor : Nat)
  | nanos (factor : Nat)

def unit? (name : String) : Option Scale :=
  if ["nanos", "nsec", "ns"].contains name then some (.nanos 1)
  else if ["usec", "us"].contains name then some (.nanos 1000)
  else if ["millis", "msec", "ms"].contains name then some (.nanos 1000000)
  else if ["seconds", "second", "secs", "sec", "s"].contains name then some (.seconds 1)
  else if ["minutes", "minute", "min", "mins", "m"].contains name then some (.seconds 60)
  else if ["hours", "hour", "hrs", "hr", "h"].contains name then some (.seconds 3600)
  else if ["days", "day", "d"].contains name then some (.seconds 86400)
  else if ["weeks", "week", "wks", "wk", "w"].contains name then some (.seconds 604800)
  else if ["months", "month", "M"].contains name then some (.seconds 2630016)
  else if ["years", "year", "yrs", "yr", "y"].contains name then some (.seconds 31557600)
  else none

/-- Add a number of units to a duration. -/
def addUnits? (d : Duration) (n : Nat) (unit : List Char) : Option Duration :=
  match unit? (String.ofList unit) with
  | none => none
  | some (.seconds factor) =>
    let sum : Duration := ⟨d.nanos + n * factor * 1000000000⟩
    if sum.seconds < Word.limit then some sum else none
  | some (.nanos factor) =>
    let sum : Duration := ⟨d.nanos + n * factor⟩
    if n * factor + d.nanos % 1000000000 < Word.limit ∧ sum.seconds < Word.limit then some sum
    else none

def isLetter (c : Char) : Bool :=
  ('a' ≤ c && c ≤ 'z') || ('A' ≤ c && c ≤ 'Z')

/-- What has been read of the next number with its unit. -/
inductive Reading where
  /-- Nothing: a number must begin, unless the text ends. -/
  | start
  /-- A number. -/
  | number (n : Nat)
  /-- A number and the letters of its unit, the last one first. -/
  | unit (n : Nat) (letters : List Char)

/-- Read on with a sum so far. -/
def readFrom (sum : Duration) : Reading → List Char → Option Duration
  | .start, [] => some sum
  | .number _, [] => none
  | .unit n letters, [] => sum.addUnits? n letters.reverse
  | .start, c :: rest =>
    if c.isDigit then readFrom sum (.number (c.toNat - 48)) rest
    else if Text.isBlank c then readFrom sum .start rest
    else none
  | .number n, c :: rest =>
    if c.isDigit then
      let n := n * 10 + (c.toNat - 48)
      if n < Word.limit then readFrom sum (.number n) rest else none
    else if Text.isBlank c then readFrom sum (.number n) rest
    else if isLetter c then readFrom sum (.unit n [c]) rest
    else none
  | .unit n letters, c :: rest =>
    if c.isDigit then
      match sum.addUnits? n letters.reverse with
      | none => none
      | some sum => readFrom sum (.number (c.toNat - 48)) rest
    else if Text.isBlank c then
      match sum.addUnits? n letters.reverse with
      | none => none
      | some sum => readFrom sum .start rest
    else if isLetter c then readFrom sum (.unit n (c :: letters)) rest
    else none

/-- The duration that a text stands for. Zero needs no unit, but a text without
any number is no duration. -/
def read? (text : String) : Option Duration :=
  if text = "0" then some zero
  else if text.toList.all Text.isBlank then none
  else readFrom zero .start text.toList

/-- A part of the text of a duration; nothing when it is zero. -/
def part (n : Nat) (unit : String) : List String :=
  if n = 0 then [] else [toString n ++ unit]

/-- A part whose unit is a word, which has a plural. -/
def wordPart (n : Nat) (unit : String) : List String :=
  part n (if n = 1 then unit else unit ++ "s")

/-- The text of a duration, from years down to nanoseconds. -/
def text (d : Duration) : String :=
  let s := d.seconds
  let n := d.nanos % 1000000000
  let ofYear := s % 31557600
  let ofMonth := ofYear % 2630016
  let ofDay := ofMonth % 86400
  if d.nanos = 0 then "0s"
  else
    " ".intercalate
      (wordPart (s / 31557600) "year" ++ wordPart (ofYear / 2630016) "month"
        ++ wordPart (ofMonth / 86400) "day" ++ part (ofDay / 3600) "h"
        ++ part (ofDay % 3600 / 60) "m" ++ part (ofDay % 60) "s"
        ++ part (n / 1000000) "ms" ++ part (n / 1000 % 1000) "us" ++ part (n % 1000) "ns")

end Duration

end MessageBridge
