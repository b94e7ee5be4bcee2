import MessageBridge.Settings.Value
import MessageBridge.Toml.Text

/-!
# Booleans, numbers and dates of TOML

All of them are words. A word is read to its end first and then has to be one of
the forms in full. Single underscores may stand between the digits of a number.
-/

namespace MessageBridge.Toml

open Settings (Value)

/-- The characters of words. -/
def isWordChar (c : Char) : Bool :=
  c.isAlphanum || c = '_' || c = '+' || c = '-' || c = '.' || c = ':'

/-- Digits with single underscores between them; the flag says whether the
character before was a digit. -/
def digitsFrom? (isDigit : Char → Bool) : Bool → List Char → Option (List Char)
  | afterDigit, [] => if afterDigit then some [] else none
  | afterDigit, c :: rest =>
    if isDigit c then (digitsFrom? isDigit true rest).map (c :: ·)
    else if c = '_' && afterDigit && !rest.isEmpty then digitsFrom? isDigit false rest
    else none

def digits? (isDigit : Char → Bool) (cs : List Char) : Option (List Char) :=
  digitsFrom? isDigit false cs

/-- Decimal digits, without a zero in front of others. -/
def whole? (cs : List Char) : Option (List Char) :=
  (digits? Char.isDigit cs).filter fun ds => ds.head? ≠ some '0' || ds.length = 1

def naturalOf (base : Nat) (digits : List Char) : Nat :=
  digits.foldl (fun acc c => base * acc + (hexDigit? c).getD 0) 0

/-- The sign and the rest of a number. -/
def signed : List Char → Bool × List Char
  | '-' :: rest => (true, rest)
  | '+' :: rest => (false, rest)
  | cs => (false, cs)

def integer? (word : List Char) : Option Int :=
  let n : Option Int :=
    match word with
    | '0' :: 'x' :: rest =>
      (digits? (fun c => (hexDigit? c).isSome) rest).map fun ds => (naturalOf 16 ds : Int)
    | '0' :: 'o' :: rest =>
      (digits? (fun c => '0' ≤ c && c ≤ '7') rest).map fun ds => (naturalOf 8 ds : Int)
    | '0' :: 'b' :: rest =>
      (digits? (fun c => c = '0' || c = '1') rest).map fun ds => (naturalOf 2 ds : Int)
    | _ =>
      let (negative, rest) := signed word
      (whole? rest).map fun ds => if negative then -(naturalOf 10 ds : Int) else naturalOf 10 ds
  n.filter Word.isSigned

/-- The part of a float behind the letter of the exponent. -/
def exponent? (cs : List Char) : Option Int :=
  let (negative, rest) := signed cs
  (digits? Char.isDigit rest).map fun ds =>
    if negative then -(naturalOf 10 ds : Int) else naturalOf 10 ds

/-- A float without sign: it has a point or an exponent, and digits on both
sides of either. -/
def unsignedFloat? (cs : List Char) : Option Binary64 :=
  let mantissa := cs.takeWhile fun c => c ≠ 'e' && c ≠ 'E'
  let exponent := (cs.drop mantissa.length).drop 1
  let whole := mantissa.takeWhile (· ≠ '.')
  let fraction := (mantissa.drop whole.length).drop 1
  let hasPoint := whole.length < mantissa.length
  let hasExponent := mantissa.length < cs.length
  if !hasPoint && !hasExponent then none
  else do
    let whole ← whole? whole
    let fraction ← if hasPoint then digits? Char.isDigit fraction else some []
    let e ← if hasExponent then exponent? exponent else some 0
    return .ofDecimal ((whole ++ fraction).map fun c => c.toNat - 48) (e - fraction.length)

def float? (word : List Char) : Option Binary64 :=
  let (negative, rest) := signed word
  let size :=
    if rest = ['i', 'n', 'f'] then some .infinity
    else if rest = ['n', 'a', 'n'] then some .notANumber
    else unsignedFloat? rest
  if negative then size.map Binary64.neg else size

/-- A number of exactly so many digits. -/
def fixed? (width : Nat) (cs : List Char) : Option Nat :=
  if cs.length = width && cs.all Char.isDigit then some (naturalOf 10 cs) else none

/-- How many days a month has. -/
def daysIn (year month : Nat) : Nat :=
  if month = 2 then
    if year % 4 = 0 && (year % 100 ≠ 0 || year % 400 = 0) then 29 else 28
  else if [4, 6, 9, 11].contains month then 30
  else 31

/-- Whether a text is a date, such as `1979-05-27`. -/
def isDate (cs : List Char) : Bool :=
  match cs with
  | [a, b, c, d, '-', e, f, '-', g, h] =>
    match fixed? 4 [a, b, c, d], fixed? 2 [e, f], fixed? 2 [g, h] with
    | some year, some month, some day =>
      1 ≤ month && month ≤ 12 && 1 ≤ day && day ≤ daysIn year month
    | _, _, _ => false
  | _ => false

/-- Whether a text is hours and minutes, such as `07:32`. -/
def isClock (cs : List Char) : Bool :=
  match cs with
  | [a, b, ':', c, d] =>
    match fixed? 2 [a, b], fixed? 2 [c, d] with
    | some hour, some minute => hour ≤ 23 && minute ≤ 59
    | _, _ => false
  | _ => false

/-- A time of the day in its usual form: nine digits of the second at most, and
no zeros at their end. -/
def time? (cs : List Char) : Option (List Char) :=
  let clock := cs.take 5
  let second := (cs.drop 6).take 2
  let fraction := cs.drop 8
  if isClock clock && (cs.drop 5).head? = some ':' && (fixed? 2 second).any (· ≤ 60) then
    let shown := clock ++ ':' :: second
    match fraction with
    | [] => some shown
    | '.' :: digits =>
      if !digits.isEmpty && digits.all Char.isDigit then
        let digits := ((digits.take 9).reverse.dropWhile (· = '0')).reverse
        some (shown ++ (if digits.isEmpty then [] else '.' :: digits))
      else none
    | _ => none
  else none

/-- A time of the day with its distance from universal time, in its usual form. -/
def zonedTime? (cs : List Char) : Option (List Char) :=
  let time := cs.takeWhile fun c => c.isDigit || c = ':' || c = '.'
  match cs.drop time.length with
  | ['Z'] | ['z'] => (time? time).map (· ++ ['Z'])
  | '+' :: zone => if isClock zone then (time? time).map (· ++ '+' :: zone) else none
  | '-' :: zone => if isClock zone then (time? time).map (· ++ '-' :: zone) else none
  | _ => none

/-- A date, a time, or both, in the usual form. -/
def dateTime? (word : List Char) : Option String :=
  let chars :=
    if isDate word then some word
    else
      match time? word with
      | some time => some time
      | none =>
        let date := word.take 10
        match word.drop 10 with
        | c :: rest =>
          if isDate date && (c = 'T' || c = 't' || c = ' ') then
            ((time? rest).or (zonedTime? rest)).map fun time => date ++ 'T' :: time
          else none
        | [] => none
  chars.map String.ofList

/-- What a word stands for. -/
def ofWord? (word : List Char) : Option Value :=
  if word = ['t', 'r', 'u', 'e'] then some (.bool true)
  else if word = ['f', 'a', 'l', 's', 'e'] then some (.bool false)
  else
    match integer? word with
    | some n => some (.integer n)
    | none =>
      match float? word with
      | some x => some (.float x)
      | none => (dateTime? word).map .text

/-- A word. Between a date and a time there may be a space. -/
def word (cs : List Char) : List Char × List Char :=
  let first := cs.takeWhile isWordChar
  let rest := cs.drop first.length
  match rest with
  | ' ' :: c :: more =>
    if isDate first && c.isDigit then
      let second := (c :: more).takeWhile isWordChar
      (first ++ ' ' :: second, (c :: more).drop second.length)
    else (first, rest)
  | _ => (first, rest)

/-- A boolean, number or date. -/
def scalar : Reader Value := fun cs =>
  let (word, rest) := word cs
  (ofWord? word).map fun value => (value, rest)

end MessageBridge.Toml
