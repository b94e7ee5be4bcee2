/-!
# Dates

The text of a moment in the common era, as it stands in notifications. Days are
counted in years that begin in March, so that the leap day is the last day of
its year.
-/

namespace MessageBridge.Calendar

/-- A number with at least the given count of digits. -/
def padded (width n : Nat) : String :=
  let digits := Nat.toDigits 10 n
  String.ofList (List.replicate (width - digits.length) '0' ++ digits)

/-- Year, month and day of the day that is so many days after 1 January 1970. -/
def date (days : Nat) : Nat × Nat × Nat :=
  -- 719468 days lie between 1 March of the year 0 and 1 January 1970.
  let z := days + 719468
  let era := z / 146097
  let ofEra := z % 146097
  let yearOfEra := (ofEra - ofEra / 1460 + ofEra / 36524 - ofEra / 146096) / 365
  let ofYear := ofEra - (365 * yearOfEra + yearOfEra / 4 - yearOfEra / 100)
  let fromMarch := (5 * ofYear + 2) / 153
  let day := ofYear - (153 * fromMarch + 2) / 5 + 1
  let month := if fromMarch < 10 then fromMarch + 3 else fromMarch - 9
  let year := yearOfEra + era * 400 + (if month ≤ 2 then 1 else 0)
  (year, month, day)

/-- The text of a moment, given in milliseconds since 1 January 1970. -/
def timestamp (millis : Nat) : String :=
  let seconds := millis / 1000
  let (year, month, day) := date (seconds / 86400)
  let ofDay := seconds % 86400
  padded 4 year ++ "-" ++ padded 2 month ++ "-" ++ padded 2 day ++ "T"
    ++ padded 2 (ofDay / 3600) ++ ":" ++ padded 2 (ofDay % 3600 / 60) ++ ":"
    ++ padded 2 (ofDay % 60) ++ "." ++ padded 3 (millis % 1000) ++ "+00:00"

end MessageBridge.Calendar
