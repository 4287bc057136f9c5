/-! # Timestamps

A point in time is written as its date, the time of day to the microsecond and the offset
from universal time, which is none.
-/

namespace CDelta.Text

/-- A calendar date. -/
structure Date where
  year : Nat
  month : Nat
  day : Nat
deriving DecidableEq, Repr

namespace Date

/-- The date some days after the first of January 1970. Years are counted from March, so
that the leap day comes last, in eras of four hundred years. -/
def ofDays (days : Nat) : Date :=
  let shifted := days + 719468
  let era := shifted / 146097
  let dayOfEra := shifted % 146097
  let yearOfEra := (dayOfEra - dayOfEra / 1460 + dayOfEra / 36524 - dayOfEra / 146096) / 365
  let dayOfYear := dayOfEra - (365 * yearOfEra + yearOfEra / 4 - yearOfEra / 100)
  let shiftedMonth := (5 * dayOfYear + 2) / 153
  let month := if shiftedMonth < 10 then shiftedMonth + 3 else shiftedMonth - 9
  let year := yearOfEra + era * 400 + (if month ≤ 2 then 1 else 0)
  ⟨year, month, dayOfYear - (153 * shiftedMonth + 2) / 5 + 1⟩

end Date

/-- A number with zeros in front, at least `width` digits long. -/
def padded (width value : Nat) : String :=
  let digits := toString value
  String.ofList (List.replicate (width - digits.length) '0') ++ digits

/-- The text of the point some seconds and microseconds after the beginning of 1970. -/
def timestamp (seconds micros : Nat) : String :=
  let date := Date.ofDays (seconds / 86400)
  let year := padded 4 date.year
  let month := padded 2 date.month
  let day := padded 2 date.day
  let hour := padded 2 (seconds % 86400 / 3600)
  let minute := padded 2 (seconds % 3600 / 60)
  let second := padded 2 (seconds % 60)
  let fraction := if micros = 0 then "" else "." ++ padded 6 micros
  s!"{year}-{month}-{day}T{hour}:{minute}:{second}{fraction}+00:00"

end CDelta.Text
