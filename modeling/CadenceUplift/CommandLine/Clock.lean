import CadenceUplift.Data.Calendar

namespace CadenceUplift

/-- The date so many days after the first of January 1970. Years are counted from March, so that the day
a leap year adds is the last of its year, and cycles of 400 years from March 0000. -/
def Date.ofDays (days : Nat) : Date :=
  let shifted := days + 719468
  let cycle := shifted / 146097
  let dayOfCycle := shifted % 146097
  let yearOfCycle := (dayOfCycle - dayOfCycle / 1460 + dayOfCycle / 36524 - dayOfCycle / 146096) / 365
  let dayOfYear := dayOfCycle - (365 * yearOfCycle + yearOfCycle / 4 - yearOfCycle / 100)
  let shiftedMonth := (5 * dayOfYear + 2) / 153
  let month := if shiftedMonth < 10 then shiftedMonth + 3 else shiftedMonth - 9
  { year := cycle * 400 + yearOfCycle + (if month ≤ 2 then 1 else 0)
    month := month
    day := dayOfYear - (153 * shiftedMonth + 2) / 5 + 1 }

/-- The text of a point in time, given by seconds since the start of 1970 and microseconds, which are
left out when there are none. -/
def timeText (seconds micros : Nat) : String :=
  let date := Date.ofDays (seconds / 86400)
  let rest := seconds % 86400
  date.text ++ "T" ++ Calendar.padded 2 (rest / 3600) ++ ":" ++ Calendar.padded 2 (rest / 60 % 60) ++ ":" ++
    Calendar.padded 2 (rest % 60) ++ (if micros = 0 then "" else "." ++ Calendar.padded 6 micros) ++ "+00:00"

end CadenceUplift
