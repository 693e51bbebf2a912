import CadenceUplift.Text.Class

namespace CadenceUplift

/-- A day of the calendar. -/
structure Date where
  year : Nat
  month : Nat
  day : Nat
deriving DecidableEq, Repr, Inhabited

/-- A day and a time of day, with the minutes by which it is ahead of universal time if that is
known. -/
structure Moment where
  date : Date
  hour : Nat
  minute : Nat
  second : Nat
  micros : Nat := 0
  offset : Option Int := none
deriving DecidableEq, Repr, Inhabited

/-- What can be wrong with a day or a time. -/
inductive CalendarFault where
  | year (n : Nat)
  | month
  | day
  | hour
  | minute
  | second
  /-- An offset of a day or more, in minutes. -/
  | offset (minutes : Int)
deriving DecidableEq, Repr, Inhabited

namespace Calendar

/-- A number with at least the given number of digits, zeros in front. -/
def padded (width n : Nat) : String :=
  let digits := Nat.toDigits 10 n
  String.ofList (List.replicate (width - digits.length) '0' ++ digits)

def isLeap (year : Nat) : Bool := year % 4 == 0 && (year % 100 != 0 || year % 400 == 0)

def daysIn (year month : Nat) : Nat :=
  if month == 2 then if isLeap year then 29 else 28
  else if month == 4 || month == 6 || month == 9 || month == 11 then 30
  else 31

/-- A stretch of time in minutes, written as whole days and the seconds after them. -/
def spanText (minutes : Int) : String :=
  let days := minutes.fdiv 1440
  let seconds := minutes.fmod 1440 * 60
  "datetime.timedelta(" ++
    ", ".intercalate (
      (if days == 0 then [] else ["days=" ++ toString days]) ++
        (if seconds == 0 then if days == 0 then ["0"] else [] else ["seconds=" ++ toString seconds])) ++
    ")"

end Calendar

def CalendarFault.message : CalendarFault → String
  | .year n => "year " ++ toString n ++ " is out of range"
  | .month => "month must be in 1..12"
  | .day => "day is out of range for month"
  | .hour => "hour must be in 0..23"
  | .minute => "minute must be in 0..59"
  | .second => "second must be in 0..59"
  | .offset minutes =>
    "offset must be a timedelta strictly between -timedelta(hours=24) and timedelta(hours=24), not " ++
      Calendar.spanText minutes ++ "."

namespace Date

/-- A day that exists. -/
def make (year month day : Nat) : Except CalendarFault Date :=
  if year = 0 ∨ 9999 < year then .error (.year year)
  else if month = 0 ∨ 12 < month then .error .month
  else if day = 0 ∨ Calendar.daysIn year month < day then .error .day
  else .ok ⟨year, month, day⟩

/-- Year, month and day, with dashes between them. -/
def text (d : Date) : String :=
  Calendar.padded 4 d.year ++ "-" ++ Calendar.padded 2 d.month ++ "-" ++ Calendar.padded 2 d.day

/-- The parts of a day, as they are listed where it stands inside a value. -/
def parts (d : Date) : List Nat := [d.year, d.month, d.day]

end Date

namespace Moment

/-- A time that exists; the offset is checked first. -/
def make (year month day hour minute second micros : Nat) (offset : Option Int) :
    Except CalendarFault Moment := do
  match offset with
  | some o => if o ≤ -1440 ∨ 1440 ≤ o then .error (.offset o)
  | none => pure ()
  let date ← Date.make year month day
  if 23 < hour then .error .hour
  else if 59 < minute then .error .minute
  else if 59 < second then .error .second
  else return ⟨date, hour, minute, second, micros, offset⟩

/-- An offset as a sign, hours and minutes. -/
def offsetText (minutes : Int) : String :=
  let size := minutes.natAbs
  (if minutes < 0 then "-" else "+") ++ Calendar.padded 2 (size / 60) ++ ":" ++
    Calendar.padded 2 (size % 60)

/-- Day and time with a space between them; parts of a second and the offset only where there are
any. -/
def text (m : Moment) : String :=
  m.date.text ++ " " ++ Calendar.padded 2 m.hour ++ ":" ++ Calendar.padded 2 m.minute ++ ":" ++
    Calendar.padded 2 m.second ++
    (if m.micros = 0 then "" else "." ++ Calendar.padded 6 m.micros) ++
    (m.offset.map offsetText).getD ""

/-- The parts of a time, as they are listed where it stands inside a value: seconds and their parts are
left out when they are zero. -/
def parts (m : Moment) : List String :=
  let small := if m.micros ≠ 0 then [m.second, m.micros] else if m.second ≠ 0 then [m.second] else []
  (m.date.parts ++ [m.hour, m.minute] ++ small).map toString ++
    match m.offset with
    | none => []
    | some o =>
      if o = 0 then ["tzinfo=datetime.timezone.utc"]
      else ["tzinfo=datetime.timezone(" ++ Calendar.spanText o ++ ")"]

end Moment

end CadenceUplift
