import LuaInterpreter.Number.Basic

/-!
# Dates and times of day

The Gregorian calendar, in both directions without end. Days are counted from the first of January
of the year 1970.
-/

namespace LuaInterpreter

structure Date where
  year : Int
  month : Nat
  day : Nat
deriving Repr, DecidableEq

namespace Date

/-- Every fourth year is a leap year, of the centuries every fourth. -/
def isLeap (year : Int) : Bool := year % 4 == 0 && (year % 100 != 0 || year % 400 == 0)

def daysInMonth (year : Int) : Nat → Nat
  | 2 => if isLeap year then 29 else 28
  | 4 | 6 | 9 | 11 => 30
  | _ => 31

def daysBeforeMonth (year : Int) : Nat → Nat
  | 0 => 0
  | month + 1 => if month = 0 then 0 else daysBeforeMonth year month + daysInMonth year month

def daysBeforeYear (year : Int) : Int :=
  let y := year - 1
  y * 365 + y.fdiv 4 - y.fdiv 100 + y.fdiv 400

/-- The days from the start of the year `1` to the start of the count. -/
def epoch : Int := 719162

def dayOfYear (d : Date) : Nat := daysBeforeMonth d.year d.month + d.day

def dayNumber (d : Date) : Int := daysBeforeYear d.year + d.dayOfYear - 1 - epoch

/-- The month and the day of a place in a year, from `0`; `month` is the first month that can be. -/
def monthAndDay (year : Int) : (fuel month : Nat) → Nat → Nat × Nat
  | 0, month, n => (month, n + 1)
  | fuel + 1, month, n =>
    let length := daysInMonth year month
    if n < length then (month, n + 1) else monthAndDay year fuel (month + 1) (n - length)

/-- The year of a day, counted from the start of the year `1`, and the place in it from `0`: first
the four centuries, then the century, the four years and the year are taken off. The last day of a
leap year would be the first of a fifth year or century. -/
def yearAndPlace (n : Int) : Int × Nat :=
  let cycles := n.fdiv 146097
  let r := (n.fmod 146097).toNat
  let centuries := min (r / 36524) 3
  let r := r - centuries * 36524
  let fours := r / 1461
  let r := r % 1461
  let ones := min (r / 365) 3
  (cycles * 400 + centuries * 100 + fours * 4 + ones + 1, r - ones * 365)

def ofDayNumber (n : Int) : Date :=
  let (year, place) := yearAndPlace (n + epoch)
  let (month, day) := monthAndDay year 11 1 place
  { year, month, day }

/-- The day of the week, from `0` for Monday. -/
def weekday (d : Date) : Nat := ((d.dayNumber + 3) % 7).toNat

/-- The week of the year, where week `1` starts with the first day of the week `first` (from `0` for
Monday). -/
def weekFrom (d : Date) (first : Nat) : Nat :=
  (d.dayOfYear + 6 - (d.weekday + 7 - first) % 7) / 7

/-- The year and the number of the week by the rule that a week belongs to the year of its
Thursday. -/
def isoWeek (d : Date) : Int × Nat :=
  let thursday := ofDayNumber (d.dayNumber - d.weekday + 3)
  (thursday.year, (thursday.dayOfYear - 1) / 7 + 1)

end Date

structure Moment where
  date : Date
  hour : Nat := 0
  minute : Nat := 0
  second : Nat := 0
  microsecond : Nat := 0
deriving Repr, DecidableEq

namespace Moment

/-- Only the years that have one to four digits can be used. -/
def requireYear (year : Int) : Except Fault Unit :=
  if 1 ≤ year && year ≤ 9999 then .ok ()
  else .error (.outOfRange ("year " ++ integerText year ++ " is out of range"))

def requireRange (what : String) (top n : Int) : Except Fault Unit :=
  if 0 ≤ n && n ≤ top then .ok ()
  else .error (.outOfRange (what ++ " must be in 0.." ++ integerText top))

def make (year month day hour minute second : Int) : Except Fault Moment := do
  requireYear year
  if month < 1 || 12 < month then throw (.outOfRange "month must be in 1..12")
  if day < 1 || Date.daysInMonth year month.toNat < day then
    throw (.outOfRange "day is out of range for month")
  requireRange "hour" 23 hour
  requireRange "minute" 59 minute
  requireRange "second" 59 second
  return { date := { year, month := month.toNat, day := day.toNat }
           hour := hour.toNat, minute := minute.toNat, second := second.toNat }

def ofSeconds (seconds : Int) (micros : Nat) : Moment :=
  let s := (seconds % 86400).toNat
  { date := Date.ofDayNumber (seconds.fdiv 86400)
    hour := s / 3600, minute := s / 60 % 60, second := s % 60, microsecond := micros }

/-- The last and the first second that the system can make a date of. -/
def lastSecond : Int := 67768036191676799
def firstSecond : Int := -67768040609740800

/-- The moment of a whole number of seconds, if the system can count that far. -/
def ofSystem (seconds : Int) (micros : Nat) : Except Fault Moment := do
  if seconds < Number.minInt || Number.maxInt < seconds then throw .timestampTooLarge
  if seconds < firstSecond || lastSecond < seconds then throw (.system 75 none)
  let m := ofSeconds seconds micros
  requireYear m.date.year
  return m

def nearestEven (b : Binary) : Int :=
  if 0 ≤ b.q then b.truncate
  else
    let d := Nat.pow 2 (-b.q).toNat
    let n : Int := Binary.roundHalfEven (b.m / d) (b.m % d) d
    if b.negative then -n else n

/-- The seconds and the millionths of a float, rounded to whole millionths. -/
def splitSeconds (x : Float) : Except Fault (Int × Nat) :=
  match Binary.ofFloat? x with
  | none => .error (if x == x then .timestampTooLarge else .timestampNotANumber)
  | some b => do
    let whole := b.truncate
    let fraction := (x - (← Number.floatOfInt whole)) * 1000000
    let micros := match Binary.ofFloat? fraction with
      | some b => nearestEven b
      | none => 0
    let total := whole * 1000000 + micros
    return (total.fdiv 1000000, (total.fmod 1000000).toNat)

def ofTimestamp : Number → Except Fault Moment
  | .int i => ofSystem i 0
  | .float x => do
    let (seconds, micros) ← splitSeconds x
    ofSystem seconds micros

def seconds (m : Moment) : Int :=
  m.date.dayNumber * 86400 + m.hour * 3600 + m.minute * 60 + m.second

def timestamp (m : Moment) : Float :=
  let micros := m.seconds * 1000000 + m.microsecond
  Binary.ofRatio (micros < 0) micros.natAbs 1000000

end Moment

end LuaInterpreter
