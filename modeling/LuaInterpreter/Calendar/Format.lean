import LuaInterpreter.Calendar.Date

/-!
# Dates as text

`%` and a letter stand for a part of the moment. Between the two, flags may choose the filling and
the case, a number the width, and `E` or `O` an alternative that is the same here.
-/

namespace LuaInterpreter

namespace Moment

def pad (fill : Char) (width : Nat) (cs : List Char) : List Char :=
  List.replicate (width - cs.length) fill ++ cs

def weekdays : List String :=
  ["Monday", "Tuesday", "Wednesday", "Thursday", "Friday", "Saturday", "Sunday"]

def months : List String :=
  ["January", "February", "March", "April", "May", "June", "July", "August", "September",
    "October", "November", "December"]

inductive Part where
  | text (s : List Char)
  | number (n : Int) (width : Nat) (fill : Char)
  | pattern (s : String)
deriving Repr

def dialHour (m : Moment) : Nat := (m.hour + 11) % 12 + 1

def part? (m : Moment) (letter : Char) : Option Part :=
  let weekday := (weekdays.getD m.date.weekday "").toList
  let month := (months.getD (m.date.month - 1) "").toList
  let year := m.date.year
  match letter with
  | 'a' => some (.text (weekday.take 3))
  | 'A' => some (.text weekday)
  | 'b' | 'h' => some (.text (month.take 3))
  | 'B' => some (.text month)
  | 'c' => some (.pattern "%a %b %e %H:%M:%S %Y")
  | 'C' => some (.number (year.fdiv 100) 1 '0')
  | 'd' => some (.number m.date.day 2 '0')
  | 'D' | 'x' => some (.pattern "%m/%d/%y")
  | 'e' => some (.number m.date.day 2 ' ')
  | 'f' => some (.text (pad '0' 6 (Nat.toDigits 10 m.microsecond)))
  | 'F' => some (.pattern "%Y-%m-%d")
  | 'g' => some (.number (m.date.isoWeek.1 % 100) 2 '0')
  | 'G' => some (.number m.date.isoWeek.1 1 '0')
  | 'H' => some (.number m.hour 2 '0')
  | 'I' => some (.number m.dialHour 2 '0')
  | 'j' => some (.number m.date.dayOfYear 3 '0')
  | 'k' => some (.number m.hour 2 ' ')
  | 'l' => some (.number m.dialHour 2 ' ')
  | 'm' => some (.number m.date.month 2 '0')
  | 'M' => some (.number m.minute 2 '0')
  | 'n' => some (.text ['\n'])
  | 'p' => some (.text (if m.hour < 12 then ['A', 'M'] else ['P', 'M']))
  | 'P' => some (.text (if m.hour < 12 then ['a', 'm'] else ['p', 'm']))
  | 'r' => some (.pattern "%I:%M:%S %p")
  | 'R' => some (.pattern "%H:%M")
  | 's' => some (.number m.seconds 1 '0')
  | 'S' => some (.number m.second 2 '0')
  | 't' => some (.text ['\t'])
  | 'T' | 'X' => some (.pattern "%H:%M:%S")
  | 'u' => some (.number (m.date.weekday + 1) 1 '0')
  | 'U' => some (.number (m.date.weekFrom 6) 2 '0')
  | 'V' => some (.number m.date.isoWeek.2 2 '0')
  | 'w' => some (.number ((m.date.weekday + 1) % 7 : Nat) 1 '0')
  | 'W' => some (.number (m.date.weekFrom 0) 2 '0')
  | 'y' => some (.number (year % 100) 2 '0')
  | 'Y' => some (.number year 1 '0')
  | 'z' => some (.text ['+', '0', '0', '0', '0'])
  | 'Z' => some (.text ['U', 'T', 'C'])
  | '%' => some (.text ['%'])
  | _ => none

/-- How a part is written: filled up to a width, in its usual way or another, and in which case. -/
structure Style where
  /-- The filling, if it is not the usual one; the inner `none` leaves numbers as they are. -/
  fill : Option (Option Char) := none
  width : Nat := 0
  capital : Bool := false
  otherCase : Bool := false
deriving DecidableEq

def flag? : Char → Option (Style → Style)
  | '-' => some fun s => { s with fill := some none }
  | '_' => some fun s => { s with fill := some (some ' ') }
  | '0' => some fun s => { s with fill := some (some '0') }
  | '^' => some fun s => { s with capital := true }
  | '#' => some fun s => { s with otherCase := true }
  | _ => none

def Style.widen (s : Style) (cs : List Char) : List Char :=
  pad (if s.fill = some (some '0') then '0' else ' ') s.width cs

def writeNumber (style : Style) (n : Int) (width : Nat) (usual : Char) : List Char :=
  let digits := (integerText n).toList
  match style.fill.getD (some usual) with
  | some fill => pad fill (max width style.width) digits
  | none => style.widen digits

/-- A text in the case that a style asks for: names turn to capitals, the half of the day to small
letters. -/
def Style.applyCase (s : Style) (letter : Char) (cs : List Char) : List Char :=
  if letter = 'P' || letter = 'p' && s.otherCase then cs.map Char.toLower
  else if s.capital || s.otherCase && ['a', 'A', 'b', 'B', 'h'].contains letter then
    cs.map Char.toUpper
  else cs

def flags : Style → List Char → Style × List Char
  | style, [] => (style, [])
  | style, c :: cs =>
    match flag? c with
    | some f => flags (f style) cs
    | none => (style, c :: cs)

def width (cs : List Char) : Nat × List Char :=
  ((cs.takeWhile Char.isDigit).foldl (fun n c => n * 10 + (c.toNat - '0'.toNat)) 0,
    cs.dropWhile Char.isDigit)

def dropAlternative : List Char → List Char
  | 'E' :: cs => cs
  | 'O' :: cs => cs
  | cs => cs

def directive (cs : List Char) : Option (Style × Char × List Char) :=
  let (style, cs) := flags {} cs
  let (width, cs) := width cs
  match dropAlternative cs with
  | [] => none
  | c :: after => some ({ style with width }, c, after)

/-- A pattern, in which every letter after a `%` stands for a text or a number. -/
def writePattern (m : Moment) : List Char → List Char
  | '%' :: c :: cs =>
    (match m.part? c with
      | some (.text s) => s
      | some (.number n width usual) => writeNumber {} n width usual
      | _ => []) ++ writePattern m cs
  | c :: cs => c :: writePattern m cs
  | [] => []

/-- What a letter with a style stands for. The zone is not known to a style, nor are millionths. -/
def writePart? (m : Moment) (style : Style) (letter : Char) : Option (List Char) :=
  if style ≠ {} && letter = 'f' then none
  else if style ≠ {} && (letter = 'z' || letter = 'Z') then some (style.widen [])
  else
    (m.part? letter).map fun
      | .text s => style.widen (style.applyCase letter s)
      | .number n width usual => writeNumber style n width usual
      | .pattern p => style.widen (style.applyCase letter (writePattern m p.toList))

def writeDirective (m : Moment) (cs : List Char) : Option (List Char × List Char) := do
  let (style, letter, after) ← directive cs
  return (← m.writePart? style letter, after)

/-- Formats a moment. Every step takes something off the format, so its length is enough fuel. -/
def formatFrom (m : Moment) : (fuel : Nat) → List Char → List Char
  | 0, _ => []
  | _, [] => []
  | fuel + 1, c :: cs =>
    match if c = '%' then m.writeDirective cs else none with
    | some (s, after) => s ++ formatFrom m fuel after
    | none => c :: formatFrom m fuel cs

/-- Formats a moment. A zero character ends the format. -/
def format (m : Moment) (pattern : String) : String :=
  let cs := pattern.toList.takeWhile (·.toNat ≠ 0)
  String.ofList (formatFrom m cs.length cs)

def twoDigits (n : Nat) : String := String.ofList (pad '0' 2 (Nat.toDigits 10 n))

def iso (m : Moment) : String :=
  String.ofList (pad '0' 4 (integerText m.date.year).toList) ++ "-" ++ twoDigits m.date.month ++ "-"
    ++ twoDigits m.date.day ++ "T" ++ twoDigits m.hour ++ ":" ++ twoDigits m.minute ++ ":"
    ++ twoDigits m.second ++ "+00:00"

end Moment

end LuaInterpreter
