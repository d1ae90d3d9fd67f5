import LuaInterpreter.Calendar.Format
import LuaInterpreter.Library.Argument

/-!
# Times in tables

What the fields of a time hold is checked only when a moment is made of them.
-/

namespace LuaInterpreter

structure TimeFields where
  year : Foreign := .none
  month : Foreign := .none
  day : Foreign := .none
  hour : Foreign := .none
  minute : Foreign := .none
  second : Foreign := .none
  isdst : Foreign := .none
deriving Repr

namespace TimeFields

open Run

def ofNumber : Number → Foreign
  | .int i => .int i
  | .float x => .float x

def numberOf : Foreign → Value
  | .int i => .int i
  | .float x => .float x
  | .bool b => .int (if b then 1 else 0)
  | _ => .nil

def optionalField (k : Evaluator) (table : Value) (name : String) : Run Foreign := do
  match ← Index.read k.call table (.ascii name) with
  | .nil => return .none
  | .num n => return ofNumber n
  | _ => error ("table field '" ++ name ++ "' must be a number")

def requiredField (k : Evaluator) (table : Value) (name : String) : Run Foreign := do
  match ← optionalField k table name with
  | .none => error ("table must have field '" ++ name ++ "'")
  | f => return f

def ofTable (k : Evaluator) (table : Value) : Run TimeFields := do
  let year ← requiredField k table "year"
  let month ← requiredField k table "month"
  let day ← requiredField k table "day"
  let hour ← optionalField k table "hour"
  let minute ← optionalField k table "min"
  let second ← optionalField k table "sec"
  let isdst ← match ← Index.read k.call table (.ascii "isdst") with
    | .nil => pure Foreign.none
    | v => pure (Foreign.bool v.truthy)
  return { year, month, day, hour, minute, second, isdst }

def optionalEntry (name : String) : Foreign → List (Value × Value)
  | .none => []
  | f => [(.ascii name, numberOf f)]

def toEntries (t : TimeFields) : List (Value × Value) :=
  [(.ascii "year", numberOf t.year), (.ascii "month", numberOf t.month),
    (.ascii "day", numberOf t.day)]
    ++ optionalEntry "hour" t.hour ++ optionalEntry "min" t.minute ++ optionalEntry "sec" t.second
    ++ (match t.isdst with
      | .none => []
      | .bool b => [(.ascii "isdst", .bool b)]
      | f => [(.ascii "isdst", .foreign f)])

def toTable (t : TimeFields) : Table := { entries := t.toEntries }

def integer : Foreign → Except Fault Int
  | .int i =>
    if i < Number.minInt || Number.maxInt < i then
      .error (.foreign "OverflowError" "Python int too large to convert to C long")
    else if 2147483647 < i then .error .numberTooLarge
    else if i < -2147483648 then .error (.foreign "OverflowError" "signed integer is less than minimum")
    else .ok i
  | .bool b => .ok (if b then 1 else 0)
  | f => .error (.notIndexNumber f.kind)

def toMoment (t : TimeFields) : Except Fault Moment := do
  let year ← integer t.year
  let month ← integer t.month
  let day ← integer t.day
  let hour ← integer t.hour
  let minute ← integer t.minute
  let second ← integer t.second
  Moment.make year month day hour minute second

/-- The fields of a moment. If its zone is known there is no daylight saving. -/
def ofMoment (m : Moment) (zoned : Bool) : TimeFields :=
  { year := .int m.date.year, month := .int m.date.month, day := .int m.date.day
    hour := .int m.hour, minute := .int m.minute, second := .int m.second
    isdst := if zoned then .bool false else .none }

end TimeFields

end LuaInterpreter
