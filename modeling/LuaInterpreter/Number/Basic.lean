import LuaInterpreter.Number.Text

/-!
# Numbers

Integers are not bounded: results of arithmetic that leave the range of 64-bit words are brought
back by `Number.wrap`, others are kept as they are.
-/

namespace LuaInterpreter

inductive Number where
  | int (i : Int)
  | float (x : Float)
deriving Repr

namespace Number

instance : Inhabited Number := ⟨.int 0⟩

def maxInt : Int := 9223372036854775807

def minInt : Int := -9223372036854775808

/-- Strictly between the least and the greatest 64-bit integer a result stands; any other is
divided by the greatest, and the quotient negated if the remainder is odd. -/
def wrap (i : Int) : Int :=
  if minInt < i ∧ i < maxInt then i
  else if i.fmod maxInt % 2 = 1 then -(i.fdiv maxInt) else i.fdiv maxInt

def text : Number → Except Fault String
  | .int i => writeInteger i
  | .float x => .ok (floatText x)

/-! ## Comparison -/

/-- How an integer compares with a float; `none` if the float is not a number. -/
def compareIntFloat (i : Int) (x : Float) : Option Ordering :=
  match Binary.ofFloat? x with
  | some b => some (Binary.compareInt i b)
  | none => if x.isNaN then none else if x < 0 then some .gt else some .lt

def eq : Number → Number → Bool
  | .int a, .int b => a == b
  | .int a, .float b => compareIntFloat a b == some .eq
  | .float a, .int b => compareIntFloat b a == some .eq
  | .float a, .float b => a == b

def lt : Number → Number → Bool
  | .int a, .int b => a < b
  | .int a, .float b => compareIntFloat a b == some .lt
  | .float a, .int b => compareIntFloat b a == some .gt
  | .float a, .float b => a < b

def le : Number → Number → Bool
  | .int a, .int b => a ≤ b
  | .int a, .float b => compareIntFloat a b == some .lt || compareIntFloat a b == some .eq
  | .float a, .int b => compareIntFloat b a == some .gt || compareIntFloat b a == some .eq
  | .float a, .float b => a ≤ b

/-! ## Conversion -/

/-- The integer that a float denotes, if it denotes one. -/
def integralOf? (x : Float) : Option Int :=
  match Binary.ofFloat? x with
  | some b => if b.isIntegral then some b.truncate else none
  | none => none

/-- A key of a table: a float that denotes an integer is that integer. -/
def asKey : Number → Number
  | .int i => .int i
  | .float x =>
    match integralOf? x with
    | some i => .int i
    | none => .float x

/-- The 64-bit integer that a number denotes; integers stand for themselves. -/
def toInteger? : Number → Option Int
  | .int i => some i
  | .float x =>
    match integralOf? x with
    | some i => if minInt ≤ i ∧ i ≤ maxInt then some i else none
    | none => none

def floatOfInt (i : Int) : Except Fault Float :=
  match Binary.ofInt? i with
  | some x => .ok x
  | none => .error .integerTooLargeForFloat

def toFloat : Number → Except Fault Float
  | .float x => .ok x
  | .int i => floatOfInt i

def truncate : Number → Except Fault Int
  | .int i => .ok i
  | .float x =>
    match Binary.ofFloat? x with
    | some b => .ok b.truncate
    | none => .error (if x.isNaN then .nanToInteger else .infinityToInteger)

/-- Where a whole number is needed, a float will not do, whatever its value. -/
def requireInt : Number → Except Fault Int
  | .int i => .ok i
  | .float _ => .error (.notIndexNumber "float")

end Number

end LuaInterpreter
