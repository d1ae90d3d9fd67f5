import LuaInterpreter.Number.Basic

/-!
# Arithmetic

Sums, differences and products of integers are brought back into range. Floor division and
remainder exist for integers only.
-/

namespace LuaInterpreter.Number

/-! ## Arithmetic operators -/

def combine (onInts : Int → Int → Int) (onFloats : Float → Float → Float) :
    Number → Number → Except Fault Number
  | .int a, .int b => .ok (.int (wrap (onInts a b)))
  | a, b => do return .float (onFloats (← a.toFloat) (← b.toFloat))

def add : Number → Number → Except Fault Number := combine (· + ·) (· + ·)
def subtract : Number → Number → Except Fault Number := combine (· - ·) (· - ·)
def multiply : Number → Number → Except Fault Number := combine (· * ·) (· * ·)

/-- A sum, and whether it differs from the exact one; for floats that is not asked. -/
def addReporting : Number → Number → Except Fault (Bool × Number)
  | .int a, .int b => .ok (wrap (a + b) != a + b, .int (wrap (a + b)))
  | a, b => do return (false, ← a.add b)

/-- Quotient of floats. Division by zero has the infinity of the dividend's sign. -/
def divideFloats (a b : Float) : Float :=
  if b == 0 then
    if a == 0 then Binary.nan else if a < 0 then Binary.infinity true else Binary.infinity false
  else a / b

def divide (a b : Number) : Except Fault Number := do
  return .float (divideFloats (← a.toFloat) (← b.toFloat))

/-- A part of the result of a floor division; of floats there is none. -/
def floored (part : Int → Int → Int) (ofInteger ofFloat : Fault) : Number → Number →
    Except Fault Number
  | .int a, .int b => if b = 0 then .error ofInteger else .ok (.int (wrap (part a b)))
  | a, b => do
    let _ ← a.toFloat
    .error (if (← b.toFloat) == 0 then ofFloat else .notAnInteger)

def floorDivide (a b : Number) : Except Fault Number :=
  floored Int.fdiv .integerDivisionByZero .floatDivisionByZero a b

def modulo (a b : Number) : Except Fault Number :=
  floored Int.fmod .integerModuloByZero .floatModuloByZero a b

def isOddFloat (x : Float) : Bool :=
  match integralOf? x with
  | some i => i % 2 == 1
  | none => false

/-- A float that denotes no integer, though it is finite. -/
def isFractional (x : Float) : Bool := x.isFinite && (integralOf? x).isNone

/-- The power of finite floats, the base positive: it may be too large. -/
def powPositive (x y : Float) : Except Fault Float :=
  let p := Float.pow x y
  if p.isInf then .error .powerOverflow else .ok p

/-- The power of floats. Zero has no negative powers, and a negative number has a power for whole
exponents only. -/
def powFloats (x y : Float) : Except Fault Float :=
  if y == 0 then .ok 1
  else if x.isNaN then .ok x
  else if y.isNaN then .ok (if x == 1 then 1 else y)
  else if y.isInf then
    let a := x.abs
    .ok (if a == 1 then 1 else if (0 < y) == (1 < a) then Binary.infinity false else 0)
  else if x.isInf then
    if 0 < y then .ok (if isOddFloat y then x else x.abs)
    else .ok (if isOddFloat y && x < 0 then Binary.assemble true 0 0 else 0)
  else if x == 0 then
    if y < 0 then .error .zeroToNegativePower
    else .ok (if isOddFloat y then x else 0)
  else if x < 0 then
    if isFractional y then
      .error (if (Float.pow (-x) y).isInf then .complexPowerOverflow else .notAFloat)
    else if x == -1 then .ok (if isOddFloat y then -1 else 1)
    else do
      let p ← powPositive (-x) y
      return if isOddFloat y then -p else p
  else powPositive x y

def power (a b : Number) : Except Fault Number := do
  return .float (← powFloats (← a.toFloat) (← b.toFloat))

def negate : Number → Number
  | .int i => .int (-i)
  | .float x => .float (-x)

/-! ## Words -/

/-- The number of 64-bit words. -/
def wordCount : Int := 18446744073709551616

/-- The word of an integer: its two's complement, without the bits above the 64th. -/
def word (i : Int) : Nat := (i % wordCount).toNat

/-- Reads a word as an integer: one with the top bit set is subtracted from the greatest 64-bit
integer. -/
def ofWord (w : Nat) : Int := if w < 9223372036854775808 then w else maxInt - w

def bitOr (a b : Int) : Int := ofWord (word a ||| word b)
def bitXor (a b : Int) : Int := ofWord (word a ^^^ word b)
def bitAnd (a b : Int) : Int := ofWord (word a &&& word b)
def bitNot (a : Int) : Int := ofWord (word (-a - 1))

def shiftUp (a : Int) (n : Nat) : Int := if 64 ≤ n then 0 else ofWord (word (a * (Nat.pow 2 n : Nat)))
def shiftDown (a : Int) (n : Nat) : Int :=
  if 64 ≤ n then 0 else ofWord (word (a.fdiv (Nat.pow 2 n : Nat)))

def shiftLeft (a n : Int) : Int := if n < 0 then shiftDown a (-n).toNat else shiftUp a n.toNat
def shiftRight (a n : Int) : Int := if n < 0 then shiftUp a (-n).toNat else shiftDown a n.toNat

end LuaInterpreter.Number
