import LuaInterpreter.Number.Arith

/-!
# The value of a numeral

A decimal numeral without fraction and exponent is an integer if it is in range, else a float. A
hexadecimal one is brought into range.
-/

namespace LuaInterpreter.Numeral

/-- Two to an integer power: an integer, or a float when the exponent is negative. A negative exponent
must itself be within the range of floats. -/
def twoTo (e : Int) : Except Fault Float :=
  if e < 0 then
    (Number.floatOfInt e).map fun _ => Binary.ofRatio false 1 (Nat.pow 2 (min e.natAbs 1100))
  else if 1024 ≤ e then .error .integerTooLargeForFloat
  else Number.floatOfInt (Nat.pow 2 e.toNat : Nat)

def quotient (a : Int) (b : Nat) : Except Fault Float :=
  match Binary.ofRatio? (a < 0) a.natAbs b with
  | some x => .ok x
  | none => .error .quotientTooLargeForFloat

def value : Numeral → Except Fault Number
  | .hex digits none _ none => do
    let i ← readInteger 16 digits.text
    return .int (Number.wrap i)
  | .hex digits fraction sign exponent => do
    let fractionText := fraction.elim "" (·.text)
    let whole ← readInteger 16 (digits.text ++ fractionText)
    let x ← quotient whole (Nat.pow 16 fractionText.length)
    let e ← readInteger 10 (sign.elim "+" (·.text) ++ exponent.elim "0" (·.text))
    return .float (x * (← twoTo e))
  | .decimal digits none _ none => do
    let i ← readInteger 10 digits.text
    if Number.maxInt < i then return .float (← readFloat digits.text)
    else return .int i
  | .decimal digits fraction sign exponent => do
    return .float (← readFloat (digits.text ++ "." ++ fraction.elim "0" (·.text) ++ "e"
      ++ sign.elim "+" (·.text) ++ exponent.elim "0" (·.text)))

end LuaInterpreter.Numeral
