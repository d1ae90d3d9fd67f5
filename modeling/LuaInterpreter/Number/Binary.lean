/-!
# Binary floating point, exactly

A finite float is `± m * 2 ^ q`. Conversions are made on that form, in exact arithmetic.
-/

namespace LuaInterpreter

/-- A finite float: `m * 2 ^ q`, negated if `negative`. -/
structure Binary where
  negative : Bool
  m : Nat
  q : Int
deriving Repr, DecidableEq

namespace Binary

def leastExponent : Int := -1074

/-- The mantissa of a normal float has its top bit here. -/
def mantissaTop : Nat := 4503599627370496

/-- A float as mantissa and exponent; `none` for infinities and for what is not a number. -/
def ofFloat? (x : Float) : Option Binary :=
  let bits : Nat := x.toBits.toNat
  let negative := 9223372036854775808 ≤ bits
  let e : Nat := bits / mantissaTop % 2048
  let f : Nat := bits % mantissaTop
  if e = 2047 then none
  else if e = 0 then some { negative, m := f, q := leastExponent }
  else some { negative, m := mantissaTop + f, q := (e : Int) - 1075 }

def assemble (negative : Bool) (e f : Nat) : Float :=
  Float.ofBits ((if negative then 9223372036854775808 else 0) + e * mantissaTop + f).toUInt64

def infinity (negative : Bool) : Float := assemble negative 2047 0

def nan : Float := assemble false 2047 2251799813685248

/-- `num * 2 ^ (-q) / den` as quotient, remainder and divisor. -/
def divideAt (num den : Nat) (q : Int) : Nat × Nat × Nat :=
  let n := num * Nat.pow 2 (-q).toNat
  let d := den * Nat.pow 2 q.toNat
  (n / d, n % d, d)

/-- The exponent at which the quotient of two positive numbers has 53 bits, but never less than the
least one. -/
def exponentFor (num den : Nat) : Int :=
  let q := (Nat.log2 num : Int) - (Nat.log2 den : Int) - 52
  let m := (divideAt num den q).1
  let q := if 2 * mantissaTop ≤ m then q + 1 else if m < mantissaTop then q - 1 else q
  max q leastExponent

/-- A quotient rounded to the nearest whole number, a half going to the even one. -/
def roundHalfEven (quotient remainder divisor : Nat) : Nat :=
  if 2 * remainder < divisor then quotient
  else if divisor < 2 * remainder then quotient + 1
  else quotient + quotient % 2

/-- The float nearest to `num / den`, `none` if that is beyond the largest float. -/
def ofRatio? (negative : Bool) (num den : Nat) : Option Float :=
  if num = 0 then some (assemble negative 0 0)
  else
    let q := exponentFor num den
    let (quotient, remainder, divisor) := divideAt num den q
    let m := roundHalfEven quotient remainder divisor
    let (m, q) := if m = 2 * mantissaTop then (mantissaTop, q + 1) else (m, q)
    if 971 < q then none
    else if m < mantissaTop then some (assemble negative 0 m)
    else some (assemble negative (q + 1075).toNat (m - mantissaTop))

/-- The float nearest to `num / den`; an infinity if that is beyond the largest float. -/
def ofRatio (negative : Bool) (num den : Nat) : Float :=
  (ofRatio? negative num den).getD (infinity negative)

/-- The float nearest to an integer, `none` if that is beyond the largest float. -/
def ofInt? (i : Int) : Option Float := ofRatio? (i < 0) i.natAbs 1

def truncate (b : Binary) : Int :=
  let n := b.m * Nat.pow 2 b.q.toNat / Nat.pow 2 (-b.q).toNat
  if b.negative then -(n : Int) else n

def isIntegral (b : Binary) : Bool := b.m % Nat.pow 2 (-b.q).toNat == 0

def compareInt (i : Int) (b : Binary) : Ordering :=
  let v : Int := (b.m * Nat.pow 2 b.q.toNat : Nat)
  let v := if b.negative then -v else v
  compare (i * (Nat.pow 2 (-b.q).toNat : Nat)) v

end Binary

end LuaInterpreter
