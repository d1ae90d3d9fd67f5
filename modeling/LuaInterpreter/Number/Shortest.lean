import LuaInterpreter.Number.Binary

/-!
# The shortest decimal

Of the decimals that round to a given float, the one with the fewest digits, and of those the
nearest.
-/

namespace LuaInterpreter

/-- `digits * 10 ^ exponent`. -/
structure Decimal where
  digits : Nat
  exponent : Int
deriving Repr, DecidableEq

namespace Decimal

def compareScaled (a : Nat) (i : Int) (n : Nat) (j : Int) : Ordering :=
  compare (a * Nat.pow 10 i.toNat * Nat.pow 2 (-j).toNat)
    (n * Nat.pow 2 j.toNat * Nat.pow 10 (-i).toNat)

/-- Below a power of two, the next smaller float is half as far away as the next larger one. -/
def narrowBelow (x : Binary) : Bool :=
  x.m == Binary.mantissaTop && Binary.leastExponent < x.q

/-- Whether the decimal lies among the numbers that round to `|x|`: between the middles to its two
neighbours, which belong to it if the mantissa is even. -/
def roundsTo (d : Decimal) (x : Binary) : Bool :=
  let lo := if narrowBelow x then 4 * x.m - 1 else 4 * x.m - 2
  let hi := 4 * x.m + 2
  let closed := x.m % 2 == 0
  let cl := compareScaled d.digits d.exponent lo (x.q - 2)
  let ch := compareScaled d.digits d.exponent hi (x.q - 2)
  (cl == .gt || (closed && cl == .eq)) && (ch == .lt || (closed && ch == .eq))

/-- An estimate of the number of digits before the point, short by at most one. -/
def scaleEstimate (x : Binary) : Int := (x.q + Nat.log2 x.m) * 30103 / 100000

def scale (x : Binary) : Int :=
  let k := scaleEstimate x - 1
  let k := if compareScaled 1 k x.m x.q == .gt then k else k + 1
  let k := if compareScaled 1 k x.m x.q == .gt then k else k + 1
  if compareScaled 1 k x.m x.q == .gt then k else k + 1

/-- Of the two neighbours of `|x|` on the grid `10 ^ i`, one that rounds to `x`: the nearer if both
do, and the even one if they are equally near. -/
def onGrid? (x : Binary) (i : Int) : Option Decimal :=
  let num := x.m * Nat.pow 2 x.q.toNat * Nat.pow 10 (-i).toNat
  let den := Nat.pow 2 (-x.q).toNat * Nat.pow 10 i.toNat
  let below : Decimal := ⟨num / den, i⟩
  let above : Decimal := ⟨num / den + 1, i⟩
  match below.roundsTo x, above.roundsTo x with
  | true, false => some below
  | false, true => some above
  | true, true =>
    match compare (2 * (num % den)) den with
    | .lt => some below
    | .gt => some above
    | .eq => some (if below.digits % 2 = 0 then below else above)
  | false, false => none

/-- The exact value; it serves where the search finds nothing. -/
def exact (x : Binary) : Decimal :=
  ⟨x.m * Nat.pow 2 x.q.toNat * Nat.pow 5 (-x.q).toNat, min x.q 0⟩

def stripZeros : Nat → Decimal → Decimal
  | 0, d => d
  | fuel + 1, d =>
    if d.digits ≠ 0 ∧ d.digits % 10 = 0 then stripZeros fuel ⟨d.digits / 10, d.exponent + 1⟩ else d

/-- The shortest decimal that rounds to a non-zero `|x|`. Seventeen digits always suffice. -/
def shortest (x : Binary) : Decimal :=
  let k := scale x
  let found := (List.range 17).findSome? fun (n : Nat) => onGrid? x (k - 1 - n)
  stripZeros 400 (found.getD (exact x))

end Decimal

end LuaInterpreter
