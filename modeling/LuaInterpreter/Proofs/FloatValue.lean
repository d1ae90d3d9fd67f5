import LuaInterpreter.Number.Basic
import Mathlib

/-!
# Equality of numbers is equality of values

Comparisons of two floats are those of the machine, comparisons of an integer with a float are made
on the decoded float. Both decide equality of one and the same value: a finite number, counted in
units of the least positive float, is an integer.
-/

namespace LuaInterpreter

open Float.Model Nat

namespace Binary

/-! ## Decoding -/

def bits (b : Binary) : Nat :=
  (if b.negative then 9223372036854775808 else 0) +
    if b.m < mantissaTop then b.m else (b.q + 1075).toNat * mantissaTop + (b.m - mantissaTop)

variable {x : Float} {b : Binary} {y : Float} {a : Binary}

theorem toBits_of_ofFloat? (h : ofFloat? x = some b) : x.toBits.toNat = b.bits := by
  have hlt : x.toBits.toNat < 18446744073709551616 := x.toBits.toNat_lt
  simp only [ofFloat?] at h
  split at h
  · cases h
  · split at h
    · cases h
      rw [bits, if_pos (mod_lt _ (by decide))]
      simp only [mantissaTop, decide_eq_true_eq] at *
      split <;> omega
    · cases h
      rw [bits, if_neg (Nat.not_lt.mpr (Nat.le_add_right _ _))]
      simp only [mantissaTop, decide_eq_true_eq] at *
      split <;> omega

theorem m_eq_zero_iff (h : ofFloat? x = some b) : b.m = 0 ↔ x = 0 ∨ x = -0 := by
  constructor
  · intro hm
    have hbits : x.toBits.toNat = if b.negative then 9223372036854775808 else 0 := by
      rw [toBits_of_ofFloat? h, bits, hm]
      rfl
    rw [← Float.toBits_inj, ← Float.toBits_inj, ← UInt64.toNat_inj, ← UInt64.toNat_inj, hbits]
    cases b.negative with
    | false => exact Or.inl (by decide)
    | true => exact Or.inr (by decide)
  · rintro (rfl | rfl)
    · have hzero : ofFloat? 0 = some ⟨false, 0, leastExponent⟩ := by decide
      rw [hzero] at h
      cases h
      rfl
    · have hzero : ofFloat? (-0) = some ⟨true, 0, leastExponent⟩ := by decide
      rw [hzero] at h
      cases h
      rfl

theorem ne_nan_of_ofFloat? (h : ofFloat? x = some b) : x ≠ Float.nan := by
  rintro rfl
  have hnone : ofFloat? Float.nan = none := by decide
  rw [hnone] at h
  cases h

theorem beq_eq_true_iff (hx : ofFloat? x = some a) (hy : ofFloat? y = some b) :
    (x == y) = true ↔ a.m = 0 ∧ b.m = 0 ∨ a = b := by
  have hxy : x = y ↔ a = b := by
    constructor
    · rintro rfl
      exact Option.some.inj (hx.symm.trans hy)
    · rintro rfl
      rw [← Float.toBits_inj, ← UInt64.toNat_inj, toBits_of_ofFloat? hx, toBits_of_ofFloat? hy]
  rw [Float.beq_iff_ne_nan_and_eq, m_eq_zero_iff hx, m_eq_zero_iff hy, ← hxy]
  have hxn := ne_nan_of_ofFloat? hx
  have hyn := ne_nan_of_ofFloat? hy
  grind

/-! ## Values -/

/-- How many of the least positive floats make one. -/
def unitsPerOne : Nat := Nat.pow 2 (-leastExponent).toNat

theorem unitsPerOne_pos : 0 < unitsPerOne := by
  unfold unitsPerOne
  generalize (-leastExponent).toNat = n
  exact Nat.two_pow_pos n

/-- The size of a value, in units of the least positive float. -/
def magnitude (b : Binary) : Nat := b.m * Nat.pow 2 (b.q - leastExponent).toNat

def units (b : Binary) : Int := if b.negative then -(b.magnitude : Int) else b.magnitude

/-- The form in which floats are decoded: the mantissa is as long as the exponent admits. -/
structure Canonical (b : Binary) : Prop where
  least_le : leastExponent ≤ b.q
  m_lt : b.m < 2 * mantissaTop
  normal : b.q = leastExponent ∨ mantissaTop ≤ b.m

theorem canonical_of_ofFloat? (h : ofFloat? x = some b) : b.Canonical := by
  have hf : x.toBits.toNat % mantissaTop < mantissaTop := mod_lt _ (by decide)
  simp only [ofFloat?] at h
  split at h
  · cases h
  · split at h
    · cases h
      exact ⟨le_refl _, by simp only; omega, .inl rfl⟩
    · next he0 =>
      cases h
      refine ⟨?_, by simp only; omega, .inr (Nat.le_add_right _ _)⟩
      simp only [leastExponent]
      omega

theorem magnitude_lt_of_q_lt (ha : a.Canonical) (hb : b.Canonical) (hq : a.q < b.q) :
    a.magnitude < b.magnitude := by
  have hleast := ha.least_le
  have hnormal : mantissaTop ≤ b.m := hb.normal.resolve_left (by omega)
  have hexp : (a.q - leastExponent).toNat + 1 ≤ (b.q - leastExponent).toNat := by omega
  calc a.magnitude < 2 * mantissaTop * 2 ^ (a.q - leastExponent).toNat :=
        Nat.mul_lt_mul_of_pos_right ha.m_lt (Nat.two_pow_pos _)
    _ = mantissaTop * 2 ^ ((a.q - leastExponent).toNat + 1) := by ring
    _ ≤ mantissaTop * 2 ^ (b.q - leastExponent).toNat :=
        Nat.mul_le_mul_left _ (Nat.pow_le_pow_right (by decide) hexp)
    _ ≤ b.magnitude := Nat.mul_le_mul_right _ hnormal

theorem magnitude_inj (ha : a.Canonical) (hb : b.Canonical) (h : a.magnitude = b.magnitude) :
    a.m = b.m ∧ a.q = b.q := by
  rcases Int.lt_trichotomy a.q b.q with hq | hq | hq
  · exact absurd h (magnitude_lt_of_q_lt ha hb hq).ne
  · rw [magnitude, magnitude, hq] at h
    exact ⟨eq_of_mul_eq_mul_right (Nat.two_pow_pos _) h, hq⟩
  · exact absurd h.symm (magnitude_lt_of_q_lt hb ha hq).ne

theorem magnitude_eq_zero_iff (b : Binary) : b.magnitude = 0 ↔ b.m = 0 := by
  simp [magnitude]

/-- Two decoded floats have the same value only if they are the same, or both zero. -/
theorem units_eq_iff (ha : a.Canonical) (hb : b.Canonical) :
    a.units = b.units ↔ a.m = 0 ∧ b.m = 0 ∨ a = b := by
  constructor
  · intro h
    have hmag : a.magnitude = b.magnitude := by
      unfold units at h
      split at h <;> split at h <;> omega
    obtain ⟨hm, hq⟩ := magnitude_inj ha hb hmag
    by_cases hzero : a.m = 0
    · exact .inl ⟨hzero, hm ▸ hzero⟩
    · have hpos : a.magnitude ≠ 0 := mt (magnitude_eq_zero_iff a).mp hzero
      have hneg : a.negative = b.negative := by
        unfold units at h
        cases hna : a.negative <;> cases hnb : b.negative <;> simp [hna, hnb] at h ⊢ <;> omega
      obtain ⟨na, ma, qa⟩ := a
      obtain ⟨nb, mb, qb⟩ := b
      exact .inr (by simp_all)
  · rintro (⟨hza, hzb⟩ | rfl)
    · simp [units, magnitude, hza, hzb]
    · rfl

/-! ## Comparison with integers -/

/-- How the two powers of two that stand for an exponent add up to the distance from the least
one. -/
theorem pow_split {least q : Int} (hleast : least ≤ 0) (h : least ≤ q) : ∃ c : Nat,
    Nat.pow 2 (-least).toNat = Nat.pow 2 (-q).toNat * Nat.pow 2 c ∧
    Nat.pow 2 (q - least).toNat = Nat.pow 2 q.toNat * Nat.pow 2 c := by
  obtain ⟨c, hone⟩ : ∃ c : Nat, (-least).toNat = (-q).toNat + c :=
    ⟨(-least).toNat - (-q).toNat, by omega⟩
  have hvalue : (q - least).toNat = q.toNat + c := by omega
  refine ⟨c, ?_, ?_⟩
  · rw [hone]
    exact Nat.pow_add 2 _ _
  · rw [hvalue]
    exact Nat.pow_add 2 _ _

theorem compareInt_eq_iff {i : Int} (h : leastExponent ≤ b.q) :
    compareInt i b = .eq ↔ i * unitsPerOne = b.units := by
  obtain ⟨c, hone, hvalue⟩ := pow_split (by decide) h
  have hpos : ((Nat.pow 2 c : Nat) : Int) ≠ 0 := by
    exact_mod_cast (Nat.two_pow_pos c).ne'
  have hunits : b.units =
      (if b.negative then -((b.m * Nat.pow 2 b.q.toNat : Nat) : Int)
        else (b.m * Nat.pow 2 b.q.toNat : Nat)) * (Nat.pow 2 c : Nat) := by
    unfold units magnitude
    rw [hvalue]
    split <;> push_cast <;> ring
  unfold unitsPerOne
  rw [hunits, hone]
  push_cast
  rw [← mul_assoc, mul_left_inj' hpos]
  simp only [compareInt, compare_eq_iff_eq]
  push_cast
  rfl

theorem truncate_mul_unitsPerOne (h : leastExponent ≤ b.q) (hint : b.isIntegral = true) :
    b.truncate * unitsPerOne = b.units := by
  obtain ⟨c, hone, hvalue⟩ := pow_split (by decide) h
  have hdvd : Nat.pow 2 (-b.q).toNat ∣ b.m * Nat.pow 2 b.q.toNat :=
    Dvd.dvd.mul_right (dvd_of_mod_eq_zero (by simpa [isIntegral] using hint)) _
  have hmag : b.m * Nat.pow 2 b.q.toNat / Nat.pow 2 (-b.q).toNat * unitsPerOne = b.magnitude := by
    unfold unitsPerOne magnitude
    rw [hone, ← mul_assoc, Nat.div_mul_cancel hdvd, mul_assoc, hvalue]
  unfold truncate units
  rw [← hmag]
  split <;> push_cast <;> ring

/-! ## Whole numbers as floats -/

theorem toBits_ofBits {bits : UInt64} (h : bits.toNat / mantissaTop % 2048 ≠ 2047) :
    (Float.ofBits bits).toBits = bits := by
  have hvalid : Format.binary64.Valid bits.toBitVec := by
    refine ⟨fun hexponent => absurd ?_ h⟩
    have hfield := congrArg BitVec.toNat hexponent
    rw [UnpackedFloat.unpackExponent_def, BitVec.extractLsb'_toNat,
      shiftRight_eq_div_pow] at hfield
    exact hfield
  exact UInt64.toBitVec_inj.mp (UnpackedFloat.pack_unpack_of_valid hvalid)

variable (negative : Bool) {n d e f k : Nat}

theorem ofFloat?_assemble (hpos : 0 < e) (he : e < 2047) (hf : f < mantissaTop) :
    ofFloat? (assemble negative e f) = some ⟨negative, mantissaTop + f, (e : Int) - 1075⟩ := by
  unfold assemble
  generalize hsign : (if negative then 9223372036854775808 else 0) = sign
  have hfields : sign + e * mantissaTop + f < 18446744073709551616 ∧
      (sign + e * mantissaTop + f) / mantissaTop % 2048 = e ∧
      (sign + e * mantissaTop + f) % mantissaTop = f ∧
      decide (9223372036854775808 ≤ sign + e * mantissaTop + f) = negative := by
    subst hsign
    simp only [mantissaTop] at hf ⊢
    cases negative <;> simp <;> omega
  obtain ⟨hbits, hexponent, hfraction, hnegative⟩ := hfields
  have hbits : (sign + e * mantissaTop + f).toUInt64.toNat = sign + e * mantissaTop + f := by
    rw [toUInt64_eq, UInt64.toNat_ofNat', mod_eq_of_lt hbits]
  rw [ofFloat?, toBits_ofBits (by rw [hbits, hexponent]; omega), hbits]
  simp only [hexponent, hfraction, hnegative]
  rw [if_neg (by omega), if_neg (by omega)]

theorem divideAt_mul (hd : 0 < d) (k : Nat) : divideAt (n * d) d (-k) = (n * 2 ^ k, 0, d) := by
  have hneg : (- -(k : Int)).toNat = k := by omega
  have hzero : (-(k : Int)).toNat = 0 := by omega
  show (n * d * 2 ^ (- -(k : Int)).toNat / (d * 2 ^ (-(k : Int)).toNat),
    n * d * 2 ^ (- -(k : Int)).toNat % (d * 2 ^ (-(k : Int)).toNat), d * 2 ^ (-(k : Int)).toNat) = _
  rw [hneg, hzero, pow_zero, mul_one, mul_right_comm, Nat.mul_div_cancel _ hd, mul_mod_left]

theorem log2_mul (hn : n ≠ 0) (hd : d ≠ 0) :
    (n * d).log2 = n.log2 + d.log2 ∨ (n * d).log2 = n.log2 + d.log2 + 1 := by
  have hlow : n.log2 + d.log2 ≤ (n * d).log2 := by
    rw [le_log2 (Nat.mul_ne_zero hn hd), pow_add]
    exact Nat.mul_le_mul (log2_self_le hn) (log2_self_le hd)
  have hhigh : (n * d).log2 < n.log2 + 1 + (d.log2 + 1) := by
    rw [log2_lt (Nat.mul_ne_zero hn hd), pow_add]
    exact Nat.mul_lt_mul'' lt_log2_self lt_log2_self
  omega

theorem mul_two_pow_bounds (hn : n ≠ 0) {top : Nat} (hk : n.log2 + k = top) :
    2 ^ top ≤ n * 2 ^ k ∧ n * 2 ^ k < 2 * 2 ^ top := by
  subst hk
  constructor
  · rw [pow_add]
    exact Nat.mul_le_mul_right _ (log2_self_le hn)
  · rw [pow_add, ← mul_assoc, ← pow_succ']
    exact Nat.mul_lt_mul_of_pos_right lt_log2_self (Nat.two_pow_pos k)

/-- The first estimate of the exponent is right or too high by one. -/
theorem exponentFor_mul (hn : n ≠ 0) (hd : 0 < d) (hk : n.log2 + k = 52) (hpos : 0 < k) :
    exponentFor (n * d) d = -k := by
  rcases log2_mul hn hd.ne' with hlog | hlog
  · have hestimate : ((n * d).log2 : Int) - (d.log2 : Int) - 52 = -k := by omega
    obtain ⟨hlow, hhigh⟩ := mul_two_pow_bounds hn hk
    simp only [exponentFor, hestimate, divideAt_mul hd, mantissaTop]
    rw [if_neg (by omega), if_neg (by omega), leastExponent]
    omega
  · obtain ⟨j, rfl⟩ := Nat.exists_eq_add_one.mpr hpos
    have hestimate : ((n * d).log2 : Int) - (d.log2 : Int) - 52 = -j := by omega
    obtain ⟨hlow, hhigh⟩ := mul_two_pow_bounds hn (show n.log2 + j = 51 by omega)
    simp only [exponentFor, hestimate, divideAt_mul hd, mantissaTop]
    rw [if_neg (by omega), if_pos (by omega), leastExponent]
    omega

theorem ofFloat?_ofRatio_mul (hn : n ≠ 0) (hd : 0 < d) (hk : n.log2 + k = 52) (hpos : 0 < k) :
    ofFloat? (ofRatio negative (n * d) d) = some ⟨negative, n * 2 ^ k, -k⟩ := by
  obtain ⟨hlow, hhigh⟩ := mul_two_pow_bounds hn hk
  have htop : (2 : Nat) ^ 52 = mantissaTop := rfl
  rw [htop] at hlow hhigh
  have hround : roundHalfEven (n * 2 ^ k) 0 d = n * 2 ^ k := if_pos (by omega)
  have hratio : ofRatio? negative (n * d) d =
      some (assemble negative (1075 - k) (n * 2 ^ k - mantissaTop)) := by
    simp only [ofRatio?, Nat.mul_ne_zero hn hd.ne', exponentFor_mul hn hd hk hpos, divideAt_mul hd,
      hround, hhigh.ne, if_false]
    rw [if_neg (by omega), if_neg (by omega), show (-(k : Int) + 1075).toNat = 1075 - k by omega]
  have hmantissa : mantissaTop + (n * 2 ^ k - mantissaTop) = n * 2 ^ k := by omega
  have hexponent : ((1075 - k : Nat) : Int) - 1075 = -k := by omega
  rw [ofRatio, hratio, Option.getD_some,
    ofFloat?_assemble negative (by omega) (by omega) (by omega), hmantissa, hexponent]

/-- A whole number with at most 52 bits that is written as a ratio is rounded to itself. -/
theorem exists_ofFloat?_ofRatio_mul (hn : n < mantissaTop) (hd : 0 < d) :
    ∃ k : Nat, ofFloat? (ofRatio negative (n * d) d) = some ⟨negative, n * 2 ^ k, -k⟩ := by
  by_cases hzero : n = 0
  · have hratio : ofRatio negative (n * d) d = assemble negative 0 0 := by
      rw [hzero, Nat.zero_mul]
      rfl
    refine ⟨1074, ?_⟩
    rw [hratio, hzero, Nat.zero_mul]
    cases negative with
    | true => decide
    | false => decide
  · have hlog : n.log2 < 52 := (log2_lt hzero).mpr hn
    exact ⟨52 - n.log2, ofFloat?_ofRatio_mul negative hzero hd (by omega) (by omega)⟩

end Binary

/-! ## Numbers -/

namespace Number

open Binary

/-- The value of a finite number, in units of the least positive float. -/
def units? : Number → Option Int
  | .int i => some (i * unitsPerOne)
  | .float x => (ofFloat? x).map units

theorem eq_iff_units {a b : Number} {m n : Int} (ha : a.units? = some m)
    (hb : b.units? = some n) : a.eq b = true ↔ m = n := by
  cases a with
  | int i =>
    cases ha
    cases b with
    | int j =>
      cases hb
      have hone : (unitsPerOne : Int) ≠ 0 := Int.natCast_ne_zero.mpr unitsPerOne_pos.ne'
      rw [eq, beq_iff_eq, mul_left_inj' hone]
    | float y =>
      obtain ⟨b, hy, rfl⟩ := Option.map_eq_some_iff.mp hb
      simp only [eq, compareIntFloat, hy, beq_iff_eq, Option.some.injEq]
      exact compareInt_eq_iff (canonical_of_ofFloat? hy).least_le
  | float x =>
    obtain ⟨a, hx, rfl⟩ := Option.map_eq_some_iff.mp ha
    cases b with
    | int j =>
      cases hb
      simp only [eq, compareIntFloat, hx, beq_iff_eq, Option.some.injEq]
      rw [compareInt_eq_iff (canonical_of_ofFloat? hx).least_le]
      exact eq_comm
    | float y =>
      obtain ⟨b, hy, rfl⟩ := Option.map_eq_some_iff.mp hb
      show (x == y) = true ↔ a.units = b.units
      rw [beq_eq_true_iff hx hy,
        units_eq_iff (canonical_of_ofFloat? hx) (canonical_of_ofFloat? hy)]

theorem units?_of_integralOf? {x : Float} {i : Int} (h : integralOf? x = some i) :
    (Number.float x).units? = some (i * unitsPerOne) := by
  unfold integralOf? at h
  split at h
  · next b hx =>
    split at h
    · next hint =>
      cases h
      have hvalue := truncate_mul_unitsPerOne (canonical_of_ofFloat? hx).least_le hint
      rw [units?, hx, Option.map_some, hvalue]
    · cases h
  · cases h

theorem integralOf?_ofRatio_mul (negative : Bool) {n d : Nat} (hn : n < mantissaTop) (hd : 0 < d) :
    integralOf? (ofRatio negative (n * d) d) = some (if negative then -(n : Int) else n) := by
  obtain ⟨k, hratio⟩ := exists_ofFloat?_ofRatio_mul negative hn hd
  have hneg : (- -(k : Int)).toNat = k := by omega
  have hzero : (-(k : Int)).toNat = 0 := by omega
  have hintegral : isIntegral ⟨negative, n * 2 ^ k, -k⟩ = true := by
    rw [isIntegral, hneg]
    exact beq_iff_eq.mpr (mul_mod_left n _)
  have hwhole : n * 2 ^ k * Nat.pow 2 0 / Nat.pow 2 k = n :=
    (congrArg (· / _) (Nat.mul_one _)).trans (Nat.mul_div_cancel n (Nat.two_pow_pos k))
  simp only [integralOf?, hratio, hintegral, if_true, Binary.truncate, hneg, hzero, hwhole]

end Number

end LuaInterpreter
