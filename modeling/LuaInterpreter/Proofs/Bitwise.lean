import LuaInterpreter.Proofs.Wrapping

/-!
# Bitwise operations and words

The bitwise operators are meant to act on words of 64 bits in two's complement, which are here the
bit vectors `BitVec 64`: `BitVec.ofInt 64` is the word of an integer and `BitVec.toInt` reads it back.
`Number.ofWord` reads words with the top bit set otherwise, and shifting to the right extends the
sign before it does so. This file says exactly when the operators give what they should.
-/

namespace LuaInterpreter

open Int

namespace Number

def bits (i : Int) : BitVec 64 := BitVec.ofInt 64 i

theorem toNat_bits (i : Int) : (bits i).toNat = word i := BitVec.toNat_ofInt ..

/-! ## Reading words -/

theorem ofWord_toNat_eq_toInt_iff (w : BitVec 64) : ofWord w.toNat = w.toInt ↔ w.msb = false := by
  rw [BitVec.msb_eq_false_iff_two_mul_lt, BitVec.toInt_eq_toNat_cond, ofWord, maxInt]
  omega

variable {i a : Int} {n k : Nat}

theorem toInt_bits (h : IsInt64 i) : (bits i).toInt = i := by
  obtain ⟨hlow, hhigh⟩ := h
  unfold minInt at hlow
  unfold maxInt at hhigh
  rw [bits, BitVec.toInt_ofInt, bmod_def]
  omega

theorem msb_bits (h : IsInt64 i) : (bits i).msb = decide (i < 0) := by
  rw [BitVec.msb_eq_toInt, toInt_bits h]

/-! ## Operations on words -/

theorem bitNot_eq (a : Int) : bitNot a = ofWord (~~~bits a).toNat := by
  rw [bitNot, BitVec.toNat_not, toNat_bits]
  unfold word wordCount
  congr 1
  omega

theorem word_mul (a : Int) (k : Nat) : word (a * k) = word a * k % wordCount.toNat := by
  have hnonneg : 0 ≤ a % wordCount := emod_nonneg a (by decide)
  have hword : (word a : Int) = a % wordCount := toNat_of_nonneg hnonneg
  have hmod : a * k % wordCount = (word a * k : Nat) % wordCount := by
    rw [natCast_mul, hword]
    exact ((mod_modEq a wordCount).mul_right k).symm
  rw [word, hmod]
  rfl

theorem shiftUp_eq (a : Int) (h : n < 64) : shiftUp a n = ofWord (bits a <<< n).toNat := by
  rw [shiftUp, if_neg (by omega), BitVec.toNat_shiftLeft, toNat_bits, Nat.shiftLeft_eq, word_mul]
  rfl

variable (ha : IsInt64 a)
include ha

theorem word_of_nonneg (h : 0 ≤ a) : word a = a.toNat := by
  have hhigh := ha.2
  unfold maxInt at hhigh
  rw [word, wordCount]
  omega

theorem topBit_le_word_of_neg (h : a < 0) : 9223372036854775808 ≤ word a := by
  have hlow := ha.1
  unfold minInt at hlow
  rw [word, wordCount]
  omega

omit ha in
theorem ofWord_neg_of_topBit {w : Nat} (h : 9223372036854775808 ≤ w) : ofWord w < 0 := by
  rw [ofWord, if_neg (by omega), maxInt]
  omega

theorem isInt64_fdiv (hk : 0 < k) : IsInt64 (a.fdiv k) := by
  have hle := natAbs_fdiv_le_natAbs a k
  have hsign : 0 ≤ a ∧ 0 ≤ a.fdiv k ∨ a < 0 ∧ a.fdiv k < 0 := by
    rcases lt_or_ge a 0 with hneg | hnonneg
    · exact .inr ⟨hneg, fdiv_neg_of_neg_of_pos hneg (natCast_pos.mpr hk)⟩
    · exact .inl ⟨hnonneg, fdiv_nonneg hnonneg (natCast_nonneg k)⟩
  unfold IsInt64 minInt maxInt at *
  omega

theorem word_fdiv_of_nonneg (h : 0 ≤ a) (hk : 0 < k) : word (a.fdiv k) = word a / k := by
  have hnonneg := fdiv_nonneg h (natCast_nonneg k)
  rw [word_of_nonneg (isInt64_fdiv ha hk) hnonneg, word_of_nonneg ha h,
    fdiv_eq_ediv_of_nonneg a (natCast_nonneg k)]
  obtain ⟨m, rfl⟩ := eq_ofNat_of_zero_le h
  rw [← natCast_ediv, toNat_natCast, toNat_natCast]

/-- A shift to the right keeps the sign, which then makes the word too large to be read rightly. -/
theorem shiftDown_eq_iff (h : n < 64) : shiftDown a n = (bits a >>> n).toInt ↔ 0 ≤ a := by
  have hpos : 0 < Nat.pow 2 n := Nat.two_pow_pos n
  have hshift : shiftDown a n = ofWord (word (a.fdiv (Nat.pow 2 n : Nat))) := if_neg (by omega)
  rw [hshift]
  rcases lt_or_ge a 0 with hneg | hnonneg
  · refine iff_of_false (fun heq => ?_) (by omega)
    have hresult := ofWord_neg_of_topBit
      (topBit_le_word_of_neg (isInt64_fdiv ha hpos)
        (fdiv_neg_of_neg_of_pos hneg (natCast_pos.mpr hpos)))
    cases n with
    | zero =>
      have hsame : a.fdiv (Nat.pow 2 0 : Nat) = a := fdiv_one a
      rw [hsame, ← toNat_bits, BitVec.ushiftRight_zero, ofWord_toNat_eq_toInt_iff, msb_bits ha] at heq
      simp [hneg] at heq
    | succ n =>
      have hmsb : (bits a >>> (n + 1)).msb = false := by simp [BitVec.msb_ushiftRight]
      have hclear := BitVec.toInt_nonneg_of_msb_false hmsb
      omega
  · have htoNat : (bits a >>> n).toNat = word a / Nat.pow 2 n := by
      rw [BitVec.toNat_ushiftRight, toNat_bits, Nat.shiftRight_eq_div_pow]
      rfl
    rw [word_fdiv_of_nonneg ha hnonneg hpos, ← htoNat, ofWord_toNat_eq_toInt_iff]
    simp [BitVec.msb_ushiftRight, msb_bits ha, hnonneg]

/-! ## Directions and complements -/

omit ha in
theorem shiftLeft_eq_shiftRight_neg (a n : Int) : shiftLeft a n = shiftRight a (-n) := by
  rw [shiftLeft, shiftRight]
  rcases lt_trichotomy n 0 with hneg | rfl | hpos
  · rw [if_pos hneg, if_neg (by omega)]
  · -- shifts by nothing in either direction only read the word
    have hup : shiftUp a 0 = ofWord (word (a * 1)) := rfl
    have hdown : shiftDown a 0 = ofWord (word (a.fdiv 1)) := rfl
    simp [hup, hdown]
  · rw [if_neg (by omega), if_pos (by omega), neg_neg]

theorem bitNot_of_neg (h : a < 0) : bitNot a = -a - 1 := by
  have hlow := ha.1
  unfold minInt at hlow
  rw [bitNot, ofWord, word, wordCount, maxInt]
  omega

theorem bitNot_of_nonneg (h : 0 ≤ a) : bitNot a = a + minInt := by
  have hhigh := ha.2
  unfold maxInt at hhigh
  rw [bitNot, ofWord, word, wordCount, maxInt, minInt]
  omega

theorem bitNot_eq_neg_sub_one_iff : bitNot a = -a - 1 ↔ a < 0 := by
  rcases lt_or_ge a 0 with hneg | hnonneg
  · exact iff_of_true (bitNot_of_neg ha hneg) hneg
  · rw [bitNot_of_nonneg ha hnonneg, minInt]
    omega

theorem bitNot_bitNot_ne : bitNot (bitNot a) ≠ a := by
  have hrange := ha
  unfold IsInt64 minInt maxInt at hrange
  rcases lt_or_ge a 0 with hneg | hnonneg
  · rw [bitNot_of_neg ha hneg, bitNot_of_nonneg (by unfold IsInt64 minInt maxInt; omega) (by omega),
      minInt]
    omega
  · have hcomplement : IsInt64 (a + minInt) := by unfold IsInt64 minInt maxInt; omega
    rw [bitNot_of_nonneg ha hnonneg, bitNot_of_neg hcomplement (by unfold minInt; omega), minInt]
    omega

end Number

/-! ## Operators -/

namespace Operator

open Number

/-- The bitwise operators give the word that they should exactly if that word has its top bit clear,
which for all but shifts to the left is a condition on the signs of the operands; a shift to the
right needs an operand that is not negative. Complements are never undone by a second one. -/
theorem bitwise_results_are_words_iff (call : Caller) (s : Store) {a b : Int} (ha : IsInt64 a)
    (hb : IsInt64 b) :
    (∃ r, binary call .bitAnd (.int a) (.int b) s = .ok (.int r) s ∧
      (r = (bits a &&& bits b).toInt ↔ 0 ≤ a ∨ 0 ≤ b)) ∧
    (∃ r, binary call .bitOr (.int a) (.int b) s = .ok (.int r) s ∧
      (r = (bits a ||| bits b).toInt ↔ 0 ≤ a ∧ 0 ≤ b)) ∧
    (∃ r, binary call .bitXor (.int a) (.int b) s = .ok (.int r) s ∧
      (r = (bits a ^^^ bits b).toInt ↔ (a < 0 ↔ b < 0))) ∧
    (∃ r, unary call .bitNot (.int a) s = .ok (.int r) s ∧
      (r = (~~~bits a).toInt ↔ a < 0) ∧ (r = -a - 1 ↔ a < 0) ∧
      ∃ r', unary call .bitNot (.int r) s = .ok (.int r') s ∧ r' ≠ a) ∧
    (∀ n : Nat, n < 64 →
      (∃ r, binary call .shiftLeft (.int a) (.int n) s = .ok (.int r) s ∧
        (r = (bits a <<< n).toInt ↔ (bits a <<< n).msb = false)) ∧
      ∃ r, binary call .shiftRight (.int a) (.int n) s = .ok (.int r) s ∧
        (r = (bits a >>> n).toInt ↔ 0 ≤ a)) ∧
    (∀ n : Int, 64 ≤ n → binary call .shiftLeft (.int a) (.int n) s = .ok (.int 0) s ∧
      binary call .shiftRight (.int a) (.int n) s = .ok (.int 0) s) ∧
    ∀ n : Int, binary call .shiftLeft (.int a) (.int n) s
      = binary call .shiftRight (.int a) (.int (-n)) s := by
  have hmsb := And.intro (msb_bits ha) (msb_bits hb)
  refine ⟨⟨bitAnd a b, rfl, ?_⟩, ⟨bitOr a b, rfl, ?_⟩, ⟨bitXor a b, rfl, ?_⟩,
    ⟨Number.bitNot a, rfl, ?_, bitNot_eq_neg_sub_one_iff ha, _, rfl, bitNot_bitNot_ne ha⟩,
    ?_, ?_, ?_⟩
  · rw [bitAnd, ← toNat_bits a, ← toNat_bits b, ← BitVec.toNat_and, ofWord_toNat_eq_toInt_iff]
    simp only [BitVec.msb_and, hmsb, Bool.and_eq_false_iff, decide_eq_false_iff_not, not_lt]
  · rw [bitOr, ← toNat_bits a, ← toNat_bits b, ← BitVec.toNat_or, ofWord_toNat_eq_toInt_iff]
    simp [hmsb]
  · rw [bitXor, ← toNat_bits a, ← toNat_bits b, ← BitVec.toNat_xor, ofWord_toNat_eq_toInt_iff]
    simp [hmsb]
  · rw [bitNot_eq, ofWord_toNat_eq_toInt_iff]
    simp [hmsb]
  · intro n hn
    have hn' : ¬(n : Int) < 0 := by omega
    refine ⟨⟨shiftLeft a n, rfl, ?_⟩, ⟨shiftRight a n, rfl, ?_⟩⟩
    · rw [shiftLeft, if_neg hn', toNat_natCast, shiftUp_eq a hn, ofWord_toNat_eq_toInt_iff]
    · rw [shiftRight, if_neg hn', toNat_natCast, shiftDown_eq_iff ha hn]
  · intro n hn
    constructor
    · show EStateM.Result.ok (Value.int (shiftLeft a n)) s = _
      rw [shiftLeft, if_neg (by omega), shiftUp, if_pos (by omega)]
    · show EStateM.Result.ok (Value.int (shiftRight a n)) s = _
      rw [shiftRight, if_neg (by omega), shiftDown, if_pos (by omega)]
  · intro n
    show EStateM.Result.ok (Value.int (shiftLeft a n)) s = .ok (.int (shiftRight a (-n))) s
    rw [shiftLeft_eq_shiftRight_neg]

/-- The word of all ones is not read as `-1`, and shifting it to the right does not fill with
zeros. -/
theorem minus_one_and_itself_is_not_minus_one :
    IsInt64 (-1) ∧ (bits (-1) &&& bits (-1)).toInt = -1 ∧ (bits (-1) >>> 1).toInt = maxInt ∧
    (∃ r, binary (fun _ _ _ _ => throw .outOfFuel) .bitAnd (.int (-1)) (.int (-1)) {}
        = .ok (.int r) {} ∧ r ≠ -1) ∧
    ∃ r, binary (fun _ _ _ _ => throw .outOfFuel) .shiftRight (.int (-1)) (.int 1) {}
        = .ok (.int r) {} ∧ r ≠ maxInt := by
  have hrange : IsInt64 (-1) := by unfold IsInt64; decide
  have hand : (bits (-1) &&& bits (-1)).toInt = -1 := by decide
  have hshift : (bits (-1) >>> 1).toInt = maxInt := by decide
  obtain ⟨⟨r, hr, hiff⟩, -, -, -, hshifts, -⟩ :=
    bitwise_results_are_words_iff (fun _ _ _ _ => throw .outOfFuel) {} hrange hrange
  obtain ⟨-, t, ht, hiff'⟩ := hshifts 1 (by decide)
  rw [hand] at hiff
  rw [hshift] at hiff'
  refine ⟨hrange, hand, hshift, ⟨r, hr, ?_⟩, ⟨t, ht, ?_⟩⟩
  · rw [ne_eq, hiff]
    decide
  · rw [ne_eq, hiff']
    decide

end Operator

end LuaInterpreter
