import Mathlib.Data.Int.ModEq
import Mathlib.Data.Nat.Digits.Defs
import LuaInterpreter.Number.Numeral
import LuaInterpreter.Proofs.Run

/-!
# Integers that leave the range of 64 bits

Two's complement would bring every result back to the one 64-bit integer that it is congruent to
modulo `2^64`. `Number.wrap` does something else with results at and beyond the ends of the range,
and this file says exactly which results are right all the same.
-/

namespace LuaInterpreter

open List Int

namespace Number

/-! ## Residues -/

def IsInt64 (i : Int) : Prop := minInt ≤ i ∧ i ≤ maxInt

/-- `r` is the 64-bit integer that is congruent to `i`. -/
structure IsResidue (i r : Int) : Prop where
  isInt64 : IsInt64 r
  modEq : r ≡ i [ZMOD wordCount]

/-- Strictly between the least and the greatest 64-bit integer. -/
def IsInner (i : Int) : Prop := minInt < i ∧ i < maxInt

/-- Quotient and remainder by the greatest integer fit together so that the quotient is congruent
to the whole. -/
def WrapsByChance (i : Int) : Prop :=
  IsInt64 (i.fdiv maxInt) ∧ i.fmod maxInt ≡ i.fdiv maxInt * (maxInt + 3) [ZMOD wordCount]

variable {i r a : Int}

theorem isResidue_iff : IsResidue i r ↔ minInt ≤ r ∧ r ≤ maxInt ∧ wordCount ∣ i - r := by
  constructor
  · rintro ⟨⟨hlow, hhigh⟩, hmod⟩
    exact ⟨hlow, hhigh, hmod.dvd⟩
  · rintro ⟨hlow, hhigh, hdvd⟩
    exact ⟨⟨hlow, hhigh⟩, Int.modEq_iff_dvd.mpr hdvd⟩

/-! ## Results brought back -/

theorem wrap_of_isInner (h : IsInner i) : wrap i = i := if_pos h

theorem wrap_of_not_isInner (h : ¬IsInner i) :
    wrap i = if i.fmod maxInt % 2 = 1 then -(i.fdiv maxInt) else i.fdiv maxInt :=
  if_neg h

theorem fdiv_fmod_maxInt (i : Int) : maxInt * i.fdiv maxInt + i.fmod maxInt = i ∧
    0 ≤ i.fmod maxInt ∧ i.fmod maxInt < maxInt :=
  ⟨mul_fdiv_add_fmod i maxInt, fmod_nonneg_of_pos i (by decide),
    fmod_lt_of_pos i (by decide)⟩

/-- Beyond the range the quotient by the greatest integer is right only if the remainder is even,
which the congruence implies. -/
theorem isResidue_wrap_of_not_isInner (h : ¬IsInner i) :
    IsResidue i (wrap i) ↔ WrapsByChance i := by
  obtain ⟨hsplit, hlow, hhigh⟩ := fdiv_fmod_maxInt i
  rw [wrap_of_not_isInner h, isResidue_iff, WrapsByChance, IsInt64, modEq_iff_dvd]
  unfold minInt maxInt wordCount at *
  split <;> omega

theorem isResidue_wrap_iff (i : Int) : IsResidue i (wrap i) ↔ IsInner i ∨ WrapsByChance i := by
  by_cases h : IsInner i
  · rw [wrap_of_isInner h]
    exact iff_of_true ⟨⟨h.1.le, h.2.le⟩, .refl i⟩ (.inl h)
  · rw [isResidue_wrap_of_not_isInner h]
    exact (or_iff_right h).symm

/-- No result of up to 64 bits and a sign is brought back rightly by chance. -/
theorem isInner_of_wrapsByChance (hlow : -wordCount ≤ i) (hhigh : i ≤ wordCount)
    (h : WrapsByChance i) : IsInner i := by
  obtain ⟨hsplit, hfmodLow, hfmodHigh⟩ := fdiv_fmod_maxInt i
  obtain ⟨_, hmod⟩ := h
  rw [modEq_iff_dvd] at hmod
  unfold IsInner
  generalize i.fdiv maxInt = q at hsplit hmod
  unfold minInt maxInt wordCount at *
  have hquotient : q = -3 ∨ q = -2 ∨ q = -1 ∨ q = 0 ∨ q = 1 ∨ q = 2 := by omega
  rcases hquotient with rfl | rfl | rfl | rfl | rfl | rfl <;> omega

theorem isResidue_wrap_iff_isInner (hlow : -wordCount ≤ i) (hhigh : i ≤ wordCount) :
    IsResidue i (wrap i) ↔ IsInner i := by
  rw [isResidue_wrap_iff]
  exact or_iff_left_of_imp (isInner_of_wrapsByChance hlow hhigh)

theorem wordCount_bounds_fdiv (ha : IsInt64 a) (b : Int) :
    -wordCount ≤ a.fdiv b ∧ a.fdiv b ≤ wordCount := by
  have hle := natAbs_fdiv_le_natAbs a b
  unfold IsInt64 minInt maxInt at ha
  unfold wordCount
  omega

/-- Negation is not brought back at all: the least integer has no counterpart. -/
theorem isResidue_neg_iff (ha : IsInt64 a) : IsResidue (-a) (-a) ↔ a ≠ minInt := by
  rw [isResidue_iff]
  unfold IsInt64 at ha
  unfold minInt maxInt wordCount at *
  omega

end Number

/-! ## Hexadecimal digits -/

namespace Numeral

open Scan

def hexDigit (c : Char) : Nat := "0123456789abcdef".toList.idxOf c.toLower

def hexValue (digits : List Char) : Nat := Nat.ofDigits 16 (digits.reverse.map hexDigit)

variable {c : Char} {digits : List Char}

theorem toNat_lt_of_isHexDigit (h : isHexDigit c = true) : c.toNat < 128 := by
  simp only [isHexDigit, Char.isDigit, Bool.or_eq_true, Bool.and_eq_true, decide_eq_true_eq,
    ge_iff_le, UInt32.le_iff_toNat_le, Char.le_def] at h
  have hNine : ('9' : Char).val.toNat = 57 := rfl
  have hLower : ('f' : Char).val.toNat = 102 := rfl
  have hUpper : ('F' : Char).val.toNat = 70 := rfl
  show c.val.toNat < 128
  omega

/-- A hexadecimal digit is read as one, and as nothing else. -/
structure ReadAsHexDigit (c : Char) : Prop where
  value : digitValue? c = some (hexDigit c)
  lt : hexDigit c < 16
  not_space : isSpaceChar c = false
  not_mark : c ∉ ['_', '-', '+', 'x', 'X']

theorem readAsHexDigit (h : isHexDigit c = true) : ReadAsHexDigit c := by
  have hall : ∀ n < 128, isHexDigit (Char.ofNat n) = true →
      digitValue? (Char.ofNat n) = some (hexDigit (Char.ofNat n)) ∧ hexDigit (Char.ofNat n) < 16 ∧
        isSpaceChar (Char.ofNat n) = false ∧ Char.ofNat n ∉ ['_', '-', '+', 'x', 'X'] := by
    decide
  have hc := hall c.toNat (toNat_lt_of_isHexDigit h)
  rw [Char.ofNat_toNat] at hc
  obtain ⟨hvalue, hlt, hspace, hmark⟩ := hc h
  exact ⟨hvalue, hlt, hspace, hmark⟩

variable (h : ∀ c ∈ digits, isHexDigit c = true)
include h

theorem readDigits_hex (acc : Nat) (afterDigit : Bool) (hne : digits ≠ [] ∨ afterDigit = true) :
    readDigits 16 digits acc afterDigit
      = some (digits.foldl (fun value c => value * 16 + hexDigit c) acc) := by
  induction digits generalizing acc afterDigit with
  | nil =>
    have hafter : afterDigit = true := hne.resolve_left fun hnil => hnil rfl
    rw [hafter]
    rfl
  | cons c cs ih =>
    have hc := readAsHexDigit (h c (mem_cons_self ..))
    have hmark : c ≠ '_' := fun heq => hc.not_mark (heq ▸ mem_cons_self ..)
    rw [readDigits, if_neg hmark, hc.value]
    simp only [hc.lt, if_true, foldl_cons]
    exact ih (fun d hd => h d (mem_cons_of_mem c hd)) _ _ (.inr rfl)

omit h in
theorem foldl_eq_hexValue (digits : List Char) :
    digits.foldl (fun value c => value * 16 + hexDigit c) 0 = hexValue digits := by
  rw [hexValue, Nat.ofDigits_eq_foldr, foldr_map, foldr_reverse]
  congr 1
  funext value c
  exact (Nat.add_comm ..).trans (congrArg _ (Nat.mul_comm ..))

omit h in
theorem stripChars_eq_self {text : List Char} (h : ∀ c ∈ text, isSpaceChar c = false) :
    stripChars text = text := by
  have hkept : ∀ cs : List Char, (∀ c ∈ cs, isSpaceChar c = false) → cs.dropWhile isSpaceChar = cs := by
    intro cs hcs
    cases cs with
    | nil => rfl
    | cons c cs => exact dropWhile_cons_of_neg (by simp [hcs c (by simp)])
  rw [stripChars, hkept text h, hkept _ (by simpa using h), reverse_reverse]

theorem splitSign_of_isHexDigit : splitSign digits = (false, digits) := by
  unfold splitSign
  split
  · exact absurd (by simp) (readAsHexDigit (h '-' (by simp))).not_mark
  · exact absurd (by simp) (readAsHexDigit (h '+' (by simp))).not_mark
  · rfl

theorem dropHexMark_of_isHexDigit : dropHexMark digits = digits := by
  unfold dropHexMark
  split
  · next x cs =>
    have hmark := (readAsHexDigit (h x (by simp))).not_mark
    rw [if_neg]
    rintro (rfl | rfl) <;> simp at hmark
  · rfl

theorem readInteger_hex (hne : digits ≠ []) :
    readInteger 16 (String.ofList digits) = .ok (hexValue digits) := by
  have hstrip := stripChars_eq_self fun c hc => (readAsHexDigit (h c hc)).not_space
  rw [readInteger, String.toList_ofList, hstrip, splitSign_of_isHexDigit h]
  simp only [if_true, dropHexMark_of_isHexDigit h, readDigits_hex h 0 false (.inl hne),
    foldl_eq_hexValue]
  rfl

end Numeral

/-! ## Operators and numerals -/

namespace Operator

open Number Numeral Scan

/-- Sums, differences and quotients of 64-bit integers, and negated ones, are the 64-bit integers
they should be exactly as long as the exact result stays strictly inside the range (negation: as
long as the operand is not the least integer). For products and hexadecimal numerals, which may be
of any size, a few results beyond it are right by chance. -/
theorem integer_results_are_residues_iff (call : Caller) (s : Store) {a b : Int} (ha : IsInt64 a)
    (hb : IsInt64 b) :
    (∃ r, binary call .add (.int a) (.int b) s = .ok (.int r) s ∧
      (IsResidue (a + b) r ↔ IsInner (a + b))) ∧
    (∃ r, binary call .subtract (.int a) (.int b) s = .ok (.int r) s ∧
      (IsResidue (a - b) r ↔ IsInner (a - b))) ∧
    (∃ r, binary call .multiply (.int a) (.int b) s = .ok (.int r) s ∧
      (IsResidue (a * b) r ↔ IsInner (a * b) ∨ WrapsByChance (a * b))) ∧
    (b ≠ 0 → ∃ r, binary call .floorDivide (.int a) (.int b) s = .ok (.int r) s ∧
      (IsResidue (a.fdiv b) r ↔ IsInner (a.fdiv b))) ∧
    (∃ r, unary call .negate (.int a) s = .ok (.int r) s ∧ (IsResidue (-a) r ↔ a ≠ minInt)) ∧
    ∀ (digits : List Char) (line : Int) (sign : Option Lexeme), digits ≠ [] →
      (∀ c ∈ digits, isHexDigit c = true) →
      ∃ r, Numeral.value (.hex ⟨String.ofList digits, line⟩ none sign none) = .ok (.int r) ∧
        (IsResidue (hexValue digits) r ↔
          IsInner (hexValue digits) ∨ WrapsByChance (hexValue digits)) := by
  have hrange := And.intro ha hb
  unfold IsInt64 minInt maxInt at hrange
  refine ⟨⟨wrap (a + b), rfl, ?_⟩, ⟨wrap (a - b), rfl, ?_⟩, ⟨wrap (a * b), rfl, ?_⟩, ?_, ?_, ?_⟩
  · exact isResidue_wrap_iff_isInner (by unfold wordCount; omega) (by unfold wordCount; omega)
  · exact isResidue_wrap_iff_isInner (by unfold wordCount; omega) (by unfold wordCount; omega)
  · exact isResidue_wrap_iff (a * b)
  · intro hzero
    have hdivide : floorDivide (.int a) (.int b) = .ok (.int (wrap (a.fdiv b))) := if_neg hzero
    have hbounds := wordCount_bounds_fdiv ha b
    refine ⟨wrap (a.fdiv b), ?_, isResidue_wrap_iff_isInner hbounds.1 hbounds.2⟩
    show (Run.ofExcept (floorDivide (.int a) (.int b)) >>= fun n => pure (.num n) : Run Value) s = _
    rw [hdivide]
    rfl
  · exact ⟨-a, rfl, isResidue_neg_iff ha⟩
  · intro digits line sign hne hdigits
    refine ⟨wrap (hexValue digits), ?_, isResidue_wrap_iff _⟩
    rw [Numeral.value, readInteger_hex hdigits hne]
    rfl

/-- One more than the greatest integer is not the least one, the least integer negated and divided
by `-1` stays outside the range, and sixteen digits `f` are not `-1`. -/
theorem greatest_plus_one_is_not_least :
    IsInt64 maxInt ∧ IsInt64 1 ∧ IsInt64 minInt ∧ IsInt64 (-1) ∧
    (∃ r, binary (fun _ _ _ _ => throw .outOfFuel) .add (.int maxInt) (.int 1) {} = .ok (.int r) {} ∧
      ¬IsResidue (maxInt + 1) r) ∧
    (∃ r, binary (fun _ _ _ _ => throw .outOfFuel) .floorDivide (.int minInt) (.int (-1)) {}
        = .ok (.int r) {} ∧ ¬IsResidue (minInt.fdiv (-1)) r) ∧
    (∃ r, unary (fun _ _ _ _ => throw .outOfFuel) .negate (.int minInt) {} = .ok (.int r) {} ∧
      ¬IsResidue (-minInt) r) ∧
    ∃ r, Numeral.value (.hex ⟨"ffffffffffffffff", 1⟩ none none none) = .ok (.int r) ∧
      ¬IsResidue (hexValue "ffffffffffffffff".toList) r := by
  have hgreatest : IsInt64 maxInt := by unfold IsInt64; decide
  have hone : IsInt64 1 := by unfold IsInt64; decide
  have hleast : IsInt64 minInt := by unfold IsInt64; decide
  have hminus : IsInt64 (-1) := by unfold IsInt64; decide
  obtain ⟨⟨sum, hsum, hsumIff⟩, -⟩ :=
    integer_results_are_residues_iff (fun _ _ _ _ => throw .outOfFuel) {} hgreatest hone
  obtain ⟨-, -, -, hdivide, ⟨negated, hnegated, hnegatedIff⟩, hnumeral⟩ :=
    integer_results_are_residues_iff (fun _ _ _ _ => throw .outOfFuel) {} hleast hminus
  obtain ⟨quotient, hquotient, hquotientIff⟩ := hdivide (by decide)
  have hdigits : ∀ c ∈ "ffffffffffffffff".toList, isHexDigit c = true :=
    all_eq_true.mp (by decide)
  obtain ⟨n, hn, hnIff⟩ := hnumeral "ffffffffffffffff".toList 1 none (by decide) hdigits
  refine ⟨hgreatest, hone, hleast, hminus, ⟨sum, hsum, ?_⟩, ⟨quotient, hquotient, ?_⟩,
    ⟨negated, hnegated, ?_⟩, ⟨n, hn, ?_⟩⟩
  · rw [hsumIff, IsInner]
    decide
  · rw [hquotientIff, IsInner]
    decide
  · rw [hnegatedIff]
    decide
  · rw [hnIff, IsInner, WrapsByChance, IsInt64, modEq_iff_dvd]
    decide

end Operator

end LuaInterpreter
