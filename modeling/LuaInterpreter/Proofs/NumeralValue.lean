import Mathlib.Order.MinMax
import LuaInterpreter.Proofs.NumeralText
import LuaInterpreter.Proofs.PositionalNotation
import LuaInterpreter.Proofs.Wrapping

/-!
# Which numerals have a value

Not every numeral has one. Decimal digits alone must not be too many. A hexadecimal numeral with a
fraction or an exponent must have digits that are within the range of floats, and an exponent that is
written in decimal digits and is within range as well.
-/

namespace LuaInterpreter

open Scan List Nat Binary Number

open Numeral (hexValue readAsHexDigit readInteger_hex stripChars_eq_self
  toNat_lt_of_isHexDigit)

open BasicLibrary (IsDigit signed splitSign_cons splitSign_stripChars)

/-! ## The range of floats -/

namespace Binary

/-- The least number that is beyond the range of floats: half-way between the greatest float and the
power of two after it. -/
def bound : Nat := (4 * mantissaTop - 1) * Nat.pow 2 970

variable {num den : Nat}

theorem divideAt_ofNat (num den e : Nat) :
    divideAt num den e =
      (num / (den * Nat.pow 2 e), num % (den * Nat.pow 2 e), den * Nat.pow 2 e) := by
  have hneg : (-(e : Int)).toNat = 0 := by omega
  have hpow : num * Nat.pow 2 0 = num := Nat.mul_one num
  rw [divideAt, hneg, Int.toNat_natCast, hpow]

variable {e : Nat} (negative : Bool)

theorem le_exponentFor_iff (he : 0 < e) (hnum : num ≠ 0) (hden : den ≠ 0) :
    (e : Int) ≤ exponentFor num den ↔ mantissaTop * (den * Nat.pow 2 e) ≤ num := by
  have hbelow {k : Nat} (hk : num.log2 < den.log2 + 52 + k) :
      num < mantissaTop * (den * Nat.pow 2 k) := by
    calc num < 2 ^ (num.log2 + 1) := lt_log2_self
      _ ≤ 2 ^ (den.log2 + 52 + k) := Nat.pow_le_pow_right Nat.two_pos hk
      _ = mantissaTop * (2 ^ den.log2 * 2 ^ k) := by
        rw [Nat.pow_add, Nat.pow_add, Nat.mul_comm _ (2 ^ 52), Nat.mul_assoc, mantissaTop]
      _ ≤ mantissaTop * (den * 2 ^ k) :=
        Nat.mul_le_mul_left _ (Nat.mul_le_mul_right _ (log2_self_le hden))
  have habove {k : Nat} (hk : den.log2 + 1 + 52 + k ≤ num.log2) :
      mantissaTop * (den * Nat.pow 2 k) ≤ num := by
    calc mantissaTop * (den * 2 ^ k) ≤ mantissaTop * (2 ^ (den.log2 + 1) * 2 ^ k) :=
        Nat.mul_le_mul_left _ (Nat.mul_le_mul_right _ Nat.lt_log2_self.le)
      _ = 2 ^ (den.log2 + 1 + 52 + k) := by
        rw [Nat.pow_add _ _ k, Nat.pow_add _ _ 52, Nat.mul_comm _ (2 ^ 52), Nat.mul_assoc, mantissaTop]
      _ ≤ 2 ^ num.log2 := Nat.pow_le_pow_right Nat.two_pos hk
      _ ≤ num := log2_self_le hnum
  -- The first guess of the exponent is never too small.
  have hfits {k : Nat} (hk : (num.log2 : Int) - den.log2 - 52 = k) :
      ¬ 2 * mantissaTop ≤ (divideAt num den k).1 := by
    have hlt : num < mantissaTop * (den * Nat.pow 2 (k + 1)) := hbelow (by omega)
    have htwice : den * Nat.pow 2 (k + 1) = 2 * (den * Nat.pow 2 k) := by
      rw [Nat.mul_left_comm]
      exact congrArg _ Nat.pow_succ'
    rw [htwice, Nat.mul_left_comm, ← Nat.mul_assoc, Nat.mul_comm] at hlt
    rw [divideAt_ofNat, Nat.not_le]
    exact Nat.div_lt_of_lt_mul hlt
  have hleast : ¬ (e : Int) ≤ leastExponent := by
    rw [leastExponent]
    omega
  simp only [exponentFor, le_max_iff, hleast, or_false]
  rcases lt_trichotomy ((num.log2 : Int) - den.log2 - 52) e with hlt | heq | hgt
  · refine iff_of_false ?_ (Nat.not_le.mpr (hbelow (by omega)))
    obtain ⟨k, rfl⟩ := exists_eq_succ_of_ne_zero he.ne'
    rcases (show (num.log2 : Int) - den.log2 - 52 = k ∨ (num.log2 : Int) - den.log2 - 52 < k by omega)
      with hk | hk
    · rw [if_neg (hk ▸ hfits hk)]
      split
      all_goals omega
    · split
      · omega
      · split
        all_goals omega
  · have hpos : 0 < den * Nat.pow 2 e := Nat.mul_pos (Nat.pos_of_ne_zero hden) (Nat.two_pow_pos e)
    rw [heq, if_neg (hfits heq), ← Nat.le_div_iff_mul_le hpos, divideAt_ofNat]
    split
    all_goals omega
  · refine iff_of_true ?_ (habove (by omega))
    split
    · omega
    · split
      all_goals omega

theorem roundHalfEven_le (quotient remainder divisor : Nat) :
    roundHalfEven quotient remainder divisor ≤ quotient + 1 := by
  unfold roundHalfEven
  split
  · omega
  · split
    all_goals omega

/-- Only the greatest mantissa can be rounded up to one that is too great. -/
theorem roundHalfEven_eq_iff {unit : Nat} (hunit : 0 < unit) (hnum : num < 4 * mantissaTop * unit) :
    roundHalfEven (num / (2 * unit)) (num % (2 * unit)) (2 * unit) = 2 * mantissaTop ↔
      (4 * mantissaTop - 1) * unit ≤ num := by
  have hsplit := div_add_mod num (2 * unit)
  have hless := mod_lt num (Nat.mul_pos Nat.two_pos hunit)
  have hrounded := roundHalfEven_le (num / (2 * unit)) (num % (2 * unit)) (2 * unit)
  generalize num / (2 * unit) = quotient at *
  generalize num % (2 * unit) = remainder at *
  simp only [mantissaTop] at hnum ⊢
  have hquotient : quotient < 2 * 4503599627370496 := by
    refine Nat.lt_of_mul_lt_mul_left (a := 2 * unit) ?_
    omega
  rcases Nat.lt_or_ge (quotient + 1) (2 * 4503599627370496) with hsmall | hgreatest
  · have hle : 2 * unit * (quotient + 2) ≤ 2 * unit * (2 * 4503599627370496) :=
      Nat.mul_le_mul_left _ hsmall
    rw [Nat.mul_add] at hle
    omega
  · obtain rfl : quotient = 2 * 4503599627370496 - 1 := by omega
    unfold roundHalfEven
    split
    · omega
    · split
      all_goals omega

theorem ofRatio?_eq_none (hnum : num ≠ 0) {q : Int} {quotient remainder divisor : Nat}
    (hq : exponentFor num den = q) (hdivide : divideAt num den q = (quotient, remainder, divisor)) :
    ofRatio? negative num den = none ↔
      971 < q ∨ q = 971 ∧ roundHalfEven quotient remainder divisor = 2 * mantissaTop := by
  have hnone {e : Int} {x y : Float} {b : Prop} [Decidable b] :
      (if 971 < e then none else if b then some x else some y) = none ↔ 971 < e := by
    split
    · next h => exact iff_of_true rfl h
    · next h =>
      refine iff_of_false ?_ h
      split
      all_goals nofun
  simp only [ofRatio?, if_neg hnum, hq, hdivide, hnone]
  split
  · next hrounded =>
    simp only [hrounded, and_true]
    omega
  · next hrounded => simp only [hrounded, and_false, or_false]

theorem ofRatio?_eq_none_iff (hden : den ≠ 0) :
    ofRatio? negative num den = none ↔ bound * den ≤ num := by
  obtain ⟨k, hk⟩ : ∃ k, k = 970 := ⟨_, rfl⟩
  have hunit : 0 < den * Nat.pow 2 k := Nat.mul_pos (Nat.pos_of_ne_zero hden) (Nat.two_pow_pos k)
  have hbound : bound * den = (4 * mantissaTop - 1) * (den * Nat.pow 2 k) := by
    rw [bound, ← hk, Nat.mul_assoc, Nat.mul_comm den]
  have hpow (j : Nat) : den * Nat.pow 2 (j + 1) = 2 * (den * Nat.pow 2 j) := by
    rw [Nat.mul_left_comm]
    exact congrArg _ Nat.pow_succ'
  rw [hbound]
  by_cases hnum : num = 0
  · rw [ofRatio?, if_pos hnum, mantissaTop]
    exact iff_of_false nofun (by omega)
  have htop := le_exponentFor_iff (e := k + 1 + 1) (by omega) hnum hden
  have hlast := le_exponentFor_iff (e := k + 1) (by omega) hnum hden
  rw [hpow, hpow, mantissaTop] at htop
  rw [hpow, mantissaTop] at hlast
  rcases eq_or_ne (exponentFor num den) (k + 1 : Nat) with heq | hne
  · have hless : num < 4 * mantissaTop * (den * Nat.pow 2 k) := by
      rw [mantissaTop]
      omega
    rw [ofRatio?_eq_none negative hnum heq (divideAt_ofNat num den (k + 1)), hpow,
      roundHalfEven_eq_iff hunit hless]
    omega
  · rw [ofRatio?_eq_none negative hnum rfl rfl, mantissaTop]
    omega

theorem exists_ofRatio?_iff (hden : den ≠ 0) :
    (∃ x, ofRatio? negative num den = some x) ↔ num < bound * den := by
  rw [← Option.isSome_iff_exists, ← Option.ne_none_iff_isSome, Ne, ofRatio?_eq_none_iff negative hden,
    Nat.not_le]

theorem two_pow_lt_bound (he : e < 1024) : Nat.pow 2 e < bound := by
  obtain ⟨k, hk⟩ : ∃ k, k = 970 := ⟨_, rfl⟩
  have hpos : 0 < 2 ^ k := Nat.two_pow_pos k
  calc 2 ^ e ≤ 2 ^ (53 + k) := Nat.pow_le_pow_right Nat.two_pos (by omega)
    _ = 2 * mantissaTop * 2 ^ k := by rw [Nat.pow_add, mantissaTop]
    _ < (4 * mantissaTop - 1) * 2 ^ k := by
      rw [mantissaTop]
      omega
    _ = bound := by rw [bound, ← hk, pow_eq]

end Binary

/-! ## Decimal digits -/

section

variable {ds : List Char}

variable {c : Char}

theorem hexDigit_of_isHexDigit (h : isHexDigit c = true) :
    if c.isDigit then Numeral.hexDigit c = c.toNat - '0'.toNat ∧ Numeral.hexDigit c < 10
    else 10 ≤ Numeral.hexDigit c := by
  have hall : ∀ n < 128, isHexDigit (Char.ofNat n) = true →
      if (Char.ofNat n).isDigit then
        Numeral.hexDigit (Char.ofNat n) = (Char.ofNat n).toNat - '0'.toNat ∧
          Numeral.hexDigit (Char.ofNat n) < 10
      else 10 ≤ Numeral.hexDigit (Char.ofNat n) := by
    decide
  have hc := hall c.toNat (toNat_lt_of_isHexDigit h)
  rw [Char.ofNat_toNat] at hc
  exact hc h

theorem isDigit_of_isHexDigit (h : isHexDigit c = true) : IsDigit 16 c :=
  idxOf_lt_length_iff.mp (readAsHexDigit h).lt

theorem readDigits_ten (h : ∀ c ∈ ds, isHexDigit c = true) (acc : Nat) {afterDigit : Bool}
    (hne : ds ≠ [] ∨ afterDigit = true) :
    readDigits 10 ds acc afterDigit =
      if ds.all Char.isDigit then some (Nat.ofDigitChars 10 ds acc) else none := by
  induction ds generalizing acc afterDigit with
  | nil =>
    rw [hne.resolve_left (absurd rfl)]
    rfl
  | cons c cs ih =>
    have hc := readAsHexDigit (h c (.head _))
    have hmark : c ≠ '_' := fun heq => hc.not_mark (heq ▸ .head _)
    have hvalue := hexDigit_of_isHexDigit (h c (.head _))
    rw [readDigits, if_neg hmark, hc.value, all_cons, ofDigitChars_cons]
    cases hdigit : c.isDigit with
    | true =>
      obtain ⟨heq, hlt⟩ : Numeral.hexDigit c = c.toNat - '0'.toNat ∧ Numeral.hexDigit c < 10 := by
        simpa only [hdigit, if_true] using hvalue
      simp only [hlt, if_true, Bool.true_and]
      rw [ih (fun d hd => h d (.tail _ hd)) _ (.inr rfl), heq, Nat.mul_comm acc]
    | false =>
      have hge : ¬Numeral.hexDigit c < 10 := by simpa [hdigit] using hvalue
      simp only [hge, if_false, Bool.false_and]
      rfl

theorem readInteger_ten {sign : List Char} (hsign : sign ∈ [[], ['+'], ['-']])
    (h : AreDigits isHexDigit ds) :
    readInteger 10 (String.ofList (sign ++ ds)) =
      if ds.all Char.isDigit then
        if 4300 < ds.length then .error (.tooManyDigits ds.length)
        else .ok (signed (sign = ['-']) (Nat.ofDigitChars 10 ds 0))
      else .error (.malformedInteger 10 (String.ofList (sign ++ ds))) := by
  obtain ⟨hstrip, hsplit⟩ := @splitSign_stripChars _ _ [] sign [] (by simp) hsign h.1
    fun c hc => isDigit_of_isHexDigit (h.2 c hc)
  rw [nil_append, append_nil] at hstrip
  have hfilter : ds.filter (· != '_') = ds := by
    refine filter_eq_self.mpr fun c hc => ?_
    have := (readAsHexDigit (h.2 c hc)).not_mark
    simp_all
  rw [readInteger, String.toList_ofList, hstrip, hsplit]
  have hbase : ¬ (10 = 16) := by decide
  simp only [hbase, if_false, readDigits_ten h.2 0 (.inl h.1)]
  cases ds.all Char.isDigit with
  | true =>
    simp only [if_true, hfilter, true_and]
    rfl
  | false => rfl

/-- A float is read from digits, or from digits with a fraction and an exponent. -/
theorem exists_readFloat {rest : List Char} (hd : AreDigits Char.isDigit ds)
    (hrest : rest = [] ∨ ∃ f s e, AreDigits Char.isDigit f ∧ s ∈ ['+', '-'] ∧
      AreDigits Char.isDigit e ∧ rest = '.' :: f ++ 'e' :: s :: e) :
    ∃ x, readFloat (String.ofList (ds ++ rest)) = .ok x := by
  have hmark {c : Char} (hc : c.isDigit = true) : c ∉ ['e', 'E', '.', '+', '-'] := by
    rintro hmem
    simp only [mem_cons, not_mem_nil, or_false] at hmem
    rcases hmem with rfl | rfl | rfl | rfl | rfl
    all_goals exact absurd hc (by decide)
  have hspace {cs : List Char} (hcs : AreDigits Char.isDigit cs) : ∀ c ∈ cs, isSpaceChar c = false :=
    fun c hc => (readAsHexDigit (isHexDigit_of_isDigit (hcs.2 c hc))).not_space
  have hread {cs : List Char} (hcs : AreDigits Char.isDigit cs) :
      readDigits 10 cs 0 false = some (Nat.ofDigitChars 10 cs 0) ∧ cs.isEmpty = false := by
    rw [readDigits_ten (fun c hc => isHexDigit_of_isDigit (hcs.2 c hc)) 0 (.inl hcs.1),
      if_pos (all_eq_true.mpr hcs.2)]
    exact ⟨rfl, Bool.eq_false_iff.mpr fun hempty => hcs.1 (List.isEmpty_iff.mp hempty)⟩
  have hsplit : splitSign (ds ++ rest) = (false, ds ++ rest) := by
    obtain ⟨c, cs, rfl⟩ := exists_cons_of_ne_nil hd.1
    have hc := hmark (hd.2 c (.head _))
    simp only [mem_cons, not_mem_nil, or_false, not_or] at hc
    simp [splitSign_cons, hc]
  have hbefore {p : Char → Bool} (hp : ∀ c ∉ ['e', 'E', '.', '+', '-'], p c = true) {cs : List Char}
      (hcs : AreDigits Char.isDigit cs) : ∀ c ∈ cs, p c = true :=
    fun c hc => hp c (hmark (hcs.2 c hc))
  have hpoint : ∀ c ∉ ['e', 'E', '.', '+', '-'], (c != '.') = true := fun c hc => by simp_all
  have hletter : ∀ c ∉ ['e', 'E', '.', '+', '-'], (!(c == 'e' || c == 'E')) = true :=
    fun c hc => by simp_all
  have hwhole {cs : List Char} (hcs : ∀ c ∈ cs.head?, (c != '.') = false) :=
    AreDigits.span ⟨hd.1, hbefore hpoint hd⟩ hcs
  rcases hrest with rfl | ⟨f, s, e, hf, hs, he, rfl⟩
  · have hmantissa := @AreDigits.span _ _ [] ⟨hd.1, hbefore hletter hd⟩ nofun
    have hparts := @hwhole [] nofun
    rw [append_nil] at *
    rw [readFloat, String.toList_ofList, stripChars_eq_self (hspace hd), hsplit]
    simp only [hmantissa, hparts, hread hd]
    exact ⟨_, rfl⟩
  · have hmantissa : AreDigits (fun c => !(c == 'e' || c == 'E')) (ds ++ '.' :: f) := by
      refine ⟨by simp, fun c hc => ?_⟩
      rcases mem_append.mp hc with hc | hc
      · exact hbefore hletter hd c hc
      · rcases mem_cons.mp hc with rfl | hc
        · rfl
        · exact hbefore hletter hf c hc
    have hspan := @AreDigits.span _ _ ('e' :: s :: e) hmantissa (by simp)
    have hparts := @hwhole ('.' :: f) (by simp)
    have hexponent : (splitSign (s :: e)).2 = e := by
      simp only [mem_cons, not_mem_nil, or_false] at hs
      rcases hs with rfl | rfl
      all_goals rfl
    have hstrip : ∀ c ∈ ds ++ ('.' :: f ++ 'e' :: s :: e), isSpaceChar c = false := by
      have hsign : isSpaceChar s = false := by
        simp only [mem_cons, not_mem_nil, or_false] at hs
        rcases hs with rfl | rfl
        all_goals decide
      have hother : isSpaceChar '.' = false ∧ isSpaceChar 'e' = false := by decide
      simp only [mem_append, mem_cons]
      rintro c (hc | (rfl | hc) | rfl | rfl | hc)
      · exact hspace hd c hc
      · exact hother.1
      · exact hspace hf c hc
      · exact hother.2
      · exact hsign
      · exact hspace he c hc
    rw [readFloat, String.toList_ofList, stripChars_eq_self hstrip, hsplit, ← append_assoc]
    simp only [hspan, hparts, hread hd, hexponent, hread he]
    simp only [drop_one, tail_cons, hread hf]
    exact ⟨_, rfl⟩

end

/-! ## Values -/

namespace Numeral

/-- An exponent of two that can be applied: decimal digits, not too many of them, and not beyond what
is within range. -/
def ExponentFits (sign exponent : Option Lexeme) : Prop :=
  ∀ e ∈ exponent, e.text.toList.all Char.isDigit = true ∧ e.text.toList.length ≤ 4300 ∧
    Nat.ofDigitChars 10 e.text.toList 0 < if sign.any (·.text = "-") then Binary.bound else 1024

def fractionDigits (fraction : Option Lexeme) : List Char := (fraction.map (·.text.toList)).getD []

def HasValue : Numeral → Prop
  | .decimal d none _ none => d.text.toList.length ≤ 4300
  | .decimal .. => True
  | .hex _ none _ none => True
  | .hex d f s e => hexValue (d.text.toList ++ fractionDigits f) <
      Binary.bound * Nat.pow 16 (fractionDigits f).length ∧ ExponentFits s e

theorem value_unplaced (n : Numeral) : n.unplaced.value = n.value := by
  cases n with
  | decimal d f s e | hex d f s e => cases f <;> cases s <;> cases e <;> rfl

theorem exists_quotient_iff (a : Int) {b : Nat} (hb : b ≠ 0) :
    (∃ x, quotient a b = .ok x) ↔ a.natAbs < Binary.bound * b := by
  rw [← exists_ofRatio?_iff (a < 0) hb, quotient]
  split
  · next x hx => simp [hx]
  · next hx => simp [hx]

theorem exists_floatOfInt_iff (i : Int) :
    (∃ x, floatOfInt i = .ok x) ↔ i.natAbs < Binary.bound := by
  rw [← Nat.mul_one Binary.bound, ← exists_ofRatio?_iff (i < 0) Nat.one_ne_zero,
    floatOfInt, Binary.ofInt?]
  split
  · next x hx => simp [hx]
  · next hx => simp [hx]

theorem exists_twoTo_iff (negative : Bool) (e : Nat) :
    (∃ x, twoTo (signed negative e) = .ok x) ↔ e < if negative then Binary.bound else 1024 := by
  have hnonneg : (∃ x, twoTo e = .ok x) ↔ e < 1024 := by
    rw [twoTo, if_neg (by omega)]
    split
    · next hlarge =>
      refine iff_of_false ?_ (by omega)
      rintro ⟨x, hx⟩
      cases hx
    · next hsmall =>
      rw [exists_floatOfInt_iff]
      exact iff_of_true (two_pow_lt_bound (by omega)) (by omega)
  cases negative with
  | false => exact hnonneg
  | true =>
    rcases Nat.eq_zero_or_pos e with rfl | hpos
    · have hbound : Nat.pow 2 0 < Binary.bound := two_pow_lt_bound (by omega)
      exact iff_of_true (hnonneg.mpr (by omega)) (zero_lt_of_lt hbound)
    · have hneg : signed true e < 0 := by
        simp only [signed, if_true]
        omega
      have hfloat := exists_floatOfInt_iff (signed true e)
      have habs : (signed true e).natAbs = e := by simp [signed]
      rw [habs] at hfloat
      rw [twoTo, if_pos hneg, if_pos rfl, ← hfloat]
      cases floatOfInt (signed true e) with
      | ok x => exact iff_of_true ⟨_, rfl⟩ ⟨_, rfl⟩
      | error u =>
        refine iff_of_false ?_ ?_
        all_goals
          rintro ⟨x, hx⟩
          cases hx

theorem exists_exponent_iff {sign ds : List Char} (hsign : sign ∈ [[], ['+'], ['-']])
    (h : AreDigits isHexDigit ds) :
    (∃ i, readInteger 10 (String.ofList (sign ++ ds)) = .ok i ∧ ∃ x, twoTo i = .ok x) ↔
      ds.all Char.isDigit = true ∧ ds.length ≤ 4300 ∧
        Nat.ofDigitChars 10 ds 0 < if sign = ['-'] then Binary.bound else 1024 := by
  rw [readInteger_ten hsign h]
  cases ds.all Char.isDigit with
  | false => exact iff_of_false (fun ⟨_, h, _⟩ => nomatch h) (fun ⟨h, _⟩ => nomatch h)
  | true =>
    by_cases hlength : 4300 < ds.length
    · rw [if_pos rfl, if_pos hlength]
      exact iff_of_false (fun ⟨_, h, _⟩ => nomatch h) fun ⟨_, h, _⟩ => by omega
    · have hvalue := exists_twoTo_iff (sign = ['-']) (Nat.ofDigitChars 10 ds 0)
      simp only [decide_eq_true_eq] at hvalue
      rw [if_pos rfl, if_neg hlength, ← hvalue]
      constructor
      · rintro ⟨i, hi, hx⟩
        cases hi
        exact ⟨rfl, by omega, hx⟩
      · exact fun ⟨_, _, hx⟩ => ⟨_, rfl, hx⟩

variable {f s e : Option Lexeme} {fraction exponent : List (List Char)}

theorem areDigits_zero {isDigit : Char → Bool} (h : isDigit '0' = true) :
    AreDigits isDigit "0".toList :=
  ⟨cons_ne_nil '0' [], forall_mem_singleton.mpr h⟩

theorem ExponentSpelled.fits_iff (h : ExponentSpelled isHexDigit 'p' 'P' s e exponent) :
    (∃ i, readInteger 10 (s.elim "+" (·.text) ++ e.elim "0" (·.text)) = .ok i ∧
      ∃ x, twoTo i = .ok x) ↔ ExponentFits s e := by
  have happend (sign ds : String) : sign ++ ds = String.ofList (sign.toList ++ ds.toList) := by
    rw [String.ofList_append, String.ofList_toList, String.ofList_toList]
  have hsome {sign e : Lexeme} (hs : sign.text.toList ∈ [[], ['+'], ['-']])
      (he : AreDigits isHexDigit e.text.toList) :
      (∃ i, readInteger 10 (sign.text ++ e.text) = .ok i ∧ ∃ x, twoTo i = .ok x) ↔
        ExponentFits (some sign) (some e) := by
    have hminus : sign.text = "-" ↔ sign.text.toList = ['-'] := String.toList_inj.symm
    rw [happend, exists_exponent_iff hs he]
    simp [ExponentFits, hminus]
  cases h with
  | none =>
    refine iff_of_true ((@hsome { text := "+" } { text := "0" } ?_ ?_).mpr fun e he => ?_) nofun
    · exact .tail _ (.head _)
    · exact areDigits_zero rfl
    · cases he
      decide
  | plain hmark he => exact @hsome { text := "+" } _ (.tail _ (.head _)) he
  | signed hmark hs he =>
    refine hsome ?_ he
    rcases hs with hs | hs
    all_goals simp [hs]

theorem value_decimal (d : Lexeme) (hparts : f.isSome || e.isSome) :
    (Numeral.decimal d f s e).value = (do
      return .float (← readFloat (d.text ++ "." ++ f.elim "0" (·.text) ++ "e" ++ s.elim "+" (·.text)
        ++ e.elim "0" (·.text)))) := by
  cases f with
  | some f => rfl
  | none =>
    cases e with
    | some e => rfl
    | none => cases hparts

theorem value_hex (d : Lexeme) (hparts : f.isSome || e.isSome) :
    (Numeral.hex d f s e).value = (do
      let whole ← readInteger 16 (d.text ++ f.elim "" (·.text))
      let x ← quotient whole (Nat.pow 16 (f.elim "" (·.text)).length)
      let i ← readInteger 10 (s.elim "+" (·.text) ++ e.elim "0" (·.text))
      return .float (x * (← twoTo i))) := by
  cases f with
  | some f => rfl
  | none =>
    cases e with
    | some e => rfl
    | none => cases hparts

variable {d : Lexeme}

theorem exists_value_decimal (hd : AreDigits Char.isDigit d.text.toList)
    (hf : FractionSpelled Char.isDigit f fraction)
    (he : ExponentSpelled Char.isDigit 'e' 'E' s e exponent) (hparts : f.isSome || e.isSome) :
    ∃ v, (Numeral.decimal d f s e).value = .ok v := by
  have hfraction : AreDigits Char.isDigit (f.elim "0" (·.text)).toList := by
    cases hf with
    | none => exact areDigits_zero rfl
    | some _ hf => exact hf
  obtain ⟨c, hc, hsign, hdigits⟩ : ∃ c, c ∈ ['+', '-'] ∧ (s.elim "+" (·.text)).toList = [c] ∧
      AreDigits Char.isDigit (e.elim "0" (·.text)).toList := by
    cases he with
    | none => exact ⟨'+', .head _, rfl, areDigits_zero rfl⟩
    | plain _ he => exact ⟨'+', .head _, rfl, he⟩
    | signed _ hs he =>
      rcases hs with hs | hs
      · exact ⟨'+', .head _, hs, he⟩
      · exact ⟨'-', .tail _ (.head _), hs, he⟩
  obtain ⟨x, hx⟩ := exists_readFloat hd (.inr ⟨_, c, _, hfraction, hc, hdigits, rfl⟩)
  have htext : d.text ++ "." ++ f.elim "0" (·.text) ++ "e" ++ s.elim "+" (·.text)
      ++ e.elim "0" (·.text) = String.ofList (d.text.toList ++
        ('.' :: (f.elim "0" (·.text)).toList ++ 'e' :: c :: (e.elim "0" (·.text)).toList)) := by
    apply String.toList_inj.mp
    simp [hsign]
  refine ⟨.float x, ?_⟩
  rw [value_decimal d hparts, htext, hx]
  rfl

/-- A float is made of hexadecimal digits and an exponent that are within range. -/
theorem exists_value_hex (hd : AreDigits isHexDigit d.text.toList)
    (hf : FractionSpelled isHexDigit f fraction)
    (he : ExponentSpelled isHexDigit 'p' 'P' s e exponent) (hparts : f.isSome || e.isSome) :
    (∃ v, (Numeral.hex d f s e).value = .ok v) ↔ hexValue (d.text.toList ++ fractionDigits f) <
      Binary.bound * Nat.pow 16 (fractionDigits f).length ∧ ExponentFits s e := by
  have hfraction : (f.elim "" (·.text)).toList = fractionDigits f ∧
      ∀ c ∈ fractionDigits f, isHexDigit c = true := by
    cases hf with
    | none => exact ⟨rfl, nofun⟩
    | some _ hf => exact ⟨rfl, hf.2⟩
  have htext : d.text ++ f.elim "" (·.text) =
      String.ofList (d.text.toList ++ fractionDigits f) := by
    apply String.toList_inj.mp
    simp [hfraction.1]
  have hall : ∀ c ∈ d.text.toList ++ fractionDigits f, isHexDigit c = true := by
    intro c hc
    exact (mem_append.mp hc).elim (hd.2 c) (hfraction.2 c)
  have hwhole := readInteger_hex hall (fun hnil => hd.1 (append_eq_nil_iff.mp hnil).1)
  have hquotient := exists_quotient_iff (hexValue (d.text.toList ++ fractionDigits f))
    (Nat.pow_pos (n := (fractionDigits f).length) (by decide : 0 < 16)).ne'
  rw [value_hex d hparts, htext, hwhole, ← String.length_toList, hfraction.1, ← he.fits_iff]
  rw [Int.natAbs_natCast] at hquotient
  refine Iff.trans ?_ (and_congr_left' hquotient)
  simp only [bind, Except.bind]
  cases quotient (hexValue (d.text.toList ++ fractionDigits f))
      (Nat.pow 16 (fractionDigits f).length) with
  | error u => exact iff_of_false (fun ⟨_, h⟩ => nomatch h) (fun ⟨⟨_, h⟩, _⟩ => nomatch h)
  | ok x =>
    cases readInteger 10 (s.elim "+" (·.text) ++ e.elim "0" (·.text)) with
    | error u => exact iff_of_false (fun ⟨_, h⟩ => nomatch h) (fun ⟨_, _, h, _⟩ => nomatch h)
    | ok i =>
      cases htwo : twoTo i with
      | error u =>
        refine iff_of_false (fun ⟨_, h⟩ => ?_) (fun ⟨_, _, hi, _, h⟩ => ?_)
        · simp only [htwo] at h
          cases h
        · cases hi
          cases htwo.symm.trans h
      | ok y => exact iff_of_true ⟨.float (x * y), by simp only [htwo]; rfl⟩ ⟨⟨x, rfl⟩, i, rfl, y, htwo⟩

/-- Digits alone are read as an integer, unless they are too many, or as a float if it is too large. -/
theorem value_digits (hd : AreDigits Char.isDigit d.text.toList) :
    if 4300 < d.text.toList.length then
      (Numeral.decimal d none none none).value = .error (.tooManyDigits d.text.toList.length)
    else ∃ v, (Numeral.decimal d none none none).value = .ok v ∧
      (Nat.ofDigitChars 10 d.text.toList 0 ≤ maxInt →
        v = .int (Nat.ofDigitChars 10 d.text.toList 0)) := by
  have hvalue : (Numeral.decimal d none none none).value = (do
      let i ← readInteger 10 d.text
      if maxInt < i then return .float (← readFloat d.text) else return .int i) := rfl
  have hread := readInteger_ten (.head _)
    ⟨hd.1, fun c hc => isHexDigit_of_isDigit (hd.2 c hc)⟩
  rw [nil_append, String.ofList_toList, if_pos (all_eq_true.mpr hd.2)] at hread
  rw [hvalue, hread]
  split
  · rfl
  · obtain ⟨x, hx⟩ := exists_readFloat hd (.inl rfl)
    rw [append_nil, String.ofList_toList] at hx
    rw [hx]
    simp only [bind, Except.bind]
    split
    · next hlarge => exact ⟨_, rfl, fun hle => absurd hle (Int.not_le.mpr hlarge)⟩
    · exact ⟨_, rfl, fun _ => rfl⟩

theorem exists_value_iff {n : Numeral} {tokens : List (List Char)} (h : n.Spelled tokens) :
    (∃ v, n.value = .ok v) ↔ n.HasValue := by
  cases h with
  | @decimal d f s e fraction exponent hd hf he =>
    cases hf with
    | some hp hf => exact iff_of_true (exists_value_decimal hd (.some hp hf) he rfl) trivial
    | none =>
      cases he with
      | plain hm he => exact iff_of_true (exists_value_decimal hd .none (.plain hm he) rfl) trivial
      | signed hm hs he =>
        exact iff_of_true (exists_value_decimal hd .none (.signed hm hs he) rfl) trivial
      | none =>
        have hdigits := value_digits hd
        split at hdigits
        · next hlong =>
          exact iff_of_false (fun ⟨_, h⟩ => nomatch hdigits.symm.trans h) (Nat.not_le.mpr hlong)
        · next hlong => exact iff_of_true (hdigits.imp fun _ => And.left) (Nat.not_lt.mp hlong)
  | @hex zero letter d f s e fraction exponent hz hx hd hf he =>
    cases hf with
    | some hp hf => exact exists_value_hex hd (.some hp hf) he rfl
    | none =>
      cases he with
      | plain hm he => exact exists_value_hex hd .none (.plain hm he) rfl
      | signed hm hs he => exact exists_value_hex hd .none (.signed hm hs he) rfl
      | none =>
        have hread := readInteger_hex hd.2 hd.1
        have hvalue : (Numeral.hex d none none none).value = (do
          return .int (wrap (← readInteger 16 d.text))) := rfl
        rw [String.ofList_toList] at hread
        rw [hvalue, hread]
        exact iff_of_true ⟨_, rfl⟩ trivial

end Numeral

end LuaInterpreter
