import Mathlib.Data.List.Basic
import Mathlib.Data.Nat.Digits.Defs
import LuaInterpreter.Proofs.ProtectedCall
import LuaInterpreter.Proofs.QuotedLiteral
import LuaInterpreter.Proofs.Utf8

/-!
# Numbers in any base

With a base, `tonumber` reads positional notation: digits and letters of either case, a sign before
them, and white space around. Any other text that is not blank gives `nil`.
-/

namespace LuaInterpreter.BasicLibrary

open Run List Bytes Literal

open Evaluator (withFuel)

open Number (maxInt)

/-! ## Digits -/

def digitChars : List Char := "0123456789abcdefghijklmnopqrstuvwxyz".toList

/-- A digit below the base, of either case. -/
def IsDigit (base : Nat) (c : Char) : Prop := c.toLower ∈ digitChars.take base

instance (base : Nat) (c : Char) : Decidable (IsDigit base c) :=
  inferInstanceAs (Decidable (c.toLower ∈ digitChars.take base))

def digitIn (c : Char) : Nat := digitChars.idxOf c.toLower

/-- The number that digits stand for, the last of which counts ones. -/
def valueIn (base : Nat) (digits : List Char) : Nat :=
  Nat.ofDigits base (digits.reverse.map digitIn)

/-- Numbers that are too large count as `-1`. -/
def capped (n : Int) : Int := if n < maxInt then n else -1

def signed (negative : Bool) (n : Int) : Int := if negative then -n else n

section

variable {base : Nat} {c : Char} {digits text : List Char} {s : Store}

theorem toNat_lt_of_toLower_mem (h : c.toLower ∈ digitChars) : c.toNat < 128 := by
  have hall : digitChars.all (fun d => decide (d.toNat < 128)) = true := by decide
  have hlower : c.toLower.toNat < 128 := by simpa using all_eq_true.mp hall _ h
  by_contra hge
  have hself : c.toLower = c := by
    delta Char.toLower
    rw [dif_neg]
    rw [ge_iff_le, UInt32.le_iff_toNat_le, UInt32.le_iff_toNat_le]
    have hZ : ('Z' : Char).val.toNat = 90 := rfl
    have hc : c.toNat = c.val.toNat := rfl
    omega
  rw [hself] at hlower
  exact hge hlower

theorem digitValue?_eq (c : Char) :
    (if c.toNat < 128 then digitValue? c else none) =
      if c.toLower ∈ digitChars then some (digitIn c) else none := by
  by_cases hc : c.toNat < 128
  · have hall : ∀ n < 128, digitValue? (Char.ofNat n) =
        if (Char.ofNat n).toLower ∈ digitChars then some (digitIn (Char.ofNat n)) else none := by
      decide +kernel
    have heq := hall c.toNat hc
    rw [Char.ofNat_toNat] at heq
    rw [if_pos hc, heq]
  · rw [if_neg hc, if_neg fun hmem => hc (toNat_lt_of_toLower_mem hmem)]

theorem isDigit_iff_digitIn_lt (h : c.toLower ∈ digitChars) : IsDigit base c ↔ digitIn c < base :=
  mem_take_iff_idxOf_lt h

theorem baseDigits_cons (h : IsDigit base c) (cs : List Char) :
    baseDigits (.int base) (c :: cs) s =
      (do return (← baseDigits (.int base) cs).map (digitIn c :: ·) : Run (Option (List Nat))) s := by
  have hmem : c.toLower ∈ digitChars := mem_of_mem_take h
  have hlt : digitIn c < base := (isDigit_iff_digitIn_lt hmem).mp h
  have hle : ¬ (Number.int base).le (.int (digitIn c)) = true := by
    simpa [Number.le, Number.lt] using hlt
  rw [baseDigits, digitValue?_eq, if_pos hmem]
  refine (bind_of_ok (rfl : Argument.number (.int base) s = .ok (.int base) s)).trans ?_
  rw [if_neg hle]

theorem baseDigits_of_isDigit (h : ∀ c ∈ digits, IsDigit base c) :
    baseDigits (.int base) digits s = .ok (some (digits.map digitIn)) s := by
  induction digits with
  | nil => rfl
  | cons c cs ih =>
    rw [baseDigits_cons (h c (.head _)), bind_of_ok (ih fun c hc => h c (.tail _ hc))]
    rfl

theorem baseDigits_of_not_isDigit (h : ∃ c ∈ digits, ¬IsDigit base c) :
    baseDigits (.int base) digits s = .ok none s := by
  induction digits with
  | nil =>
    obtain ⟨_, hc, _⟩ := h
    cases hc
  | cons c cs ih =>
    by_cases hc : IsDigit base c
    · have hrest : ∃ d ∈ cs, ¬IsDigit base d := by
        obtain ⟨d, hd, hnot⟩ := h
        rcases mem_cons.mp hd with rfl | hd
        · exact absurd hc hnot
        · exact ⟨d, hd, hnot⟩
      rw [baseDigits_cons hc, bind_of_ok (ih hrest)]
      rfl
    · rw [baseDigits, digitValue?_eq]
      by_cases hmem : c.toLower ∈ digitChars
      · have hle : (Number.int base).le (.int (digitIn c)) = true := by
          rw [isDigit_iff_digitIn_lt hmem] at hc
          simpa [Number.le] using hc
        rw [if_pos hmem]
        refine (bind_of_ok (rfl : Argument.number (.int base) s = .ok (.int base) s)).trans ?_
        rw [if_pos hle]
        rfl
      · rw [if_neg hmem]
        rfl

theorem foldDigits_eq (base : Nat) (digits : List Char) :
    foldDigits base (digits.map digitIn) = valueIn base digits := by
  have hfold (acc : Nat) : digits.foldl (fun (n : Int) c => n * base + digitIn c) acc =
      (digits.foldl (fun n c => digitIn c + base * n) acc : Nat) := by
    induction digits generalizing acc with
    | nil => rfl
    | cons c cs ih =>
      have hstep : (acc : Int) * base + digitIn c = (digitIn c + base * acc : Nat) := by
        push_cast
        ring
      rw [foldl_cons, foldl_cons, hstep, ih]
  rw [foldDigits, foldl_map, valueIn, Nat.ofDigits_eq_foldr, foldr_map, foldr_reverse]
  exact hfold 0

/-! ## A text in a base -/

/-- The characters of a text that is given to a function, without the white space around them. -/
theorem decode_strip_ofChars (text : List Char) (s : Store) :
    Argument.decode (ofChars text).strip s = .ok (String.ofList (stripChars text)) s := by
  rw [Argument.decode, strip_ofChars, decodeUtf8?_ofChars]
  rfl

theorem splitSign_cons (c : Char) (cs : List Char) :
    splitSign (c :: cs) = (c == '-', if c = '+' || c = '-' then cs else c :: cs) := by
  unfold splitSign
  split
  · next hc => cases hc; rfl
  · next hc => cases hc; rfl
  · next hminus hplus =>
    have hc : c ≠ '-' := fun hc => hminus cs (hc ▸ rfl)
    have hc' : c ≠ '+' := fun hc => hplus cs (hc ▸ rfl)
    simp [hc, hc']

theorem digitsNumber_eq (base : Nat) (digits : List Char) (s : Store) :
    digitsNumber (.int base) (digits.map digitIn) s = .ok (capped (valueIn base digits)) s := by
  cases digits with
  | nil =>
    have hvalue : valueIn base [] = 0 := rfl
    rw [hvalue, capped, if_pos (by decide)]
    rfl
  | cons c cs =>
    rw [← foldDigits_eq]
    rfl

theorem tonumberIn_of_isDigit (hne : stripChars text ≠ [])
    (h : ∀ c ∈ (splitSign (stripChars text)).2, IsDigit base c) :
    tonumberIn (.str (ofChars text)) (.int base) s =
      .ok (.int (signed (splitSign (stripChars text)).1
        (capped (valueIn base (splitSign (stripChars text)).2)))) s := by
  obtain ⟨c, cs, hcs⟩ := exists_cons_of_ne_nil hne
  rw [hcs, splitSign_cons] at h ⊢
  refine (bind_of_ok (decode_strip_ofChars text s)).trans ?_
  rw [String.toList_ofList, hcs]
  refine (bind_of_ok (baseDigits_of_isDigit h)).trans ?_
  refine (bind_of_ok (digitsNumber_eq base _ s)).trans ?_
  simp [signed]

theorem tonumberIn_of_not_isDigit (h : ∃ c ∈ (splitSign (stripChars text)).2, ¬IsDigit base c) :
    tonumberIn (.str (ofChars text)) (.int base) s = .ok .nil s := by
  obtain ⟨c, cs, hcs⟩ : ∃ c cs, stripChars text = c :: cs := by
    refine exists_cons_of_ne_nil fun hnil => ?_
    obtain ⟨c, hc, _⟩ := h
    rw [hnil] at hc
    cases hc
  rw [hcs, splitSign_cons] at h
  refine (bind_of_ok (decode_strip_ofChars text s)).trans ?_
  rw [String.toList_ofList, hcs]
  exact bind_of_ok (baseDigits_of_not_isDigit h)

/-! ## Calls -/

theorem call_tonumberIn {k : Evaluator} {g : Nat} {scope : Option Nat} {sc : Nat} {traced : Bool}
    {s t : Store} {e base v : Value} (hg : s.function? g = some (.ofBuiltin .tonumber))
    (hscope : Eval.scopeFor (.ofBuiltin .tonumber) scope s = .ok sc t)
    (hrun : tonumberIn e base t = .ok v t) :
    Eval.call k (.func g) [.one e, .one base] scope traced s = .ok (.ofList [v]) t := by
  refine Eval.call_builtin_of_ok hg ?_
  rw [Eval.runNative_of_check rfl rfl hscope]
  exact bind_of_ok hrun

theorem isSpaceChar_of_mem {c : Char} (h : c ∈ whiteSpace) : isSpaceChar c = true :=
  isBlank_iff.mpr h

theorem IsDigit.not_isSpaceChar (h : IsDigit base c) : isSpaceChar c = false ∧ c ≠ '+' ∧ c ≠ '-' := by
  have hmem : c.toLower ∈ digitChars := mem_of_mem_take h
  have hall : ∀ n < 128, (Char.ofNat n).toLower ∈ digitChars →
      isSpaceChar (Char.ofNat n) = false ∧ Char.ofNat n ≠ '+' ∧ Char.ofNat n ≠ '-' := by
    decide +kernel
  have hc := hall c.toNat (toNat_lt_of_toLower_mem hmem)
  rw [Char.ofNat_toNat] at hc
  exact hc hmem

theorem splitSign_stripChars {before sign after : List Char}
    (hspace : ∀ c ∈ before ++ after, c ∈ whiteSpace) (hsign : sign ∈ [[], ['+'], ['-']])
    (hne : digits ≠ []) (hdigits : ∀ c ∈ digits, IsDigit base c) :
    stripChars (before ++ (sign ++ digits) ++ after) = sign ++ digits ∧
      splitSign (sign ++ digits) = (decide (sign = ['-']), digits) := by
  constructor
  · refine stripChars_append (fun c hc => ?_) (fun c hc => ?_) ?_ fun c hc => ?_
    · exact isSpaceChar_of_mem (hspace c (mem_append_left _ hc))
    · exact isSpaceChar_of_mem (hspace c (mem_append_right _ hc))
    · exact fun hnil => hne (append_eq_nil_iff.mp hnil).2
    · have hmem : c ∈ sign ++ digits := by
        rcases hc with hc | hc
        · exact mem_of_head? hc
        · exact mem_of_getLast? hc
      rcases mem_append.mp hmem with hc | hc
      · simp only [mem_cons, not_mem_nil, or_false] at hsign
        rcases hsign with rfl | rfl | rfl
        · cases hc
        · rw [mem_singleton.mp hc]; rfl
        · rw [mem_singleton.mp hc]; rfl
      · exact (hdigits c hc).not_isSpaceChar.1
  · simp only [mem_cons, not_mem_nil, or_false] at hsign
    rcases hsign with rfl | rfl | rfl
    · obtain ⟨d, ds, rfl⟩ := exists_cons_of_ne_nil hne
      obtain ⟨-, hplus, hminus⟩ := (hdigits d (.head _)).not_isSpaceChar
      simp [splitSign_cons, hplus, hminus]
    · rfl
    · rfl

/-- With a base, `tonumber` reads digits below the base as the number that they stand for, with a sign
before them and white space around; this is so up to the second greatest integer. A text with
another character in it, apart from white space around it and a sign, gives `nil`. -/
theorem tonumber_reads_digits_of_base {base g sc : Nat} {scope : Option Nat} {s t : Store}
    (hg : s.function? g = some (.ofBuiltin .tonumber))
    (hscope : Eval.scopeFor (.ofBuiltin .tonumber) scope s = .ok sc t) (n : Nat) (traced : Bool) :
    (∀ before sign digits after : List Char, (∀ c ∈ before ++ after, c ∈ Literal.whiteSpace) →
      sign ∈ [[], ['+'], ['-']] → digits ≠ [] → (∀ c ∈ digits, IsDigit base c) →
      valueIn base digits < maxInt →
      (withFuel (n + 1)).call (.func g)
          [.one (.str (Bytes.ofChars (before ++ (sign ++ digits) ++ after))), .one (.int base)]
          scope traced s =
        .ok (.ofList [.int (if sign = ['-'] then -valueIn base digits else valueIn base digits)]) t) ∧
    ∀ text : List Char, (∃ c ∈ (splitSign (stripChars text)).2, ¬IsDigit base c) →
      (withFuel (n + 1)).call (.func g) [.one (.str (Bytes.ofChars text)), .one (.int base)] scope
          traced s =
        .ok (.ofList [.nil]) t := by
  constructor
  · intro before sign digits after hspace hsign hne hdigits hvalue
    obtain ⟨hstrip, hsplit⟩ := splitSign_stripChars hspace hsign hne hdigits
    have hne' : stripChars (before ++ (sign ++ digits) ++ after) ≠ [] := by
      rw [hstrip]
      exact fun hnil => hne (append_eq_nil_iff.mp hnil).2
    have hdigits' : ∀ c ∈ (splitSign (stripChars (before ++ (sign ++ digits) ++ after))).2,
        IsDigit base c := by
      rw [hstrip, hsplit]
      exact hdigits
    have hread := tonumberIn_of_isDigit (s := t) hne' hdigits'
    rw [hstrip, hsplit, capped, if_pos hvalue] at hread
    simp only [signed, decide_eq_true_eq] at hread
    exact call_tonumberIn hg hscope hread
  · exact fun text h => call_tonumberIn hg hscope (tonumberIn_of_not_isDigit h)

end

theorem digits_of_either_case_are_read :
    valueIn 36 ['z', 'A'] = 1270 ∧
    (withFuel 1).call (.func Builtin.tonumber.number)
        [.one (.str (Bytes.ofChars ([' '] ++ (['-'] ++ ['z', 'A']) ++ ['\n']))), .one (.int (36 : Nat))]
        (some 0) false (Store.initial {}) =
      .ok (.ofList [.int (-1270)]) (Store.initial {}) ∧
    (withFuel 1).call (.func Builtin.tonumber.number)
        [.one (.str (Bytes.ofChars ['+', '1', 'G'])), .one (.int (16 : Nat))]
        (some 0) false (Store.initial {}) =
      .ok (.ofList [.nil]) (Store.initial {}) := by
  have hvalue : valueIn 36 ['z', 'A'] = 1270 := by decide
  have hg : (Store.initial {}).function? Builtin.tonumber.number =
      some (.ofBuiltin .tonumber) := rfl
  have hscope : Eval.scopeFor (.ofBuiltin .tonumber) (some 0) (.initial {}) =
      .ok 0 (.initial {}) := rfl
  have hspace : ∀ c ∈ [' '] ++ ['\n'], c ∈ whiteSpace := by simp [whiteSpace]
  have hdigits : ∀ c ∈ ['z', 'A'], IsDigit 36 c :=
    forall_mem_cons.mpr ⟨by decide, forall_mem_singleton.mpr (by decide)⟩
  have hread := (tonumber_reads_digits_of_base hg hscope 0 false).1 [' '] ['-'] ['z', 'A'] ['\n']
    hspace (by simp) (cons_ne_nil _ _) hdigits (by rw [hvalue]; decide)
  have hother : ∃ c ∈ (splitSign (stripChars ['+', '1', 'G'])).2, ¬IsDigit 16 c :=
    ⟨'G', by decide, by decide⟩
  exact ⟨hvalue, hread, (tonumber_reads_digits_of_base hg hscope 0 false).2 _ hother⟩

end LuaInterpreter.BasicLibrary
