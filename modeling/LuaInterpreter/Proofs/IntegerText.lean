import LuaInterpreter.Proofs.NumberReading

/-!
# Integers as text

The text of an integer is read as that integer again, by `tonumber` and, if it is not negative, as an
expression. This is so for all integers but the least one, whose digits are beyond the greatest.
-/

namespace LuaInterpreter

open Run Scan List DecimalNumeral

open Evaluator (withFuel)

open Number (maxInt minInt)

open NumberText (digitsOf)

open BasicLibrary (expr_numeral_eq_ok_iff call_tonumber_eq_num_iff splitSign_stripChars IsDigit)

/-! ## Digits -/

variable {n : Nat}

theorem areDigits_digitsOf (n : Nat) : AreDigits Char.isDigit (digitsOf n) :=
  ⟨Nat.toDigits_ne_nil, fun _ hc => Nat.isDigit_of_mem_toDigits (by decide) (by decide) hc⟩

theorem length_digitsOf_le (hn : n ≤ maxInt) : (digitsOf n).length ≤ 4300 := by
  refine Nat.le_trans ((Nat.length_toDigits_le_iff (k := 19) (by decide) (by decide)).mpr ?_) (by decide)
  simp only [maxInt] at hn
  omega

theorem value_digitsOf (hn : n ≤ maxInt) (line : Int) :
    (Numeral.decimal ⟨String.ofList (digitsOf n), line⟩ none none none).value = .ok (.int n) := by
  have hvalue := Numeral.value_digits (d := ⟨String.ofList (digitsOf n), line⟩)
    (by rw [String.toList_ofList]; exact areDigits_digitsOf n)
  rw [String.toList_ofList, if_neg (Nat.not_lt.mpr (length_digitsOf_le hn)), digitsOf,
    Nat.ofDigitChars_ten_toDigits] at hvalue
  obtain ⟨v, hv, hint⟩ := hvalue
  rw [digitsOf, hv, hint hn]

theorem exists_readNumeral_digitsOf (hn : n ≤ maxInt) :
    ∃ numeral, readNumeral (String.ofList (digitsOf n)) = .ok numeral ∧
      numeral.value = .ok (.int n) := by
  have hdigits := areDigits_digitsOf n
  have hdashes : ¬"--".toList <:+: digitsOf n := fun h =>
    absurd (hdigits.2 '-' (h.subset (.head _))) (by decide)
  have hrendered : Rendered (∀ c ∈ ·, isBlank c = true) [digitsOf n] ([] ++ digitsOf n ++ []) :=
    .cons (forall_mem_nil _) (.nil (forall_mem_nil _))
  have hwritten : (Numeral.decimal ⟨String.ofList (digitsOf n), 1⟩ none none none).WrittenAs
      (∀ c ∈ ·, isBlank c = true) (digitsOf n) := by
    refine ⟨_, .decimal ?_ .none .none, ?_⟩
    · rwa [String.toList_ofList]
    · rw [nil_append, append_nil] at hrendered
      rwa [String.toList_ofList]
  obtain ⟨numeral, hread⟩ := hwritten.of_blanks.exists_readNumeral
  refine ⟨numeral, hread, ?_⟩
  rw [((Numeral.writtenAs_of_readNumeral hread).all_blank hdashes).value_eq hwritten,
    value_digitsOf hn]

theorem readExpr_digitsOf (n : Nat) : readExpr (String.ofList (digitsOf n)) =
    .ok (.mk { line := 1 } (.numeral (.decimal ⟨String.ofList (digitsOf n), 1⟩ none none none))) := by
  have hdigits := areDigits_digitsOf n
  let e : Formula := .atom (.numeral ⟨⟨digitsOf n, hdigits.1, hdigits.2⟩, none, none⟩)
  have hspell : Formula.spell e.tokens = digitsOf n := by
    simp [e, Formula.spell, Formula.tokens, Formula.Token.chars, Atom.chars, chars,
      fractionChars, exponentChars]
  have hread := Formula.readText_spell (e := e) trivial
  have hbuilds : Build.build (.node e.rule e.trees) = .ok (.expr e.toExpr, some 1) := e.builds
  rw [hspell] at hread
  rw [readExpr, String.toList_ofList, readPiece, hread]
  dsimp only
  rfl

/-! ## Integers -/

theorem text_int {n : Int} (hn : n.natAbs ≤ maxInt) (s : Store) :
    text (.int n) s = .ok (integerText n) s := by
  have hatom : s.atomText (.int n) = .ok (integerText n) :=
    if_neg (Nat.not_lt.mpr (length_digitsOf_le hn))
  have htext : s.text (.int n) = .ok (integerText n) := by
    rw [Store.text, Store.textFrom, hatom]
    · rfl
    · intro _ _ _ h
      cases h
  show Run.ofExcept (s.text (.int n)) s = _
  rw [htext]
  rfl

theorem toList_integerText (n : Int) :
    (integerText n).toList = (if n < 0 then ['-'] else []) ++ digitsOf n.natAbs := by
  unfold integerText
  split
  · simp
  · simp

/-- Digits with a sign before them and white space around are read as the integer. -/
theorem call_tonumber_digitsOf {g sc : Nat} {scope : Option Nat} {s t : Store}
    (hg : s.function? g = some (.ofBuiltin .tonumber))
    (hscope : Eval.scopeFor (.ofBuiltin .tonumber) scope s = .ok sc t) (hn : n ≤ maxInt)
    {before sign after : List Char} (hspace : ∀ c ∈ before ++ after, c ∈ Literal.whiteSpace)
    (hsign : sign ∈ [[], ['+'], ['-']]) (m : Nat) (traced : Bool) :
    (withFuel (m + 3)).call (.func g)
        [.one (.str (Bytes.ofChars (before ++ (sign ++ digitsOf n) ++ after)))] scope traced s =
      .ok (.ofList [.int (if sign = ['-'] then -n else n)]) t := by
  have hdigits := areDigits_digitsOf n
  obtain ⟨hstrip, hsplit⟩ := splitSign_stripChars hspace hsign hdigits.1
    fun c hc => isDigit_of_isHexDigit (isHexDigit_of_isDigit (hdigits.2 c hc))
  obtain ⟨numeral, hread, hvalue⟩ := exists_readNumeral_digitsOf hn
  refine (call_tonumber_eq_num_iff hg hscope).mpr ?_
  rw [hstrip, hsplit]
  refine ⟨fun hnil => hdigits.1 (List.append_eq_nil_iff.mp hnil).2, numeral, _, hread, hvalue, ?_⟩
  by_cases hminus : sign = ['-']
  · simp [hminus, Number.negate]
  · simp [hminus]

/-- The text of an integer, if it is written and read in any store, is read as that integer. White
space may stand around it, and a plus sign before it if there is no minus sign. What is not negative
is also an expression. -/
theorem integers_survive_text {f g sc sc' : Nat} {scope scope' : Option Nat} {s t u v : Store}
    (hf : s.function? f = some (.ofBuiltin .tostring))
    (hscope : Eval.scopeFor (.ofBuiltin .tostring) scope s = .ok sc t)
    (hg : u.function? g = some (.ofBuiltin .tonumber))
    (hscope' : Eval.scopeFor (.ofBuiltin .tonumber) scope' u = .ok sc' v) {n : Int}
    (hmin : minInt < n) (hmax : n ≤ maxInt) (m : Nat) (traced : Bool) :
    (withFuel (m + 1)).call (.func f) [.one (.int n)] scope traced s =
      .ok (.ofList [.text (integerText n)]) t ∧
    (∀ before sign after : List Char, (∀ c ∈ before ++ after, c ∈ Literal.whiteSpace) →
      sign = [] ∨ sign = ['+'] ∧ 0 ≤ n →
      (withFuel (m + 3)).call (.func g)
          [.one (.str (Bytes.ofChars (before ++ (sign ++ (integerText n).toList) ++ after)))] scope'
          traced u =
        .ok (.ofList [.int n]) v) ∧
    (0 ≤ n → ∀ (scope : Nat) (w : Store), Chunk.evaluate (withFuel (m + 1)) scope (integerText n) w =
      .ok (.many [.one (.int n)]) w) := by
  have hdigits : (n.natAbs : Int) ≤ maxInt := by
    simp only [minInt, maxInt] at hmin hmax ⊢
    omega
  refine ⟨?_, fun before sign after hspace hsign => ?_, fun hn scope w => ?_⟩
  · refine Eval.call_builtin_of_ok hf ?_
    rw [Eval.runNative_of_check rfl rfl hscope]
    exact bind_of_ok (text_int hdigits t)
  · rw [toList_integerText]
    rcases Int.lt_or_le n 0 with hneg | hpos
    · obtain rfl : sign = [] := hsign.resolve_right fun h => absurd h.2 (Int.not_le.mpr hneg)
      have hminus : ['-'] ∈ [[], ['+'], ['-']] := by simp
      have hread := call_tonumber_digitsOf hg hscope' hdigits hspace hminus m traced
      rw [if_pos rfl, Int.ofNat_natAbs_of_nonpos hneg.le, Int.neg_neg] at hread
      rwa [if_pos hneg]
    · have hplus : sign ∈ [[], ['+'], ['-']] ∧ sign ≠ ['-'] := by
        rcases hsign with rfl | ⟨rfl, -⟩
        · simp
        · simp
      have hread := call_tonumber_digitsOf hg hscope' hdigits hspace hplus.1 m traced
      rw [if_neg hplus.2, Int.natAbs_of_nonneg hpos] at hread
      rwa [if_neg (Int.not_lt.mpr hpos), nil_append]
  · have htext : integerText n = String.ofList (digitsOf n.natAbs) := if_neg (Int.not_lt.mpr hn)
    have hvalue : (.int n.natAbs : Number) = .int n := by rw [Int.natAbs_of_nonneg hn]
    rw [htext, Chunk.evaluate, readExpr_digitsOf]
    refine (bind_of_ok (handle_of_ok (expr_numeral_eq_ok_iff.mpr
      ⟨.int n.natAbs, value_digitsOf hdigits 1, rfl, rfl⟩))).trans ?_
    rw [hvalue]
    rfl

theorem greatest_and_negative_survive :
    (withFuel 3).call (.func Builtin.tonumber.number)
        [.one (.str (Bytes.ofChars ([' '] ++ (['+'] ++ (integerText maxInt).toList) ++ ['\n'])))]
        (some 0) false (Store.initial {}) =
      .ok (.ofList [.int maxInt]) (Store.initial {}) ∧
    (withFuel 1).call (.func Builtin.tostring.number) [.one (.int (-7))] (some 0) false
        (Store.initial {}) =
      .ok (.ofList [.text (integerText (-7))]) (Store.initial {}) := by
  have hf : (Store.initial {}).function? Builtin.tostring.number =
      some (.ofBuiltin .tostring) := rfl
  have hg : (Store.initial {}).function? Builtin.tonumber.number =
      some (.ofBuiltin .tonumber) := rfl
  have hspace : ∀ c ∈ [' '] ++ ['\n'], c ∈ Literal.whiteSpace := by simp [Literal.whiteSpace]
  have hscope (b : Builtin) : Eval.scopeFor (.ofBuiltin b) (some 0) (.initial {}) =
      .ok 0 (.initial {}) := rfl
  exact ⟨(integers_survive_text hf (hscope _) hg (hscope _) (by decide) (by decide) 0 false).2.1 _ _ _
    hspace (.inr ⟨rfl, by decide⟩),
    (integers_survive_text hf (hscope _) hg (hscope _) (by decide) (by decide) 0 false).1⟩

end LuaInterpreter
