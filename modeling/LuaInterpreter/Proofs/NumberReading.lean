import LuaInterpreter.Proofs.Containment
import LuaInterpreter.Proofs.NumeralValue

/-!
# Numbers from texts

Without a base, `tonumber` has the text without white space around it and without its sign read as a
numeral. Blanks and comments may stand between the parts of a numeral there, as in a program, and not
every numeral has a value. With a base, a sign is a number even without digits.
-/

namespace LuaInterpreter

open Run Scan List Eval Bytes

open Evaluator (withFuel)

namespace BasicLibrary

variable {cs : List Char} {g sc m : Nat} {scope : Option Nat} {traced : Bool} {s t : Store}

/-! ## Numerals -/

def signedNumeral (negative : Bool) (n : Numeral) : Expr :=
  if negative then .mk {} (.unary .negate (.mk {} (.numeral n))) else .mk {} (.numeral n)

variable {n : Numeral} {r : Results} {v : Value} {k : Evaluator} {y : Number}

theorem expr_numeral_eq_ok_iff {place : Place} :
    (withFuel (m + 1)).expr sc (.mk place (.numeral n)) s = .ok r t ↔
      ∃ x, n.value = .ok x ∧ r = .one (.num x) ∧ t = s := by
  refine traced_eq_ok_iff.trans ?_
  show (ofExcept n.value >>= fun x => pure (.one (.num x)) : Run Results) s = .ok r t ↔ _
  cases n.value with
  | ok x =>
    refine ⟨fun h => ?_, ?_⟩
    · cases h
      exact ⟨x, rfl, rfl, rfl⟩
    · rintro ⟨_, hx, rfl, rfl⟩
      cases hx
      rfl
  | error e => exact iff_of_false nofun fun ⟨_, hx, _⟩ => nomatch hx

theorem single_numeral_eq_ok_iff :
    Eval.single (withFuel (m + 1)) sc (.mk {} (.numeral n)) s = .ok v t ↔
      ∃ x, n.value = .ok x ∧ v = .num x ∧ t = s := by
  constructor
  · intro h
    obtain ⟨r, u, hr, hsingle⟩ := bind_eq_ok_iff.mp h
    obtain ⟨x, hx, rfl, rfl⟩ := expr_numeral_eq_ok_iff.mp hr
    cases hsingle
    exact ⟨x, hx, rfl, rfl⟩
  · rintro ⟨x, hx, rfl, rfl⟩
    exact bind_of_ok (expr_numeral_eq_ok_iff.mpr ⟨x, hx, rfl, rfl⟩)

theorem single_signedNumeral_eq_ok_iff {negative : Bool} :
    Eval.single (withFuel (m + 2)) sc (signedNumeral negative n) s = .ok v t ↔
      ∃ x, n.value = .ok x ∧ v = .num (if negative then x.negate else x) ∧ t = s := by
  cases negative with
  | false => exact single_numeral_eq_ok_iff
  | true =>
    have hnegate (call : Caller) (x : Number) (s : Store) :
        Operator.unary call .negate (.num x) s = .ok (.num x.negate) s := by
      cases x <;> rfl
    constructor
    · intro h
      obtain ⟨r, u, hr, hsingle⟩ := bind_eq_ok_iff.mp h
      obtain ⟨v, w, hv, hnegated⟩ := bind_eq_ok_iff.mp (traced_eq_ok_iff.mp hr)
      obtain ⟨x, hx, rfl, rfl⟩ := single_numeral_eq_ok_iff.mp hv
      cases (bind_of_ok (hnegate _ x _)).symm.trans hnegated
      cases hsingle
      exact ⟨x, hx, rfl, rfl⟩
    · rintro ⟨x, hx, rfl, rfl⟩
      refine bind_eq_ok_iff.mpr ⟨.one (.num x.negate), t, traced_eq_ok_iff.mpr ?_, rfl⟩
      exact (bind_of_ok (single_numeral_eq_ok_iff.mpr ⟨x, hx, rfl, rfl⟩)).trans
        (bind_of_ok (hnegate _ x t))

theorem numeralValue_apply (hne : stripChars cs ≠ []) :
    numeralValue k sc (ofChars cs) s =
      match readNumeral (String.ofList (splitSign (stripChars cs)).2) with
      | .ok n => Eval.single k sc (signedNumeral (splitSign (stripChars cs)).1 n) s
      | .error e => .error (.fault (.syntaxError e)) s := by
  have hread (digits : String) (f : Expr → Run Value) :
      ((match readNumeral digits with
        | .ok n => pure (.mk {} (.numeral n))
        | .error e => fault (.syntaxError e) : Run Expr) >>= f) s =
      match readNumeral digits with
      | .ok n => f (.mk {} (.numeral n)) s
      | .error e => .error (.fault (.syntaxError e)) s := by
    cases readNumeral digits <;> rfl
  obtain ⟨c, rest, hcs⟩ := exists_cons_of_ne_nil hne
  refine (bind_of_ok (decode_strip_ofChars cs s)).trans ?_
  rw [String.toList_ofList, hcs]
  by_cases hminus : c = '-'
  · rw [hminus]
    exact hread _ _
  · by_cases hplus : c = '+'
    · rw [hplus]
      exact hread _ _
    · have hsplit : splitSign (c :: rest) = (false, c :: rest) := by
        simp [splitSign_cons, hminus, hplus]
      rw [hsplit]
      simp only [List.cons.injEq, hminus, hplus, false_and, imp_self, implies_true]
      exact hread (String.ofList (c :: rest)) fun e => Eval.single k sc e

/-! ## Calls -/

theorem call_builtin_eq_ok_iff {b : Builtin} {args : List Results}
    (hb : s.function? g = some (.ofBuiltin b)) :
    Eval.call k (.func g) args scope traced s = .ok r t ↔
      Eval.runNative k (.ofBuiltin b) (Results.flatten args) scope s = .ok r t := by
  have hcall : Eval.call k (.func g) args scope traced s =
      Eval.settleCall g traced (Eval.callNative k g (.ofBuiltin b) args scope) s :=
    callFunction_of_function hb k args scope traced
  rw [hcall, settleCall_eq_ok_iff, callNative_eq_ok_iff]

theorem tonumber_eq_num_iff {bs : Bytes} :
    tonumber k sc (.str bs) s = .ok (.num y) t ↔ numeralValue k sc bs s = .ok (.num y) t := by
  show (numeralValue k sc bs).handle (fun e => throw (.error e)) (fun _ => return .nil) s = _ ↔ _
  cases h : numeralValue k sc bs s with
  | ok v w => rw [handle_of_ok h]
  | error e w =>
    refine iff_of_false ?_ nofun
    cases e with
    | error e =>
      rw [handle_of_error h]
      exact nofun
    | fault f =>
      rw [handle_of_fault h]
      exact nofun
    | _ =>
      rw [handle_of_control h trivial]
      exact nofun

variable (hg : s.function? g = some (.ofBuiltin .tonumber))
include hg

variable (hscope : Eval.scopeFor (.ofBuiltin .tonumber) scope s = .ok sc t)
include hscope

theorem call_tonumber_eq_num_iff :
    (withFuel (m + 3)).call (.func g) [.one (.str (ofChars cs))] scope traced s =
        .ok (.ofList [.num y]) t ↔
      stripChars cs ≠ [] ∧ ∃ n x, readNumeral (String.ofList (splitSign (stripChars cs)).2) = .ok n ∧
        n.value = .ok x ∧ y = if (splitSign (stripChars cs)).1 then x.negate else x := by
  have hrun : Eval.runNative (withFuel (m + 2)) (.ofBuiltin .tonumber) [.str (ofChars cs)] scope
      s = .ok (.ofList [.num y]) t ↔
        numeralValue (withFuel (m + 2)) sc (ofChars cs) t = .ok (.num y) t := by
    rw [runNative_of_check rfl rfl hscope, ← tonumber_eq_num_iff]
    refine bind_eq_ok_iff.trans ⟨?_, fun h => ⟨_, t, h, rfl⟩⟩
    rintro ⟨v, w, hv, h⟩
    cases h
    exact hv
  refine (call_builtin_eq_ok_iff hg).trans (hrun.trans ?_)
  by_cases hne : stripChars cs = []
  · refine iff_of_false (fun h => ?_) fun h => h.1 hne
    obtain ⟨x, w, hx, h⟩ := bind_eq_ok_iff.mp h
    cases (decode_strip_ofChars cs t).symm.trans hx
    rw [hne] at h
    cases h
  rw [numeralValue_apply hne]
  cases readNumeral (String.ofList (splitSign (stripChars cs)).2) with
  | error e => simp
  | ok n => simp [single_signedNumeral_eq_ok_iff, hne]

theorem call_tonumber_of_error {e : SyntaxError}
    (hread : readNumeral (String.ofList (splitSign (stripChars cs)).2) = .error e) :
    (withFuel (m + 1)).call (.func g) [.one (.str (ofChars cs))] scope traced s =
      .ok (.ofList [.nil]) t := by
  obtain ⟨f, hfault⟩ : ∃ f, numeralValue (withFuel m) sc (ofChars cs) t = .error (.fault f) t := by
    by_cases hne : stripChars cs = []
    · refine ⟨.textIndexOutOfRange, (bind_of_ok (decode_strip_ofChars cs t)).trans ?_⟩
      rw [hne]
      rfl
    · exact ⟨.syntaxError e, by rw [numeralValue_apply hne, hread]⟩
  refine (call_builtin_eq_ok_iff hg).mpr ?_
  rw [runNative_of_check rfl rfl hscope]
  exact bind_of_ok (handle_of_fault hfault)

theorem call_tonumberIn_eq_num_iff (base : Nat) :
    (∃ y, (withFuel (m + 1)).call (.func g)
        [.one (.str (ofChars cs)), .one (.int base)] scope traced s =
          .ok (.ofList [.num y]) t) ↔
      stripChars cs ≠ [] ∧ ∀ c ∈ (splitSign (stripChars cs)).2, IsDigit base c := by
  constructor
  · rintro ⟨y, hy⟩
    have hrun := (call_builtin_eq_ok_iff hg).mp hy
    rw [runNative_of_check rfl rfl hscope] at hrun
    obtain ⟨v, w, hv, h⟩ := bind_eq_ok_iff.mp hrun
    cases h
    refine ⟨fun hne => ?_, fun c hc => ?_⟩
    · obtain ⟨x, w, hx, h⟩ := bind_eq_ok_iff.mp hv
      cases (decode_strip_ofChars cs t).symm.trans hx
      rw [hne] at h
      cases h
    · by_contra hdigit
      cases (tonumberIn_of_not_isDigit ⟨c, hc, hdigit⟩).symm.trans hv
  · exact fun ⟨hne, hdigits⟩ => ⟨_, call_tonumberIn hg hscope (tonumberIn_of_isDigit hne hdigits)⟩

end BasicLibrary

/-! ## Texts -/

namespace Numeral

/-- The tokens of the numeral stand in the text, with something between them that is of no account. -/
def WrittenAs (n : Numeral) (between : List Char → Prop) (text : List Char) : Prop :=
  ∃ tokens, n.Spelled tokens ∧ Rendered between tokens text

variable {n n' : Numeral} {between : List Char → Prop} {text : List Char}

theorem writtenAs_of_readNumeral (h : readNumeral (String.ofList text) = .ok n) :
    n.WrittenAs Skippable text :=
  spelled_of_readNumeral h

theorem WrittenAs.exists_readNumeral (h : n.WrittenAs Skippable text) :
    ∃ n', readNumeral (String.ofList text) = .ok n' := by
  obtain ⟨tokens, hspelled, hrendered⟩ := h
  obtain ⟨n', -, hread, -⟩ := readNumeral_of_spelled hspelled hrendered
  exact ⟨n', hread⟩

theorem WrittenAs.exists_value_iff (h : n.WrittenAs between text) :
    (∃ v, n.value = .ok v) ↔ n.HasValue :=
  let ⟨_, hspelled, _⟩ := h
  Numeral.exists_value_iff hspelled

theorem WrittenAs.ne_nil (h : n.WrittenAs between text) : text ≠ [] := by
  obtain ⟨tokens, hspelled, hrendered⟩ := h
  rintro rfl
  generalize hnil : [] = cs at hrendered
  cases hrendered with
  | nil => cases hspelled
  | cons =>
    obtain ⟨hfirst, -⟩ := append_eq_nil_iff.mp hnil.symm
    obtain ⟨-, htoken⟩ := append_eq_nil_iff.mp hfirst
    cases hspelled with
    | decimal hd => exact hd.1 htoken
    | hex hz => cases hz.symm.trans htoken

/-- Blanks are no part of a token, so a text without comments has at most one value. -/
theorem WrittenAs.value_eq (h : n.WrittenAs (∀ c ∈ ·, isBlank c = true) text)
    (h' : n'.WrittenAs (∀ c ∈ ·, isBlank c = true) text) : n.value = n'.value := by
  obtain ⟨tokens, hspelled, hrendered⟩ := h
  obtain ⟨tokens', hspelled', hrendered'⟩ := h'
  rw [← n.value_unplaced, ← n'.value_unplaced, hspelled.unplaced_eq, hspelled'.unplaced_eq,
    hspelled.flatten_eq hrendered, hspelled'.flatten_eq hrendered']

theorem WrittenAs.of_blanks (h : n.WrittenAs (∀ c ∈ ·, isBlank c = true) text) :
    n.WrittenAs Skippable text :=
  h.imp fun _ h => ⟨h.1, h.2.imp fun _ _ => .blanks⟩

theorem WrittenAs.all_blank (h : n.WrittenAs Skippable text) (hdashes : ¬ "--".toList <:+: text) :
    n.WrittenAs (∀ c ∈ ·, isBlank c = true) text :=
  h.imp fun _ h => ⟨h.1, h.2.imp fun _ hin hgap => hgap.all_blank fun hd => hdashes (hd.trans hin)⟩

end Numeral

namespace BasicLibrary

/-- Without a base, `tonumber` gives a number only for a text that is, apart from white space around
it and a sign, a numeral that has a value; blanks and comments may stand between the parts of it. For
other texts than those of numerals it gives `nil`. Where a text is one of several numerals, they must
all have a value; it is one of a single numeral if there is no comment in it. With a base, `tonumber`
gives a number exactly if all that is left of the text are digits below the base, and be there none
of them after a sign. -/
theorem tonumber_reads_spaced_numerals {g sc : Nat} {scope : Option Nat} {s t : Store}
    (hg : s.function? g = some (.ofBuiltin .tonumber))
    (hscope : Eval.scopeFor (.ofBuiltin .tonumber) scope s = .ok sc t) (m : Nat) (traced : Bool)
    (cs : List Char) :
    let text := (splitSign (stripChars cs)).2
    let call (base : List Results) := (withFuel (m + 3)).call (.func g)
      (.one (.str (Bytes.ofChars cs)) :: base) scope traced s
    ((∃ x, call [] = .ok (.ofList [.num x]) t) →
      ∃ n : Numeral, n.WrittenAs Skippable text ∧ n.HasValue) ∧
    ((∃ n : Numeral, n.WrittenAs Skippable text) →
      (∀ n : Numeral, n.WrittenAs Skippable text → n.HasValue) →
      ∃ x, call [] = .ok (.ofList [.num x]) t) ∧
    ((∀ n : Numeral, ¬n.WrittenAs Skippable text) → call [] = .ok (.ofList [.nil]) t) ∧
    (¬"--".toList <:+: text → ((∃ x, call [] = .ok (.ofList [.num x]) t) ↔
      ∃ n : Numeral, n.WrittenAs (∀ c ∈ ·, isBlank c = true) text ∧ n.HasValue)) ∧
    ∀ base : Nat, (∃ x, call [.one (.int base)] = .ok (.ofList [.num x]) t) ↔
      stripChars cs ≠ [] ∧ ∀ c ∈ text, IsDigit base c := by
  intro text call
  have hnumber {n : Numeral} (hn : n.WrittenAs Skippable text) {v : Number}
      (hread : readNumeral (String.ofList text) = .ok n) (hv : n.value = .ok v) :
      ∃ x, call [] = .ok (.ofList [.num x]) t := by
    refine ⟨_, (call_tonumber_eq_num_iff hg hscope).mpr ⟨fun hnil => ?_, n, v, hread, hv, rfl⟩⟩
    exact hn.ne_nil (congrArg (fun cs => (splitSign cs).2) hnil)
  have hread (h : ∃ x, call [] = .ok (.ofList [.num x]) t) :
      ∃ n : Numeral, n.WrittenAs Skippable text ∧ n.HasValue := by
    obtain ⟨x, hx⟩ := h
    obtain ⟨-, n, v, hn, hv, -⟩ := (call_tonumber_eq_num_iff hg hscope).mp hx
    have hwritten := Numeral.writtenAs_of_readNumeral hn
    exact ⟨n, hwritten, hwritten.exists_value_iff.mp ⟨v, hv⟩⟩
  refine ⟨hread, ?_, ?_, ?_, fun base => call_tonumberIn_eq_num_iff hg hscope base⟩
  · rintro ⟨n, hn⟩ hall
    obtain ⟨n', hn'⟩ := hn.exists_readNumeral
    have hwritten := Numeral.writtenAs_of_readNumeral hn'
    obtain ⟨v, hv⟩ := hwritten.exists_value_iff.mpr (hall n' hwritten)
    exact hnumber hwritten hn' hv
  · intro hnone
    cases hread : readNumeral (String.ofList text) with
    | ok n => exact absurd (Numeral.writtenAs_of_readNumeral hread) (hnone n)
    | error e => exact call_tonumber_of_error hg hscope hread
  · intro hdashes
    constructor
    · intro h
      obtain ⟨n, hn, hvalue⟩ := hread h
      exact ⟨n, hn.all_blank hdashes, hvalue⟩
    · rintro ⟨n, hn, hvalue⟩
      obtain ⟨n', hn'⟩ := hn.of_blanks.exists_readNumeral
      have hwritten := Numeral.writtenAs_of_readNumeral hn'
      obtain ⟨v, hv⟩ := hn.exists_value_iff.mpr hvalue
      exact hnumber hwritten hn' (((hwritten.all_blank hdashes).value_eq hn).trans hv)

theorem spaced_numeral_and_lone_sign_are_numbers :
    (∃ x, (withFuel 3).call (.func Builtin.tonumber.number)
        [.one (.str (Bytes.ofChars ['1', ' ', '.', ' ', '5']))] (some 0) false (Store.initial {}) =
      .ok (.ofList [.num x]) (Store.initial {})) ∧
    ∃ x, (withFuel 3).call (.func Builtin.tonumber.number)
        [.one (.str (Bytes.ofChars ['-'])), .one (.int (10 : Nat))] (some 0) false (Store.initial {}) =
      .ok (.ofList [.num x]) (Store.initial {}) := by
  have hg : (Store.initial {}).function? Builtin.tonumber.number =
      some (.ofBuiltin .tonumber) := rfl
  have hscope : Eval.scopeFor (.ofBuiltin .tonumber) (some 0) (.initial {}) =
      .ok 0 (.initial {}) := rfl
  have hdigit {c : Char} (hc : c.isDigit = true) : AreDigits Char.isDigit [c] :=
    ⟨nofun, fun d hd => mem_singleton.mp hd ▸ hc⟩
  have hrendered : Rendered (∀ c ∈ ·, isBlank c = true) [['1'], ['.'], ['5']]
      ([] ++ ['1'] ++ ([' '] ++ ['.'] ++ ([' '] ++ ['5'] ++ []))) :=
    .cons (forall_mem_nil _) (.cons (forall_mem_singleton.mpr rfl)
      (.cons (forall_mem_singleton.mpr rfl) (.nil (forall_mem_nil _))))
  have hwritten : (Numeral.decimal { text := "1" } (some { text := "5" }) none none).WrittenAs
      (∀ c ∈ ·, isBlank c = true) ['1', ' ', '.', ' ', '5'] :=
    ⟨_, .decimal (hdigit rfl) (.some rfl (hdigit rfl)) .none, hrendered⟩
  obtain ⟨-, -, -, hspaced, -⟩ := tonumber_reads_spaced_numerals hg hscope 0 false
    ['1', ' ', '.', ' ', '5']
  obtain ⟨-, -, -, -, hbase⟩ := tonumber_reads_spaced_numerals hg hscope 0 false ['-']
  exact ⟨(hspaced (by decide)).mpr ⟨_, hwritten, trivial⟩, (hbase 10).mpr ⟨nofun, nofun⟩⟩

end BasicLibrary

end LuaInterpreter
