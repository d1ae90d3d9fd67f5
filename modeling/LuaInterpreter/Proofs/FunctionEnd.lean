import LuaInterpreter.Proofs.Call
import LuaInterpreter.Proofs.Nesting

/-!
# Functions that end without `return`

A function whose block comes to its end gives what the last of its statements gave, because blocks
do so for chunks. Blocks, branches and loops give nothing; assignments, declarations, definitions
and calls give their values.
-/

namespace LuaInterpreter.Eval

open Run List Evaluator Results

/-! ## Statements -/

/-- A statement that starts on a store and ends normally gives no values. -/
def GivesNothing (k : Evaluator) (scope : Nat) (start : Store) : StatForm → Prop
  | .assign targets _ => targets = []
  | .local names _ => names = []
  | .function .. | .localFunction .. => False
  | .expr e => ∃ r t, k.expr scope e start = .ok r t ∧ asList r = .many []
  | .block b => ∃ inner t u, pushScope scope start = .ok inner t ∧
      runBlock k inner b t = .ok (.many []) u
  | _ => True

variable {vs : List Value} {k : Evaluator} {scope : Nat} {labels : List String} {stats : List Stat}
  {s t : Store} {log : List Executed}

theorem ofList_eq_empty_iff_of_length {α : Type} {xs : List α} (h : vs.length = xs.length) :
    ofList vs = .many [] ↔ xs = [] := by
  rw [ofList, many.injEq, map_eq_nil_iff, ← length_eq_zero_iff, h,
    length_eq_zero_iff]

section

variable {k : Evaluator} {scope : Nat} {s t : Store} {out : Option Results}

theorem ensures_defineFunction (name : FuncName) (body : FuncBody) :
    Ensures (defineFunction k scope name body) fun r => ∃ v, r = .many [.one v] := by
  refine ensures_bind fun f => ?_
  generalize name.names = names
  match names with
  | [] => exact ensures_throw _
  | [_] =>
    refine ensures_bind fun _ => ensures_bind fun v => ensures_bind fun _ => ?_
    exact ensures_pure ⟨v, rfl⟩
  | _ :: _ :: _ =>
    refine ensures_bind fun _ => ensures_bind fun _ => ensures_bind fun _ => ensures_bind fun _ => ?_
    exact ensures_bind fun v => ensures_bind fun _ => ensures_pure ⟨v, rfl⟩

theorem ensures_defineLocal (name : Name) (body : FuncBody) :
    Ensures (defineLocal scope name body) fun r => ∃ v, r = .many [.one v] :=
  ensures_bind fun _ => ensures_bind fun _ => ensures_bind fun _ => ensures_bind fun v =>
    ensures_bind fun _ => ensures_pure ⟨v, rfl⟩

theorem ensures_localValues (count : Nat) (es : List Expr) :
    Ensures (localValues k scope count es) fun vs => vs.length = count := by
  cases es with
  | nil => exact ensures_pure length_replicate
  | cons e es => exact ensures_bind fun rs => ensures_pure (length_adjust rs count)

theorem output_empty_iff {form : StatForm} (h : statForm k scope form s = .ok out t) :
    out.getD (.many []) = .many [] ↔ GivesNothing k scope s form := by
  cases form with
  | empty | label =>
    cases h
    exact iff_of_true rfl trivial
  | «do» | «while» | «repeat» | «for» | forIn =>
    obtain ⟨_, _, _, h⟩ := bind_eq_ok_iff.mp h
    cases h
    exact iff_of_true rfl trivial
  | «if» branches otherwise =>
    obtain ⟨taken, _, _, h⟩ := bind_eq_ok_iff.mp h
    cases taken with
    | none =>
      cases h
      exact iff_of_true rfl trivial
    | some b =>
      obtain ⟨_, _, _, h⟩ := bind_eq_ok_iff.mp h
      cases h
      exact iff_of_true rfl trivial
  | assign targets values =>
    obtain ⟨rs, _, _, h⟩ := bind_eq_ok_iff.mp h
    obtain ⟨_, _, _, h⟩ := bind_eq_ok_iff.mp h
    cases h
    exact ofList_eq_empty_iff_of_length (length_adjust _ _)
  | «local» names exprs =>
    obtain ⟨vs, u, hvs, h⟩ := bind_eq_ok_iff.mp h
    obtain ⟨_, _, _, h⟩ := bind_eq_ok_iff.mp h
    cases h
    exact ofList_eq_empty_iff_of_length (ensures_localValues _ _ s vs u hvs)
  | function name body =>
    obtain ⟨r, u, hr, h⟩ := bind_eq_ok_iff.mp h
    obtain ⟨v, rfl⟩ := ensures_defineFunction name body s r u hr
    cases h
    simp [GivesNothing]
  | localFunction name body =>
    obtain ⟨r, u, hr, h⟩ := bind_eq_ok_iff.mp h
    obtain ⟨v, rfl⟩ := ensures_defineLocal name body s r u hr
    cases h
    simp [GivesNothing]
  | expr e =>
    rw [statForm] at h
    split at h
    · obtain ⟨r, u, hr, h⟩ := bind_eq_ok_iff.mp h
      cases h
      constructor
      · intro hempty
        exact ⟨r, _, hr, hempty⟩
      · rintro ⟨r', u', hr', hempty⟩
        rw [hr] at hr'
        cases hr'
        exact hempty
    · cases h
  | block b =>
    obtain ⟨inner, u, hpush, h⟩ := bind_eq_ok_iff.mp h
    obtain ⟨r, v, hr, h⟩ := bind_eq_ok_iff.mp h
    cases h
    constructor
    · intro hempty
      rw [show r = .many [] from hempty] at hr
      exact ⟨inner, u, _, hpush, hr⟩
    · rintro ⟨inner', u', v', hpush', hr'⟩
      rw [hpush] at hpush'
      cases hpush'
      rw [hr] at hr'
      cases hr'
      rfl
  | «break» | goto | alien => cases h
  | «return» values =>
    cases values with
    | none => cases h
    | some es =>
      obtain ⟨_, _, _, h⟩ := bind_eq_ok_iff.mp h
      cases h

theorem statement_output_empty_iff {st : Stat} (h : statement k scope st s = .ok out t) :
    out.getD (.many []) = .many [] ↔ GivesNothing k scope s st.form := by
  unfold statement at h
  cases hform : st.form with
  | alien kind =>
    rw [hform] at h
    cases h
  | expr e =>
    rw [hform] at h
    dsimp only at h
    split at h
    · exact output_empty_iff (traced_eq_ok_iff.mp h)
    · cases h
  | _ =>
    rw [hform] at h
    exact output_empty_iff (traced_eq_ok_iff.mp h)

end

/-! ## Blocks -/

theorem Completes.output (h : Completes k scope labels stats s log t) :
    ∀ e ∈ log, ∃ u, k.stat scope e.stat e.start = .ok e.output u := by
  induction h with
  | done => simp
  | next hst _ ih => exact List.forall_mem_cons.mpr ⟨⟨_, hst⟩, ih⟩
  | jump => simp

theorem runBlock_eq_ok {b : Block} {r : Results} (h : runBlock k scope b s = .ok r t) :
    ∃ log u, Completes k scope (labelsOf b) b.stats s log u ∧
      r = (lastOutput none log).getD (.many []) := by
  obtain ⟨last, u, hstats, h⟩ := bind_eq_ok_iff.mp h
  obtain ⟨log, hlog, rfl⟩ := runStats_eq_ok_iff.mp hstats
  refine ⟨log, u, hlog, ?_⟩
  cases hret : b.ret with
  | none =>
    rw [hret] at h
    cases h
    rfl
  | some st =>
    rw [hret] at h
    obtain ⟨_, _, _, h⟩ := bind_eq_ok_iff.mp h
    cases h
    rfl

/-- A log that ends with nothing: no statement was executed to its end, or the last one that was
gives no values. -/
theorem lastOutput_empty_iff {n : Nat}
    (h : Completes (withFuel n) scope labels stats s log t) :
    (lastOutput none log).getD (.many []) = .many [] ↔
      ∀ e ∈ log.getLast?, GivesNothing (withFuel (n - 1)) scope e.start e.stat.form := by
  cases hlast : log.getLast? with
  | none =>
    rw [lastOutput, hlast]
    simp
  | some e =>
    obtain ⟨u, hst⟩ := h.output e (mem_of_getLast? hlast)
    cases n with
    | zero => cases hst
    | succ n =>
      rw [lastOutput, hlast]
      simpa using statement_output_empty_iff hst

/-! ## Calls -/

/-- A function whose block comes to its end gives what the last statement gave that was executed to
its end, at the end of the block or before a jump to one of its labels. So the call gives the empty
list exactly if there is no such statement or it gives no values: an assignment or a declaration
gives its values, a definition the function, a call its results, and only blocks, branches, loops,
labels and empty statements always give none. -/
theorem unreturned_call_gives_last_output {n : Nat} {s t : Store} {id parent : Nat} {f : Function}
    {body : Block} {args : List Results} {caller : Option Nat} {isTraced : Bool} {r : Results}
    (hf : s.function? id = some f) (hcode : f.code = .block body) (hscope : f.scope = some parent)
    (hend : runBlock (Evaluator.withFuel n) s.scopes.size body (entry s f parent args) = .ok r t) :
    call (Evaluator.withFuel n) (.func id) args caller isTraced s = .ok r t ∧
    ∃ log u, Completes (Evaluator.withFuel n) s.scopes.size (labelsOf body) body.stats
        (entry s f parent args) log u ∧
      r = (lastOutput none log).getD (.many []) ∧
      (r = .many [] ↔ ∀ e ∈ log.getLast?,
        GivesNothing (Evaluator.withFuel (n - 1)) s.scopes.size e.start e.stat.form) := by
  constructor
  · rw [call_eq_ok_iff hf hcode hscope, blockValue_eq_ok_iff]
    exact Or.inl hend
  · obtain ⟨log, u, hlog, rfl⟩ := runBlock_eq_ok hend
    exact ⟨log, u, hlog, rfl, lastOutput_empty_iff hlog⟩

/-- The block `local x = true`. -/
def declaringSample : Block :=
  .mk {} [.mk {} (.local [{ name := { lexeme := { text := "x" } } }] (some [.mk {} .litTrue]))] none

/-- A function without parameters whose block is `declaringSample`. -/
def declaringFunction : Function :=
  { params := [], variadic := false, scope := some 0, code := .block declaringSample }

def declaringStore : Store :=
  { functions := #[declaringFunction], scopes := #[{ session := 0, parent := none }] }

/-- The call gives `true`, though there is no `return`. -/
theorem unreturned_declaration_gives_value :
    ∃ t, call (Evaluator.withFuel 3) (.func 0) [] none false declaringStore =
      .ok (.ofList [.bool true]) t := by
  have hf : declaringStore.function? 0 = some declaringFunction := rfl
  obtain ⟨t, hend⟩ : ∃ t, runBlock (withFuel 3) declaringStore.scopes.size
      declaringSample (entry declaringStore declaringFunction 0 []) =
      .ok (.ofList [.bool true]) t := ⟨_, rfl⟩
  exact ⟨t, (unreturned_call_gives_last_output hf rfl rfl hend).1⟩

end LuaInterpreter.Eval
