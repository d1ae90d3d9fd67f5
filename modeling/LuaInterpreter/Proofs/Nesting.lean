import LuaInterpreter.Eval.Call
import LuaInterpreter.Proofs.Run

/-!
# Statements within statements

Which statements the run of a block comes to, at whatever depth of blocks, branches and loops, and
what their end means for the block.
-/

namespace LuaInterpreter.Eval

open Run Evaluator

/-! ## Statements in order -/

/-- A statement that was executed to its end: where it started, and what it gave. -/
structure Executed where
  stat : Stat
  start : Store
  output : Option Results

/-- The statements of a block end normally: each is executed to its end, or one jumps to a label of
the block. The log has those that were executed to their end. -/
inductive Completes (k : Evaluator) (scope : Nat) (labels : List String) :
    List Stat → Store → List Executed → Store → Prop
  | done {s : Store} : Completes k scope labels [] s [] s
  | next {st : Stat} {rest : List Stat} {s t u : Store} {out : Option Results}
      {log : List Executed} :
      k.stat scope st s = .ok out t → Completes k scope labels rest t log u →
      Completes k scope labels (st :: rest) s (⟨st, s, out⟩ :: log) u
  | jump {st : Stat} {rest : List Stat} {s t : Store} {label : String} :
      k.stat scope st s = .error (.goto label) t → label ∈ labels →
      Completes k scope labels (st :: rest) s [] t

def lastOutput (last : Option Results) (log : List Executed) : Option Results :=
  (log.getLast?.map (·.output)).getD last

theorem lastOutput_cons (last : Option Results) (e : Executed) (log : List Executed) :
    lastOutput last (e :: log) = lastOutput e.output log := by
  rw [lastOutput, lastOutput, List.getLast?_cons]
  cases log.getLast? <;> rfl

section

variable {k : Evaluator} {scope : Nat} {labels : List String} {last : Option Results} {st : Stat}
  {rest : List Stat} {s t : Store}

theorem runStats_cons_of_ok {out : Option Results} (h : k.stat scope st s = .ok out t) :
    runStats k scope labels last (st :: rest) s = runStats k scope labels out rest t := by
  refine bind_of_ok (a := Sum.inl out) (t := t) (tryCatch_of_ok ?_)
  exact bind_of_ok h

theorem runStats_cons_of_jump {label : String} (h : k.stat scope st s = .error (.goto label) t)
    (hlabel : label ∈ labels) :
    runStats k scope labels last (st :: rest) s = .ok last t := by
  refine bind_of_ok (a := Sum.inr ()) (t := t) ?_
  rw [tryCatch_of_error (bind_of_error h)]
  simp [hlabel]

theorem runStats_cons_of_error {e : Signal} (h : k.stat scope st s = .error e t)
    (he : ∀ label ∈ labels, e ≠ .goto label) :
    runStats k scope labels last (st :: rest) s = .error e t := by
  refine bind_of_error ?_
  rw [tryCatch_of_error (bind_of_error h)]
  cases e with
  | goto label =>
    have hlabel : label ∉ labels := fun hmem => he label hmem rfl
    simp [hlabel]
  | _ => rfl

theorem runStats_append {before : List Stat} {log : List Executed}
    (hbefore : Completes k scope [] before s log t) :
    runStats k scope labels last (before ++ rest) s =
      runStats k scope labels (lastOutput last log) rest t := by
  induction before generalizing s last log with
  | nil =>
    cases hbefore
    rfl
  | cons st before ih =>
    cases hbefore with
    | next hst hrest => rw [List.cons_append, runStats_cons_of_ok hst, ih hrest, lastOutput_cons]
    | jump _ hlabel => cases hlabel

theorem runStats_eq_ok_iff {stats : List Stat} {r : Option Results} :
    runStats k scope labels last stats s = .ok r t ↔
      ∃ log, Completes k scope labels stats s log t ∧ r = lastOutput last log := by
  constructor
  · intro hrun
    induction stats generalizing last s with
    | nil =>
      cases hrun
      exact ⟨[], .done, rfl⟩
    | cons st rest ih =>
      cases hst : k.stat scope st s with
      | ok out u =>
        rw [runStats_cons_of_ok hst] at hrun
        obtain ⟨log, hlog, hr⟩ := ih hrun
        exact ⟨_, .next hst hlog, by rw [lastOutput_cons, hr]⟩
      | error e u =>
        by_cases he : ∃ label ∈ labels, e = .goto label
        · obtain ⟨label, hlabel, rfl⟩ := he
          rw [runStats_cons_of_jump hst hlabel] at hrun
          cases hrun
          exact ⟨[], .jump hst hlabel, rfl⟩
        · rw [runStats_cons_of_error hst fun label hmem heq => he ⟨label, hmem, heq⟩] at hrun
          cases hrun
  · rintro ⟨log, hlog, rfl⟩
    induction hlog generalizing last with
    | done => rfl
    | next hst _ ih => rw [runStats_cons_of_ok hst, ih, lastOutput_cons]
    | jump hst hlabel => exact runStats_cons_of_jump hst hlabel

end

/-! ## Blocks -/

/-- The run of a block comes to a statement: one of its own after those before it, or its `return`
once all others have ended. -/
inductive InBlock (k : Evaluator) (scope : Nat) (b : Block) (s : Store) : Stat → Store → Prop
  | stat {before after : List Stat} {st : Stat} {log : List Executed} {t : Store} :
      b.stats = before ++ st :: after → Completes k scope [] before s log t →
      InBlock k scope b s st t
  | ret {st : Stat} {log : List Executed} {t : Store} :
      b.ret = some st → Completes k scope (labelsOf b) b.stats s log t → InBlock k scope b s st t

section

variable {k : Evaluator} {scope inner : Nat} {b : Block} {st : Stat} {s t u : Store}
  {C : Signal → Prop}

theorem runStats_raises {labels : List String} (hC : ∀ label ∈ labels, ¬C (.goto label))
    {last : Option Results} {before after : List Stat} {log : List Executed}
    (hbefore : Completes k scope [] before s log t) (hst : Raises C (k.stat scope st) t u) :
    Raises C (runStats k scope labels last (before ++ st :: after)) s u := by
  obtain ⟨e, he, hst⟩ := hst
  refine ⟨e, he, ?_⟩
  rw [runStats_append hbefore]
  refine runStats_cons_of_error hst ?_
  rintro label hlabel rfl
  exact hC label hlabel he

/-- A block ends as a statement that it comes to, if that is no jump to one of its labels. -/
theorem runBlock_raises (hC : ∀ label ∈ labelsOf b, ¬C (.goto label))
    (hin : InBlock k scope b s st t) (hst : Raises C (k.stat scope st) t u) :
    Raises C (runBlock k scope b) s u := by
  unfold runBlock
  cases hin with
  | stat hstats hbefore =>
    rw [hstats]
    exact bind_raises (runStats_raises hC hbefore hst)
  | ret hret hall =>
    refine bind_raises_of_ok (runStats_eq_ok_iff.mpr ⟨_, hall, rfl⟩) ?_
    rw [hret]
    exact bind_raises hst

/-! ## Constructs that hold blocks -/

/-- A statement comes to run a block that it holds, in a scope and on a store. A loop does so after
any number of rounds for which its fuel lasts. -/
inductive Enters (k : Evaluator) (scope : Nat) : StatForm → Store → Nat → Block → Store → Prop
  | inDo {b : Block} {s t : Store} {inner : Nat} :
      pushScope scope s = .ok inner t → Enters k scope (.do b) s inner b t
  | inBlock {b : Block} {s t : Store} {inner : Nat} :
      pushScope scope s = .ok inner t → Enters k scope (.block b) s inner b t
  | inIf {branches : List (Expr × Block)} {otherwise : Option Block} {b : Block} {s t u : Store}
      {inner : Nat} :
      branch k scope otherwise branches s = .ok (some b) t → pushScope scope t = .ok inner u →
      Enters k scope (.if branches otherwise) s inner b u
  | inWhile {cond : Expr} {body : Block} {s t u v : Store} {inner n : Nat} :
      pushScope scope s = .ok inner t →
      Rounds (fun () => guardedRound k inner (holds k scope cond) body) n () t () u → n < k.fuel →
      holds k scope cond u = .ok true v → Enters k scope (.while cond body) s inner body v
  | inRepeat {cond : Expr} {body : Block} {s t u : Store} {inner n : Nat} :
      pushScope scope s = .ok inner t →
      Rounds (fun () => repeatRound k inner body cond) n () t () u → n < k.fuel →
      Enters k scope (.repeat body cond) s inner body u
  | inFor {name : Name} {start stop : Expr} {step : Option Expr} {body : Block} {x : Bytes}
      {p : Progression} {i : Number} {s t u v w : Store} {inner n : Nat} :
      forHead k scope name start stop step s = .ok (x, p) t → p.step.eq (.int 0) = false →
      pushScope scope t = .ok inner u → Rounds (countRound k inner x p body) n p.start u i v →
      n < k.fuel → p.covers i = true → declare inner x { value := .num i } v = .ok () w →
      Enters k scope (.for name start stop step body) s inner body w
  | inForIn {names : List Name} {exprs : List Expr} {body : Block} {it : Iteration}
      {s t u v w : Store} {inner n : Nat} :
      pushScope scope s = .ok inner t → forInHead k scope inner names exprs t = .ok it u →
      Rounds (fun () => guardedRound k inner (advance k scope inner it) body) n () u () v →
      n < k.fuel → advance k scope inner it v = .ok true w →
      Enters k scope (.forIn names exprs body) s inner body w

theorem breakable_raises (hC : Signal.Leaving C) {action : Run Unit} (h : Raises C action s t) :
    Raises C (breakable action) s t := by
  obtain ⟨e, he, haction⟩ := h
  refine ⟨e, he, ?_⟩
  rw [breakable, tryCatch_of_error haction]
  cases e with
  | «break» => exact (hC.not_break he).elim
  | _ => rfl

variable {x : Bytes} {p : Progression}

theorem countRound_raises {i : Number} (hcovers : p.covers i = true)
    (hdeclare : declare inner x { value := .num i } s = .ok () t)
    (hb : Raises C (runBlock k inner b) t u) : Raises C (countRound k inner x p b i) s u := by
  rw [countRound, if_pos hcovers]
  exact bind_raises_of_ok hdeclare (bind_raises hb)

theorem statForm_raises (hC : Signal.Leaving C) {form : StatForm}
    (hin : Enters k scope form s inner b t) (hb : Raises C (runBlock k inner b) t u) :
    Raises C (statForm k scope form) s u := by
  cases hin with
  | inDo hpush => exact bind_raises (traced_raises hC (bind_raises_of_ok hpush hb))
  | inBlock hpush => exact bind_raises_of_ok hpush (bind_raises hb)
  | inIf hbranch hpush =>
    exact bind_raises_of_ok hbranch (bind_raises (traced_raises hC (bind_raises_of_ok hpush hb)))
  | inWhile hpush hrounds hfuel hcond =>
    have hloop := loop_raises hrounds hfuel (bind_raises_of_ok hcond (bind_raises hb))
    exact bind_raises (bind_raises_of_ok hpush (breakable_raises hC hloop))
  | inRepeat hpush hrounds hfuel =>
    have hloop := loop_raises hrounds hfuel (bind_raises hb)
    exact bind_raises (bind_raises_of_ok hpush (breakable_raises hC hloop))
  | inFor hhead hstep hpush hrounds hfuel hcovers hdeclare =>
    have hloop := loop_raises hrounds hfuel (countRound_raises hcovers hdeclare hb)
    refine bind_raises (breakable_raises hC (bind_raises_of_ok hhead ?_))
    show Raises C (countLoop k scope _ _ b) _ u
    rw [countLoop, hstep]
    exact bind_raises_of_ok hpush hloop
  | inForIn hpush hhead hrounds hfuel hadvance =>
    have hloop := loop_raises hrounds hfuel (bind_raises_of_ok hadvance (bind_raises hb))
    refine bind_raises (breakable_raises hC ?_)
    exact bind_raises_of_ok hpush (bind_raises_of_ok hhead (bind_raises hloop))

theorem statement_raises (hC : Signal.Leaving C) (hin : Enters k scope st.form s inner b t)
    (hb : Raises C (runBlock k inner b) t u) : Raises C (statement k scope st) s u := by
  have hform := statForm_raises hC hin hb
  unfold statement
  cases hst : st.form with
  | alien kind | expr e => rw [hst] at hin; cases hin
  | _ =>
    rw [hst] at hform
    exact traced_raises hC hform

end

/-! ## Depth -/

/-- A statement about to be executed, with the fuel left for it. -/
structure Point where
  fuel : Nat
  scope : Nat
  stat : Stat
  store : Store

def Point.run (p : Point) : Run (Option Results) := (withFuel p.fuel).stat p.scope p.stat

/-- The run of a block comes to a statement, at whatever depth of constructs. -/
inductive Reaches : Nat → Nat → Block → Store → Point → Prop
  | here {n scope : Nat} {b : Block} {s t : Store} {st : Stat} :
      InBlock (withFuel n) scope b s st t → Reaches n scope b s ⟨n, scope, st, t⟩
  | inside {n scope inner : Nat} {b b' : Block} {s t u : Store} {st : Stat} {p : Point} :
      InBlock (withFuel (n + 1)) scope b s st t →
      Enters (withFuel n) scope st.form t inner b' u → Reaches n inner b' u p →
      Reaches (n + 1) scope b s p

/-- A block ends as a statement that it comes to, whatever is around the statement. -/
theorem Reaches.raises {C : Signal → Prop} (hC : Signal.Passing C) {n scope : Nat} {b : Block}
    {s t : Store} {p : Point} (hreach : Reaches n scope b s p) (hp : Raises C p.run p.store t) :
    Raises C (runBlock (withFuel n) scope b) s t := by
  induction hreach with
  | here hin => exact runBlock_raises (fun label _ => hC.not_goto label) hin hp
  | inside hin henter _ ih =>
    exact runBlock_raises (fun label _ => hC.not_goto label) hin
      (statement_raises hC.toLeaving henter (ih hp))

end LuaInterpreter.Eval
