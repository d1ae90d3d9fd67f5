import LuaInterpreter.Proofs.Nesting

/-!
# Where a jump leads

A jump leaves all constructs around it up to the block that has its label. It ends the statements of
that block as well: nothing that stands after the label is executed, and the `return` of the block
comes next.
-/

namespace LuaInterpreter.Eval

open Run List

open Evaluator (withFuel)

/-! ## Coming to a jump -/

/-- The execution of a statement, in a scope and from a store on, comes to a jump to a label: it is
the jump, or it runs a block without the label which comes to such a statement. -/
inductive Jumps (label : String) : Nat → Nat → Stat → Store → Store → Prop
  | here {n scope : Nat} {st : Stat} {name : Name} {s : Store} :
      st.form = .goto name → name.text = label → Jumps label (n + 1) scope st s s
  | inside {n scope inner : Nat} {st st' : Stat} {b : Block} {s t u v : Store} :
      Enters (withFuel n) scope st.form s inner b t → label ∉ labelsOf b →
      InBlock (withFuel n) inner b t st' u → Jumps label n inner st' u v →
      Jumps label (n + 1) scope st s v

variable {scope : Nat} {st : Stat} {label : String} {s t : Store}

theorem statement_goto {k : Evaluator} {name : Name} (s : Store) (hform : st.form = .goto name) :
    statement k scope st s = .error (.goto name.text) s := by
  unfold statement
  rw [hform]
  exact traced_of_control (throw_apply _) trivial

/-- A jump leaves every construct whose blocks do not have the label. -/
theorem Jumps.ends {n : Nat} (h : Jumps label n scope st s t) :
    (withFuel n).stat scope st s = .error (.goto label) t := by
  induction h with
  | here hform hlabel => exact hlabel ▸ statement_goto _ hform
  | inside henters hlabel hin _ ih =>
    have hblock := runBlock_raises (C := (· = .goto label))
      (fun l hl heq => hlabel (Signal.goto.inj heq ▸ hl)) hin ⟨_, rfl, ih⟩
    obtain ⟨_, rfl, hstatement⟩ := statement_raises (Signal.leaving_goto label) henters hblock
    exact hstatement

/-! ## Going on after a label -/

/-- The statements after the first label of a name. -/
def afterLabel (label : String) : List Stat → Option (List Stat)
  | [] => none
  | st :: rest =>
    match st.form with
    | .label name => if name.text = label then some rest else afterLabel label rest
    | _ => afterLabel label rest

theorem mem_labelsOf {b : Block} :
    label ∈ labelsOf b ↔ ∃ st ∈ b.stats, ∃ name, st.form = .label name ∧ name.text = label := by
  simp only [labelsOf, mem_filterMap]
  refine exists_congr fun st => and_congr_right fun _ => ?_
  cases st.form <;> simp

theorem exists_label_of_afterLabel {stats rest : List Stat}
    (h : afterLabel label stats = some rest) :
    ∃ st ∈ stats, ∃ name, st.form = .label name ∧ name.text = label := by
  fun_induction afterLabel label stats with
  | case1 => cases h
  | case2 st _ name hform hname => exact ⟨st, mem_cons_self, name, hform, hname⟩
  | case3 _ _ _ _ _ ih | case4 _ _ _ ih =>
    obtain ⟨st, hst, hlabel⟩ := ih h
    exact ⟨st, mem_cons_of_mem _ hst, hlabel⟩

inductive Ending where
  | done (t : Store)
  | stopped (e : Signal) (t : Store)

def ending {α : Type} (m : Run α) (s : Store) : Ending :=
  match m s with
  | .ok _ t => .done t
  | .error e t => .stopped e t

theorem ending_of_ok {α : Type} {m : Run α} {a : α} (h : m s = .ok a t) : ending m s = .done t := by
  simp only [ending, h]

/-- Statements of a block, executed one after the other, end in a way if every jump to a label of
the block goes on with the statements after the label, however often there is one. -/
inductive Proceeds (k : Evaluator) (scope : Nat) (b : Block) : List Stat → Store → Ending → Prop
  | done {s : Store} : Proceeds k scope b [] s (.done s)
  | next {st : Stat} {rest : List Stat} {s t : Store} {out : Option Results} {e : Ending} :
      k.stat scope st s = .ok out t → Proceeds k scope b rest t e →
      Proceeds k scope b (st :: rest) s e
  | jump {st : Stat} {rest after : List Stat} {label : String} {s t : Store} {e : Ending} :
      k.stat scope st s = .error (.goto label) t → afterLabel label b.stats = some after →
      Proceeds k scope b after t e → Proceeds k scope b (st :: rest) s e
  | stop {st : Stat} {rest : List Stat} {sig : Signal} {s t : Store} :
      k.stat scope st s = .error sig t → (∀ label ∈ labelsOf b, sig ≠ .goto label) →
      Proceeds k scope b (st :: rest) s (.stopped sig t)

section

variable {k : Evaluator} {scope : Nat} {b : Block} {st : Stat} {before rest after : List Stat}
  {label : String} {log : List Executed} {s t : Store} {e : Ending}

theorem proceeds_append_iff (hbefore : Completes k scope [] before s log t) :
    Proceeds k scope b (before ++ rest) s e ↔ Proceeds k scope b rest t e := by
  induction before generalizing s log with
  | nil =>
    cases hbefore
    exact Iff.rfl
  | cons st before ih =>
    cases hbefore with
    | jump _ hlabel => cases hlabel
    | next hst hrest =>
      rw [← ih hrest]
      constructor
      · intro h
        cases h with
        | next hst' h =>
          cases hst.symm.trans hst'
          exact h
        | jump hst' | stop hst' => cases hst.symm.trans hst'
      · exact .next hst

/-- From a jump on, the statements after its label come next. -/
theorem proceeds_jump_iff (hst : k.stat scope st s = .error (.goto label) t)
    (hafter : afterLabel label b.stats = some after) :
    Proceeds k scope b (st :: rest) s e ↔ Proceeds k scope b after t e := by
  constructor
  · intro h
    cases h with
    | next hst' => cases hst.symm.trans hst'
    | jump hst' hafter' h =>
      cases hst.symm.trans hst'
      cases hafter.symm.trans hafter'
      exact h
    | stop hst' hlabel =>
      cases hst.symm.trans hst'
      exact absurd rfl (hlabel label (mem_labelsOf.mpr (exists_label_of_afterLabel hafter)))
  · exact .jump hst hafter

theorem runBlock_of_runStats {last : Option Results}
    (h : runStats k scope (labelsOf b) none b.stats s = .ok last t) :
    (b.ret = none → runBlock k scope b s = .ok (last.getD (.many [])) t) ∧
    ∀ ret, b.ret = some ret → runBlock k scope b s =
      (k.stat scope ret >>= fun _ => pure (last.getD (.many []))) t := by
  obtain ⟨place, stats, ret⟩ := b
  constructor
  · rintro (rfl : ret = none)
    exact bind_of_ok h
  · rintro st (rfl : ret = some st)
    exact bind_of_ok h

end

/-! ## The block of the label -/

/-- A jump does not go on at its label. Let a block be run whose statements come to a jump to one of
its labels: those before the statement have ended, and the statement is the jump or comes to it
inside of blocks, branches and loops that do not have the label. Then the statements of the block
are over on the store of the jump, and what is left is the `return` of the block, in the same scope,
if there is one. Going on would mean to execute what stands after the label from that store on. So
the block does that exactly if all of it, with every further jump, ends on the very store of the
jump; for instance if nothing stands after the label. -/
theorem jump_ends_its_block {n scope : Nat} {b : Block} {label : String}
    {before after rest : List Stat} {st : Stat} {log : List Executed} {s t u : Store}
    (hlabel : afterLabel label b.stats = some after) (hstats : b.stats = before ++ st :: rest)
    (hbefore : Completes (withFuel n) scope [] before s log t)
    (hjump : Jumps label n scope st t u) :
    (b.ret = none →
      runBlock (withFuel n) scope b s = .ok ((lastOutput none log).getD (.many [])) u) ∧
    (∀ ret, b.ret = some ret → runBlock (withFuel n) scope b s =
      ((withFuel n).stat scope ret >>= fun _ =>
        pure ((lastOutput none log).getD (.many []))) u) ∧
    (∀ e, Proceeds (withFuel n) scope b b.stats s e ↔ Proceeds (withFuel n) scope b after u e) ∧
    (Proceeds (withFuel n) scope b b.stats s
        (ending (runStats (withFuel n) scope (labelsOf b) none b.stats) s) ↔
      Proceeds (withFuel n) scope b after u (.done u)) := by
  have hmem : label ∈ labelsOf b := mem_labelsOf.mpr (exists_label_of_afterLabel hlabel)
  have hrun : runStats (withFuel n) scope (labelsOf b) none b.stats s =
      .ok (lastOutput none log) u := by
    rw [hstats, runStats_append hbefore]
    exact runStats_cons_of_jump hjump.ends hmem
  have hproceeds (e : Ending) : Proceeds (withFuel n) scope b b.stats s e ↔
      Proceeds (withFuel n) scope b after u e := by
    rw [← proceeds_jump_iff hjump.ends hlabel, ← proceeds_append_iff hbefore, ← hstats]
  obtain ⟨hnone, hsome⟩ := runBlock_of_runStats hrun
  refine ⟨hnone, hsome, hproceeds, ?_⟩
  rw [hproceeds, ending_of_ok hrun]

def labelL : Name := { lexeme := { text := "l" } }

def jumpToL : Stat := .mk {} (.do (.mk {} [.mk {} (.goto labelL)] none))

/-- The statement `local x = true`. -/
def declarationOfX : Stat :=
  .mk {} (.local [{ name := { lexeme := { text := "x" } } }] (some [.mk {} .litTrue]))

/-- The block `do goto l end ::l:: local x = true`. -/
def jumpingSample : Block := .mk {} [jumpToL, .mk {} (.label labelL), declarationOfX] none

def singleScope : Store := { scopes := #[{ session := 0, parent := none }] }

/-- The same store with a scope for a block. -/
def scopeInScope : Store :=
  { scopes := #[{ session := 0, parent := none }, { session := 0, parent := some 0 }] }

/-- The block ends where the jump stands, without the variable that it declares after the label. If
it went on there, it would end with the variable. -/
theorem jumpingSample_ends :
    runBlock (withFuel 4) 0 jumpingSample singleScope = .ok (.many []) scopeInScope ∧
    (scopeInScope.scope 0).find? (Bytes.ofAscii "x") = none ∧
    ∃ t, Proceeds (withFuel 4) 0 jumpingSample jumpingSample.stats singleScope (.done t) ∧
      (t.scope 0).find? (Bytes.ofAscii "x") = some { value := .bool true } := by
  have hlabel : afterLabel "l" jumpingSample.stats = some [declarationOfX] := rfl
  have hstats : jumpingSample.stats = [] ++ jumpToL :: [.mk {} (.label labelL), declarationOfX] :=
    rfl
  have hjump : Jumps "l" 4 0 jumpToL singleScope scopeInScope :=
    .inside (.inDo rfl) (by decide) (.stat (nil_append _).symm .done) (.here rfl rfl)
  obtain ⟨hend, -, hproceeds, -⟩ := jump_ends_its_block hlabel hstats .done hjump
  exact ⟨hend rfl, rfl, _, (hproceeds _).mpr (.next rfl .done), rfl⟩

end LuaInterpreter.Eval
