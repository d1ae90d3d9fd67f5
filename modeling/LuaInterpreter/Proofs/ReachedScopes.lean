import LuaInterpreter.Proofs.Confinement.Call
import LuaInterpreter.Proofs.Nesting

/-!
# The scopes in which statements run

A block is run in a scope, and the blocks within it in scopes made on the way. Wherever a run comes
to, it is in a scope within the one it started in, on a store that has kept the tree of scopes.
-/

namespace LuaInterpreter

namespace Store

/-- What a store has in common with one that comes after it. In a strict reading the latter is
well-formed. -/
structure Lasts (strict : Prop) (s t : Store) : Prop where
  extend : Extends (fun _ _ => True) s t
  retain : Retains s t
  wellFormed : strict → t.WellFormed

/-- A well-formed store in which the scopes of another one are still in their places. -/
structure Later (s t : Store) : Prop where
  extend : Extends (fun _ _ => True) s t
  wellFormed : t.WellFormed

variable {strict : Prop} {s t u : Store}

theorem Lasts.refl (hs : strict → s.WellFormed) : s.Lasts strict s := ⟨.refl _ s, .refl s, hs⟩

theorem Lasts.trans (hst : s.Lasts strict t) (htu : t.Lasts strict u) : s.Lasts strict u :=
  ⟨hst.extend.trans htu.extend fun _ _ _ => id, hst.retain.trans htu.retain, htu.wellFormed⟩

variable {id : Nat}

theorem Lasts.lt_size (h : s.Lasts strict t) (hid : id < s.scopes.size) : id < t.scopes.size :=
  Nat.lt_of_lt_of_le hid h.retain.size

theorem Lasts.ready {n : Nat} (h : s.Lasts strict t) (hs : Run.Ready strict n s) :
    Run.Ready strict n t :=
  fun hstrict => ⟨Nat.le_trans (hs hstrict).1 h.retain.size, h.wellFormed hstrict⟩

theorem Lasts.later (h : s.Lasts True t) : s.Later t := ⟨h.extend, h.wellFormed trivial⟩

theorem Later.refl (hs : s.WellFormed) : s.Later s := ⟨.refl _ s, hs⟩

theorem Later.trans (hst : s.Later t) (htu : t.Later u) : s.Later u :=
  ⟨hst.extend.trans htu.extend fun _ _ _ => id, htu.wellFormed⟩

theorem Later.lt_size (h : s.Later t) (hid : id < s.scopes.size) : id < t.scopes.size :=
  Nat.lt_of_lt_of_le hid h.extend.size

theorem Later.parent (h : s.Later t) {p : Nat} (hp : (s.scope id).parent = some p) :
    (t.scope id).parent = some p :=
  (h.extend.parent id (lt_size_of_parent_eq_some hp)).trans hp

theorem Within.later {top : Nat} (h : s.Within top id) (hst : s.Later t) : t.Within top id := by
  induction h with
  | top => exact .top
  | inside hp _ ih => exact .inside (hst.parent hp) ih

theorem Later.pushScope (hs : s.WellFormed) {sc : Scope} (hsc : s.Admits sc) :
    s.Later (s.pushScope sc) :=
  ⟨extends_pushScope _ s sc, hs.pushScope hsc⟩

end Store

namespace Run

variable {α : Type} {strict : Prop} {n : Nat} {m : Run α} {s t : Store} {a : α} {scope inner : Nat}

section

variable (h : Confined strict n (fun _ _ => True) m)
include h

theorem Confined.lasts (hs : Ready strict n s) : s.Lasts strict (m.final s) := by
  have hm := h s hs
  exact ⟨hm.extend, hm.retain, hm.wellFormed⟩

theorem Confined.lasts_of_ok (hs : Ready strict n s) (hm : m s = .ok a t) : s.Lasts strict t :=
  final_of_ok hm ▸ h.lasts hs

theorem Confined.lasts_of_error {e : Signal} (hs : Ready strict n s) (hm : m s = .error e t) :
    s.Lasts strict t :=
  final_of_error hm ▸ h.lasts hs

end

/-- Without regard to well-formed stores, what lasts does so from every store on. -/
theorem Confined.onward (h : Confined False 0 (fun _ _ => True) m) (s : Store) :
    s.Lasts False (m.final s) :=
  h.lasts False.elim

theorem Confined.onward_of_ok (h : Confined False 0 (fun _ _ => True) m) (hm : m s = .ok a t) :
    s.Lasts False t :=
  h.lasts_of_ok False.elim hm

theorem Confined.later_of_ok (h : Confined True n (fun _ _ => True) m) (hs : s.WellFormed)
    (hn : n ≤ s.scopes.size) (hm : m s = .ok a t) : s.Later t :=
  (h.lasts_of_ok (fun _ => ⟨hn, hs⟩) hm).later

theorem lasts_newTable (s : Store) (x : Table) : s.Lasts False ((newTable x).final s) :=
  ⟨.of_scope_eq (Nat.le_refl _) (fun _ _ => rfl) (Nat.le_refl _) fun _ _ => rfl,
    .of_scope_eq (Nat.le_refl _) (fun _ _ => rfl) rfl, False.elim⟩

theorem Rounds.lasts {σ : Type} {step : σ → Run (σ ⊕ α)} {rounds : Nat} {x y : σ}
    (hstep : ∀ x, Confined strict n (fun _ _ => True) (step x)) (hs : Ready strict n s)
    (h : Rounds step rounds x s y t) : s.Lasts strict t := by
  induction h with
  | zero => exact .refl fun hstrict => (hs hstrict).2
  | succ hround _ ih =>
    have hfirst := (hstep _).lasts_of_ok hs hround
    exact hfirst.trans (ih (hfirst.ready hs))

theorem scope_of_pushScope (h : pushScope scope s = .ok inner t) :
    t.scope inner = { session := (s.scope scope).session, parent := some scope } := by
  cases h
  exact Store.scope_pushScope_new s _

theorem pushScope_lasts (hs : Ready strict (scope + 1) s) (h : pushScope scope s = .ok inner t) :
    s.Lasts strict t ∧ Ready strict (inner + 1) t ∧ (strict → scope < inner) := by
  cases h
  have hsize := Store.size_pushScope s { session := (s.scope scope).session, parent := some scope }
  have hwf (hstrict : strict) :
      (s.pushScope { session := (s.scope scope).session, parent := some scope }).WellFormed :=
    (hs hstrict).2.pushScope (.inside (hs hstrict).2 (hs hstrict).1 rfl rfl)
  exact ⟨⟨Store.extends_pushScope _ s _, Store.retains_pushScope s _, hwf⟩,
    fun hstrict => ⟨Nat.le_of_eq hsize.symm, hwf hstrict⟩, fun hstrict => (hs hstrict).1⟩

theorem pushScope_later (hs : s.WellFormed) (hscope : scope < s.scopes.size)
    (h : pushScope scope s = .ok inner t) :
    s.Later t ∧ (t.scope inner).parent = some scope ∧ inner < t.scopes.size ∧ scope < inner := by
  obtain ⟨hlasts, hready, hlt⟩ := pushScope_lasts (fun _ : True => ⟨hscope, hs⟩) h
  exact ⟨hlasts.later, congrArg Scope.parent (scope_of_pushScope h), (hready trivial).1,
    hlt trivial⟩

end Run

namespace Eval

open Run

variable {k : Evaluator} {strict : Prop} {scope inner : Nat} {b : Block} {s t : Store}
  {st : Stat} {form : StatForm}

section

variable (hk : k.Confined strict) (hs : Ready strict (scope + 1) s)

include hk hs

theorem Completes.lasts {labels : List String} {stats : List Stat} {log : List Executed}
    (h : Completes k scope labels stats s log t) : s.Lasts strict t := by
  have hstat (st : Stat) : Run.Confined strict (scope + 1) (fun _ _ => True) (k.stat scope st) :=
    hk.stat _ _ scope st (fun _ => Nat.lt_succ_self scope) fun _ _ => trivial
  induction h with
  | done => exact .refl fun hstrict => (hs hstrict).2
  | next hst _ ih =>
    have hfirst := (hstat _).lasts_of_ok hs hst
    exact hfirst.trans (ih (hfirst.ready hs))
  | jump hst _ => exact (hstat _).lasts_of_error hs hst

theorem InBlock.lasts
    (h : InBlock k scope b s st t) : s.Lasts strict t := by
  cases h with
  | stat _ hbefore => exact hbefore.lasts hk hs
  | ret _ hall => exact hall.lasts hk hs

/-- A construct runs its block in a scope that it has made within its own. What it does between the
two leaves the scope there. -/
theorem Enters.lasts
    (h : Enters k scope form s inner b t) :
    ∃ u v, s.Lasts strict u ∧ pushScope scope u = .ok inner v ∧ v.Lasts strict t := by
  have hscope : strict → scope < scope + 1 := fun _ => Nat.lt_succ_self scope
  have hinner : strict → inner < inner + 1 := fun _ => Nat.lt_succ_self inner
  have hstart : s.Lasts strict s := .refl fun hstrict => (hs hstrict).2
  -- In a loop, the rounds before the block come after its scope has been made, and keep it.
  cases h with
  | inDo hpush | inBlock hpush =>
    obtain ⟨hlasts, -⟩ := pushScope_lasts hs hpush
    exact ⟨s, t, hstart, hpush, .refl hlasts.wellFormed⟩
  | inIf hbranch hpush =>
    have hfirst := Confined.lasts_of_ok
      (congr_branch hk.evaluates (inside _ hscope) _ _) hs hbranch
    obtain ⟨hlasts, -⟩ := pushScope_lasts (hfirst.ready hs) hpush
    exact ⟨_, t, hfirst, hpush, .refl hlasts.wellFormed⟩
  | inWhile hpush hrounds _ hcond =>
    obtain ⟨-, hready, hlt⟩ := pushScope_lasts hs hpush
    have hholds (cond : Expr) :
        Run.Confined strict (inner + 1) (fun _ _ => True) (holds k scope cond) :=
      confined_holds hk (fun hstrict => Nat.lt_succ_of_lt (hlt hstrict)) cond
    have hround := hrounds.lasts
      (fun _ => confined_guardedRound hk hinner (fun _ => trivial) (hholds _) _) hready
    have hlast := (hholds _).lasts_of_ok (hround.ready hready) hcond
    exact ⟨s, _, hstart, hpush, hround.trans hlast⟩
  | inRepeat hpush hrounds _ =>
    obtain ⟨-, hready, -⟩ := pushScope_lasts hs hpush
    exact ⟨s, _, hstart, hpush, hrounds.lasts
      (fun _ => congr_repeatRound hk.evaluates (inside (fun _ _ => True) hinner) (fun _ => trivial) _
        _) hready⟩
  | inFor hhead _ hpush hrounds _ _ hdeclare =>
    have hfirst := Confined.lasts_of_ok
      (congr_forHead hk.evaluates (inside _ hscope) _ _ _ _) hs hhead
    obtain ⟨-, hready, -⟩ := pushScope_lasts (hfirst.ready hs) hpush
    have hround := hrounds.lasts
      (fun _ => congr_countRound hk.evaluates (inside (fun _ _ => True) hinner) (fun _ => trivial) _ _
        _ _) hready
    have hlast := (confined_declare (n := inner + 1) _ trivial).lasts_of_ok (hround.ready hready)
      hdeclare
    exact ⟨_, _, hfirst, hpush, hround.trans hlast⟩
  | inForIn hpush hhead hrounds _ hadvance =>
    obtain ⟨-, hready, hlt⟩ := pushScope_lasts hs hpush
    have hscope' : strict → scope < inner + 1 := fun hstrict => Nat.lt_succ_of_lt (hlt hstrict)
    have hfirst := (confined_forInHead hk hscope' _ _ fun _ _ _ _ => trivial).lasts_of_ok hready
      hhead
    have hstep (it : Iteration) :
        Run.Confined strict (inner + 1) (fun _ _ => True) (advance k scope inner it) :=
      confined_advance hk hscope' it fun _ _ => trivial
    have hround := hrounds.lasts
      (fun _ => confined_guardedRound hk hinner (fun _ => trivial) (hstep _) _)
      (hfirst.ready hready)
    have hlast := (hstep _).lasts_of_ok (hround.ready (hfirst.ready hready)) hadvance
    exact ⟨s, _, hstart, hpush, (hfirst.trans hround).trans hlast⟩

end

theorem InBlock.later (hk : k.Confined True) (hs : s.WellFormed) (hscope : scope < s.scopes.size)
    (h : InBlock k scope b s st t) : s.Later t :=
  (h.lasts hk fun _ => ⟨hscope, hs⟩).later

theorem Enters.later (hk : k.Confined True) (hs : s.WellFormed) (hscope : scope < s.scopes.size)
    (h : Enters k scope form s inner b t) : s.Later t ∧ (t.scope inner).parent = some scope := by
  have hready : Ready True (scope + 1) s := fun _ => ⟨hscope, hs⟩
  obtain ⟨u, v, hsu, hpush, hvt⟩ := h.lasts hk hready
  obtain ⟨huv, -, -⟩ := pushScope_lasts (hsu.ready hready) hpush
  have hparent := congrArg Scope.parent (scope_of_pushScope hpush)
  exact ⟨((hsu.trans huv).trans hvt).later, hvt.later.parent hparent⟩

theorem Reaches.later {n : Nat} {p : Point} (hs : s.WellFormed) (hscope : scope < s.scopes.size)
    (h : Reaches n scope b s p) : s.Later p.store ∧ p.store.Within scope p.scope := by
  induction h with
  | here hin => exact ⟨hin.later (Evaluator.confined_withFuel True _) hs hscope, .top⟩
  | inside hin henter _ ih =>
    have hbefore := hin.later (Evaluator.confined_withFuel True _) hs hscope
    obtain ⟨hinside, hparent⟩ := henter.later (Evaluator.confined_withFuel True _)
      hbefore.wellFormed (hbefore.lt_size hscope)
    obtain ⟨hlater, hwithin⟩ := ih hinside.wellFormed (Store.lt_size_of_parent_eq_some hparent)
    have hinner := Store.Within.inside (hlater.parent hparent) .top
    exact ⟨(hbefore.trans hinside).trans hlater, hinner.trans hwithin⟩

end Eval

/-! ## The course of a run -/

open Run

open Evaluator (withFuel)

namespace Store

/-- A store that can come after another one: expressions are evaluated, statements executed and
values called, whether they end normally or not, and in between constructs do their own part. -/
inductive Onward (s : Store) : Store → Prop
  | refl : Onward s s
  | expression {t : Store} (n scope : Nat) (e : Expr) :
      Onward s t → Onward s (((withFuel n).expr scope e).final t)
  | statement {t : Store} (n scope : Nat) (st : Stat) :
      Onward s t → Onward s (((withFuel n).stat scope st).final t)
  | call {t : Store} (n : Nat) (f : Value) (args : List Results) (scope : Option Nat)
      (traced : Bool) : Onward s t → Onward s (((withFuel n).call f args scope traced).final t)
  | assignment {t : Store} (scope : Nat) (x : Bytes) (v : Value) :
      Onward s t → Onward s ((assign scope x v).final t)
  | declaration {t : Store} (scope : Nat) (x : Bytes) (v : Variable) :
      Onward s t → Onward s ((declare scope x v).final t)
  | field {t : Store} (v key value : Value) : Onward s t → Onward s ((rawPut v key value).final t)
  | table {t : Store} (x : Table) : Onward s t → Onward s ((newTable x).final t)
  | function {t : Store} (f : Function) : Onward s t → Onward s ((newFunction f).final t)
  | scope {t : Store} (parent : Nat) : Onward s t → Onward s ((Run.pushScope parent).final t)
  | world {t : Store} {α : Type} (action : World.Action α) :
      Onward s t → Onward s ((Run.world action).final t)
  | settings {t : Store} (i : Nat) (verbose warnings : Bool) :
      Onward s t → Onward s ((modifySession i fun x => { x with verbose, warnings }).final t)

end Store

theorem Store.Onward.lasts {s t : Store} (h : s.Onward t) : s.Lasts False t := by
  have hk (n : Nat) := Evaluator.confined_withFuel False n
  induction h with
  | refl => exact .refl False.elim
  | expression n scope e _ ih =>
    exact ih.trans (((hk n).expr 0 _ scope e False.elim).onward _)
  | statement n scope st _ ih =>
    exact ih.trans (((hk n).stat 0 _ scope st False.elim fun _ _ => trivial).onward _)
  | call n f args scope traced _ ih =>
    exact ih.trans (((hk n).call 0 _ f args scope traced False.elim).onward _)
  | assignment scope x v _ ih => exact ih.trans ((confined_assign scope x v).onward _)
  | declaration scope x v _ ih => exact ih.trans ((confined_declare v trivial).onward _)
  | field v key value _ ih => 
    exact ih.trans (Confined.onward
      (congr_rawPut (R := .confined False 0 (fun _ _ => True) 0) v key value) _)
  | table x _ ih => exact ih.trans (lasts_newTable _ x)
  | function f _ ih =>
    exact ih.trans ⟨.of_scope_eq (Nat.le_refl _) (fun _ _ => rfl) (Nat.le_refl _) fun _ _ => rfl,
      Store.retains_pushFunction _ f, False.elim⟩
  | scope parent _ ih =>
    exact ih.trans ⟨Store.extends_pushScope _ _ _, Store.retains_pushScope _ _, False.elim⟩
  | world action _ ih => exact ih.trans ((confined_world action).onward _)
  | settings i verbose warnings _ ih =>
    have hset : Run.Confined False 0 (fun _ _ => True)
        (modifySession i fun x => { x with verbose, warnings }) :=
      confined_modifySession i (fun _ => rfl) fun _ => rfl
    exact ih.trans (hset.onward _)

end LuaInterpreter
