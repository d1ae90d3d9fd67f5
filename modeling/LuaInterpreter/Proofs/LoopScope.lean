import LuaInterpreter.Proofs.BlockStructure
import LuaInterpreter.Proofs.ReachedScopes

/-!
# The scope of a loop

A loop makes one scope and runs its body there in every round. What a round declares is still there
in the next one: names go on to lead to it, constants cannot be declared again, and functions made
in different rounds share all variables.
-/

namespace LuaInterpreter

open Run Store Bytes

open Evaluator (withFuel)

/-- The variables that a loop declares itself. -/
def StatForm.Controls (form : StatForm) (x : Bytes) : Prop :=
  match form with
  | .for name _ _ _ _ => encodeAscii? name.text = .ok x
  | .forIn names _ _ => ∃ name ∈ names, encodeAscii? name.text = .ok x
  | _ => False

namespace Store

variable {s : Store} {x : Bytes}

theorem Within.le (hs : s.WellFormed) {top id : Nat} (h : s.Within top id) : top ≤ id := by
  induction h with
  | top => exact Nat.le_refl _
  | inside hp _ ih => exact Nat.le_trans ih (Nat.le_of_lt (hs.parent _ _ hp).1)

/-- A name means in a scope what it means around it exactly if the scope does not have it. -/
theorem sameDeclaration_parent_iff (hs : s.WellFormed) {id p : Nat}
    (hp : (s.scope id).parent = some p) :
    s.SameDeclaration x id p ↔ x ∉ (s.scope id).names := by
  rw [← Scope.find?_eq_none_iff]
  constructor
  · rintro ⟨owner, hid, hparent⟩
    cases hid with
    | here _ => exact absurd (hparent.within.le hs) (Nat.not_le.mpr (hs.parent id p hp).1)
    | outside hx _ _ | nowhere hx _ => exact hx
  · intro hx
    have hparent := resolves_owner? hs x p
    exact ⟨_, .outside hx hp hparent, hparent⟩

end Store

namespace Run

variable {σ α : Type} {step : σ → Run (σ ⊕ α)} {i j : Nat} {x y z : σ} {s t u : Store}

theorem Rounds.extends {D : Declarable} (hstep : ∀ x, Confined False 0 D (step x))
    (h : Rounds step i x s y t) : Store.Extends D s t := by
  induction h with
  | zero => exact .refl D _
  | succ hround _ ih => exact ((hstep _).extends_of_ok hround).trans ih fun _ _ _ => id

/-- Where there are more rounds, the ones that have been made are followed by another one. -/
theorem Rounds.next (hi : Rounds step i x s y t) (hj : Rounds step j x s z u) (hij : i < j) :
    ∃ y' t' m, step y t = .ok (.inl y') t' ∧ Rounds step m y' t' z u := by
  induction hi generalizing j with
  | zero =>
    cases hj with
    | zero => cases hij
    | succ hround hrest => exact ⟨_, _, _, hround, hrest⟩
  | succ hround _ ih =>
    cases hj with
    | zero => cases hij
    | succ hround' hrest =>
      cases hround.symm.trans hround'
      exact ih hrest (Nat.lt_of_succ_lt_succ hij)

end Run

namespace Eval

/-! ## Rounds -/

/-- What a loop does in a round besides running its body: before it, when it decides whether the
body is run at all, and after it, when it decides how to go on. -/
structure Cycle where
  State : Type
  start : State
  before : State → Run Bool
  after : State → Run (State ⊕ Unit)

namespace Cycle

def round (c : Cycle) (k : Evaluator) (inner : Nat) (body : Block) (x : c.State) :
    Run (c.State ⊕ Unit) := do
  if ← c.before x then
    let _ ← runBlock k inner body
    c.after x
  else return .inr ()

def guarded (goesOn : Run Bool) : Cycle where
  State := Unit
  start := ()
  before := fun () => goesOn
  after := fun () => return .inl ()

def untilHolds (k : Evaluator) (inner : Nat) (cond : Expr) : Cycle where
  State := Unit
  start := ()
  before := fun () => return true
  after := fun () => do return if ← holds k inner cond then .inr () else .inl ()

def counting (inner : Nat) (x : Bytes) (p : Progression) : Cycle where
  State := Number
  start := p.start
  before := fun i => do
    if p.covers i then
      declare inner x { value := .num i }
      return true
    else return false
  after := fun i => do
    let (overflow, next) ← ofExcept (i.addReporting p.step)
    return if overflow then .inr () else .inl next

variable {k : Evaluator} {inner : Nat} {body : Block}

theorem round_counting (x : Bytes) (p : Progression) :
    (counting inner x p).round k inner body = countRound k inner x p body := by
  funext i
  cases hcovers : p.covers i <;> simp [round, counting, countRound, hcovers]

theorem confined_round {D : Declarable} {c : Cycle} (hk : k.Confined False)
    (hbefore : ∀ x, Run.Confined False 0 D (c.before x))
    (hafter : ∀ x, Run.Confined False 0 D (c.after x)) (hbody : ∀ x, body.Declares x → D inner x)
    (x : c.State) : Run.Confined False 0 D (c.round k inner body x) :=
  (hbefore x).bind fun _ =>
    .ite ((confined_runBlock hk False.elim body hbody).bind fun _ => hafter x) (.pure _)

/-- A round that has come to the body and goes on has run the body to its end. -/
theorem round_of_before {c : Cycle} {x y : c.State} {s t u : Store}
    (hbefore : c.before x s = .ok true t) (h : c.round k inner body x s = .ok (.inl y) u) :
    ∃ r v, runBlock k inner body t = .ok r v ∧ c.after x v = .ok (.inl y) u := by
  rw [round, bind_of_ok hbefore, if_pos rfl] at h
  exact bind_eq_ok_iff.mp h

end Cycle

/-! ## Loops -/

/-- A loop has been started: it has evaluated its head and made its scope, and its rounds come
next. -/
inductive Starts (k : Evaluator) (scope : Nat) :
    StatForm → Store → Nat → Block → Cycle → Store → Prop
  | inWhile {cond : Expr} {body : Block} {s t : Store} {inner : Nat} :
      pushScope scope s = .ok inner t →
      Starts k scope (.while cond body) s inner body (.guarded (holds k scope cond)) t
  | inRepeat {cond : Expr} {body : Block} {s t : Store} {inner : Nat} :
      pushScope scope s = .ok inner t →
      Starts k scope (.repeat body cond) s inner body (.untilHolds k inner cond) t
  | inFor {name : Name} {start stop : Expr} {step : Option Expr} {body : Block} {x : Bytes}
      {p : Progression} {s t u : Store} {inner : Nat} :
      forHead k scope name start stop step s = .ok (x, p) t → p.step.eq (.int 0) = false →
      pushScope scope t = .ok inner u →
      Starts k scope (.for name start stop step body) s inner body (.counting inner x p) u
  | inForIn {names : List Name} {exprs : List Expr} {body : Block} {it : Iteration}
      {s t u : Store} {inner : Nat} :
      pushScope scope s = .ok inner t → forInHead k scope inner names exprs t = .ok it u →
      Starts k scope (.forIn names exprs body) s inner body (.guarded (advance k scope inner it)) u

/-- A loop comes to run its body, in a scope and on a store, after a number of rounds. -/
inductive Iterates (k : Evaluator) (scope : Nat) (form : StatForm) (s : Store) (i inner : Nat)
    (body : Block) (t : Store) : Prop
  | intro {c : Cycle} {u v : Store} {x : c.State} :
      Starts k scope form s inner body c u → Rounds (c.round k inner body) i c.start u x v →
      i < k.fuel → c.before x v = .ok true t → Iterates k scope form s i inner body t

section

variable {k : Evaluator} {scope inner inner' i j : Nat} {form : StatForm} {body body' : Block}
  {c c' : Cycle} {s t u v : Store}

theorem Starts.unique (h : Starts k scope form s inner body c t)
    (h' : Starts k scope form s inner' body' c' u) :
    inner' = inner ∧ body' = body ∧ c' = c ∧ u = t := by
  cases h with
  | inWhile hpush | inRepeat hpush =>
    cases h' with
    | _ hpush' =>
      cases hpush.symm.trans hpush'
      exact ⟨rfl, rfl, rfl, rfl⟩
  | inFor hhead _ hpush =>
    cases h' with
    | inFor hhead' _ hpush' =>
      cases hhead.symm.trans hhead'
      cases hpush.symm.trans hpush'
      exact ⟨rfl, rfl, rfl, rfl⟩
  | inForIn hpush hhead =>
    cases h' with
    | inForIn hpush' hhead' =>
      cases hpush.symm.trans hpush'
      cases hhead.symm.trans hhead'
      exact ⟨rfl, rfl, rfl, rfl⟩

theorem Iterates.enters (h : Iterates k scope form s i inner body t) :
    Enters k scope form s inner body t := by
  obtain ⟨hstarts, hrounds, hfuel, hbefore⟩ := h
  cases hstarts with
  | inWhile hpush =>
    exact .inWhile hpush hrounds hfuel hbefore
  | inRepeat hpush =>
    cases hbefore
    exact .inRepeat hpush hrounds hfuel
  | @inFor _ _ _ _ _ _ p _ _ _ _ hhead hstep hpush =>
    rename_i x
    rw [Cycle.round_counting] at hrounds
    simp only [Cycle.counting] at hbefore
    cases hcovers : p.covers x with
    | true =>
      rw [hcovers, if_pos rfl] at hbefore
      obtain ⟨_, _, hdeclare, hpure⟩ := bind_eq_ok_iff.mp hbefore
      cases hpure
      exact .inFor hhead hstep hpush hrounds hfuel hcovers hdeclare
    | false =>
      rw [hcovers] at hbefore
      cases hbefore
  | inForIn hpush hhead =>
    exact .inForIn hpush hhead hrounds hfuel hbefore

/-! ## Names -/

theorem ensures_forHead (name : Name) (start stop : Expr) (step : Option Expr) :
    Ensures (forHead k scope name start stop step)
      fun head => encodeAscii? name.text = .ok head.1 := by
  -- The numbers that are evaluated next do not change the name.
  refine ensures_bind_of (ensures_nameString name) fun x hx => ?_
  refine ensures_bind fun _ => ensures_bind fun _ => ensures_bind fun _ => ensures_bind fun _ => ?_
  cases step with
  | none => exact ensures_bind fun _ => ensures_bind fun _ => ensures_pure hx
  | some e =>
    exact ensures_bind fun _ => ensures_bind fun _ => ensures_bind fun _ => ensures_pure hx

theorem ensures_forInHead (names : List Name) (exprs : List Expr) :
    Ensures (forInHead k scope inner names exprs)
      fun it => ∀ x ∈ it.names, ∃ name ∈ names, encodeAscii? name.text = .ok x := by
  refine ensures_bind_of (ensures_mapM_nameString names) fun xs hxs => ?_
  cases xs with
  | nil => exact ensures_bind_of (P := fun _ => False) (ensures_throw _) fun _ => False.elim
  | cons x xs =>
    exact ensures_bind fun _ => ensures_bind fun _ => ensures_bind fun _ => ensures_pure hxs

variable (hk : k.Confined False)
include hk

/-- Before and after its body, a loop declares no names but its own variables. -/
theorem Starts.confined (h : Starts k scope form s inner body c t) {D : Declarable}
    (hD : ∀ x, form.Controls x → D inner x) (x : c.State) :
    Run.Confined False 0 D (c.before x) ∧ Run.Confined False 0 D (c.after x) := by
  cases h with
  | inWhile _ => exact ⟨confined_holds hk False.elim _, .pure _⟩
  | inRepeat _ => exact ⟨.pure _, (confined_holds hk False.elim _).bind fun _ => .pure _⟩
  | inFor hhead _ _ =>
    have hname := ensures_forHead _ _ _ _ _ _ _ hhead
    exact ⟨.ite ((confined_declare _ (hD _ hname)).bind fun _ => .pure _) (.pure _),
      (Run.Confined.ofExcept _).bind fun _ => .pure _⟩
  | inForIn _ hhead =>
    have hnames := ensures_forInHead _ _ _ _ _ hhead
    exact ⟨confined_advance hk False.elim _ fun x hx => hD x (hnames x hx), .pure _⟩

theorem Starts.names (h : Starts k scope form s inner body c t) :
    inner < t.scopes.size ∧ ∀ x ∈ (t.scope inner).names, form.Controls x := by
  have hempty {s t : Store} (hpush : pushScope scope s = .ok inner t) :
      inner < t.scopes.size ∧ (t.scope inner).names = [] := by
    have hscope := scope_of_pushScope hpush
    exact ⟨lt_size_of_parent_eq_some (congrArg Scope.parent hscope), by rw [hscope]; rfl⟩
  cases h with
  | inWhile hpush | inRepeat hpush | inFor _ _ hpush =>
    obtain ⟨hlt, hnames⟩ := hempty hpush
    exact ⟨hlt, by simp [hnames]⟩
  | @inForIn names exprs _ _ _ _ _ _ hpush hhead =>
    obtain ⟨hlt, hnames⟩ := hempty hpush
    have hextends := (confined_forInHead (D := fun _ => (StatForm.forIn names exprs body).Controls)
      hk False.elim names exprs fun name hname x hx => ⟨name, hname, hx⟩).extends_of_ok hhead
    obtain ⟨added, hadded, hcontrols⟩ := hextends.names inner hlt
    rw [hnames, List.nil_append] at hadded
    exact ⟨Nat.lt_of_lt_of_le hlt hextends.size, hadded ▸ hcontrols⟩

/-- A round starts with the variables of the loop and with names that the body declares, but the
first one only with the former. -/
theorem Iterates.names (h : Iterates k scope form s i inner body t) :
    ∀ x ∈ (t.scope inner).names, form.Controls x ∨ 0 < i ∧ body.Declares x := by
  obtain @⟨c, u, v, _, hstarts, hrounds, -, hbefore⟩ := h
  obtain ⟨hlt, hfirst⟩ := hstarts.names hk
  have hparts := hstarts.confined hk
    (D := fun _ x => form.Controls x ∨ 0 < i ∧ body.Declares x) fun x => .inl
  have hextends : Store.Extends (fun _ x => form.Controls x ∨ 0 < i ∧ body.Declares x) u v := by
    cases hrounds with
    | zero => exact .refl _ _
    | @succ m _ _ _ _ _ _ hround hrest =>
      exact (Rounds.succ hround hrest).extends fun x => Cycle.confined_round hk
        (fun x => (hparts x).1) (fun x => (hparts x).2) (fun x hx => .inr ⟨Nat.succ_pos m, hx⟩) x
  have hall := hextends.trans ((hparts _).1.extends_of_ok hbefore) fun _ _ _ => id
  obtain ⟨added, hadded, hnew⟩ := hall.names inner hlt
  intro x hx
  rcases List.mem_append.mp (hadded ▸ hx) with hx | hx
  · exact .inl (hfirst x hx)
  · exact hnew x hx

/-! ## From round to round -/

/-- A statement that a block has come to and that has ended lies before the end of the block. -/
theorem InBlock.lasts_end {st : Stat} {out : Option Results} {r : Results}
    (h : InBlock k scope body s st t) (hst : k.stat scope st t = .ok out u)
    (hrun : runBlock k scope body s = .ok r v) : u.Lasts False v := by
  have hstat (st : Stat) : Run.Confined False 0 (fun _ _ => True) (k.stat scope st) :=
    hk.stat 0 _ scope st False.elim fun _ _ => trivial
  obtain ⟨last, w, hstats, hret⟩ := bind_eq_ok_iff.mp hrun
  cases h with
  | @stat _ after _ _ _ hsplit hbefore =>
    rw [hsplit, runStats_append hbefore, runStats_cons_of_ok hst] at hstats
    have hrest : Run.Confined False 0 (fun _ _ => True)
        (runStats k scope (labelsOf body) out after) :=
      congr_runStats hk.evaluates (inside _ False.elim) _ out after fun _ _ _ _ => trivial
    refine (hrest.onward_of_ok hstats).trans (Run.Confined.onward_of_ok ?_ hret)
    split
    · exact (hstat _).bind fun _ => .pure _
    · exact .pure _
  | ret hreturn hall =>
    cases hstats.symm.trans (runStats_eq_ok_iff.mpr ⟨_, hall, rfl⟩)
    rw [hreturn] at hret
    obtain ⟨_, _, hst', hpure⟩ := bind_eq_ok_iff.mp hret
    cases hst.symm.trans hst'
    cases hpure
    exact .refl False.elim

/-- Two rounds of a loop run the same body in the same scope, and what the body of the earlier one
leaves is there when the later one comes to its body. -/
theorem Iterates.before_later (hi : Iterates k scope form s i inner body t)
    (hj : Iterates k scope form s j inner' body' v) (hij : i < j) :
    inner' = inner ∧ body' = body ∧ ∃ r u, runBlock k inner body t = .ok r u ∧ u.Lasts False v := by
  obtain ⟨hstarts, hrounds, -, hbefore⟩ := hi
  obtain ⟨hstarts', hrounds', -, hbefore'⟩ := hj
  obtain ⟨rfl, rfl, rfl, rfl⟩ := hstarts.unique hstarts'
  have hparts := hstarts.confined hk (D := fun _ _ => True) fun _ _ => trivial
  obtain ⟨_, _, _, hround, hrest⟩ := hrounds.next hrounds' hij
  obtain ⟨r, u, hrun, hafter⟩ := Cycle.round_of_before hbefore hround
  have hlater := hrest.lasts (fun x => Cycle.confined_round hk (fun x => (hparts x).1)
    (fun x => (hparts x).2) (fun _ _ => trivial) x) False.elim
  refine ⟨rfl, rfl, r, u, hrun, ?_⟩
  exact (((hparts _).2.onward_of_ok hafter).trans hlater).trans ((hparts _).1.onward_of_ok hbefore')

end

/-! ## Functions -/

/-- A function is made in a scope: by an expression, or by a statement that defines it. -/
inductive Makes (k : Evaluator) (scope : Nat) (s : Store) (id : Nat) (t : Store) : Prop
  | byExpression {e : Expr} {body : FuncBody} :
      e.form = .function body → expression k scope e s = .ok (.one (.func id)) t →
      Makes k scope s id t
  | byStatement {st : Stat} {name : FuncName} {body : FuncBody} :
      st.form = .function name body →
      statement k scope st s = .ok (some (.many [.one (.func id)])) t → Makes k scope s id t
  | byLocal {st : Stat} {name : Name} {body : FuncBody} :
      st.form = .localFunction name body →
      statement k scope st s = .ok (some (.many [.one (.func id)])) t → Makes k scope s id t

def Refers (s : Store) (id scope : Nat) : Prop :=
  ∃ f, s.function? id = some f ∧ f.scope = some scope

/-- A function whose calls find all names of a scope there, unless they have them themselves. -/
def Captures (s : Store) (id scope : Nat) : Prop :=
  ∃ f, s.function? id = some f ∧ f.scope = some scope ∧
    ∀ x ∈ (s.scope scope).names, ∀ args, x ∉ (frame s f scope args).names →
      (entry s f scope args).Resolves x s.scopes.size (some scope)

section

variable {k : Evaluator} {scope id : Nat} {s t u : Store} {f : Function}

theorem Refers.of_lasts (h : Refers s id scope) (hst : s.Lasts False t) : Refers t id scope := by
  obtain ⟨f, hf, hscope⟩ := h
  exact ⟨f, hst.retain.function id f hf, hscope⟩

theorem Refers.captures (h : Refers s id scope) : Captures s id scope := by
  obtain ⟨f, hf, hscope⟩ := h
  refine ⟨f, hf, hscope, fun x hx args hown => ?_⟩
  have hfind : (s.scope scope).find? x ≠ none := fun h => Scope.find?_eq_none_iff.mp h hx
  obtain ⟨v, hv⟩ := Option.ne_none_iff_exists'.mp hfind
  have hkept : (entry s f scope args).scope scope = s.scope scope :=
    scope_pushScope_of_lt (lt_size_of_find?_eq_some hv)
  refine .outside ?_ (congrArg Scope.parent scope_entry) (.here (hkept ▸ hv))
  rw [scope_entry]
  exact Scope.find?_eq_none_iff.mpr hown

theorem refers_newFunction (hscope : f.scope = some scope)
    (h : newFunction f s = .ok (.func id) t) : Refers t id scope := by
  cases h
  exact ⟨f, Array.getElem?_push_size, hscope⟩

theorem ensures_closure_scope (scope : Nat) (body : FuncBody) :
    Ensures (closure scope body) fun f => f.scope = some scope := by
  intro s f t h
  obtain ⟨_, _, _, hpure⟩ := bind_eq_ok_iff.mp (traced_eq_ok_iff.mp h)
  cases hpure
  rfl

theorem refers_defineFunction (hk : k.Confined False) {name : FuncName} {body : FuncBody}
    (h : defineFunction k scope name body s = .ok (.many [.one (.func id)]) t) :
    Refers t id scope := by
  obtain ⟨f, _, hclosure, h⟩ := bind_eq_ok_iff.mp h
  have hf := ensures_closure_scope scope body _ _ _ hclosure
  have hscope (label : Option FunctionName) :
      Function.scope { (if name.method then { f with params := ofAscii "self" :: f.params }
        else f) with name := label } = some scope := by
    split <;> exact hf
  match hnames : name.names with
  | [] =>
    rw [hnames] at h
    cases h
  | [n] =>
    rw [hnames] at h
    obtain ⟨x, _, _, h⟩ := bind_eq_ok_iff.mp h
    obtain ⟨v, _, hnew, h⟩ := bind_eq_ok_iff.mp h
    obtain ⟨_, _, hassign, hpure⟩ := bind_eq_ok_iff.mp h
    cases hpure
    exact (refers_newFunction (hscope _) hnew).of_lasts
      ((confined_assign scope x _).onward_of_ok hassign)
  | n :: n' :: ns =>
    rw [hnames] at h
    obtain ⟨_, _, -, h⟩ := bind_eq_ok_iff.mp h
    obtain ⟨_, _, -, h⟩ := bind_eq_ok_iff.mp h
    obtain ⟨base, _, -, h⟩ := bind_eq_ok_iff.mp h
    obtain ⟨x, _, -, h⟩ := bind_eq_ok_iff.mp h
    obtain ⟨v, _, hnew, h⟩ := bind_eq_ok_iff.mp h
    obtain ⟨_, _, hwrite, hpure⟩ := bind_eq_ok_iff.mp h
    cases hpure
    exact (refers_newFunction (hscope _) hnew).of_lasts
      (Confined.onward_of_ok (Index.congr_write (hk.call.calls 0) base (.str x) _) hwrite)

theorem refers_defineLocal {name : Name} {body : FuncBody}
    (h : defineLocal scope name body s = .ok (.many [.one (.func id)]) t) : Refers t id scope := by
  obtain ⟨x, _, _, h⟩ := bind_eq_ok_iff.mp h
  obtain ⟨_, _, _, h⟩ := bind_eq_ok_iff.mp h
  obtain ⟨f, _, hclosure, h⟩ := bind_eq_ok_iff.mp h
  have hf := ensures_closure_scope scope body _ _ _ hclosure
  obtain ⟨v, _, hnew, h⟩ := bind_eq_ok_iff.mp h
  obtain ⟨_, _, hdeclare, hpure⟩ := bind_eq_ok_iff.mp h
  cases hpure
  refine .of_lasts ?_ ((confined_declare _ trivial).onward_of_ok hdeclare)
  exact refers_newFunction (f := { f with name := some (.string x) }) hf hnew

theorem Makes.refers (hk : k.Confined False) (h : Makes k scope s id t) : Refers t id scope := by
  cases h with
  | @byExpression e body hform h =>
    rw [expression, hform] at h
    obtain ⟨f, _, hclosure, h⟩ := bind_eq_ok_iff.mp (traced_eq_ok_iff.mp h)
    obtain ⟨v, _, hnew, hpure⟩ := bind_eq_ok_iff.mp h
    cases hpure
    exact refers_newFunction (ensures_closure_scope scope body _ _ _ hclosure) hnew
  | byStatement hform h =>
    rw [statement, hform] at h
    obtain ⟨r, _, hdefine, hpure⟩ := bind_eq_ok_iff.mp (traced_eq_ok_iff.mp h)
    cases hpure
    exact refers_defineFunction hk hdefine
  | byLocal hform h =>
    rw [statement, hform] at h
    obtain ⟨r, _, hdefine, hpure⟩ := bind_eq_ok_iff.mp (traced_eq_ok_iff.mp h)
    cases hpure
    exact refers_defineLocal hdefine

end

/-! ## Later rounds -/

/-- The rounds of a loop are not independent. Let a `while`, `repeat`, numeric or generic `for`
loop come to its body twice, after `i` and after `j` rounds, with `i < j`. Both times it is run in
one and the same scope `inner`. At the start of the later round a name means what it means around
the loop exactly if `inner` does not have it. The names that `inner` has are variables of the loop,
or declared by the body; when the first round starts they are only the former. All names that an
ended statement of the earlier round has declared are among them, and a constant that it has left
there can never be declared again. A function made in `inner`, in whichever round, refers to `inner`
for all time: called, it finds there all names that are not its own. -/
theorem loop_rounds_share_their_scope {n scope i j inner inner' : Nat} {form : StatForm}
    {body body' : Block} {s t v : Store} (hs : s.WellFormed) (hscope : scope < s.scopes.size)
    (hi : Iterates (withFuel n) scope form s i inner body t)
    (hj : Iterates (withFuel n) scope form s j inner' body' v) (hij : i < j) :
    inner' = inner ∧ body' = body ∧
    (∀ x, v.SameDeclaration x inner scope ↔ x ∉ (v.scope inner).names) ∧
    (∀ x ∈ (v.scope inner).names, form.Controls x ∨ body.Declares x) ∧
    (i = 0 → ∀ x ∈ (t.scope inner).names, form.Controls x) ∧
    (∀ st u out w, InBlock (withFuel n) inner body t st u →
      (withFuel n).stat inner st u = .ok out w →
      (∀ x, st.Declares x → x ∈ (v.scope inner).names) ∧
      ∀ x old, (w.scope inner).find? x = some old → old.constant = true →
        ∀ new z, v.Onward z → declare inner x new z = .error (.error constantError) z) ∧
    ∀ u id w z, Makes (withFuel n) inner u id w → w.Onward z → Captures z id inner := by
  have hk := Evaluator.confined_withFuel False n
  obtain ⟨rfl, rfl, r, e, hrun, hlasts⟩ := hi.before_later hk hj hij
  have hfirst := hi.names hk
  obtain ⟨-, hinner⟩ := hi.enters.later (Evaluator.confined_withFuel True n) hs hscope
  obtain ⟨hlater, hparent⟩ := hj.enters.later (Evaluator.confined_withFuel True n) hs hscope
  refine ⟨rfl, rfl, fun x => sameDeclaration_parent_iff hlater.wellFormed hparent, ?_, ?_, ?_,
    fun u id w z hmakes honward => ((hmakes.refers hk).of_lasts honward.lasts).captures⟩
  · intro x hx
    exact (hj.names hk x hx).imp_right And.right
  · rintro rfl x hx
    exact (hfirst x hx).resolve_right fun h => Nat.lt_irrefl 0 h.1
  · intro st u out w hin hst
    have hend := (hin.lasts_end hk hst hrun).trans hlasts
    have hstat : Run.Confined False 0 (fun _ _ => True) ((withFuel n).stat inner' st) :=
      hk.stat 0 _ inner' st False.elim fun _ _ => trivial
    have hu := (hin.lasts hk False.elim).lt_size (lt_size_of_parent_eq_some hinner)
    have hw := (hstat.onward_of_ok hst).lt_size hu
    constructor
    · intro x hx
      refine mem_names_of_extends hend.extend hw ?_
      cases n with
      | zero => cases hst
      | succ n => exact mem_names_of_statement (Evaluator.confined_withFuel False n) hu hst hx
    · intro x old hold hconstant new z honward
      have hz := (hend.trans honward.lasts).extend.constant inner' x old hold hconstant
      exact declare_of_constant hz hconstant

/-- The statement `local x <const> = true`. -/
def constantX : Stat :=
  .mk {} (.local [{ name := { lexeme := { text := "x" } }
                    attrib := some { lexeme := { text := "const" } } }] (some [.mk {} .litTrue]))

/-- The body of the loop `repeat local x <const> = true until false`. -/
def constantBody : Block := .mk {} [constantX] none

/-- The second round of the loop starts with the constant of the first one, which cannot be declared
again. Around the loop the name has another meaning. -/
theorem constantBody_stays :
    ∃ v, Iterates (withFuel 4) 3 (.repeat constantBody (.mk {} .litFalse)) siblingScopes 1 4
        constantBody v ∧
      ¬v.SameDeclaration (Bytes.ofAscii "x") 4 3 ∧
      ∀ new, declare 4 (Bytes.ofAscii "x") new v = .error (.error constantError) v := by
  have hstarts : Starts (withFuel 4) 3 (.repeat constantBody (.mk {} .litFalse)) siblingScopes 4
      constantBody (.untilHolds (withFuel 4) 4 (.mk {} .litFalse)) _ := .inRepeat rfl
  have hzero : Iterates (withFuel 4) 3 (.repeat constantBody (.mk {} .litFalse)) siblingScopes 0 4
      constantBody _ := .intro hstarts .zero (by decide) rfl
  have hone : Iterates (withFuel 4) 3 (.repeat constantBody (.mk {} .litFalse)) siblingScopes 1 4
      constantBody _ := .intro hstarts (.succ rfl .zero) (by decide) rfl
  obtain ⟨-, -, hsame, -, -, hended, -⟩ := loop_rounds_share_their_scope wellFormed_siblingScopes
    (by decide) hzero hone (by decide)
  obtain ⟨hnames, hconstants⟩ := hended constantX _ _ _ (.stat (List.nil_append _).symm .done) rfl
  have hx := hnames (ofAscii "x") ⟨_, List.mem_cons_self, rfl⟩
  exact ⟨_, hone, fun h => (hsame _).mp h hx, fun new => hconstants _ _ rfl rfl new _ .refl⟩

end Eval

end LuaInterpreter
