import LuaInterpreter.Proofs.Call
import LuaInterpreter.Proofs.ErrorPassing.Call
import LuaInterpreter.Proofs.History
import LuaInterpreter.Proofs.Nesting

/-!
# What a protected call gives

An error that is raised somewhere in the course of a protected call, and that no other protected
call stops, is what the call gives: `false` and the message, the very value that was raised.
-/

namespace LuaInterpreter

open Run Eval Builtin Results

/-! ## Tasks -/

inductive Task where
  | expr (scope : Nat) (e : Expr)
  | stat (scope : Nat) (st : Stat)
  | call (f : Value) (args : List Results) (scope : Option Nat) (traced : Bool)

/-- A task that is no call, or the call of a function. -/
def Task.OfFunction : Task → Prop
  | .call f _ _ _ => ∃ id, f = .func id
  | _ => True

/-- On a store, a task is the call of a function that catches errors. -/
def Task.Catches (task : Task) (s : Store) : Prop :=
  ∃ id args scope traced f,
    task = .call (.func id) args scope traced ∧ s.function? id = some f ∧ f.Catches

namespace Evaluator

variable {k k' : Evaluator} {task part : Task} {s t u : Store}

def Ends (k : Evaluator) (task : Task) (s : Store) (e : Signal) (t : Store) : Prop :=
  match task with
  | .expr scope x => k.expr scope x s = .error e t
  | .stat scope st => k.stat scope st s = .error e t
  | .call f args scope traced => k.call f args scope traced s = .error e t

/-- The evaluator that applies the rules itself, and has another one do the parts. -/
def above (k : Evaluator) : Evaluator where
  fuel := k.fuel + 1
  expr := Eval.expression k
  stat := Eval.statement k
  call := Eval.call k

theorem withFuel_succ (n : Nat) : withFuel (n + 1) = (withFuel n).above := by
  cases n with
  | zero | succ => rfl

open Classical in
/-- An evaluator that is stopped by a signal where it comes to a task on a store. -/
noncomputable def stoppedAt (k : Evaluator) (task : Task) (s : Store) (e : Signal) (t : Store) :
    Evaluator where
  fuel := k.fuel
  expr scope x u := if task = .expr scope x ∧ u = s then .error e t else k.expr scope x u
  stat scope st u := if task = .stat scope st ∧ u = s then .error e t else k.stat scope st u
  call f args scope traced u :=
    if task = .call f args scope traced ∧ u = s then .error e t else k.call f args scope traced u

variable {e : Signal}

theorem Ends.unique {e' : Signal} (h : k.Ends task s e t) (h' : k.Ends task s e' u) :
    e = e' ∧ t = u := by
  cases task with
  | _ =>
    cases h.symm.trans h'
    exact ⟨rfl, rfl⟩

section

variable {α : Type} {m m' : Run α} {here : Prop} {hd : Decidable here}

theorem mirrorsAt_stopped {c : Cut} {e : LuaError} (he : e.message = c.message)
    (hm' : m' u = if here then .error (.kill c.code) c.store else m u)
    (hhere : here → m u = .error (.error e) c.store) : MirrorsAt c m m' u := by
  by_cases h : here
  · exact .inr ⟨hm'.trans (if_pos h), .error e, he, hhere h⟩
  · exact .inl (hm'.trans (if_neg h)).symm

theorem confinedAt_stopped {strict : Prop} {n : Nat} {D : Declarable} (hu : Ready strict n u)
    (hm : ConfinedAt strict D m u) (hm' : m' u = if here then .error e s else m u)
    (hhere : here → u = s) : ConfinedAt strict D m' u := by
  by_cases h : here
  · exact .of_unchanged hu ((final_of_error (hm'.trans (if_pos h))).trans (hhere h).symm)
  · exact hm.of_eq (hm'.trans (if_neg h))

end

/-- Where a task ends with an error, the evaluator mirrors the one that is stopped there. -/
theorem mirrors_stoppedAt {c : Cut} (hfun : task.OfFunction) {e : LuaError}
    (he : e.message = c.message) (hends : k.Ends task s (.error e) c.store) :
    k.Mirrors c (k.stoppedAt task s (.kill c.code) c.store) where
  fuel := rfl
  expr := fun _ _ _ => mirrorsAt_stopped he rfl (by rintro ⟨rfl, rfl⟩; exact hends)
  stat := fun _ _ _ => mirrorsAt_stopped he rfl (by rintro ⟨rfl, rfl⟩; exact hends)
  call := fun _ _ _ _ _ => mirrorsAt_stopped he rfl (by rintro ⟨rfl, rfl⟩; exact hends)
  callable := by
    intro f hf
    funext args scope traced u
    refine (if_neg ?_).symm
    rintro ⟨rfl, -⟩
    obtain ⟨id, hid⟩ := hfun
    exact hf id hid

theorem Confined.stoppedAt {strict : Prop} (hk : k.Confined strict) (e : Signal) :
    (k.stoppedAt task s e s).Confined strict where
  expr := fun n D scope x hscope u hu =>
    confinedAt_stopped hu (hk.expr n D scope x hscope u hu) rfl And.right
  stat := fun n D scope st hscope hD u hu =>
    confinedAt_stopped hu (hk.stat n D scope st hscope hD u hu) rfl And.right
  call := fun n D f args scope traced hscope u hu =>
    confinedAt_stopped hu (hk.call n D f args scope traced hscope u hu) rfl And.right

theorem Confined.above {strict : Prop} (hk : k.Confined strict) : k.above.Confined strict where
  expr := fun _ _ _ e hscope => confined_expression hk hscope e
  stat := fun _ _ _ st hscope hD => confined_statement hk hscope st hD
  call := confines_call hk

theorem Confined.legible_of_ends (hk : k.Confined False) (hends : k.Ends task s e t)
    (hs : s.Legible) : t.Legible := by
  have hready : Ready False 0 s := False.elim
  cases task with
  | expr scope x =>
    exact final_of_error hends ▸
      (hk.expr 0 (fun _ _ => True) scope x False.elim s hready).legible hs
  | stat scope st =>
    exact final_of_error hends ▸
      (hk.stat 0 (fun _ _ => True) scope st False.elim (fun _ _ => trivial) s hready).legible hs
  | call f args scope traced =>
    exact final_of_error hends ▸
      (hk.call 0 (fun _ _ => True) f args scope traced False.elim s hready).legible hs

/-- Where the one evaluator is cut off, the rules give what they give with the other one, or an
error. -/
theorem Mirrors.ends_above {c : Cut} (hk : k.Mirrors c k') (hfun : task.OfFunction)
    (hcatch : ¬task.Catches s) (hends : k'.above.Ends task s (.kill c.code) c.store) :
    k.above.Ends task s (.kill c.code) c.store ∨
      ∃ e : LuaError, e.message = c.message ∧ k.above.Ends task s (.error e) c.store := by
  have hcases {α : Type} {m m' : Run α} (h : MirrorsAt c m m' s)
      (hm' : m' s = .error (.kill c.code) c.store) : m s = .error (.kill c.code) c.store ∨
      ∃ e : LuaError, e.message = c.message ∧ m s = .error (.error e) c.store := by
    rcases h with heq | ⟨-, e, hsays, hraise⟩
    · exact .inl (heq.trans hm')
    · cases e with
      | error e => exact .inr ⟨e, hsays, hraise⟩
      | _ => exact hsays.elim
  cases task with
  | expr _ x =>
    exact hcases (congr_expression (F := .mirrors c) (i := ()) hk.evaluates trivial trivial x s) hends
  | stat _ st =>
    exact hcases (congr_statement (F := .mirrors c) (i := ()) hk.evaluates trivial trivial st
      (fun _ _ => trivial) s) hends
  | call f args scope traced =>
    obtain ⟨id, rfl⟩ := hfun
    refine hcases (mirrorsAt_call hk (fun f hf hf' => ?_) args scope traced) hends
    exact hcatch ⟨id, args, scope, traced, f, rfl, hf, hf'⟩

end Evaluator

/-! ## From task to task -/

namespace Task

variable {k : Evaluator} {task part : Task} {s t u : Store}

/-- To do a task on a store, the interpreter asks for another one on another store: if the process
were ended there, that would be the end of the whole task. -/
def Asks (k : Evaluator) (task : Task) (s : Store) (part : Task) (u : Store) : Prop :=
  ∀ code t, (k.stoppedAt part u (.kill code) t).above.Ends task s (.kill code) t

theorem Asks.legible (hk : k.Confined False) (hasks : task.Asks k s part u) (hs : s.Legible) :
    u.Legible :=
  (hk.stoppedAt (.kill 0)).above.legible_of_ends (hasks 0 u) hs

theorem Asks.raises (hasks : task.Asks k s part u) (htask : task.OfFunction)
    (hcatch : ¬task.Catches s) (hpart : part.OfFunction) {e : LuaError}
    (hends : k.Ends part u (.error e) t) (ht : t.Legible) :
    ∃ e' : LuaError, e'.message = e.message ∧ k.above.Ends task s (.error e') t := by
  let cut (code : Int) : Cut := { store := t, message := e.message, code, legible := ht }
  have hmirrors (code : Int) : k.Mirrors (cut code) (k.stoppedAt part u (.kill code) t) :=
    Evaluator.mirrors_stoppedAt (c := cut code) hpart rfl hends
  rcases (hmirrors 0).ends_above htask hcatch (hasks 0 t) with hzero | hraises
  · rcases (hmirrors 1).ends_above htask hcatch (hasks 1 t) with hone | hraises
    · -- The task cannot end with both codes by itself.
      cases (hzero.unique hone).1
    · exact hraises
  · exact hraises

end Task

/-! ## Protected calls -/

namespace BasicLibrary

variable {k : Evaluator} {scope : Nat} {f : Value} {args : List Value} {s t : Store}

theorem protectedCall_of_error {e : LuaError} {onError : Value → Run Results}
    (hf : k.call f (args.map .one) (some scope) true s = .error (.error e) t) :
    protectedCall k scope f args onError s = onError e.message t := by
  refine (bind_of_ok (a := .error e.message) (t := t) ?_).trans rfl
  rw [tryCatch_of_error (bind_of_error hf)]
  rfl

end BasicLibrary

namespace Eval

variable {k : Evaluator} {id : Nat} {b : Builtin} {args : List Results} {scope : Option Nat}
  {traced : Bool} {s t : Store}

theorem call_builtin_of_ok (hb : s.function? id = some (.ofBuiltin b)) {r : Results}
    (hrun : runNative k (.ofBuiltin b) (flatten args) scope s = .ok r t) :
    call k (.func id) args scope traced s = .ok r t :=
  (callFunction_of_function hb k args scope traced).trans (handle_of_ok (handle_of_ok hrun))

theorem call_builtin_of_error (hb : s.function? id = some (.ofBuiltin b)) {e : LuaError}
    (hrun : runNative k (.ofBuiltin b) (flatten args) scope s = .error (.error e) t)
    (hname : ∃ name, text (.func id) t = .ok name t) :
    ∃ e' : LuaError, e'.message = e.message ∧
      call k (.func id) args scope traced s = .error (.error e') t := by
  have ⟨name, hname'⟩ := hname
  have hcall : callNative k id (.ofBuiltin b) args scope s =
      .error (.error (e.push (nativeEntry name))) t :=
    (handle_of_error hrun).trans (bind_of_ok hname')
  obtain ⟨e', he', hsettle⟩ := settleCall_of_error traced hname hcall
  exact ⟨e', he', (callFunction_of_function hb k args scope traced).trans hsettle⟩

variable {values : List Value} {sc : Nat}

/-- A function that is given the scope it is called from, and a number of arguments that it takes. -/
theorem runNative_of_check (hgets : b.profile.getsScope = true)
    (hcheck : b.profile.parameters.check b.profile.label b.profile.getsScope values.length = .ok ())
    (hscope : scopeFor (.ofBuiltin b) scope s = .ok sc t) :
    runNative k (.ofBuiltin b) values scope s = runBuiltin k sc b values t := by
  have hchecked : Run.ofExcept
      (b.profile.parameters.check b.profile.label b.profile.getsScope values.length) s =
      .ok () s := by
    rw [hcheck]
    rfl
  have hgiven : (Function.ofBuiltin b).getsScope = true := hgets
  refine (bind_of_ok hchecked).trans ?_
  rw [if_pos hgiven]
  exact bind_of_ok hscope

/-- The functions that catch errors take any number of arguments from some number on, and are given
the scope they are called from. -/
theorem runNative_of_scopeFor (hb : b = .pcall ∨ b = .xpcall)
    (hvalues : b.profile.parameters.required.length ≤ values.length)
    (hscope : scopeFor (.ofBuiltin b) scope s = .ok sc t) :
    runNative k (.ofBuiltin b) values scope s = BasicLibrary.run k sc b values t := by
  have hvariadic : b.profile.parameters.variadic = true := by
    rcases hb with rfl | rfl
    · rfl
    · rfl
  have hcheck : b.profile.parameters.check b.profile.label b.profile.getsScope values.length =
      .ok () := by
    simp only [Parameters.check, hvariadic, Nat.not_lt.mpr hvalues]
    rfl
  rcases hb with rfl | rfl
  · exact runNative_of_check rfl hcheck hscope
  · exact runNative_of_check rfl hcheck hscope

theorem legible_of_scopeFor {f : Function} (h : scopeFor f scope s = .ok sc t) (hs : s.Legible) :
    t.Legible := by
  cases hscope : scope <|> f.scope with
  | some sc =>
    rw [scopeFor, hscope] at h
    cases h
    exact hs
  | none =>
    rw [scopeFor, hscope] at h
    obtain ⟨u, hu, hopens⟩ := newRoot_eq s
    cases hu.symm.trans h
    exact hs.of_functions_eq hopens.functions

end Eval

/-! ## The way of an error -/

open Evaluator (withFuel)

/-- From a task on a store, with some fuel, the interpreter comes to another one, and an error that
leaves the last task is not caught on the way. All values that are called on the way are functions.
An error in the handler of `xpcall` is not caught by that `xpcall`. -/
inductive Uncaught : Nat → Task → Store → Nat → Task → Store → Prop
  | here {n : Nat} {task : Task} {s : Store} : task.OfFunction → Uncaught n task s n task s
  | part {n m : Nat} {task part origin : Task} {s u v : Store} :
      task.OfFunction → ¬task.Catches s → task.Asks (withFuel n) s part u →
      Uncaught n part u m origin v → Uncaught (n + 1) task s m origin v
  | handler {n m id sc : Nat} {args : List Results} {scope : Option Nat} {traced : Bool}
      {f h : Value} {values : List Value} {e : LuaError} {origin : Task} {s t u v : Store} :
      s.function? id = some (.ofBuiltin .xpcall) → flatten args = f :: h :: values →
      Eval.scopeFor (.ofBuiltin .xpcall) scope s = .ok sc t →
      (withFuel n).Ends (.call f (values.map .one) (some sc) true) t (.error e) u →
      Uncaught n (.call h [.one e.message] (some sc) true) u m origin v →
      Uncaught (n + 1) (.call (.func id) args scope traced) s m origin v

namespace Uncaught

variable {n m : Nat} {task origin : Task} {s t u : Store}

variable (h : Uncaught n task s m origin u)
include h

theorem ofFunction : task.OfFunction := by
  cases h with
  | here htask | part htask => exact htask
  | handler => exact ⟨_, rfl⟩

theorem legible (hs : s.Legible) : u.Legible := by
  induction h with
  | here => exact hs
  | part _ _ hasks _ ih => exact ih (hasks.legible (Evaluator.confined_withFuel False _) hs)
  | handler _ _ hscope hf _ ih =>
    exact ih ((Evaluator.confined_withFuel False _).legible_of_ends hf
      (legible_of_scopeFor hscope hs))

/-- An error that leaves the last task leaves the first one, with the same message and on the same
store. -/
theorem raises {e : LuaError} (hends : (withFuel m).Ends origin u (.error e) t) (ht : t.Legible) :
    ∃ e' : LuaError, e'.message = e.message ∧ (withFuel n).Ends task s (.error e') t := by
  induction h with
  | here => exact ⟨e, rfl, hends⟩
  | part htask hcatch hasks hrest ih =>
    obtain ⟨e₁, he₁, hpart⟩ := ih hends
    obtain ⟨e₂, he₂, htask⟩ := hasks.raises htask hcatch hrest.ofFunction hpart ht
    exact ⟨e₂, he₂.trans he₁, Evaluator.withFuel_succ _ ▸ htask⟩
  | @handler n _ _ sc args scope _ f h values _ _ s u _ _ hxpcall hargs hscope hf _ ih =>
    obtain ⟨e₁, he₁, hhandler⟩ := ih hends
    have hcatch : BasicLibrary.run (withFuel n) sc .xpcall (f :: h :: values) u =
        .error (.error e₁) t :=
      (BasicLibrary.protectedCall_of_error hf).trans (bind_of_error hhandler)
    have hrun : Eval.runNative (withFuel n) (.ofBuiltin .xpcall) (flatten args) scope s =
        .error (.error e₁) t := by
      rw [hargs, runNative_of_scopeFor (.inr rfl) (Nat.le_add_left 2 _) hscope, hcatch]
    obtain ⟨e₂, he₂, hcall⟩ := call_builtin_of_error hxpcall hrun (text_func_of_legible ht _)
    exact ⟨e₂, he₂.trans he₁, hcall⟩

end Uncaught

/-! ## An error in a loop in a function -/

theorem Signal.leaving_kill (code : Int) : Leaving (· = .kill code) := by
  constructor <;> simp

variable {task : Task} (k : Evaluator)

theorem Eval.runBlock_stoppedAt (scope : Nat) (place : Place) (st : Stat) (rest : List Stat)
    (ret : Option Stat) (code : Int) (s t : Store) :
    Raises (· = .kill code) (runBlock (k.stoppedAt (.stat scope st) s (.kill code) t) scope
      (.mk place (st :: rest) ret)) s t :=
  runBlock_raises (fun _ _ => nofun) (.stat (rfl : _ = [] ++ st :: rest) .done)
    ⟨_, rfl, if_pos ⟨rfl, rfl⟩⟩

theorem Evaluator.stoppedAt_expr (h : ∀ scope x, task ≠ .expr scope x) (s t : Store) (e : Signal) :
    (k.stoppedAt task s e t).expr = k.expr := by
  funext scope x u
  exact if_neg fun hx => h scope x hx.1

theorem Task.not_catches {s : Store} (h : ∀ f args scope traced, task ≠ .call f args scope traced) :
    ¬task.Catches s := by
  rintro ⟨id, args, scope, traced, _, htask, _⟩
  exact h _ _ _ _ htask

/-- The call `g(m)`. -/
def raisingCall : Expr :=
  .mk {} (.call (.mk {} (.variable { lexeme := ⟨"g", 1⟩ }))
    [.mk {} (.variable { lexeme := ⟨"m", 1⟩ })])

def raisingStat : Stat := .mk {} (.expr raisingCall)

/-- The loop `while true do g(m) end`. -/
def raisingLoop : Stat := .mk {} (.while (.mk {} .litTrue) (.mk {} [raisingStat] none))

/-- A function with the parameters `g` and `m` that runs the loop. -/
def raiser : Function :=
  { params := [Bytes.ofAscii "g", Bytes.ofAscii "m"], variadic := false, scope := some 0
    code := .block (.mk {} [raisingLoop] none), minRequired := some 0 }

/-- A verbose session in a store that has the library, the function and a table. -/
def raiserStore : Store :=
  { tables := #[{}], functions := (all.map Function.ofBuiltin).toArray.push raiser
    scopes := #[{ session := 0, parent := none }]
    sessions := #[{ globals := 0, root := 0, verbose := true }] }

/-- In the function, which has been given `error` and the table. -/
def calledStore : Store := raiserStore.pushScope
  { session := 0, parent := some 0
    locals := [(Bytes.ofAscii "g", { value := .func error.number }),
      (Bytes.ofAscii "m", { value := .table 0 })] }

def loopStore : Store := calledStore.pushScope { session := 0, parent := some 1 }

def errorCall : Task := .call (.func error.number) [.one (.table 0)] (some 2) false

/-- The call of the function by `pcall`. -/
def raiserCall : Task :=
  .call (.func all.length) [.one (.func error.number), .one (.table 0)] (some 0) true

theorem raiserCall_asks :
    raiserCall.Asks (withFuel 4) raiserStore (.stat 1 raisingLoop) calledStore := by
  intro code t
  obtain ⟨_, rfl, hblock⟩ :=
    runBlock_stoppedAt (withFuel 4) 1 {} raisingLoop [] none code calledStore t
  refine handle_of_control (m := Eval.runFunction _ raiser _ _) ?_ trivial
  exact tryCatch_of_error hblock

theorem raisingLoop_asks :
    (Task.stat 1 raisingLoop).Asks (withFuel 3) calledStore (.stat 2 raisingStat) loopStore := by
  intro code t
  have htask (scope : Nat) (x : Expr) : Task.stat 2 raisingStat ≠ .expr scope x := nofun
  have hexpr := (withFuel 3).stoppedAt_expr htask loopStore t (.kill code)
  have hcond : Eval.holds ((withFuel 3).stoppedAt (.stat 2 raisingStat) loopStore (.kill code) t) 1
      (.mk {} .litTrue) loopStore = .ok true loopStore := by
    rw [Eval.holds, Eval.single, hexpr]
    rfl
  have hblock := runBlock_stoppedAt (withFuel 3) 2 {} raisingStat [] none code loopStore t
  have henters : Eval.Enters _ 1 raisingLoop.form calledStore 2 _ loopStore :=
    .inWhile rfl .zero (Nat.succ_pos 2) hcond
  obtain ⟨_, rfl, hloop⟩ := statement_raises (Signal.leaving_kill code) henters hblock
  exact hloop

theorem raisingCall_asks :
    (Task.expr 2 raisingCall).Asks (withFuel 1) loopStore errorCall loopStore := by
  intro code t
  have htask (scope : Nat) (x : Expr) : errorCall ≠ .expr scope x := nofun
  have hexpr := (withFuel 1).stoppedAt_expr htask loopStore t (.kill code)
  refine traced_of_control ?_ trivial
  rw [raisingCall, Expr.form, Eval.form,
    bind_of_ok (a := .func error.number) (t := loopStore),
    bind_of_ok (a := [.one (.table 0)]) (t := loopStore)]
  · exact handle_of_control (if_pos ⟨rfl, rfl⟩) trivial
  · rw [Eval.each, hexpr]
    rfl
  · rw [Eval.single, hexpr]
    rfl

theorem raiserCall_uncaught : Uncaught 5 raiserCall raiserStore 1 errorCall loopStore := by
  have hraiser : ¬raiserCall.Catches raiserStore := by
    rintro ⟨_, _, _, _, f, hcall, hf, hcatch⟩
    cases hcall
    cases hf
    rcases hcatch with hcode | hcode
    · cases hcode
    · cases hcode
  refine .part ⟨_, rfl⟩ hraiser raiserCall_asks ?_
  refine .part trivial (Task.not_catches nofun) raisingLoop_asks ?_
  refine .part trivial (Task.not_catches nofun)
    (fun _ _ => traced_of_control (bind_of_error (if_pos ⟨rfl, rfl⟩)) trivial) ?_
  exact .part trivial (Task.not_catches nofun) raisingCall_asks (.here ⟨_, rfl⟩)

theorem raiserStore_legible : raiserStore.Legible := by
  intro f hf
  rcases Array.mem_push.mp hf with hf | rfl
  · exact Store.legible_initial {} f hf
  · exact ⟨by decide, nofun⟩

/-! ## What `pcall` gives -/

end LuaInterpreter
