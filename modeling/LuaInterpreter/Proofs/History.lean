import LuaInterpreter.Proofs.Confinement.Call

/-!
# Histories

What can be asked of a store from outside, and the stores that can come of it. A request may end in
any way; the store it leaves is what the next one starts on.
-/

namespace LuaInterpreter

open Run List Evaluator Chunk

/-- What can be asked of a store: to run a piece of program in a scope, to call a function, to make
a scope, a host function or a session, or to set a variable or a setting. -/
inductive Request where
  | statement (fuel scope : Nat) (st : Stat)
  | expression (fuel scope : Nat) (e : Expr)
  | call (fuel : Nat) (f : Value) (args : List Results) (scope : Option Nat) (traced : Bool)
  | chunk (fuel scope : Nat) (text name : String)
  | file (fuel scope : Nat) (path : String)
  | evaluation (fuel scope : Nat) (text : String)
  | declaration (scope : Nat) (x : Bytes) (v : Variable)
  | assignment (scope : Nat) (x : Bytes) (v : Value)
  | global (session : Nat) (x : Bytes) (v : Value)
  | varargs (scope : Nat) (values : Option (List Value))
  | settings (session : Nat) (verbose warnings : Bool)
  /-- A scope within another one. -/
  | inner (scope : Nat)
  /-- A scope within no other one, for the session of a scope. -/
  | apart (scope : Nat)
  | host (f : HostFunction) (o : AdoptOptions)
  | session

namespace Request

def run : Request → Run Unit
  | .statement fuel scope st => do let _ ← (withFuel fuel).stat scope st
  | .expression fuel scope e => do let _ ← (withFuel fuel).expr scope e
  | .call fuel f args scope traced => do
    let _ ← (withFuel fuel).call f args scope traced
  | .chunk fuel scope text name => do
    let _ ← execute (withFuel fuel) scope text name
  | .file fuel scope path => do let _ ← executeFile (withFuel fuel) scope path
  | .evaluation fuel scope text => do
    let _ ← evaluate (withFuel fuel) scope text
  | .declaration scope x v => declare scope x v
  | .assignment scope x v => assign scope x v
  | .global i x v => do setGlobalItem ((← get).session i) x v
  | .varargs scope values => setVarargs scope values
  | .settings i verbose warnings =>
    modifySession i fun settings => { settings with verbose, warnings }
  | .inner scope => do let _ ← pushScope scope
  | .apart scope => do
    let _ ← newScope { session := ((← get).scope scope).session, parent := none }
  | .host f o => do let _ ← adopt (← newHostFunction f) o
  | .session => do let _ ← newRoot

def scopes : Request → List Nat
  | .statement _ scope _ | .expression _ scope _ | .chunk _ scope _ _ | .file _ scope _
  | .evaluation _ scope _ | .declaration scope _ _ | .assignment scope _ _ | .varargs scope _
  | .inner scope | .apart scope => [scope]
  | .call _ _ _ scope _ => scope.toList
  | .global _ _ _ | .settings _ _ _ | .host _ _ | .session => []

theorem addsAt_run {strict : Prop} {n : Nat} {s : Store} (r : Request)
    (hscopes : strict → ∀ id ∈ r.scopes, id < n) (hs : Ready strict n s) :
    AddsAt strict (fun id _ => id ∈ r.scopes) r.run s := by
  have hk (fuel : Nat) := confined_withFuel strict fuel
  have hscope (scope : Nat) (h : r.scopes = [scope]) (hstrict : strict) : scope < n :=
    hscopes hstrict scope (h ▸ mem_singleton_self scope)
  have hadds (h : Run.Confined strict n (fun id _ => id ∈ r.scopes) r.run) := (h s hs).toAddsAt
  cases r with
  | statement fuel scope st =>
    exact hadds (((hk fuel).stat _ _ scope st (hscope scope rfl) fun _ _ =>
      mem_cons_self).bind fun _ => .pure _)
  | expression fuel scope e =>
    exact hadds (((hk fuel).expr _ _ scope e (hscope scope rfl)).bind fun _ => .pure _)
  | call fuel f args scope traced =>
    exact hadds (((hk fuel).call _ _ f args scope traced fun hstrict id hid =>
      hscopes hstrict id (Option.mem_toList.mpr hid)).bind fun _ => .pure _)
  | chunk fuel scope text name =>
    exact hadds ((confined_execute (hk fuel) (hscope scope rfl)
      (fun _ => mem_cons_self) text name).bind fun _ => .pure _)
  | file fuel scope path =>
    exact hadds ((confined_executeFile (hk fuel) (hscope scope rfl)
      (fun _ => mem_cons_self) path).bind fun _ => .pure _)
  | evaluation fuel scope text =>
    exact hadds ((confined_evaluate (hk fuel) (hscope scope rfl) text).bind fun _ => .pure _)
  | declaration scope x v => exact hadds (confined_declare v mem_cons_self)
  | assignment scope x v => exact hadds (confined_assign scope x v)
  | global i x v => exact hadds (Confined.get.bind fun _ => confined_setGlobalItem _ x v)
  | varargs scope values => exact addsAt_setVarargs scope values hs
  | settings i verbose warnings =>
    exact hadds (confined_modifySession i (fun _ => rfl) fun _ => rfl)
  | inner scope =>
    exact hadds (.pushScope (hscope scope rfl) fun _ _ => .pure _)
  | apart scope =>
    exact hadds (.detached (hscope scope rfl) fun _ _ => .pure _)
  | host f o =>
    refine hadds (.bind (confined_of_aside fun s => ?_) fun id =>
      (confined_adopt id o).bind fun _ => .pure _)
    exact { Aside.refl s with }
  | session => exact hadds (.newRoot fun _ _ => .pure _)

end Request

def Store.after (s : Store) (history : List Request) : Store :=
  history.foldl (fun s r => r.run.final s) s

theorem Store.extends_after (s : Store) (history : List Request) :
    Store.Extends (fun _ _ => True) s (s.after history) := by
  induction history generalizing s with
  | nil => exact .refl _ s
  | cons r history ih =>
    have hready : Ready False 0 s := False.elim
    have hrun := r.addsAt_run False.elim hready
    exact (hrun.extend.mono fun _ _ _ _ => trivial).trans (ih (r.run.final s)) fun _ _ _ => id

/-! ## Reachable stores -/

/-- The stores that come of a first session by requests in scopes that exist. -/
inductive Reachable : Store → Prop
  | start (world : World) : Reachable (newRoot.final (Store.initial world))
  | step {s : Store} (r : Request) : Reachable s → (∀ id ∈ r.scopes, id < s.scopes.size) →
      Reachable (r.run.final s)

theorem Store.linked_initial (world : World) : (Store.initial world).Linked where
  parent := by
    intro id p hp
    cases hp
  session := by
    intro id hid
    cases hid
  root := by
    intro i hi
    cases hi
  globals := by
    intro i hi
    cases hi
  function := by
    intro f hf id hid
    obtain ⟨b, -, rfl⟩ := List.mem_map.mp (List.mem_toArray.mp hf)
    cases hid

variable {s : Store}

theorem Reachable.wellFormed (hs : Reachable s) : s.WellFormed := by
  induction hs with
  | start world =>
    obtain ⟨t, ht, hopens⟩ := newRoot_eq (Store.initial world)
    rw [final_of_ok ht]
    exact hopens.wellFormed (Store.linked_initial world)
  | step r _ hscopes ih =>
    have hready : Ready True _ _ := fun _ => ⟨Nat.le_refl _, ih⟩
    exact (r.addsAt_run (fun _ => hscopes) hready).wellFormed trivial

/-- What is to be upheld need only hold before the first session. -/
theorem Reachable.upholds (hs : Reachable s) : ∃ world, (Store.initial world).Upholds s := by
  induction hs with
  | start world => exact ⟨world, upholds_newRoot _⟩
  | @step s r _ hscopes ih =>
    obtain ⟨world, hworld⟩ := ih
    have hready : Ready False s.scopes.size s := False.elim
    exact ⟨world, hworld.trans (r.addsAt_run (fun _ => hscopes) hready).uphold⟩

end LuaInterpreter
