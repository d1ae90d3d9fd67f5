import LuaInterpreter.Proofs.LexicalStore

/-!
# What computations may do to scopes

Every computation of the interpreter only extends the scopes it starts with: it makes new ones and
gives old ones new names, but it does not take a name away, move a scope or touch a constant. How
far it goes is told by the names that it may add (`Declarable`).
-/

namespace LuaInterpreter

open Array Nat

abbrev Declarable := Nat → Bytes → Prop

/-- The names that may be added, and any name in one more scope. -/
def Declarable.opened (D : Declarable) (scope : Nat) : Declarable := fun id x => id = scope ∨ D id x

namespace Store

/-- A store in which the scopes of another one are still there: each in its place and with its
names, in front of added ones, and with its constants. -/
structure Extends (D : Declarable) (s t : Store) : Prop where
  size : s.scopes.size ≤ t.scopes.size
  parent : ∀ id, id < s.scopes.size → (t.scope id).parent = (s.scope id).parent
  session : ∀ id, id < s.scopes.size → (t.scope id).session = (s.scope id).session
  names : ∀ id, id < s.scopes.size →
    ∃ added, (t.scope id).names = (s.scope id).names ++ added ∧ ∀ x ∈ added, D id x
  constant : ∀ id x v, (s.scope id).find? x = some v → v.constant = true →
    (t.scope id).find? x = some v
  sessions : s.sessions.size ≤ t.sessions.size
  root : ∀ i, i < s.sessions.size → (t.session i).root = (s.session i).root

namespace Extends

variable {D D' : Declarable} {s t u : Store}

/-- Scopes that are added change nothing about those that are there. -/
theorem of_locals_eq (hsize : s.scopes.size ≤ t.scopes.size)
    (hscope : ∀ id, id < s.scopes.size → (t.scope id).parent = (s.scope id).parent ∧
      (t.scope id).session = (s.scope id).session ∧ (t.scope id).locals = (s.scope id).locals)
    (hsessions : s.sessions.size ≤ t.sessions.size)
    (hroot : ∀ i, i < s.sessions.size → (t.session i).root = (s.session i).root) :
    Extends D s t where
  size := hsize
  parent := fun id hid => (hscope id hid).1
  session := fun id hid => (hscope id hid).2.1
  names := fun id hid =>
    ⟨[], by rw [Scope.names, (hscope id hid).2.2, List.append_nil, Scope.names], by simp⟩
  constant := by
    intro id x v hv _
    rw [Scope.find?, (hscope id (lt_size_of_find?_eq_some hv)).2.2, ← Scope.find?, hv]
  sessions := hsessions
  root := hroot

theorem of_scope_eq (hsize : s.scopes.size ≤ t.scopes.size)
    (hscope : ∀ id, id < s.scopes.size → t.scope id = s.scope id)
    (hsessions : s.sessions.size ≤ t.sessions.size)
    (hroot : ∀ i, i < s.sessions.size → (t.session i).root = (s.session i).root) :
    Extends D s t := by
  refine of_locals_eq hsize (fun id hid => ?_) hsessions hroot
  rw [hscope id hid]
  exact ⟨rfl, rfl, rfl⟩

theorem refl (D : Declarable) (s : Store) : Extends D s s :=
  of_scope_eq (Nat.le_refl _) (fun _ _ => rfl) (Nat.le_refl _) fun _ _ => rfl

/-- The second change may also add names to the scopes that the first one made. -/
theorem trans (hst : Extends D s t) (htu : Extends D' t u)
    (hD : ∀ id x, id < s.scopes.size → D' id x → D id x) : Extends D s u where
  size := Nat.le_trans hst.size htu.size
  parent := by
    intro id hid
    rw [htu.parent id (Nat.lt_of_lt_of_le hid hst.size), hst.parent id hid]
  session := by
    intro id hid
    rw [htu.session id (Nat.lt_of_lt_of_le hid hst.size), hst.session id hid]
  names := by
    intro id hid
    obtain ⟨first, hfirst, hD₁⟩ := hst.names id hid
    obtain ⟨second, hsecond, hD₂⟩ := htu.names id (Nat.lt_of_lt_of_le hid hst.size)
    refine ⟨first ++ second, by rw [hsecond, hfirst, List.append_assoc], ?_⟩
    intro x hx
    rcases List.mem_append.mp hx with hx | hx
    · exact hD₁ x hx
    · exact hD id x hid (hD₂ x hx)
  constant := by
    intro id x v hv hconstant
    exact htu.constant id x v (hst.constant id x v hv hconstant) hconstant
  sessions := Nat.le_trans hst.sessions htu.sessions
  root := by
    intro i hi
    rw [htu.root i (Nat.lt_of_lt_of_le hi hst.sessions), hst.root i hi]

theorem mono (h : Extends D s t) (hD : ∀ id x, id < s.scopes.size → D id x → D' id x) :
    Extends D' s t :=
  (refl D' s).trans h hD

end Extends

/-- A store in which the scopes and functions of another one are still there: `...` stands in each
scope for what it stood for, and the functions are the same. -/
structure Retains (s t : Store) : Prop where
  size : s.scopes.size ≤ t.scopes.size
  varargs : ∀ id, id < s.scopes.size → (t.scope id).varargs = (s.scope id).varargs
  function : ∀ id f, s.function? id = some f → t.function? id = some f

namespace Retains

variable {s t u : Store}

theorem of_scope_eq (hsize : s.scopes.size ≤ t.scopes.size)
    (hscope : ∀ id, id < s.scopes.size → t.scope id = s.scope id)
    (hfunctions : t.functions = s.functions) : Retains s t where
  size := hsize
  varargs := fun id hid => by rw [hscope id hid]
  function := fun id f hf => by rw [function?, hfunctions, ← function?, hf]

theorem refl (s : Store) : Retains s s := of_scope_eq (Nat.le_refl _) (fun _ _ => rfl) rfl

theorem trans (hst : Retains s t) (htu : Retains t u) : Retains s u where
  size := Nat.le_trans hst.size htu.size
  varargs := by
    intro id hid
    rw [htu.varargs id (Nat.lt_of_lt_of_le hid hst.size), hst.varargs id hid]
  function := fun id f hf => htu.function id f (hst.function id f hf)

end Retains

/-! ## Primitive changes -/

section

variable {D : Declarable} {s : Store}

/-- A scope that can be added to a store: its session exists, and so does the scope around it, which
belongs to the same session. -/
structure Admits (s : Store) (sc : Scope) : Prop where
  session : sc.session < s.sessions.size
  parent : ∀ p, sc.parent = some p → p < s.scopes.size ∧ (s.scope p).session = sc.session

def pushScope (s : Store) (sc : Scope) : Store := { s with scopes := s.scopes.push sc }

theorem scope_pushScope (s : Store) (sc : Scope) (id : Nat) :
    (s.pushScope sc).scope id = if id = s.scopes.size then sc else s.scope id := by
  simp only [Store.scope, pushScope, getD_eq_getD_getElem?, getElem?_push]
  split <;> rfl

theorem scope_pushScope_new (s : Store) (sc : Scope) :
    (s.pushScope sc).scope s.scopes.size = sc := by
  rw [scope_pushScope, if_pos rfl]

variable {id : Nat}

theorem scope_pushScope_of_lt {sc : Scope} (hid : id < s.scopes.size) :
    (s.pushScope sc).scope id = s.scope id := by
  rw [scope_pushScope, if_neg (Nat.ne_of_lt hid)]

theorem size_pushScope (s : Store) (sc : Scope) :
    (s.pushScope sc).scopes.size = s.scopes.size + 1 :=
  size_push sc

theorem extends_pushScope (D : Declarable) (s : Store) (sc : Scope) :
    Extends D s (s.pushScope sc) :=
  .of_scope_eq (size_pushScope s sc ▸ le_succ _) (fun _ => scope_pushScope_of_lt)
    (Nat.le_refl _) fun _ _ => rfl

theorem retains_pushScope (s : Store) (sc : Scope) : Retains s (s.pushScope sc) :=
  .of_scope_eq (size_pushScope s sc ▸ le_succ _) (fun _ => scope_pushScope_of_lt) rfl

theorem retains_setVariable (s : Store) (scope : Nat) (x : Bytes) (v : Variable) :
    Retains s (s.setVariable scope x v) where
  size := Nat.le_of_eq (sameShape_setVariable s scope x v).size.symm
  varargs := by
    intro id _
    rw [scope_setVariable]
    split <;> rfl
  function := fun _ _ => id

theorem retains_pushFunction (s : Store) (f : Function) :
    Retains s { s with functions := s.functions.push f } := by
  refine ⟨Nat.le_refl _, fun _ _ => rfl, fun id g hg => ?_⟩
  have hne : id ≠ s.functions.size := Nat.ne_of_lt (Array.getElem?_eq_some_iff.mp hg).1
  exact Array.getElem?_push.trans ((if_neg hne).trans hg)

theorem Admits.inside (hs : s.WellFormed) {sc : Scope} {p : Nat} (hp : p < s.scopes.size)
    (hparent : sc.parent = some p) (hsession : sc.session = (s.scope p).session) : s.Admits sc := by
  refine ⟨hsession ▸ hs.session p hp, fun q hq => ?_⟩
  cases hparent.symm.trans hq
  exact ⟨hp, hsession.symm⟩

theorem Admits.apart (hs : s.WellFormed) {sc : Scope} (hid : id < s.scopes.size)
    (hparent : sc.parent = none) (hsession : sc.session = (s.scope id).session) : s.Admits sc := by
  refine ⟨hsession ▸ hs.session id hid, fun p hp => ?_⟩
  cases hparent.symm.trans hp

theorem WellFormed.pushScope (hs : s.WellFormed) {sc : Scope} (hsc : s.Admits sc) :
    (s.pushScope sc).WellFormed where
  inhabited := by rw [size_pushScope]; exact succ_pos _
  parent := by
    intro id p hp
    rw [scope_pushScope] at hp ⊢
    rw [scope_pushScope]
    split at hp
    · next hid =>
      obtain ⟨hlt, hsession⟩ := hsc.parent p hp
      rw [if_neg (Nat.ne_of_lt hlt), if_pos hid, hid]
      exact ⟨hlt, hsession⟩
    · next hid =>
      obtain ⟨hlt, hsession⟩ := hs.parent id p hp
      have hsize : id < s.scopes.size := lt_size_of_parent_eq_some hp
      rw [if_neg (Nat.ne_of_lt (Nat.lt_trans hlt hsize)), if_neg hid]
      exact ⟨hlt, hsession⟩
  session := by
    intro id hid
    rw [scope_pushScope]
    split
    · exact hsc.session
    · next hne =>
      rw [size_pushScope] at hid
      exact hs.session id (Nat.lt_of_le_of_ne (le_of_lt_succ hid) hne)
  root := by
    intro i hi
    obtain ⟨hroot, hparent, hsession⟩ := hs.root i hi
    refine ⟨?_, ?_⟩
    · rw [size_pushScope]
      exact lt_succ_of_lt hroot
    · show ((s.pushScope sc).scope (s.session i).root).parent = none ∧
        ((s.pushScope sc).scope (s.session i).root).session = i
      rw [scope_pushScope_of_lt hroot]
      exact ⟨hparent, hsession⟩
  globals := hs.globals
  function := by
    intro f hf scope hscope
    rw [size_pushScope]
    exact lt_succ_of_lt (hs.function f hf scope hscope)

/-- A variable may be set where there is none of that name yet, if the name may be added, or where
there is one that is not a constant. -/
theorem extends_setVariable {scope : Nat} {x : Bytes} (v : Variable)
    (hconstant : ∀ old, (s.scope scope).find? x = some old → old.constant = false)
    (hnew : (s.scope scope).find? x = none → D scope x) :
    Extends D s (s.setVariable scope x v) := by
  have hshape := sameShape_setVariable s scope x v
  by_cases hscope : scope < s.scopes.size
  · constructor
    · exact Nat.le_of_eq hshape.size.symm
    · exact fun id _ => hshape.parent id
    · exact fun id _ => hshape.session id
    · intro id _
      refine ⟨_, names_setVariable hscope id x v, ?_⟩
      intro y hy
      split at hy
      · next hadded =>
        obtain ⟨rfl, hx⟩ := hadded
        rw [List.mem_singleton.mp hy]
        exact hnew (Scope.find?_eq_none_iff.mpr hx)
      · cases hy
    · intro id y w hw hwconstant
      rw [find?_setVariable hscope, if_neg, hw]
      rintro ⟨rfl, rfl⟩
      rw [hconstant w hw] at hwconstant
      cases hwconstant
    · exact Nat.le_refl _
    · exact fun _ _ => rfl
  · -- A scope that does not exist is not changed.
    refine .of_scope_eq (Nat.le_of_eq hshape.size.symm) (fun id _ => ?_) (Nat.le_refl _) fun _ _ => rfl
    rw [scope_setVariable, if_neg]
    rintro ⟨rfl, hid⟩
    exact hscope hid

end

/-! ## Sessions -/

/-- The second store has one more session than the first. -/
structure Opens (s t : Store) : Prop where
  scopes : t.scopes = s.scopes.push { session := s.sessions.size, parent := none, varargs := some [] }
  functions : t.functions = s.functions
  tables : s.tables.size ≤ t.tables.size
  sessions : ∃ globals, globals < t.tables.size ∧
    t.sessions = s.sessions.push { globals, root := s.scopes.size }

namespace Opens

variable {s t : Store}

section

variable (h : Opens s t)
include h

theorem size_scopes : t.scopes.size = s.scopes.size + 1 := by
  rw [h.scopes, size_push]

theorem size_sessions : t.sessions.size = s.sessions.size + 1 := by
  obtain ⟨_, _, hsessions⟩ := h.sessions
  rw [hsessions, size_push]

theorem scope (id : Nat) :
    t.scope id = if id = s.scopes.size then
      { session := s.sessions.size, parent := none, varargs := some [] } else s.scope id := by
  rw [← scope_pushScope, Store.scope, h.scopes, Store.scope, pushScope]

theorem scope_of_lt {id : Nat} (hid : id < s.scopes.size) : t.scope id = s.scope id := by
  rw [h.scope, if_neg (Nat.ne_of_lt hid)]

theorem session_of_lt {i : Nat} (hi : i < s.sessions.size) : t.session i = s.session i := by
  obtain ⟨_, _, hsessions⟩ := h.sessions
  simp only [Store.session, hsessions, getD_eq_getD_getElem?, getElem?_push,
    if_neg (Nat.ne_of_lt hi)]

theorem session_new :
    (t.session s.sessions.size).root = s.scopes.size ∧
      (t.session s.sessions.size).globals < t.tables.size := by
  obtain ⟨globals, hglobals, hsessions⟩ := h.sessions
  simp only [Store.session, hsessions, getD_eq_getD_getElem?, getElem?_push_size,
    Option.getD_some, true_and]
  exact hglobals

theorem extend (D : Declarable) : Extends D s t :=
  .of_scope_eq (h.size_scopes ▸ le_succ _) (fun _ => h.scope_of_lt)
    (h.size_sessions ▸ le_succ _) fun i hi => by rw [h.session_of_lt hi]

theorem retains : Retains s t :=
  .of_scope_eq (h.size_scopes ▸ le_succ _) (fun _ => h.scope_of_lt) h.functions

end

theorem wellFormed (h : Opens s t) (hs : s.Linked) : t.WellFormed where
  inhabited := by rw [h.size_scopes]; exact succ_pos _
  parent := by
    intro id p hp
    rw [h.scope] at hp
    split at hp
    · cases hp
    · next hid =>
      obtain ⟨hlt, hsession⟩ := hs.parent id p hp
      have hsize : id < s.scopes.size := lt_size_of_parent_eq_some hp
      rw [h.scope_of_lt hsize, h.scope_of_lt (Nat.lt_trans hlt hsize)]
      exact ⟨hlt, hsession⟩
  session := by
    intro id hid
    rw [h.size_sessions]
    rw [h.size_scopes] at hid
    rw [h.scope]
    split
    · exact lt_succ_self _
    · next hne => exact lt_succ_of_lt (hs.session id (by omega))
  root := by
    intro i hi
    rw [h.size_sessions] at hi
    rw [h.size_scopes]
    by_cases hlt : i < s.sessions.size
    · obtain ⟨hroot, hrest⟩ := hs.root i hlt
      rw [h.session_of_lt hlt, h.scope_of_lt hroot]
      exact ⟨lt_succ_of_lt hroot, hrest⟩
    · obtain rfl : i = s.sessions.size := by omega
      rw [h.session_new.1, h.scope, if_pos rfl]
      exact ⟨lt_succ_self _, rfl, rfl⟩
  globals := by
    intro i hi
    rw [h.size_sessions] at hi
    by_cases hlt : i < s.sessions.size
    · rw [h.session_of_lt hlt]
      exact Nat.lt_of_lt_of_le (hs.globals i hlt) h.tables
    · obtain rfl : i = s.sessions.size := by omega
      exact h.session_new.2
  function := by
    intro f hf id hid
    rw [h.functions] at hf
    rw [h.size_scopes]
    exact lt_succ_of_lt (hs.function f hf id hid)

end Opens

end Store

theorem Run.newSession_eq (s : Store) :
    ∃ t, newSession s = .ok s.sessions.size t ∧ Store.Opens s t := by
  refine ⟨_, rfl, rfl, rfl, ?_, _, ?_, rfl⟩
  · simp only [size_push]
    omega
  · simp only [size_push]
    omega

end LuaInterpreter
