import LuaInterpreter.Proofs.Congruence
import LuaInterpreter.Proofs.Extension
import LuaInterpreter.Proofs.Legibility

/-!
# Confined computations

A computation is confined to some names if it extends every store it starts on by these names at
most, whether it ends with a result or with a signal. It also makes no functions but ones that can
be written as text, gives no table `nil` for its metatable, and leaves alone what `...` stands for
and the functions there are.
-/

namespace LuaInterpreter

open Array Store

namespace Store

/-- No table has `nil` for its metatable. -/
def MetatablesNotNil (s : Store) : Prop := ∀ id, (s.table id).metatable ≠ some .nil

variable {s : Store}

theorem MetatablesNotNil.modifyTable (hs : s.MetatablesNotNil) (id : Nat) {f : Table → Table}
    (hf : ∀ t, t.metatable ≠ some .nil → (f t).metatable ≠ some .nil) :
    MetatablesNotNil { s with tables := s.tables.modify id f } := by
  intro i
  have hi := hs i
  simp only [Store.table, getD_eq_getD_getElem?, getElem?_modify] at hi ⊢
  cases htable : s.tables[i]? with
  | none => split <;> exact (Option.some_ne_none _).symm
  | some t =>
    rw [htable] at hi
    split
    · exact hf t hi
    · exact hi

theorem MetatablesNotNil.pushTable (hs : s.MetatablesNotNil) {t : Table} (ht : t.metatable = none) :
    MetatablesNotNil { s with tables := s.tables.push t } := by
  intro i
  have hi := hs i
  simp only [Store.table, getD_eq_getD_getElem?, getElem?_push] at hi ⊢
  split
  · rw [Option.getD_some, ht]
    exact (Option.some_ne_none _).symm
  · exact hi

/-- What holds of the one store holds of the other: all functions can be written as text, no table
has `nil` for its metatable, and a function has a number. -/
structure Upholds (s t : Store) : Prop where
  legible : s.Legible → t.Legible
  metatables : s.MetatablesNotNil → t.MetatablesNotNil
  function : ∀ id f, s.function? id = some f → t.function? id = some f

theorem Upholds.refl (s : Store) : s.Upholds s := ⟨id, id, fun _ _ => id⟩

theorem Upholds.trans {s t u : Store} (hst : s.Upholds t) (htu : t.Upholds u) : s.Upholds u where
  legible := fun hs => htu.legible (hst.legible hs)
  metatables := fun hs => htu.metatables (hst.metatables hs)
  function := fun id f hf => htu.function id f (hst.function id f hf)

end Store

namespace Run

/-- The store at the end of a computation, whether it ends with a result or with a signal. -/
def final {α : Type} (m : Run α) (s : Store) : Store :=
  match m s with
  | .ok _ t => t
  | .error _ t => t

/-- A store to start from. In a strict reading it is well-formed and has at least `n` scopes. -/
def Ready (strict : Prop) (n : Nat) (s : Store) : Prop :=
  strict → n ≤ s.scopes.size ∧ s.WellFormed

/-- From one store on, a computation adds at most some names, and loses nothing that is to be upheld.
In a strict reading it ends on a well-formed store. -/
structure AddsAt {α : Type} (strict : Prop) (D : Declarable) (m : Run α) (s : Store) : Prop where
  extend : Store.Extends D s (m.final s)
  wellFormed : strict → (m.final s).WellFormed
  uphold : s.Upholds (m.final s)

/-- From one store on, a computation adds at most that, and changes neither the functions that are
there nor what `...` stands for. -/
structure ConfinedAt {α : Type} (strict : Prop) (D : Declarable) (m : Run α) (s : Store) : Prop
    extends AddsAt strict D m s where
  retain : s.Retains (m.final s)

/-- From every store on, a computation adds at most some names. It may refer to the first `n` scopes
by their numbers. -/
def Confined {α : Type} (strict : Prop) (n : Nat) (D : Declarable) (m : Run α) : Prop :=
  ∀ s, Ready strict n s → ConfinedAt strict D m s

variable {α β : Type} {strict : Prop} {n : Nat} {D D' : Declarable} {s t : Store}

variable {m : Run α} {a : α} {e : Signal} {f : Nat → Run β} {m' : Run β} {x : Bytes} (id : Nat)
  (session : Session)

theorem AddsAt.legible (h : AddsAt strict D m s) (hs : s.Legible) : (m.final s).Legible :=
  h.uphold.legible hs

theorem final_of_ok (h : m s = .ok a t) : m.final s = t := by
  simp only [final, h]

theorem final_of_error (h : m s = .error e t) : m.final s = t := by
  simp only [final, h]

theorem final_bind_of_ok {f : α → Run β} (h : m s = .ok a t) :
    (m >>= f).final s = (f a).final t := by
  rw [final, bind_of_ok h, final]

theorem final_bind_of_error {f : α → Run β} (h : m s = .error e t) : (m >>= f).final s = t :=
  final_of_error (bind_of_error h)

theorem final_bind_pure (f : α → β) : (m >>= fun a => pure (f a)).final s = m.final s := by
  cases h : m s with
  | ok a t =>
    rw [final_bind_of_ok h, final_of_ok h]
    rfl
  | error e t => rw [final_bind_of_error h, final_of_error h]

theorem final_traced {scope : Nat} {place : Place} {role kind : String} {silent : Bool} :
    (traced scope place role kind silent m).final s = m.final s := by
  cases hm : m s with
  | ok a t => rw [final_of_ok (traced_eq_ok_iff.mpr hm), final_of_ok hm]
  | error e t =>
    obtain ⟨e', he'⟩ := traced_eq_error hm
    rw [final_of_error he', final_of_error hm]

theorem Ready.of_extends (hs : Ready strict n s) (h : Store.Extends D s t)
    (ht : strict → t.WellFormed) : Ready strict n t :=
  fun hstrict => ⟨Nat.le_trans (hs hstrict).1 h.size, ht hstrict⟩

theorem Ready.self (hs : Ready strict n s) : Ready strict s.scopes.size s :=
  fun hstrict => ⟨Nat.le_refl _, (hs hstrict).2⟩

/-! ## Composition -/

theorem ConfinedAt.of_unchanged {m : Run α} (hs : Ready strict n s) (h : m.final s = s) :
    ConfinedAt strict D m s where
  extend := h.symm ▸ .refl D s
  wellFormed := h.symm ▸ fun hstrict => (hs hstrict).2
  uphold := h.symm ▸ .refl s
  retain := h.symm ▸ .refl s

theorem ConfinedAt.of_final (hm : ConfinedAt strict D m s) (h : m'.final s = m.final s) :
    ConfinedAt strict D m' s :=
  ⟨⟨h ▸ hm.extend, h ▸ hm.wellFormed, h ▸ hm.uphold⟩, h ▸ hm.retain⟩

theorem ConfinedAt.of_eq {m' : Run α} (hm : ConfinedAt strict D m s) (h : m' s = m s) :
    ConfinedAt strict D m' s :=
  hm.of_final (by rw [final, h, final])

/-- A first computation and a second one that goes on from where the first one ended. -/
theorem ConfinedAt.andThen {whole : Run β} (hs : Ready strict n s) (hm : ConfinedAt strict D m s)
    (hm' : Confined strict n D m') (h : whole.final s = m'.final (m.final s)) :
    ConfinedAt strict D whole s := by
  obtain ⟨⟨hextend, hwf, huphold⟩, hretain⟩ :=
    hm' (m.final s) (hs.of_extends hm.extend hm.wellFormed)
  refine ⟨⟨?_, ?_, ?_⟩, ?_⟩
  · exact h ▸ hm.extend.trans hextend fun _ _ _ => id
  · exact h ▸ hwf
  · exact h ▸ hm.uphold.trans huphold
  · exact h ▸ hm.retain.trans hretain

theorem ConfinedAt.bind {f : α → Run β} (hs : Ready strict n s) (hm : ConfinedAt strict D m s)
    (hf : ∀ a, m s = .ok a (m.final s) → Confined strict n D (f a)) :
    ConfinedAt strict D (m >>= f) s := by
  cases h : m s with
  | ok a t =>
    have ht := final_of_ok h
    exact hm.andThen hs (hf a (ht.symm ▸ h)) (by rw [ht, final_bind_of_ok h])
  | error e t => exact hm.of_final (by rw [final_bind_of_error h, final_of_error h])

namespace Confined

variable {m : Run α} {a : α} {f : α → Run β} {c : Prop} (v : Value)

/-- In the reading that is not strict, nothing is asked of the store. -/
theorem extend (h : Confined False 0 D m) (s : Store) : Store.Extends D s (m.final s) :=
  (h s fun hfalse => hfalse.elim).extend

theorem extends_of_ok (h : Confined False 0 D m) (hm : m s = .ok a t) : Store.Extends D s t :=
  final_of_ok hm ▸ h.extend s

/-- In the strict reading, well-formed stores stay well-formed. -/
theorem wellFormed_of_ok (h : Confined True n D m) (hs : s.WellFormed) (hn : n ≤ s.scopes.size)
    (hm : m s = .ok a t) : t.WellFormed :=
  final_of_ok hm ▸ (h s fun _ => ⟨hn, hs⟩).wellFormed trivial

theorem pure (a : α) : Confined strict n D (pure a : Run α) :=
  fun _ hs => .of_unchanged hs rfl

theorem throw (e : Signal) : Confined strict n D (throw e : Run α) :=
  fun _ hs => .of_unchanged hs rfl

theorem fault (f : Fault) : Confined strict n D (fault f : Run α) := .throw (.fault f)

theorem get : Confined strict n D (get : Run Store) := fun _ hs => .of_unchanged hs rfl

theorem ofExcept (e : Except Fault α) : Confined strict n D (ofExcept e) := by
  cases e with
  | ok a => exact .pure a
  | error f => exact .fault f

theorem bind (hm : Confined strict n D m) (hf : ∀ a, Confined strict n D (f a)) :
    Confined strict n D (m >>= f) :=
  fun s hs => (hm s hs).bind hs fun a _ => hf a

/-- What comes after a computation may rely on what all results of it have in common. -/
theorem bind_of {P : α → Prop} (hm : Confined strict n D m) (hP : Ensures m P)
    (hf : ∀ a, P a → Confined strict n D (f a)) : Confined strict n D (m >>= f) :=
  fun s hs => (hm s hs).bind hs fun a ha => hf a (hP s a _ ha)

theorem get_bind {f : Store → Run β} (hf : ∀ s, Ready strict n s → ConfinedAt strict D (f s) s) :
    Confined strict n D (.get >>= f) :=
  fun s hs => (hf s hs).of_final rfl

theorem error (message : String) : Confined strict n D (error message : Run α) :=
  (ofExcept _).bind fun _ => .throw _

theorem typeName : Confined strict n D (typeName v) := .ofExcept _

theorem text : Confined strict n D (text v) := get.bind fun _ => .ofExcept _

theorem tryCatch {h : Signal → Run α} (hm : Confined strict n D m)
    (hh : ∀ e, Confined strict n D (h e)) : Confined strict n D (tryCatch m h) := by
  intro s hs
  cases hrun : m s with
  | ok a t =>
    exact (hm s hs).of_final (by rw [final_of_ok (tryCatch_of_ok hrun), final_of_ok hrun])
  | error e t =>
    refine (hm s hs).andThen hs (hh e) ?_
    rw [final_of_error hrun, final, tryCatch_of_error hrun, final]

theorem handle {onError : LuaError → Run α} {onFault : Fault → Run α} (hm : Confined strict n D m)
    (hError : ∀ e, Confined strict n D (onError e))
    (hFault : ∀ f, Confined strict n D (onFault f)) :
    Confined strict n D (m.handle onError onFault) := by
  refine hm.tryCatch fun e => ?_
  cases e with
  | error e => exact hError e
  | fault f => exact hFault f
  | _ => exact .throw _

theorem ite [Decidable c] {m' : Run α} (hm : Confined strict n D m) (hm' : Confined strict n D m') :
    Confined strict n D (if c then m else m') := by
  split
  · exact hm
  · exact hm'

theorem check [Decidable c] {m : Run Unit} {f : Unit → Run α} (hm : Confined strict n D m)
    (hf : ∀ r, Confined strict n D (f r)) : Confined strict n D (if c then m >>= f else f ()) :=
  .ite (hm.bind hf) (hf ())

theorem traced {scope : Nat} {place : Place} {role kind : String} {silent : Bool}
    (hm : Confined strict n D m) : Confined strict n D (traced scope place role kind silent m) :=
  get.bind fun _ => .ite
    (hm.handle (fun _ => .throw _) fun _ => (ofExcept _).bind fun _ => .throw _) hm

theorem mapM (hf : ∀ a, Confined strict n D (f a)) (l : List α) :
    Confined strict n D (l.mapM f) := by
  induction l with
  | nil => exact .pure []
  | cons a l ih =>
    rw [List.mapM_cons]
    exact (hf a).bind fun _ => ih.bind fun _ => .pure _

end Confined

/-! ## What leaves scopes alone -/

/-- Two stores that differ at most in tables, files, values of the host, settings of sessions and
the world. -/
structure Aside (s t : Store) : Prop extends Store.SameShape s t where
  scope : ∀ id, t.scope id = s.scope id
  metatables : s.MetatablesNotNil → t.MetatablesNotNil

theorem Aside.refl (s : Store) : Aside s s := ⟨.refl s, fun _ => rfl, id⟩

theorem aside_modifyTable (s : Store) (id : Nat) {f : Table → Table}
    (hf : ∀ t, t.metatable ≠ some .nil → (f t).metatable ≠ some .nil) :
    Aside s { s with tables := s.tables.modify id f } :=
  { Aside.refl s with
    tables := Nat.le_of_eq Array.size_modify.symm
    metatables := fun hs => hs.modifyTable id hf }

theorem confined_of_aside (h : ∀ s, Aside s (m.final s)) : Confined strict n D m := by
  intro s hs
  have hshape := (h s).toSameShape
  refine ⟨⟨?_, ?_, ?_⟩, ?_⟩
  · exact .of_scope_eq (Nat.le_of_eq hshape.size.symm) (fun id _ => (h s).scope id)
      (Nat.le_of_eq hshape.sessions.symm) fun i _ => hshape.root i
  · exact fun hstrict => (hs hstrict).2.of_sameShape hshape
  · refine ⟨fun hlegible => hlegible.of_functions_eq hshape.functions, (h s).metatables, ?_⟩
    intro id f hf
    rw [Store.function?, hshape.functions]
    exact hf
  · exact .of_scope_eq (Nat.le_of_eq hshape.size.symm) (fun id _ => (h s).scope id) hshape.functions

theorem confined_world (action : World.Action α) : Confined strict n D (world action) := by
  refine confined_of_aside fun s => ?_
  simp only [final, world, get_bind_apply]
  cases action.run s.world with
  | ok r | error f => exact { Aside.refl s with }

theorem confined_modifyTable {f : Table → Table}
    (hf : ∀ t, t.metatable ≠ some .nil → (f t).metatable ≠ some .nil) :
    Confined strict n D (modifyTable id f) :=
  confined_of_aside fun s => aside_modifyTable s id hf

theorem confined_newTable {t : Table} (ht : t.metatable = none) :
    Confined strict n D (newTable t) :=
  confined_of_aside fun s => { Aside.refl s with
    tables := size_push t ▸ Nat.le_succ s.tables.size
    metatables := fun hs => hs.pushTable ht }

theorem confined_newFile (f : File) : Confined strict n D (newFile f) :=
  confined_of_aside fun s => { Aside.refl s with }

theorem confined_newObject (o : HostObject) : Confined strict n D (newObject o) :=
  confined_of_aside fun s => { Aside.refl s with }

/-- The settings of a session may be changed, but neither its outermost scope nor its globals. -/
theorem confined_modifySession {f : Session → Session} (hroot : ∀ x, (f x).root = x.root)
    (hglobals : ∀ x, (f x).globals = x.globals) : Confined strict n D (modifySession id f) := by
  have hsession (s : Store) (i : Nat) : ((modifySession id f).final s).session i = s.session i ∨
      ((modifySession id f).final s).session i = f (s.session i) := by
    have hmodify : ((modifySession id f).final s).sessions = s.sessions.modify id f := rfl
    simp only [Store.session, hmodify, getD_eq_getD_getElem?, getElem?_modify]
    cases s.sessions[i]? with
    | none => exact .inl (by split <;> rfl)
    | some x =>
      by_cases hid : id = i
      · exact .inr (by rw [if_pos hid]; rfl)
      · exact .inl (by rw [if_neg hid])
  refine confined_of_aside fun s => { Aside.refl s with
    sessions := size_modify, root := fun i => ?_, globals := fun i => ?_ }
  · rcases hsession s i with h | h
    · rw [h]
    · rw [h, hroot]
  · rcases hsession s i with h | h
    · rw [h]
    · rw [h, hglobals]

/-! ## Variables -/

theorem confinedAt_setVariable {scope : Nat} {v : Variable} (hs : Ready strict n s)
    (hfinal : m.final s = s.setVariable scope x v)
    (hconstant : ∀ old, (s.scope scope).find? x = some old → old.constant = false)
    (hnew : (s.scope scope).find? x = none → D scope x) : ConfinedAt strict D m s := by
  refine ⟨⟨?_, ?_, ?_⟩, ?_⟩
  · exact hfinal ▸ extends_setVariable v hconstant hnew
  · exact hfinal ▸ fun hstrict =>
      (hs hstrict).2.of_sameShape (sameShape_setVariable s scope x v)
  · exact hfinal ▸ ⟨id, id, fun _ _ => id⟩
  · exact hfinal ▸ retains_setVariable s scope x v

theorem confined_declare {scope : Nat} (v : Variable) (hx : D scope x) :
    Confined strict n D (declare scope x v) := by
  intro s hs
  by_cases hold : ∃ old, (s.scope scope).find? x = some old ∧ old.constant = true
  · obtain ⟨old, hold, hconstant⟩ := hold
    exact .of_unchanged hs (final_of_error (declare_of_constant hold hconstant))
  · have hold : ∀ old, (s.scope scope).find? x = some old → old.constant = false := by
      intro old hfind
      rw [← Bool.not_eq_true]
      exact fun hconstant => hold ⟨old, hfind, hconstant⟩
    exact confinedAt_setVariable hs (final_of_ok (declare_of_variable hold)) hold fun _ => hx

theorem confined_setGlobal (x : Bytes) (v : Value) : Confined strict n D (setGlobal session x v) :=
  confined_modifyTable _ fun t ht => (t.metatable_put _ _).symm ▸ ht

theorem confined_setGlobalItem (x : Bytes) (v : Value) :
    Confined strict n D (setGlobalItem session x v) := by
  unfold setGlobalItem
  split
  · exact .fault _
  · exact confined_setGlobal session x v

theorem declared_of_ownerFrom {fuel scope owner : Nat} (h : s.ownerFrom x fuel scope = some owner) :
    ∃ v, (s.scope owner).find? x = some v := by
  induction fuel generalizing scope with
  | zero => cases h
  | succ fuel ih =>
    rw [Store.ownerFrom] at h
    cases hfind : (s.scope scope).find? x with
    | some v =>
      rw [hfind] at h
      cases h
      exact ⟨v, hfind⟩
    | none =>
      rw [hfind] at h
      cases hparent : (s.scope scope).parent with
      | none =>
        rw [hparent] at h
        cases h
      | some p =>
        rw [hparent] at h
        exact ih h

theorem confined_assign (scope : Nat) (x : Bytes) (v : Value) :
    Confined strict n D (assign scope x v) := by
  refine .get_bind fun s hs => ?_
  cases howner : s.owner? scope x with
  | none => exact confined_setGlobal _ _ _ s hs
  | some owner =>
    obtain ⟨old, hold⟩ := declared_of_ownerFrom howner
    simp only [hold]
    split
    · exact Confined.error _ s hs
    · next hconstant =>
      -- The name is there already, so none is added.
      refine confinedAt_setVariable hs rfl (fun old' hold' => ?_) fun hnone => ?_
      · rw [hold, Option.some.injEq] at hold'
        rw [← hold', Bool.eq_false_iff]
        exact hconstant
      · rw [hold] at hnone
        cases hnone

theorem scope_setVarargs (scope : Nat) (values : Option (List Value)) (s : Store) (id : Nat) :
    ((setVarargs scope values).final s).scope id =
      { s.scope id with
        varargs := if scope = id ∧ id < s.scopes.size then values else (s.scope id).varargs } := by
  have hmodify : ((setVarargs scope values).final s).scopes =
      s.scopes.modify scope fun sc => { sc with varargs := values } := rfl
  simp only [Store.scope, hmodify, getD_eq_getD_getElem?, getElem?_modify]
  by_cases hid : scope = id
  · by_cases hlt : id < s.scopes.size
    · simp [hid, hlt]
    · simp [hid, hlt]
  · simp [hid]

/-- What `...` stands for is only changed from outside, but that adds nothing. -/
theorem addsAt_setVarargs (scope : Nat) (values : Option (List Value)) (hs : Ready strict n s) :
    AddsAt strict D (setVarargs scope values) s := by
  have hscope := scope_setVarargs scope values s
  have hshape : Store.SameShape s ((setVarargs scope values).final s) :=
    { Store.SameShape.refl s with
      size := size_modify, parent := fun id => by rw [hscope], session := fun id => by rw [hscope] }
  have hextend : Store.Extends D s ((setVarargs scope values).final s) :=
    .of_locals_eq (Nat.le_of_eq hshape.size.symm)
      (fun id _ => ⟨hshape.parent id, hshape.session id, by rw [hscope]⟩) (Nat.le_refl _)
      fun _ _ => rfl
  exact ⟨hextend, fun hstrict => (hs hstrict).2.of_sameShape hshape, id, id, fun _ _ => id⟩

/-! ## Functions and scopes -/

theorem confined_newFunction {f : Function} (hlegible : f.IsLegible)
    (hf : strict → ∀ scope ∈ f.scopes, scope < n) : Confined strict n D (newFunction f) := by
  intro s hs
  refine ⟨⟨?_, ?_, ?_⟩, ?_⟩
  · exact .of_scope_eq (Nat.le_refl _) (fun _ _ => rfl) (Nat.le_refl _) fun _ _ => rfl
  · intro hstrict
    obtain ⟨hn, hwf⟩ := hs hstrict
    refine { hwf with function := fun g hg scope hscope => ?_ }
    rcases Array.mem_push.mp hg with hg | rfl
    · exact hwf.function g hg scope hscope
    · exact Nat.lt_of_lt_of_le (hf hstrict scope hscope) hn
  · refine ⟨fun hs g hg => ?_, id, (retains_pushFunction s f).function⟩
    rcases Array.mem_push.mp hg with hg | rfl
    · exact hs g hg
    · exact hlegible
  · exact retains_pushFunction s f

theorem Confined.newScope {sc : Store → Scope}
    (hsc : strict → ∀ s : Store, s.WellFormed → n ≤ s.scopes.size → s.Admits (sc s))
    (hf : ∀ i, (strict → n ≤ i) → Confined strict (i + 1) (D.opened i) (f i)) :
    Confined strict n D (.get >>= fun s => .newScope (sc s) >>= f) := by
  refine .get_bind fun s hs => ?_
  have hwf : strict → (s.pushScope (sc s)).WellFormed := fun hstrict =>
    (hs hstrict).2.pushScope (hsc hstrict s (hs hstrict).2 (hs hstrict).1)
  have hready : Ready strict (s.scopes.size + 1) (s.pushScope (sc s)) :=
    fun hstrict => ⟨Nat.le_of_eq (size_pushScope s (sc s)).symm, hwf hstrict⟩
  obtain ⟨⟨hextend, hfinal, huphold⟩, hretain⟩ :=
    hf s.scopes.size (fun hstrict => (hs hstrict).1) (s.pushScope (sc s)) hready
  have hpush : s.Upholds (s.pushScope (sc s)) := ⟨id, id, fun _ _ => id⟩
  refine ⟨⟨(extends_pushScope D s (sc s)).trans hextend ?_, hfinal, hpush.trans huphold⟩,
    (retains_pushScope s (sc s)).trans hretain⟩
  rintro id x hid (rfl | hD)
  · exact absurd hid (Nat.lt_irrefl _)
  · exact hD

theorem Confined.pushScope {parent : Nat} (hparent : strict → parent < n)
    (hf : ∀ i, (strict → n ≤ i) → Confined strict (i + 1) (D.opened i) (f i)) :
    Confined strict n D (pushScope parent >>= f) := by
  refine .newScope (fun hstrict s hwf hn => ?_) hf
  exact .inside hwf (Nat.lt_of_lt_of_le (hparent hstrict) hn) rfl rfl

theorem Confined.detached {scope : Nat} (hscope : strict → scope < n)
    (hf : ∀ i, (strict → n ≤ i) → Confined strict (i + 1) (D.opened i) (f i)) :
    Confined strict n D (.get >>= fun s =>
      .newScope { session := (s.scope scope).session, parent := none } >>= f) := by
  refine .newScope (fun hstrict s hwf hn => ?_) hf
  exact .apart hwf (Nat.lt_of_lt_of_le (hscope hstrict) hn) rfl rfl

theorem newRoot_eq (s : Store) : ∃ t, newRoot s = .ok s.scopes.size t ∧ Store.Opens s t := by
  obtain ⟨t, ht, hopens⟩ := newSession_eq s
  refine ⟨t, ?_, hopens⟩
  rw [newRoot, bind_of_ok ht]
  exact congrArg (EStateM.Result.ok · t) hopens.session_new.1

theorem upholds_newRoot (s : Store) : s.Upholds (newRoot.final s) := by
  obtain ⟨t, ht, hopens⟩ := newRoot_eq s
  refine ⟨fun hs => ?_, fun hs => ?_, fun id f hf => ?_⟩
  · rw [final_of_ok ht]
    exact hs.of_functions_eq hopens.functions
  · have hlibraries := ((hs.pushTable (t := { entries := memberEntries Builtin.osMembers })
      rfl).pushTable (t := { entries := memberEntries Builtin.ioMembers }) rfl).pushTable
      (t := { entries := memberEntries Builtin.tableMembers }) rfl
    exact hlibraries.pushTable rfl
  · rw [final_of_ok ht]
    exact hopens.retains.function id f hf

theorem Confined.newRoot (hf : ∀ i, (strict → n ≤ i) → Confined strict (i + 1) D (f i)) :
    Confined strict n D (newRoot >>= f) := by
  intro s hs
  obtain ⟨t, ht, hopens⟩ := newRoot_eq s
  have hready : Ready strict (s.scopes.size + 1) t := fun hstrict =>
    ⟨Nat.le_of_eq hopens.size_scopes.symm, hopens.wellFormed (hs hstrict).2.toLinked⟩
  obtain ⟨⟨hextend, hwf, huphold⟩, hretain⟩ :=
    hf s.scopes.size (fun hstrict => (hs hstrict).1) t hready
  have hfinal : (Run.newRoot >>= f).final s = (f s.scopes.size).final t := final_bind_of_ok ht
  refine ⟨⟨?_, ?_, ?_⟩, ?_⟩
  · exact hfinal ▸ (hopens.extend D).trans hextend fun _ _ _ => id
  · exact hfinal ▸ hwf
  · exact hfinal ▸ (final_of_ok ht ▸ upholds_newRoot s).trans huphold
  · exact hfinal ▸ hopens.retains.trans hretain

end Run

/-! ## Operations on values -/

open Run

def Confines (strict : Prop) (call : Caller) : Prop :=
  ∀ (n : Nat) (D : Declarable) (f : Value) (args : List Results) (scope : Option Nat)
    (traced : Bool), (strict → ∀ id ∈ scope, id < n) →
    Run.Confined strict n D (call f args scope traced)

def Congruence.confined (strict : Prop) (n : Nat) (D : Declarable) (scope : Nat) : Congruence where
  p := scope
  q := scope
  Rel m _ := Run.Confined strict n D m
  rel_pure := .pure
  rel_throw e _ := .throw e
  rel_bind_of hm hP hf := hm.bind_of hP hf
  rel_get_bind hf := Run.Confined.get.bind fun s => hf s s (.refl scope s)
  rel_world := confined_world
  rel_modifyTable id _ hf := confined_modifyTable id hf
  rel_newTable ht := confined_newTable ht
  rel_newFile := confined_newFile
  rel_newObject := confined_newObject
  rel_modifyObjects _ := confined_of_aside fun s => { Aside.refl s with }
  rel_modifySession id _ _ hf :=
    confined_modifySession id (fun x => (hf x).1) fun x => (hf x).2

variable {strict : Prop} {n : Nat} {D : Declarable} {call : Caller}

variable (hcall : Confines strict call)
include hcall

theorem Confines.apart (f : Value) (args : List Results) (traced : Bool) :
    Run.Confined strict n D (call f args none traced) :=
  hcall n D f args none traced fun _ id hid => absurd hid (Option.not_mem_none id)

theorem Confines.within {scope : Nat} (hscope : strict → scope < n) (f : Value)
    (args : List Results) (traced : Bool) :
    Run.Confined strict n D (call f args (some scope) traced) := by
  refine hcall n D f args (some scope) traced fun hstrict id hid => ?_
  cases Option.mem_some.mp hid
  exact hscope hstrict

theorem Confines.calls (scope : Nat) : (Congruence.confined strict n D scope).Calls call call :=
  hcall.apart

end LuaInterpreter
