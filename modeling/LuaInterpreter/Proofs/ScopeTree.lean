import LuaInterpreter.Proofs.Adjustment

/-!
# The tree of scopes

Scopes are numbered in the order in which they are made, so the scope around another one has the
smaller number. A name stands for the declaration in the nearest scope that has one.
-/

namespace LuaInterpreter

open List

/-! ## One scope -/

namespace Scope

def names (sc : Scope) : List Bytes := sc.locals.map Prod.fst

variable (x y : Bytes) (v : Variable) (locals : List (Bytes × Variable))

theorem lookup_cons_eq :
    List.lookup y ((x, v) :: locals) = if y = x then some v else locals.lookup y := by
  rw [lookup_cons]
  by_cases h : y = x
  · simp [h]
  · rw [beq_eq_false_iff_ne.mpr h, if_neg h]

theorem lookup_setLocal :
    (setLocal x v locals).lookup y = if y = x then some v else locals.lookup y := by
  induction locals with
  | nil => exact lookup_cons_eq x y v []
  | cons entry rest ih =>
    obtain ⟨n, old⟩ := entry
    rw [setLocal]
    split
    · next hn =>
      subst hn
      rw [lookup_cons_eq, lookup_cons_eq]
      split <;> rfl
    · next hn =>
      rw [lookup_cons_eq, lookup_cons_eq, ih]
      by_cases hy : y = n
      · subst hy
        rw [if_pos rfl, if_neg hn, if_pos rfl]
      · rw [if_neg hy, if_neg hy]

theorem map_fst_setLocal :
    (setLocal x v locals).map Prod.fst =
      locals.map Prod.fst ++ if x ∈ locals.map Prod.fst then [] else [x] := by
  induction locals with
  | nil => simp [setLocal]
  | cons entry rest ih =>
    obtain ⟨n, old⟩ := entry
    rw [setLocal]
    split
    · next hn => simp [hn]
    · next hn =>
      have hx : x ∈ n :: rest.map Prod.fst ↔ x ∈ rest.map Prod.fst := by
        simp [Ne.symm hn]
      simp only [map_cons, ih, hx, cons_append]

theorem find?_eq_none_iff {sc : Scope} {x : Bytes} : sc.find? x = none ↔ x ∉ sc.names := by
  simp only [find?, names, lookup_eq_none_iff, mem_map, not_exists, not_and]
  constructor
  · rintro h entry hentry rfl
    simpa using h entry hentry
  · intro h entry hentry
    exact bne_iff_ne.mpr fun heq => h entry hentry heq.symm

end Scope

/-! ## Stores -/

def Function.scopes (f : Function) : List Nat :=
  f.scope.toList ++
    match f.code with
    | .reader _ scope _ _ _ => [scope]
    | _ => []

namespace Store

/-- A store in which numbers refer to what exists: the scope around another one is older and belongs
to the same session, every session has globals and an outermost scope, and functions refer to scopes
that have been made. -/
structure Linked (s : Store) : Prop where
  parent : ∀ id p, (s.scope id).parent = some p →
    p < id ∧ (s.scope p).session = (s.scope id).session
  session : ∀ id, id < s.scopes.size → (s.scope id).session < s.sessions.size
  root : ∀ i, i < s.sessions.size → (s.session i).root < s.scopes.size ∧
    (s.scope (s.session i).root).parent = none ∧ (s.scope (s.session i).root).session = i
  globals : ∀ i, i < s.sessions.size → (s.session i).globals < s.tables.size
  function : ∀ f ∈ s.functions, ∀ scope ∈ f.scopes, scope < s.scopes.size

/-- A store like that which has a scope, so that programs can run. -/
structure WellFormed (s : Store) : Prop extends Linked s where
  inhabited : 0 < s.scopes.size

/-- Two stores with the same scopes, up to their variables, the same functions and the same
sessions, up to their settings. -/
structure SameShape (s t : Store) : Prop where
  size : t.scopes.size = s.scopes.size
  parent : ∀ id, (t.scope id).parent = (s.scope id).parent
  session : ∀ id, (t.scope id).session = (s.scope id).session
  functions : t.functions = s.functions
  tables : s.tables.size ≤ t.tables.size
  sessions : t.sessions.size = s.sessions.size
  root : ∀ i, (t.session i).root = (s.session i).root
  globals : ∀ i, (t.session i).globals = (s.session i).globals

theorem SameShape.refl (s : Store) : SameShape s s :=
  ⟨rfl, fun _ => rfl, fun _ => rfl, rfl, Nat.le_refl _, rfl, fun _ => rfl, fun _ => rfl⟩

theorem WellFormed.of_sameShape {s t : Store} (hs : s.WellFormed) (h : SameShape s t) :
    t.WellFormed where
  inhabited := h.size ▸ hs.inhabited
  parent := by
    intro id p hp
    rw [h.parent] at hp
    rw [h.session, h.session]
    exact hs.parent id p hp
  session := by
    intro id hid
    rw [h.session, h.sessions]
    exact hs.session id (h.size ▸ hid)
  root := by
    intro i hi
    rw [h.root, h.parent, h.session, h.size]
    exact hs.root i (h.sessions ▸ hi)
  globals := by
    intro i hi
    rw [h.globals]
    exact Nat.lt_of_lt_of_le (hs.globals i (h.sessions ▸ hi)) h.tables
  function := by
    intro f hf
    rw [h.functions] at hf
    rw [h.size]
    exact hs.function f hf

/-! ## One variable -/

def setVariable (s : Store) (scope : Nat) (x : Bytes) (v : Variable) : Store :=
  { s with scopes := s.scopes.modify scope fun sc =>
      { sc with locals := Scope.setLocal x v sc.locals } }

variable (s : Store) (scope id : Nat) (x : Bytes) (v : Variable)

theorem scope_setVariable :
    (s.setVariable scope x v).scope id =
      if scope = id ∧ id < s.scopes.size then
        { s.scope id with locals := Scope.setLocal x v (s.scope id).locals }
      else s.scope id := by
  simp only [Store.scope, setVariable, Array.getD_eq_getD_getElem?, Array.getElem?_modify]
  by_cases hid : id < s.scopes.size
  · by_cases hscope : scope = id <;> simp [hid, hscope]
  · simp [hid]

theorem parent_setVariable : ((s.setVariable scope x v).scope id).parent = (s.scope id).parent := by
  rw [scope_setVariable]
  split <;> rfl

theorem session_setVariable :
    ((s.setVariable scope x v).scope id).session = (s.scope id).session := by
  rw [scope_setVariable]
  split <;> rfl

theorem find?_setVariable {s : Store} {scope : Nat} (hscope : scope < s.scopes.size) (id : Nat)
    (x y : Bytes) (v : Variable) :
    ((s.setVariable scope x v).scope id).find? y =
      if scope = id ∧ y = x then some v else (s.scope id).find? y := by
  rw [scope_setVariable]
  by_cases hid : scope = id
  · subst hid
    rw [if_pos ⟨rfl, hscope⟩]
    exact (Scope.lookup_setLocal x y v _).trans (by simp [Scope.find?])
  · simp [hid]

/-- A variable that is there keeps its place, and the name of a new one comes last. -/
theorem names_setVariable {s : Store} {scope : Nat} (hscope : scope < s.scopes.size) (id : Nat)
    (x : Bytes) (v : Variable) :
    ((s.setVariable scope x v).scope id).names =
      (s.scope id).names ++ if scope = id ∧ x ∉ (s.scope id).names then [x] else [] := by
  rw [scope_setVariable]
  by_cases hid : scope = id
  · subst hid
    rw [if_pos ⟨rfl, hscope⟩]
    refine (Scope.map_fst_setLocal x v _).trans ?_
    show (s.scope scope).names ++ (if x ∈ (s.scope scope).names then [] else [x]) = _
    by_cases hx : x ∈ (s.scope scope).names <;> simp [hx]
  · simp [hid]

theorem sameShape_setVariable (s : Store) (scope : Nat) (x : Bytes) (v : Variable) :
    SameShape s (s.setVariable scope x v) :=
  { SameShape.refl s with
    size := Array.size_modify
    parent := fun id => parent_setVariable s scope id x v
    session := fun id => session_setVariable s scope id x v }

/-! ## Names -/

/-- A name leads from a scope to the nearest scope outwards that declares it, or to none. -/
inductive Resolves (s : Store) (x : Bytes) : Nat → Option Nat → Prop
  | here {id : Nat} {v : Variable} :
      (s.scope id).find? x = some v → Resolves s x id (some id)
  | outside {id p : Nat} {owner : Option Nat} :
      (s.scope id).find? x = none → (s.scope id).parent = some p → Resolves s x p owner →
      Resolves s x id owner
  | nowhere {id : Nat} :
      (s.scope id).find? x = none → (s.scope id).parent = none → Resolves s x id none

section

variable {s : Store} {x : Bytes}

variable {id : Nat} {owner : Option Nat}

theorem Resolves.unique {a b : Option Nat} (ha : Resolves s x id a) (hb : Resolves s x id b) :
    a = b := by
  induction ha with
  | here hx =>
    cases hb with
    | here => rfl
    | outside hn | nowhere hn => simp [hx] at hn
  | outside hn hp _ ih =>
    cases hb with
    | here hx => simp [hx] at hn
    | outside _ hp' hb =>
      rw [hp, Option.some.injEq] at hp'
      subst hp'
      exact ih hb
    | nowhere _ hp' => simp [hp] at hp'
  | nowhere hn hp =>
    cases hb with
    | here hx => simp [hx] at hn
    | outside _ hp' => simp [hp] at hp'
    | nowhere => rfl

theorem Resolves.declared {owner : Nat} (h : Resolves s x id (some owner)) :
    ∃ v, (s.scope owner).find? x = some v := by
  generalize ho : some owner = o at h
  induction h with
  | here hx =>
    cases ho
    exact ⟨_, hx⟩
  | outside _ _ _ ih => exact ih ho
  | nowhere => cases ho

theorem scope_of_size_le (h : s.scopes.size ≤ id) :
    s.scope id = { session := 0, parent := none } := by
  simp [Store.scope, Nat.not_lt.mpr h]

theorem lt_size_of_find?_eq_some {v : Variable} (h : (s.scope id).find? x = some v) :
    id < s.scopes.size := by
  rcases Nat.lt_or_ge id s.scopes.size with hid | hid
  · exact hid
  · rw [scope_of_size_le hid] at h
    cases h

theorem lt_size_of_parent_eq_some {p : Nat} (h : (s.scope id).parent = some p) :
    id < s.scopes.size := by
  rcases Nat.lt_or_ge id s.scopes.size with hid | hid
  · exact hid
  · rw [scope_of_size_le hid] at h
    cases h

/-- The search climbs to ever smaller numbers, so it does not need more fuel than the number of the
scope that it starts in. -/
theorem resolves_ownerFrom (hs : s.WellFormed) {fuel : Nat} (hid : id < fuel) :
    Resolves s x id (s.ownerFrom x fuel id) := by
  induction fuel generalizing id with
  | zero => exact absurd hid (Nat.not_lt_zero id)
  | succ fuel ih =>
    rw [ownerFrom]
    cases hx : (s.scope id).find? x with
    | some v => exact .here hx
    | none =>
      cases hp : (s.scope id).parent with
      | none => exact .nowhere hx hp
      | some p =>
        have hlt : p < fuel := Nat.lt_of_lt_of_le (hs.parent id p hp).1 (Nat.le_of_lt_succ hid)
        exact .outside hx hp (ih hlt)

theorem resolves_owner? (hs : s.WellFormed) (x : Bytes) (id : Nat) :
    Resolves s x id (s.owner? id x) := by
  rcases Nat.lt_or_ge id (s.scopes.size + 1) with hid | hid
  · exact resolves_ownerFrom hs hid
  · have hscope := scope_of_size_le (Nat.le_of_succ_le hid)
    have hx : (s.scope id).find? x = none := by
      rw [hscope]
      rfl
    have hp : (s.scope id).parent = none := by rw [hscope]
    rw [owner?, ownerFrom, hx, hp]
    exact .nowhere hx hp

theorem resolves_iff (hs : s.WellFormed) : Resolves s x id owner ↔ s.owner? id x = owner := by
  constructor
  · exact (resolves_owner? hs x id).unique
  · rintro rfl
    exact resolves_owner? hs x id

/-- Names lead to the same declarations where the scopes are nested in the same way and declare the
same names. -/
theorem Resolves.of_agree {t : Store} (hparent : ∀ id, (t.scope id).parent = (s.scope id).parent)
    (hfind : ∀ id, (t.scope id).find? x = none ↔ (s.scope id).find? x = none)
    (h : Resolves s x id owner) : Resolves t x id owner := by
  induction h with
  | here hx =>
    have hne : (t.scope _).find? x ≠ none := fun hn => by
      rw [hfind, hx] at hn
      cases hn
    obtain ⟨v, hv⟩ := Option.ne_none_iff_exists'.mp hne
    exact .here hv
  | outside hn hp _ ih => exact .outside ((hfind _).mpr hn) ((hparent _).trans hp) ih
  | nowhere hn hp => exact .nowhere ((hfind _).mpr hn) ((hparent _).trans hp)

end

/-! ## Scopes within scopes -/

/-- A scope is another one or lies inside it. -/
inductive Within (s : Store) (top : Nat) : Nat → Prop
  | top : Within s top top
  | inside {id p : Nat} : (s.scope id).parent = some p → Within s top p → Within s top id

section

variable {s : Store} {x : Bytes} {top id : Nat}

theorem Within.session (hs : s.WellFormed) (h : s.Within top id) :
    (s.scope id).session = (s.scope top).session := by
  induction h with
  | top => rfl
  | inside hp _ ih => exact ((hs.parent _ _ hp).2.symm).trans ih

theorem Within.of_parent {t : Store} (hparent : ∀ id, (t.scope id).parent = (s.scope id).parent)
    (h : s.Within top id) : t.Within top id := by
  induction h with
  | top => exact .top
  | inside hp _ ih => exact .inside ((hparent _).trans hp) ih

theorem Within.resolves_none (h : s.Within top id) (hx : Resolves s x id none) :
    Resolves s x top none := by
  induction h with
  | top => exact hx
  | inside hp _ ih =>
    cases hx with
    | outside _ hp' hx =>
      rw [hp, Option.some.injEq] at hp'
      subst hp'
      exact ih hx
    | nowhere _ hp' => simp [hp] at hp'

theorem Within.lt_size (h : s.Within top id) (htop : top < s.scopes.size) :
    id < s.scopes.size := by
  cases h with
  | top => exact htop
  | inside hp _ => exact lt_size_of_parent_eq_some hp

theorem Within.trans {mid : Nat} (hmid : s.Within top mid) (h : s.Within mid id) :
    s.Within top id := by
  induction h with
  | top => exact hmid
  | inside hp _ ih => exact .inside hp ih

theorem Within.unique {a b : Nat} (ha : s.Within a id) (hb : s.Within b id)
    (hparent : (s.scope a).parent = none) (hparent' : (s.scope b).parent = none) : a = b := by
  induction ha with
  | top =>
    cases hb with
    | top => rfl
    | inside hp _ => cases hparent.symm.trans hp
  | inside hp _ ih =>
    cases hb with
    | top => cases hparent'.symm.trans hp
    | inside hp' hb =>
      cases hp.symm.trans hp'
      exact ih hb

variable {owner : Nat}

theorem Resolves.within (h : Resolves s x id (some owner)) : s.Within owner id := by
  generalize ho : some owner = o at h
  induction h with
  | here _ =>
    cases ho
    exact .top
  | outside _ hp _ ih => exact .inside hp (ih ho)
  | nowhere _ _ => cases ho

theorem Resolves.lt_size (h : s.Resolves x id (some owner)) : id < s.scopes.size := by
  cases h with
  | here hx => exact lt_size_of_find?_eq_some hx
  | outside _ hp => exact lt_size_of_parent_eq_some hp

end

end Store

end LuaInterpreter
