import LuaInterpreter.Proofs.Run
import LuaInterpreter.Proofs.ScopeTree

/-!
# Assignment in the tree of scopes

The scopes under the outermost scope of a session, together with its table of globals, are a lexical
store: an assignment changes one declaration, and a name is read by all scopes from which it leads
to that declaration.
-/

namespace LuaInterpreter

open Store Bytes

/-! ## Entries of the globals -/

namespace Table

theorem rawEq_str_iff {k : Value} {x : Bytes} : k.rawEq (.str x) = true ↔ k = .str x := by
  cases k <;> simp [Value.rawEq]

theorem lookup_update_str (x y : Bytes) (v : Value) (es : List (Value × Value)) :
    lookup (.str y) (update (.str x) v es) = if y = x then some v else lookup (.str y) es := by
  have hxy : (Value.str x).rawEq (.str y) = true ↔ y = x := by
    rw [rawEq_str_iff, Value.str.injEq, eq_comm]
  induction es with
  | nil => simp only [update, lookup, hxy]
  | cons e es ih =>
    obtain ⟨k, w⟩ := e
    rw [update]
    by_cases hk : k = .str x
    · subst hk
      rw [if_pos (rawEq_str_iff.mpr rfl), lookup, lookup]
      simp only [hxy]
      split <;> rfl
    · rw [if_neg (mt rawEq_str_iff.mp hk), lookup, lookup, ih]
      by_cases hy : k = .str y
      · have hne : y ≠ x := fun h => hk (h ▸ hy)
        rw [if_pos (rawEq_str_iff.mpr hy), if_neg hne, if_pos (rawEq_str_iff.mpr hy)]
      · rw [if_neg (mt rawEq_str_iff.mp hy), if_neg (mt rawEq_str_iff.mp hy)]

/-- Under a string every table keeps what was put last, whatever its other keys are. -/
theorem get_put_str (t : Table) (x y : Bytes) (v : Value) :
    (t.put (.str x) v).get (.str y) = if y = x then v else t.get (.str y) := by
  rw [put]
  split
  · next hskip =>
    -- A new key is not set to `nil`, which is what it has anyway.
    obtain ⟨hv, hnone⟩ := Bool.and_eq_true_iff.mp hskip
    have habsent : lookup (.str x) t.entries = none := Option.isNone_iff_eq_none.mp hnone
    by_cases hy : y = x
    · subst hy
      rw [if_pos rfl, get, habsent]
      cases v <;> first | rfl | cases hv
    · rw [if_neg hy]
  · have hlookup := lookup_update_str x y v t.entries
    rw [get, show keyOf (.str x) = .str x from rfl, hlookup]
    split <;> rfl

end Table

namespace Store

def setGlobal (s : Store) (session : Session) (x : Bytes) (v : Value) : Store :=
  { s with tables := s.tables.modify session.globals fun t => t.put (.str x) v }

theorem sameShape_setGlobal (s : Store) (session : Session) (x : Bytes) (v : Value) :
    SameShape s (s.setGlobal session x v) :=
  { SameShape.refl s with tables := Nat.le_of_eq Array.size_modify.symm }

theorem get_table_setGlobal {s : Store} {session : Session}
    (hglobals : session.globals < s.tables.size) (x y : Bytes) (v : Value) :
    ((s.setGlobal session x v).table session.globals).get (.str y) =
      if y = x then v else (s.table session.globals).get (.str y) := by
  have htable : (s.setGlobal session x v).table session.globals =
      (s.table session.globals).put (.str x) v := by
    simp only [Store.table, setGlobal, Array.getD_eq_getD_getElem?, Array.getElem?_modify]
    simp [hglobals]
  rw [htable, Table.get_put_str]

/-! ## What a name stands for -/

section

variable {s : Store} {x : Bytes} {id i : Nat}

theorem getName_of_some (hs : s.WellFormed) {owner : Nat} {v : Variable}
    (hx : Resolves s x id (some owner)) (hv : (s.scope owner).find? x = some v) :
    s.getName id x = v.value := by
  simp only [getName, (resolves_iff hs).mp hx, localValue, hv]

/-- In the tree under an outermost scope, a name that leads nowhere stands for a global: the
outermost scope, where reading looks once more, does not declare it either. -/
theorem getName_of_none (hs : s.WellFormed) (hi : i < s.sessions.size)
    (hid : s.Within (s.session i).root id) (hx : Resolves s x id none) :
    s.getName id x = (s.table (s.session i).globals).get (.str x) := by
  have hsession : s.sessionOf id = s.session i := by
    rw [sessionOf, hid.session hs, (hs.root i hi).2.2]
  have hroot : s.owner? (s.session i).root x = none :=
    (resolves_iff hs).mp (hid.resolves_none hx)
  simp only [getName, (resolves_iff hs).mp hx, hsession, getGlobal, hroot]

def LeadsToConstant (s : Store) (x : Bytes) (id : Nat) : Prop :=
  ∃ owner v, Resolves s x id (some owner) ∧ (s.scope owner).find? x = some v ∧ v.constant = true

/-- A name leads from two scopes to the same declaration: in the same scope, or among the globals
from both. -/
def SameDeclaration (s : Store) (x : Bytes) (id id' : Nat) : Prop :=
  ∃ owner, Resolves s x id owner ∧ Resolves s x id' owner

end

end Store

/-! ## One assignment -/

namespace Run

def constantError : LuaError := { message := .ascii constantMessage }

variable {s : Store} {x : Bytes} {scope : Nat} {v : Value}

variable {old : Variable} {owner scope' : Nat}

theorem declare_of_constant {v : Variable} (hold : (s.scope scope).find? x = some old)
    (hconstant : old.constant = true) : declare scope x v s = .error (.error constantError) s := by
  simp only [declare, get_bind_apply, hold, hconstant]
  rfl

theorem declare_of_variable {v : Variable}
    (hold : ∀ old, (s.scope scope).find? x = some old → old.constant = false) :
    declare scope x v s = .ok () (s.setVariable scope x v) := by
  cases hfind : (s.scope scope).find? x with
  | none =>
    simp only [declare, get_bind_apply, hfind]
    rfl
  | some old =>
    simp only [declare, get_bind_apply, hfind, hold old hfind]
    rfl

section

variable (hs : s.WellFormed)
include hs

theorem assign_of_constant (hx : s.LeadsToConstant x scope) :
    assign scope x v s = .error (.error constantError) s := by
  obtain ⟨owner, old, hresolves, hold, hconstant⟩ := hx
  simp only [assign, get_bind_apply, (resolves_iff hs).mp hresolves, hold, hconstant]
  rfl

theorem assign_of_variable (hx : s.Resolves x scope (some owner))
    (hold : (s.scope owner).find? x = some old) (hconstant : old.constant = false) :
    assign scope x v s = .ok () (s.setVariable owner x { value := v }) := by
  simp only [assign, get_bind_apply, (resolves_iff hs).mp hx, hold, hconstant]
  rfl

theorem assign_of_none (hx : s.Resolves x scope none) :
    assign scope x v s = .ok () (s.setGlobal (s.sessionOf scope) x v) := by
  simp only [assign, get_bind_apply, (resolves_iff hs).mp hx]
  rfl

/-! ## The tree after an assignment -/

variable {i : Nat}

/-- An assignment that finds a variable changes that variable for all scopes that see it. -/
theorem getName_setVariable (hi : i < s.sessions.size) (hold : (s.scope owner).find? x = some old)
    (hx : s.Resolves x scope (some owner)) (hscope' : s.Within (s.session i).root scope')
    (y : Bytes) :
    (y = x ∧ s.SameDeclaration x scope scope' →
      (s.setVariable owner x { value := v }).getName scope' y = v) ∧
    (¬(y = x ∧ s.SameDeclaration x scope scope') →
      (s.setVariable owner x { value := v }).getName scope' y = s.getName scope' y) := by
  have howner := lt_size_of_find?_eq_some hold
  have hfind := find?_setVariable howner (v := { value := v }) (x := x)
  have ht := hs.of_sameShape (sameShape_setVariable s owner x { value := v })
  -- No scope gains or loses a name, so every name leads where it led before.
  have hleads {o : Option Nat} (h : s.Resolves y scope' o) :
      (s.setVariable owner x { value := v }).Resolves y scope' o := by
    refine h.of_agree (parent_setVariable s owner · x _) fun id => ?_
    rw [hfind]
    by_cases hid : owner = id ∧ y = x
    · obtain ⟨rfl, rfl⟩ := hid
      simp [hold]
    · rw [if_neg hid]
  constructor
  · rintro ⟨rfl, o, ho, ho'⟩
    cases ho.unique hx
    have hnew : ((s.setVariable owner y { value := v }).scope owner).find? y =
        some { value := v } := (hfind owner y).trans (if_pos ⟨rfl, rfl⟩)
    exact getName_of_some ht (hleads ho') hnew
  · intro hother
    obtain ⟨o, ho⟩ : ∃ o, s.Resolves y scope' o := ⟨_, resolves_owner? hs y scope'⟩
    cases o with
    | none =>
      have hwithin : (s.setVariable owner x { value := v }).Within (s.session i).root scope' :=
        hscope'.of_parent (parent_setVariable s owner · x _)
      rw [getName_of_none ht hi hwithin (hleads ho), getName_of_none hs hi hscope' ho]
      rfl
    | some owner' =>
      obtain ⟨w, hw⟩ := ho.declared
      have hne : ¬(owner = owner' ∧ y = x) := by
        rintro ⟨rfl, rfl⟩
        exact hother ⟨rfl, some owner, hx, ho⟩
      rw [getName_of_some hs ho hw, getName_of_some ht (hleads ho)]
      rw [hfind, if_neg hne, hw]

/-- An assignment that finds no variable changes the global for all scopes that find none either. -/
theorem getName_setGlobal (hi : i < s.sessions.size) (hx : s.Resolves x scope none)
    (hscope' : s.Within (s.session i).root scope') (y : Bytes) :
    (y = x ∧ s.SameDeclaration x scope scope' →
      (s.setGlobal (s.session i) x v).getName scope' y = v) ∧
    (¬(y = x ∧ s.SameDeclaration x scope scope') →
      (s.setGlobal (s.session i) x v).getName scope' y = s.getName scope' y) := by
  have hshape := sameShape_setGlobal s (s.session i) x v
  have ht := hs.of_sameShape hshape
  have hleads {o : Option Nat} (h : s.Resolves y scope' o) :
      (s.setGlobal (s.session i) x v).Resolves y scope' o :=
    h.of_agree hshape.parent fun _ => Iff.rfl
  have hglobal (h : s.Resolves y scope' none) :
      (s.setGlobal (s.session i) x v).getName scope' y =
        if y = x then v else (s.table (s.session i).globals).get (.str y) := by
    have hwithin : (s.setGlobal (s.session i) x v).Within (s.session i).root scope' :=
      hscope'.of_parent hshape.parent
    refine (getName_of_none ht hi hwithin (hleads h)).trans ?_
    exact get_table_setGlobal (hs.globals i hi) x y v
  constructor
  · rintro ⟨rfl, o, ho, ho'⟩
    cases ho.unique hx
    rw [hglobal ho', if_pos rfl]
  · intro hother
    obtain ⟨o, ho⟩ : ∃ o, s.Resolves y scope' o := ⟨_, resolves_owner? hs y scope'⟩
    cases o with
    | none =>
      have hne : y ≠ x := by
        rintro rfl
        exact hother ⟨rfl, none, hx, ho⟩
      rw [hglobal ho, if_neg hne, getName_of_none hs hi hscope' ho]
    | some owner =>
      obtain ⟨w, hw⟩ := ho.declared
      rw [getName_of_some hs ho hw, getName_of_some ht (hleads ho) hw]

end

/-- The scopes under the outermost scope of a session are a lexical store. An assignment to a name
from one of them fails exactly if the name leads to a constant, and then changes nothing. Otherwise
the name stands for the new value afterwards; and every name stands for what it stood for before in
every scope of the tree, unless it is the same name and leads to the same declaration from there (in
the same scope, or among the globals from both), where it stands for the new value too. -/
theorem assign_changes_one_declaration {s : Store} (hs : s.WellFormed) {i scope : Nat}
    (hi : i < s.sessions.size) (hscope : s.Within (s.session i).root scope) (x : Bytes) (v : Value) :
    (s.LeadsToConstant x scope → assign scope x v s = .error (.error constantError) s) ∧
    (¬s.LeadsToConstant x scope → ∃ t, assign scope x v s = .ok () t ∧ t.getName scope x = v ∧
      ∀ scope' y, s.Within (s.session i).root scope' →
        (y = x ∧ s.SameDeclaration x scope scope' → t.getName scope' y = v) ∧
        (¬(y = x ∧ s.SameDeclaration x scope scope') →
          t.getName scope' y = s.getName scope' y)) := by
  refine ⟨assign_of_constant hs, fun hvariable => ?_⟩
  obtain ⟨o, ho⟩ : ∃ o, s.Resolves x scope o := ⟨_, resolves_owner? hs x scope⟩
  have hself : s.SameDeclaration x scope scope := ⟨o, ho, ho⟩
  cases o with
  | none =>
    have hsession : s.sessionOf scope = s.session i := by
      rw [Store.sessionOf, hscope.session hs, (hs.root i hi).2.2]
    refine ⟨_, assign_of_none hs ho, ?_⟩
    rw [hsession]
    exact ⟨(getName_setGlobal hs hi ho hscope x).1 ⟨rfl, hself⟩,
      fun scope' y hscope' => getName_setGlobal hs hi ho hscope' y⟩
  | some owner =>
    obtain ⟨old, hold⟩ := ho.declared
    have hconstant : old.constant = false := by
      rw [← Bool.not_eq_true]
      exact fun h => hvariable ⟨owner, old, ho, hold, h⟩
    refine ⟨_, assign_of_variable hs ho hold hconstant, ?_⟩
    exact ⟨(getName_setVariable hs hi hold ho hscope x).1 ⟨rfl, hself⟩,
      fun scope' y hscope' => getName_setVariable hs hi hold ho hscope' y⟩

/-- A session whose outermost scope holds two others side by side. The first declares a variable `x`
and a constant `c`, and holds one more scope. -/
def siblingScopes : Store :=
  { tables := #[{}]
    scopes :=
      #[{ session := 0, parent := none },
        { session := 0, parent := some 0
          locals := [(ofAscii "x", { value := .nil }),
            (ofAscii "c", { value := .nil, constant := true })] },
        { session := 0, parent := some 1 },
        { session := 0, parent := some 0 }]
    sessions := #[{ globals := 0, root := 0 }] }

theorem wellFormed_siblingScopes : siblingScopes.WellFormed where
  inhabited := by decide
  parent := by
    intro id p hp
    match id with
    | 0 => cases hp
    | 1 | 2 | 3 =>
      cases hp
      exact ⟨by decide, rfl⟩
    | _ + 4 => cases hp
  session := by decide
  root := by decide
  globals := by decide
  function := by
    intro f hf
    exact absurd hf (Array.not_mem_empty f)

/-- From the innermost scope, `x` is assigned for the scope around it too, but the other side still
sees the global, and `c` cannot be assigned. -/
theorem siblingScopes_assign :
    assign 2 (Bytes.ofAscii "c") (.bool true) siblingScopes =
      .error (.error constantError) siblingScopes ∧
    ∃ t, assign 2 (Bytes.ofAscii "x") (.bool true) siblingScopes = .ok () t ∧
      t.getName 1 (Bytes.ofAscii "x") = .bool true ∧ t.getName 3 (Bytes.ofAscii "x") = .nil := by
  have hs := wellFormed_siblingScopes
  have hone : siblingScopes.Within 0 1 := .inside rfl .top
  have htwo : siblingScopes.Within 0 2 := .inside rfl hone
  have hthree : siblingScopes.Within 0 3 := .inside rfl .top
  have hx : siblingScopes.Resolves (ofAscii "x") 2 (some 1) := .outside rfl rfl (.here rfl)
  have hlexical := assign_changes_one_declaration hs (i := 0) (by decide) htwo
  refine ⟨(hlexical _ _).1 ⟨1, _, .outside rfl rfl (.here rfl), rfl, rfl⟩, ?_⟩
  have hvariable : ¬siblingScopes.LeadsToConstant (ofAscii "x") 2 := by
    rintro ⟨owner, w, hw, hfind, hconstant⟩
    cases hw.unique hx
    cases hfind
    cases hconstant
  obtain ⟨t, ht, _, hothers⟩ := (hlexical _ (.bool true)).2 hvariable
  refine ⟨t, ht, (hothers 1 _ hone).1 ⟨rfl, some 1, hx, .here rfl⟩, ?_⟩
  refine ((hothers 3 _ hthree).2 ?_).trans rfl
  rintro ⟨_, o, ho, ho'⟩
  cases ho.unique hx
  cases ho' with
  | outside _ hp ho' =>
    cases hp
    cases ho' with
    | outside _ hp => cases hp

end Run

end LuaInterpreter
