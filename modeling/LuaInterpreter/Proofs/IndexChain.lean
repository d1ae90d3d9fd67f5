import Mathlib.Data.List.Perm.Subperm
import LuaInterpreter.Proofs.MultipleAssignment
import LuaInterpreter.Proofs.Traversal

/-!
# Indexing along chains of tables

A table that lacks a field leads to the table that its metatable names, which may lead on in turn.
Reading and setting a field go along such a chain up to the first table that has the field. If there
is none, both end at the last table, which leads nowhere.
-/

namespace LuaInterpreter

open Run List Store Option

namespace Store

variable {s : Store} {event : String} {id next : Nat} {ids rest rest' : List Nat} {k : Value}

/-! ## Chains -/

/-- What a table leads to under a name: the entry of its metatable, or nothing. -/
inductive LeadsTo (s : Store) (event : String) (id : Nat) : Option Value → Prop
  | nowhere : (s.table id).metatable = none → LeadsTo s event id none
  | entry {m : Nat} : (s.table id).metatable = some (.table m) →
      LeadsTo s event id ((s.table m).get? (.ascii event))

theorem LeadsTo.unique {v w : Option Value} (h : s.LeadsTo event id v) (h' : s.LeadsTo event id w) :
    v = w := by
  cases h with
  | nowhere hnone =>
    cases h' with
    | nowhere => rfl
    | entry hsome => cases hnone.symm.trans hsome
  | entry hsome =>
    cases h' with
    | nowhere hnone => cases hnone.symm.trans hsome
    | entry hsome' =>
      cases hsome.symm.trans hsome'
      rfl

theorem metavalue?_of_leadsTo {v : Option Value} (h : s.LeadsTo event id v) :
    metavalue? (.table id) event s = .ok v s := by
  cases h with
  | nowhere hnone => exact Eval.metavalue?_of_metatable_eq_none hnone event
  | @entry m hsome =>
    have hmetatable : metatable (.table id) "get_metavalue" s = .ok (.table m) s := by
      rw [metatable, get_bind_apply, hsome]
      rfl
    exact bind_of_ok hmetatable

/-- Tables of the store each of which leads to the next, while the last one leads nowhere. -/
inductive Chain (s : Store) (event : String) : List Nat → Prop
  | last {id : Nat} : id < s.tables.size → s.LeadsTo event id none → Chain s event [id]
  | link {id next : Nat} {rest : List Nat} : id < s.tables.size →
      s.LeadsTo event id (some (.table next)) → Chain s event (next :: rest) →
      Chain s event (id :: next :: rest)

namespace Chain

theorem lt_size (h : s.Chain event ids) : ∀ id ∈ ids, id < s.tables.size := by
  induction h with
  | last hid _ => exact forall_mem_singleton.mpr hid
  | link hid _ _ ih => exact forall_mem_cons.mpr ⟨hid, ih⟩

theorem unique (h : s.Chain event (id :: rest)) (h' : s.Chain event (id :: rest')) :
    rest = rest' := by
  induction rest generalizing id rest' with
  | nil =>
    cases h with
    | last _ hlead =>
      cases h' with
      | last => rfl
      | link _ hlead' _ => cases hlead.unique hlead'
  | cons next rest ih =>
    cases h with
    | link _ hlead hrest =>
      cases h' with
      | last _ hlead' => cases hlead.unique hlead'
      | link _ hlead' hrest' =>
        cases hlead.unique hlead'
        rw [ih hrest hrest']

theorem of_append {before : List Nat} (h : s.Chain event (before ++ id :: rest)) :
    s.Chain event (id :: rest) := by
  induction before with
  | nil => exact h
  | cons first before ih =>
    cases before with
    | nil =>
      cases h with
      | link _ _ hrest => exact hrest
    | cons second before =>
      cases h with
      | link _ _ hrest => exact ih hrest

/-- No table is in a chain twice: from its second place on, the chain would have to go on as it does
from the first, and so be longer than it is. -/
theorem nodup (h : s.Chain event ids) : ids.Nodup := by
  induction h with
  | last => exact nodup_singleton _
  | @link id next rest hid hlead hrest ih =>
    refine nodup_cons.mpr ⟨fun hmem => ?_, ih⟩
    obtain ⟨before, after, hsplit⟩ := append_of_mem hmem
    have hagain : s.Chain event (id :: after) := (hsplit ▸ hrest : s.Chain event _).of_append
    have hsame : next :: rest = after := (Chain.link hid hlead hrest).unique hagain
    have hlength := congrArg List.length hsplit
    rw [hsame, length_append, length_cons] at hlength
    omega

theorem length_le (h : s.Chain event ids) : ids.length ≤ s.tables.size := by
  have hsub : ids ⊆ List.range s.tables.size := fun id hid => mem_range.mpr (h.lt_size id hid)
  simpa using (subperm_of_subset h.nodup hsub).length_le

end Chain

/-! ## The table that is read or set -/

/-- The table of a chain that is accessed under a key: the first one that has the key, and the last
one if there is none. -/
def holder (s : Store) (ids : List Nat) (k : Value) : Nat :=
  (ids.find? fun id => (s.table id).has k).getD (ids.getLastD 0)

theorem holder_singleton (s : Store) (id : Nat) (k : Value) : s.holder [id] k = id := by
  cases h : (s.table id).has k <;> simp [holder, h]

theorem holder_of_has (h : (s.table id).has k = true) : s.holder (id :: rest) k = id := by
  simp [holder, h]

theorem holder_of_not_has (h : (s.table id).has k = false) :
    s.holder (id :: next :: rest) k = s.holder (next :: rest) k := by
  simp [holder, h]

theorem holder_mem (s : Store) (k : Value) (h : ids ≠ []) : s.holder ids k ∈ ids := by
  cases hfind : ids.find? fun id => (s.table id).has k with
  | some id => simpa [holder, hfind] using mem_of_find?_eq_some hfind
  | none =>
    rw [holder, hfind, getD_none, getLastD_eq_getLast?, List.getLast?_eq_some_getLast h]
    exact getLast_mem h

/-- What the accessed table has under the key is what the first table has that has it, or `nil`. -/
theorem get_holder (s : Store) (id : Nat) (rest : List Nat) (k : Value) :
    (s.table (s.holder (id :: rest) k)).get k =
      (((id :: rest).find? fun id => (s.table id).has k).map fun id => (s.table id).get k).getD
        .nil := by
  cases hfind : (id :: rest).find? fun id => (s.table id).has k with
  | some id' => rw [holder, hfind, getD_some, map_some, getD_some]
  | none =>
    have hmem : s.holder (id :: rest) k ∈ id :: rest :=
      holder_mem s k (cons_ne_nil id rest)
    have hnone := List.find?_eq_none.mp hfind _ hmem
    rwa [Table.has_iff, ne_eq, not_not] at hnone

/-! ## Raw access -/

theorem atField_of_isKey {α : Type} {operation : String} (hk : k.isKey = true) (id : Nat)
    (ofTable : Nat → Run α) (ofFile : Run α) :
    atField operation (.table id) k ofTable ofFile s = ofTable id s := by
  rw [atField, requireKey, hk]
  rfl

theorem atField_of_not_isKey {α : Type} {operation : String} (hk : k.isKey = false) (id : Nat)
    (ofTable : Nat → Run α) (ofFile : Run α) :
    atField operation (.table id) k ofTable ofFile s = .error (.fault (.unhashable k.kind)) s := by
  rw [atField, requireKey, hk]
  rfl

theorem rawPut_of_isKey (hid : id < s.tables.size) (hk : k.isKey = true) (v : Value) :
    ∃ t, rawPut (.table id) k v s = .ok () t ∧ t.table id = (s.table id).put k v ∧
      (∀ j, j ≠ id → t.table j = s.table j) ∧ t.tables.size = s.tables.size ∧
      { t with tables := s.tables } = s := by
  refine ⟨{ s with tables := s.tables.modify id fun t => t.put k v }, ?_, table_modify s id _ hid,
    fun j hj => ?_, Array.size_modify, rfl⟩
  · exact atField_of_isKey hk id _ _
  · simp only [table, Array.getD_eq_getD_getElem?, Array.getElem?_modify, if_neg hj.symm]

end Store

namespace Index

variable {s : Store} {event : String} {id : Nat} {rest : List Nat} {k : Value} {α : Type}

/-! ## Access along a chain -/

/-- On a chain, an access that refuses what may not be a key is the raw one to the table that the key
is found at. -/
theorem follow_of_chain {a : Access α} (hrefuses : a.key.isKey = false → ∀ id,
      a.raw (.table id) s = .error (.fault (.unhashable a.key.kind)) s)
    (h : s.Chain a.event (id :: rest)) {fuel : Nat} (hfuel : rest.length ≤ fuel)
    (ask : Value → Value → Run α) :
    follow a ask (fuel + 1) (.table id) s = a.raw (.table (s.holder (id :: rest) a.key)) s := by
  induction rest generalizing id fuel with
  | nil =>
    cases h with
    | last _ hlead =>
      rw [follow, bind_of_ok (metavalue?_of_leadsTo hlead), holder_singleton]
      rfl
  | cons next rest ih =>
    obtain ⟨fuel, rfl⟩ := Nat.exists_eq_add_one.mpr (Nat.zero_lt_of_lt hfuel)
    cases h with
    | link _ hlead hrest =>
      rw [follow, bind_of_ok (metavalue?_of_leadsTo hlead)]
      have howns : owns (.table id) a.key s = hasField (.table id) a.key s := rfl
      cases hk : a.key.isKey with
      | false =>
        rw [hrefuses hk]
        exact bind_of_error (howns.trans (atField_of_not_isKey hk id _ _))
      | true =>
        refine (bind_of_ok (howns.trans (atField_of_isKey hk id _ _))).trans ?_
        cases hhas : (s.table id).has a.key with
        | true =>
          rw [holder_of_has hhas]
          rfl
        | false =>
          rw [holder_of_not_has hhas]
          exact ih hrest (Nat.le_of_succ_le_succ hfuel)

/-- The fuel of an access lasts to the end of every chain. -/
theorem length_le_of_chain (h : s.Chain event (id :: rest)) : rest.length ≤ s.tables.size + 1 :=
  Nat.le_succ_of_le (Nat.le_of_succ_le h.length_le)

theorem read_of_chain (h : s.Chain "__index" (id :: rest)) (call : Caller) (k : Value) :
    read call (.table id) k s = rawGet (.table (s.holder (id :: rest) k)) k s := by
  rw [read, get_bind_apply, chainFuel]
  have hrefuses (hk : k.isKey = false) (id : Nat) : rawGet (.table id) k s = _ :=
    atField_of_not_isKey hk id _ _
  exact follow_of_chain (a := reading k) hrefuses h (length_le_of_chain h) _

theorem write_of_chain (h : s.Chain "__newindex" (id :: rest)) (call : Caller) (k v : Value) :
    write call (.table id) k v s = rawPut (.table (s.holder (id :: rest) k)) k v s := by
  rw [write, get_bind_apply, chainFuel]
  have hrefuses (hk : k.isKey = false) (id : Nat) : rawPut (.table id) k v s = _ :=
    atField_of_not_isKey hk id _ _
  exact follow_of_chain (a := writing k v) hrefuses h (length_le_of_chain h) _

/-- Reading a field of a table whose chain of `__index` ends gives what the first table of the chain
that has the field has there, or `nil`, and changes nothing. Setting a field of a table whose chain
of `__newindex` ends is one raw access: to the first table of the chain that has the field, or else
to the last one. It succeeds and changes no other table. That is so for every key that is equal to
itself, as all but NaN are. What may not be a key, such as a table, is refused at the end of every
chain, and nothing has changed. -/
theorem indexing_ends_at_holder (call : Caller) (s : Store) (id : Nat) (k : Value) :
    (k.isKey = true → k.rawEq k = true →
      (∀ rest, s.Chain "__index" (id :: rest) →
        read call (.table id) k s =
          .ok ((((id :: rest).find? fun i => (s.table i).has k).map fun i =>
            (s.table i).get k).getD .nil) s) ∧
      ∀ rest, s.Chain "__newindex" (id :: rest) → ∀ v,
        write call (.table id) k v s = rawPut (.table (s.holder (id :: rest) k)) k v s ∧
        ∃ t, write call (.table id) k v s = .ok () t ∧
          t.table (s.holder (id :: rest) k) = (s.table (s.holder (id :: rest) k)).put k v ∧
          (∀ j, j ≠ s.holder (id :: rest) k → t.table j = s.table j) ∧
          t.tables.size = s.tables.size ∧ { t with tables := s.tables } = s) ∧
    (k.isKey = false →
      (∀ rest, s.Chain "__index" (id :: rest) →
        read call (.table id) k s = .error (.fault (.unhashable k.kind)) s) ∧
      ∀ rest, s.Chain "__newindex" (id :: rest) → ∀ v,
        write call (.table id) k v s = .error (.fault (.unhashable k.kind)) s) := by
  refine ⟨fun hk _ => ⟨fun rest h => ?_, fun rest h v => ⟨write_of_chain h call k v, ?_⟩⟩,
    fun hk => ⟨fun rest h => ?_, fun rest h v => ?_⟩⟩
  · rw [read_of_chain h, rawGet, atField_of_isKey hk]
    show EStateM.Result.ok _ s = _
    rw [get_holder]
  · have hholder := h.lt_size _ (holder_mem s k (cons_ne_nil id rest))
    obtain ⟨t, hput, hset, hothers, hsize, hrest⟩ := rawPut_of_isKey hholder hk v
    exact ⟨t, (write_of_chain h call k v).trans hput, hset, hothers, hsize, hrest⟩
  · exact (read_of_chain h call k).trans (atField_of_not_isKey hk _ _ _)
  · exact (write_of_chain h call k v).trans (atField_of_not_isKey hk _ _ _)

/-- Three tables, of which the first leads to the second and that to the third, for reading and for
setting. Only the second one has the field `x`. -/
def chainedStore : Store :=
  { tables := #[{ metatable := some (.table 3) },
      { entries := [(.ascii "x", .int 7)], metatable := some (.table 4) }, {},
      { entries := [(.ascii "__index", .table 1), (.ascii "__newindex", .table 1)] },
      { entries := [(.ascii "__index", .table 2), (.ascii "__newindex", .table 2)] }] }

theorem chain_chainedStore {event : String} (h : event = "__index" ∨ event = "__newindex") :
    chainedStore.Chain event [0, 1, 2] := by
  have hzero : chainedStore.LeadsTo event 0 (some (.table 1)) := by
    rcases h with rfl | rfl <;> exact .entry (m := 3) rfl
  have hone : chainedStore.LeadsTo event 1 (some (.table 2)) := by
    rcases h with rfl | rfl <;> exact .entry (m := 4) rfl
  exact .link (by decide) hzero (.link (by decide) hone (.last (by decide) (.nowhere rfl)))

/-- Nothing is called on the way along these tables. -/
theorem chainedStore_field_at_second :
    chainedStore.holder [0, 1, 2] (.ascii "x") = 1 ∧
    read (fun _ _ _ _ => throw .outOfFuel) (.table 0) (.ascii "x") chainedStore =
      .ok (.int 7) chainedStore ∧
    ∃ t, write (fun _ _ _ _ => throw .outOfFuel) (.table 0) (.ascii "x") (.int 9) chainedStore =
        .ok () t ∧
      (t.table 1).get (.ascii "x") = .int 9 ∧ t.table 0 = chainedStore.table 0 := by
  have hholder : chainedStore.holder [0, 1, 2] (.ascii "x") = 1 := rfl
  obtain ⟨hread, hwrite⟩ := (indexing_ends_at_holder (fun _ _ _ _ => throw .outOfFuel) chainedStore 0
    (.ascii "x")).1 rfl rfl
  obtain ⟨-, t, hok, hset, hothers, -⟩ := hwrite [1, 2] (chain_chainedStore (.inr rfl)) (.int 9)
  exact ⟨hholder, hread [1, 2] (chain_chainedStore (.inl rfl)), t, hok,
    (congrArg (Table.get · _) hset).trans rfl, hothers 0 (by decide)⟩

end Index

end LuaInterpreter
