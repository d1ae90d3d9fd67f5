import LuaInterpreter.Proofs.PlainKey
import LuaInterpreter.Proofs.ProtectedCall

/-!
# Traversals

`next` keeps no place of its own: it looks for the key that it is given and goes on from there. That
is enough as long as keys stay where they are, and no write to a key that is there already moves any,
not even one that sets it to `nil`.
-/

namespace LuaInterpreter

open Run List Table Option Value Store

open Evaluator (withFuel)

namespace Table

variable {t : Table} {k v : Value} {es : List (Value × Value)} {ws : List (Value × Value)}

/-- Entries with keys that are different from each other, none of which is `nil` or NaN. -/
structure Traversable (es : List (Value × Value)) : Prop extends HasPlainKeys es where
  not_nil : ∀ e ∈ es, e.1 ≠ .nil

/-- A key is there already, perhaps in another form. -/
def Keeps (t : Table) (k : Value) : Prop := ∃ key ∈ t.keys, key.rawEq k = true

def putAll (t : Table) (pairs : List (Value × Value)) : Table :=
  pairs.foldl (fun t (k, v) => t.put k v) t

theorem putAll_append (t : Table) (ws ws' : List (Value × Value)) :
    t.putAll (ws ++ ws') = (t.putAll ws).putAll ws' := foldl_append

theorem Traversable.of_keys_eq {es' : List (Value × Value)} (h : Traversable es)
    (hkeys : es'.map Prod.fst = es.map Prod.fst) : Traversable es' where
  toHasPlainKeys := h.toHasPlainKeys.of_keys_eq hkeys
  not_nil := by
    have hnot : ∀ key ∈ es.map Prod.fst, key ≠ .nil := forall_mem_map.mpr h.not_nil
    rw [← hkeys] at hnot
    intro e he
    exact hnot e.1 (mem_map_of_mem he)

section

variable (h : HasPlainKeys t.entries)
include h

theorem HasPlainKeys.isPlainKey_of_mem_keys (hk : k ∈ t.keys) : k.IsPlainKey := by
  obtain ⟨e, he, rfl⟩ := mem_map.mp hk
  exact h.plain e he

theorem Keeps.isPlainKey (hk : t.Keeps k) : k.IsPlainKey := by
  obtain ⟨key, hmem, hkey⟩ := hk
  have hplain := h.isPlainKey_of_mem_keys hmem
  exact isPlainKey_of_rawEq hplain (rawEq_comm_of_isPlainKey hplain ▸ hkey)

theorem keys_put_of_keeps (hk : t.Keeps k) (v : Value) : (t.put k v).keys = t.keys := by
  have hfound : (lookup (keyOf k) t.entries).isSome = true := by
    obtain ⟨key, hmem, hkey⟩ := hk
    obtain ⟨e, he, rfl⟩ := mem_map.mp hmem
    rw [lookup_of_mem h he ((rawEq_keyOf_right (h.plain e he)).trans hkey)]
    rfl
  rw [keys_put, hfound, Bool.or_true, if_pos rfl]

theorem keys_putAll (hws : ∀ w ∈ ws, t.Keeps w.1) : (t.putAll ws).keys = t.keys := by
  induction ws generalizing t with
  | nil => rfl
  | cons w ws ih =>
    obtain ⟨hw, hws⟩ := forall_mem_cons.mp hws
    have hkeys := keys_put_of_keeps h hw w.2
    refine (ih (h.of_keys_eq hkeys) fun w' hw' => ?_).trans hkeys
    rw [Keeps, hkeys]
    exact hws w' hw'

variable {e : Value × Value} {j : Value}

theorem get_of_mem (he : e ∈ t.entries) (hj : e.1.rawEq j = true) : t.get j = e.2 := by
  rw [get, lookup_of_mem h he hj, getD_some]

theorem get_key_of_mem (he : e ∈ t.entries) : t.get e.1 = e.2 :=
  get_of_mem h he ((rawEq_iff_of_isPlainKey (h.plain e he)).mpr rfl)

omit h in
theorem exists_mem_of_get_ne_nil (h : t.get j ≠ .nil) : ∃ e ∈ t.entries, e.1.rawEq j = true := by
  by_contra hnone
  refine h ?_
  rw [get, lookup_eq_none_iff.mpr fun e he => Bool.eq_false_iff.mpr fun hj => hnone ⟨e, he, hj⟩]
  rfl

theorem get_eq_of_rawEq (hk : k.IsPlainKey) (hj : k.rawEq j = true) (hset : t.get j ≠ .nil) :
    t.get k = t.get j := by
  obtain ⟨e, he, hej⟩ := exists_mem_of_get_ne_nil hset
  rw [get_of_mem h he hej, get_of_mem h he (rawEq_of_rawEq hk hej hj)]

end

theorem countP_rawEq {l : List Value} (hplain : ∀ k ∈ l, k.IsPlainKey)
    (hdistinct : l.Pairwise fun a b => a.rawEq b = false) (hk : k ∈ l) (hj : k.rawEq j = true) :
    l.countP (·.rawEq j) = 1 := by
  induction l with
  | nil => cases hk
  | cons a l ih =>
    obtain ⟨hfirst, hrest⟩ := pairwise_cons.mp hdistinct
    obtain ⟨ha, hl⟩ := forall_mem_cons.mp hplain
    have hother (b : Value) (hb : b ∈ l) (haj : a.rawEq j = true) : ¬b.rawEq j = true := by
      intro hbj
      have hsame := rawEq_of_rawEq (hl b hb) haj hbj
      rw [hfirst b hb] at hsame
      cases hsame
    rcases mem_cons.mp hk with rfl | hk
    · rw [countP_cons, hj, countP_eq_zero.mpr fun b hb => hother b hb hj]
      rfl
    · rw [countP_cons, if_neg fun haj => hother k hk haj hj, ih hl hrest hk]

end Table

/-! ## One step -/

namespace BasicLibrary

variable {t u : Table} {key k v : Value} {es later : List (Value × Value)}

def isSet (e : Value × Value) : Bool := !e.2.isNil

/-- The entries behind a key; `nil` stands before all of them. -/
def ahead (t : Table) (key : Value) : List (Value × Value) :=
  if key.isNil then t.entries else entriesAfter key t.entries

/-- The entries that a traversal comes to from a key on, if the table is left as it is. -/
def upcoming (t : Table) (key : Value) : List (Value × Value) :=
  if key.isNil then t.entries.take 1 ++ (t.entries.drop 1).filter isSet
  else (entriesAfter key t.entries).filter isSet

def given : List (Value × Value) → List Value
  | [] => [.nil]
  | (k, v) :: _ => [k, v]

theorem firstEntry_eq (es : List (Value × Value)) : firstEntry es = given (es.filter isSet) := by
  have hhead : es.find? (fun e => !e.2.isNil) = (es.filter isSet).head? := List.head?_filter.symm
  unfold firstEntry
  rw [hhead]
  cases es.filter isSet <;> rfl

theorem next_eq (t : Table) (key : Value) : next t key = given (upcoming t key) := by
  cases key with
  | nil =>
    obtain ⟨_ | ⟨e, es⟩, _⟩ := t
    · rfl
    · rfl
  | _ => exact firstEntry_eq _

theorem entriesAfter_suffix (key : Value) (es : List (Value × Value)) :
    entriesAfter key es <:+ es := by
  induction es with
  | nil => exact suffix_rfl
  | cons e es ih =>
    rw [entriesAfter]
    split
    · exact suffix_cons e es
    · exact ih.trans (suffix_cons e es)

theorem ahead_suffix (t : Table) (key : Value) : ahead t key <:+ t.entries := by
  unfold ahead
  split
  · exact suffix_rfl
  · exact entriesAfter_suffix key t.entries

variable {before : List (Value × Value)}

theorem entriesAfter_append (h : Table.HasPlainKeys (before ++ (k, v) :: es)) :
    entriesAfter k (before ++ (k, v) :: es) = es := by
  have hk : k.IsPlainKey := h.plain (k, v) (by simp)
  induction before with
  | nil => exact if_pos ((rawEq_iff_of_isPlainKey hk).mpr rfl)
  | cons e before ih =>
    have hne : e.1.rawEq k = false :=
      (pairwise_cons.mp h.distinct).1 (k, v) (by simp)
    rw [cons_append, entriesAfter, hne]
    exact ih h.tail

theorem ahead_of_split (ht : Table.Traversable t.entries)
    (hsplit : t.entries = before ++ (k, v) :: es) : ahead t k = es := by
  have hk : k.isNil = false :=
    isNil_eq_false_iff.mpr (ht.not_nil (k, v) (by simp [hsplit]))
  rw [ahead, hk, hsplit]
  exact entriesAfter_append (hsplit ▸ ht.toHasPlainKeys)

theorem ahead_of_upcoming_nil (h : upcoming t key = []) : ∀ e ∈ ahead t key, e.2 = .nil := by
  intro e he
  unfold upcoming at h
  unfold ahead at he
  split at h
  · next hnil =>
    rw [if_pos hnil] at he
    have hempty : t.entries.take 1 = [] := (append_eq_nil_iff.mp h).1
    rw [take_eq_nil_iff] at hempty
    rw [hempty.resolve_left Nat.one_ne_zero] at he
    cases he
  · next hkey =>
    rw [if_neg hkey] at he
    have hunset := filter_eq_nil_iff.mp h e he
    simpa [isSet, isNil_iff] using hunset

/-- What a traversal comes to first lies ahead, behind nothing but `nil`. -/
theorem ahead_of_upcoming_cons (h : upcoming t key = (k, v) :: later) :
    ∃ skipped rest, ahead t key = skipped ++ (k, v) :: rest ∧ (∀ e ∈ skipped, e.2 = .nil) ∧
      rest.filter isSet = later := by
  unfold upcoming at h
  unfold ahead
  split at h
  · next hnil =>
    rw [if_pos hnil]
    cases hentries : t.entries with
    | nil =>
      rw [hentries] at h
      cases h
    | cons e es =>
      rw [hentries] at h
      cases h
      exact ⟨[], es, rfl, nofun, rfl⟩
  · next hkey =>
    rw [if_neg hkey]
    obtain ⟨skipped, rest, hsplit, hskipped, -, hlater⟩ := filter_eq_cons_iff.mp h
    refine ⟨skipped, rest, hsplit, fun e he => ?_, hlater⟩
    simpa [isSet, isNil_iff] using hskipped e he

theorem mem_of_upcoming_cons (h : upcoming t key = (k, v) :: later) : (k, v) ∈ t.entries := by
  obtain ⟨skipped, rest, hahead, -⟩ := ahead_of_upcoming_cons h
  exact (ahead_suffix t key).subset (by simp [hahead])

/-- At the key that it has come to, a traversal has the same entries ahead as before, but for those
that it has passed. -/
theorem ahead_next (ht : Table.Traversable t.entries) {skipped rest : List (Value × Value)}
    (h : ahead t key = skipped ++ (k, v) :: rest) : ahead t k = rest := by
  obtain ⟨before, hbefore⟩ := ahead_suffix t key
  rw [h, ← append_assoc] at hbefore
  exact ahead_of_split ht hbefore.symm

theorem upcoming_next (ht : Table.Traversable t.entries) (h : upcoming t key = (k, v) :: later) :
    upcoming t k = later := by
  obtain ⟨skipped, rest, hahead, -, hlater⟩ := ahead_of_upcoming_cons h
  have hrest := ahead_next ht hahead
  have hk : k.isNil = false :=
    isNil_eq_false_iff.mpr (ht.not_nil (k, v) (mem_of_upcoming_cons h))
  rw [ahead, hk] at hrest
  rw [upcoming, hk, ← hlater, ← hrest]
  rfl

theorem keys_entriesAfter_of_keys_eq {es es' : List (Value × Value)}
    (h : es.map Prod.fst = es'.map Prod.fst) (key : Value) :
    (entriesAfter key es).map Prod.fst = (entriesAfter key es').map Prod.fst := by
  induction es generalizing es' with
  | nil =>
    cases es' with
    | nil => rfl
    | cons e' es' => cases h
  | cons e es ih =>
    cases es' with
    | nil => cases h
    | cons e' es' =>
      rw [map_cons, map_cons, List.cons.injEq] at h
      rw [entriesAfter, entriesAfter, h.1]
      split
      · exact h.2
      · exact ih h.2

theorem keys_ahead_of_keys_eq (h : t.keys = u.keys) (key : Value) :
    (ahead t key).map Prod.fst = (ahead u key).map Prod.fst := by
  unfold ahead
  split
  · exact h
  · exact keys_entriesAfter_of_keys_eq h key

end BasicLibrary

/-! ## A run of steps -/

def Run.rawPutAll (v : Value) : List (Value × Value) → Run Unit
  | [] => pure ()
  | (key, value) :: rest => do
    rawPut v key value
    rawPutAll v rest

/-- Calls `next` with the key that it gave last, until it gives `nil`, and gives all keys. Between
two calls the next list of writes is carried out; where there is none, the traversal is left off. -/
def traverse (call : Caller) (next v key : Value) : List (List (Value × Value)) → Run (List Value)
  | [] => return []
  | writes :: later => do
    let found := (← call next [.one v, .one key] none true).single
    if found.isNil then return []
    rawPutAll v writes
    return found :: (← traverse call next v found later)

section

open BasicLibrary

variable {n id f : Nat} {s t : Store} {ws : List (Value × Value)}
  {writes : List (List (Value × Value))}

theorem Store.table_modify (s : Store) (id : Nat) (g : Table → Table) (hid : id < s.tables.size) :
    table { s with tables := s.tables.modify id g } id = g (s.table id) := by
  simp only [table, Array.getD_eq_getD_getElem?, Array.getElem?_modify,
    Array.getElem?_eq_getElem hid, if_true, map_some, getD_some]

variable {k : Value}

theorem Store.lt_size_of_keeps (h : (s.table id).Keeps k) : id < s.tables.size := by
  by_contra hid
  obtain ⟨key, hkey, -⟩ := h
  simp [table, hid, Table.keys] at hkey

theorem Run.rawPut_of_keeps (h : Table.HasPlainKeys (s.table id).entries)
    (hk : (s.table id).Keeps k) (v : Value) :
    ∃ t, rawPut (.table id) k v s = .ok () t ∧ t.table id = (s.table id).put k v ∧
      t.functions = s.functions := by
  have hkey : requireKey k s = .ok () s := by
    rw [requireKey, isKey_of_isPlainKey (hk.isPlainKey h)]
    rfl
  exact ⟨_, bind_of_ok hkey, table_modify s id _ (lt_size_of_keeps hk), rfl⟩

theorem Run.rawPutAll_of_keeps (h : Table.HasPlainKeys (s.table id).entries)
    (hws : ∀ w ∈ ws, (s.table id).Keeps w.1) :
    ∃ t, rawPutAll (.table id) ws s = .ok () t ∧ t.table id = (s.table id).putAll ws ∧
      t.functions = s.functions := by
  induction ws generalizing s with
  | nil => exact ⟨s, rfl, rfl, rfl⟩
  | cons w ws ih =>
    obtain ⟨hw, hws⟩ := forall_mem_cons.mp hws
    have hkeys := keys_put_of_keeps h hw w.2
    obtain ⟨t, hput, htable, hfunctions⟩ := rawPut_of_keeps h hw w.2
    rw [← htable] at hkeys
    obtain ⟨u, hrest, hrests, hkept⟩ := ih (h.of_keys_eq hkeys) fun w' hw' => by
      rw [Table.Keeps, hkeys]
      exact hws w' hw'
    rw [htable] at hrests
    exact ⟨u, (bind_of_ok hput).trans hrest, hrests, hkept.trans hfunctions⟩

theorem call_next (hf : s.function? f = some (.ofBuiltin .next)) (id : Nat) (key : Value)
    (scope : Option Nat) (traced : Bool) :
    (withFuel (n + 1)).call (.func f) [.one (.table id), .one key] scope traced s =
      .ok (.ofList (next (s.table id) key)) s :=
  Eval.call_builtin_of_ok hf rfl

/-- From a key on, a traversal gives keys that are ahead, in their order, and no key is left out
whose value is never `nil` when `next` is called. The induction is on the lists of writes; what is
ahead of the key that the next call starts with does not depend on what has been written. -/
theorem traverse_ahead (hf : s.function? f = some (.ofBuiltin .next)) (key : Value)
    (h : Table.Traversable (s.table id).entries)
    (hwrites : ∀ ws ∈ writes, ∀ w ∈ ws, (s.table id).Keeps w.1) :
    ∃ keys t, traverse (withFuel (n + 1)).call (.func f) (.table id) key writes s = .ok keys t ∧
      t.table id = (s.table id).putAll (writes.take keys.length).flatten ∧
      keys.Sublist ((ahead (s.table id) key).map Prod.fst) ∧
      (keys.length < writes.length → ∀ e ∈ (ahead (s.table id) key).map Prod.fst,
        (∀ i ≤ keys.length, ((s.table id).putAll (writes.take i).flatten).get e ≠ .nil) →
        e ∈ keys) := by
  induction writes generalizing s key with
  | nil => exact ⟨[], s, rfl, rfl, nil_sublist _, fun hlt => absurd hlt (Nat.lt_irrefl 0)⟩
  | cons ws writes ih =>
    obtain ⟨hws, hwrites⟩ := forall_mem_cons.mp hwrites
    have hcall := call_next (n := n) hf id key none true
    rw [next_eq] at hcall
    -- Entries ahead that have `nil` now need not be given.
    have hunset : ∀ e ∈ ahead (s.table id) key, e.2 = .nil → (s.table id).get e.1 = .nil :=
      fun e he hnil => hnil ▸
        get_key_of_mem h.toHasPlainKeys ((ahead_suffix _ _).subset he)
    cases hupcoming : upcoming (s.table id) key with
    | nil =>
      rw [hupcoming] at hcall
      refine ⟨[], s, bind_of_ok hcall, rfl, nil_sublist _, fun _ e he hset => ?_⟩
      obtain ⟨entry, hentry, rfl⟩ := mem_map.mp he
      have hnil := ahead_of_upcoming_nil hupcoming entry hentry
      exact absurd (hunset entry hentry hnil) (hset 0 (Nat.zero_le _))
    | cons entry later =>
      obtain ⟨found, v⟩ := entry
      rw [hupcoming] at hcall
      obtain ⟨skipped, rest, hahead, hskipped, -⟩ :=
        ahead_of_upcoming_cons hupcoming
      have hfound : found.isNil = false := isNil_eq_false_iff.mpr
        (h.not_nil (found, v) (mem_of_upcoming_cons hupcoming))
      obtain ⟨t, hput, htable, hfunctions⟩ := rawPutAll_of_keeps h.toHasPlainKeys hws
      have hkeys : (t.table id).keys = (s.table id).keys :=
        htable ▸ keys_putAll h.toHasPlainKeys hws
      have hf' : t.function? f = some (.ofBuiltin .next) := by
        rw [function?, hfunctions]
        exact hf
      obtain ⟨keys, u, hrun, hafter, hsub, hall⟩ := ih hf' found (h.of_keys_eq hkeys)
        fun ws' hws' w hw => by
          rw [Table.Keeps, hkeys]
          exact hwrites ws' hws' w hw
      rw [keys_ahead_of_keys_eq hkeys, ahead_next h hahead] at hsub hall
      rw [htable] at hafter hall
      refine ⟨found :: keys, u, ?_, ?_, ?_, ?_⟩
      · rw [traverse, bind_of_ok hcall]
        simp only [given, Results.ofList, map_cons, Results.single, hfound]
        exact (bind_of_ok hput).trans (bind_of_ok hrun)
      · rw [hafter, length_cons, take_succ_cons, flatten_cons, putAll_append]
      · rw [hahead, map_append, map_cons]
        exact (hsub.cons_cons found).trans (sublist_append_right _ _)
      · intro hlt e he hset
        rw [hahead, map_append, mem_append, map_cons, mem_cons] at he
        rcases he with he | rfl | he
        · obtain ⟨entry, hentry, rfl⟩ := mem_map.mp he
          have hmem : entry ∈ ahead (s.table id) key := by simp [hahead, hentry]
          exact absurd (hunset entry hmem (hskipped entry hentry)) (hset 0 (Nat.zero_le _))
        · exact mem_cons_self
        · refine mem_cons_of_mem _ (hall (Nat.lt_of_succ_lt_succ hlt) e he fun i hi => ?_)
          have hlater := hset (i + 1) (Nat.succ_le_succ hi)
          rwa [take_succ_cons, flatten_cons, putAll_append] at hlater

end

/-! ## Traversals of a table -/

/-- A traversal survives writes to keys that the table has already. Let `next` be called with a
table whose keys are neither `nil` nor NaN, first with `nil` and then with the key it gave last,
until it gives `nil`, and let any values be put under keys of the table between the calls. No call
fails. The keys that are given are keys of the table in their order, and no two of them are equal,
so there are no more of them than the table has entries. When `nil` has been given, every key whose
value was not `nil` at any of the calls has been given exactly once. -/
theorem traversal_survives_writes {n id f : Nat} {s : Store}
    {writes : List (List (Value × Value))} (hf : s.function? f = some (.ofBuiltin .next))
    (h : Table.Traversable (s.table id).entries)
    (hwrites : ∀ ws ∈ writes, ∀ w ∈ ws, (s.table id).Keeps w.1) :
    ∃ keys t, traverse (withFuel (n + 1)).call (.func f) (.table id) .nil writes s = .ok keys t ∧
      t.table id = (s.table id).putAll (writes.take keys.length).flatten ∧
      keys.Sublist (s.table id).keys ∧ keys.Pairwise (fun a b => a.rawEq b = false) ∧
      keys.length ≤ (s.table id).entries.length ∧
      (keys.length < writes.length → ∀ k,
        (∀ i ≤ keys.length, ((s.table id).putAll (writes.take i).flatten).get k ≠ .nil) →
        keys.countP (·.rawEq k) = 1) := by
  obtain ⟨keys, t, hrun, htable, hsub, hall⟩ := traverse_ahead (n := n) hf .nil h hwrites
  have hdistinct : (s.table id).keys.Pairwise fun a b => a.rawEq b = false :=
    pairwise_map.mpr h.distinct
  refine ⟨keys, t, hrun, htable, hsub, hdistinct.sublist hsub, ?_, fun hlt k hset => ?_⟩
  · exact hsub.length_le.trans (Nat.le_of_eq (length_map _))
  · obtain ⟨e, he, hek⟩ := exists_mem_of_get_ne_nil (hset 0 (Nat.zero_le _))
    have hplain := h.plain e he
    refine countP_rawEq (fun k hk => h.isPlainKey_of_mem_keys (hsub.subset hk))
      (hdistinct.sublist hsub) (hall hlt e.1 (mem_map_of_mem he) fun i hi => ?_) hek
    have hkeys : ((s.table id).putAll (writes.take i).flatten).keys = (s.table id).keys := by
      refine keys_putAll h.toHasPlainKeys fun w hw => ?_
      obtain ⟨ws, hws, hw⟩ := mem_flatten.mp hw
      exact hwrites ws (mem_of_mem_take hws) w hw
    rw [get_eq_of_rawEq (h.toHasPlainKeys.of_keys_eq hkeys) hplain hek (hset i hi)]
    exact hset i hi

/-- A store with the library and a table with the keys `"a"`, `1` and `true`. -/
def traversedStore : Store :=
  { tables := #[{ entries := [(.str [97], .int 1), (.int 1, .int 2), (.bool true, .int 3)] }]
    functions := (Builtin.all.map Function.ofBuiltin).toArray }

/-- At `"a"` this key and `1.0` are set to `nil`, and at the next key `"a"` is set again. -/
def clearingWrites : List (List (Value × Value)) :=
  [[(.str [97], .nil), (.num (.float (Float.ofBits 0x3FF0000000000000)), .nil)],
    [(.str [97], .int 7)], []]

/-- A traversal that clears the key it is at and the one behind it still gives the last one. -/
theorem clearingWrites_traversed :
    ∃ keys t, traverse (withFuel 1).call (.func Builtin.next.number) (.table 0) .nil clearingWrites
        traversedStore = .ok keys t ∧ keys = [.str [97], .bool true] ∧
      (t.table 0).get (.str [97]) = .int 7 ∧ keys.countP (·.rawEq (.bool true)) = 1 := by
  have hplain : Table.Traversable (traversedStore.table 0).entries := by
    refine ⟨⟨?_, ?_⟩, ?_⟩
    · simp [traversedStore, Store.table, Value.IsPlainKey, int, Number.NotNaN]
    · simp [traversedStore, Store.table, rawEq, int]
    · simp [traversedStore, Store.table, int]
  have ha : (traversedStore.table 0).Keeps (.str [97]) := ⟨_, mem_cons_self, rfl⟩
  have hone : (traversedStore.table 0).Keeps (.num (.float (Float.ofBits 0x3FF0000000000000))) :=
    ⟨.int 1, mem_cons_of_mem _ mem_cons_self, by decide⟩
  have hwrites : ∀ ws ∈ clearingWrites, ∀ w ∈ ws, (traversedStore.table 0).Keeps w.1 := by
    simp only [clearingWrites, forall_mem_cons, not_mem_nil, false_implies, implies_true,
      and_true]
    exact ⟨⟨ha, hone⟩, ha⟩
  obtain ⟨keys, t, hrun, htable, -, -, -, hall⟩ :=
    traversal_survives_writes (n := 0) (f := Builtin.next.number) rfl hplain hwrites
  obtain ⟨u, hkeys⟩ : ∃ u, traverse (withFuel 1).call (.func Builtin.next.number) (.table 0) .nil
      clearingWrites traversedStore = .ok [.str [97], .bool true] u := ⟨_, rfl⟩
  cases hkeys.symm.trans hrun
  refine ⟨_, t, hrun, rfl, htable ▸ rfl, hall (by decide) (.bool true) fun i hi => ?_⟩
  have hset : ((traversedStore.table 0).putAll (clearingWrites.take i).flatten).get (.bool true) =
      .int 3 := by
    rw [length_cons, length_singleton] at hi
    obtain rfl | rfl | rfl : i = 0 ∨ i = 1 ∨ i = 2 := by omega
    all_goals rfl
  intro hnil
  cases hset.symm.trans hnil

end LuaInterpreter
