import LuaInterpreter.Proofs.RoundTrip

/-!
# What the host gets

Tables without metatables become dictionaries, and functions become callables. Two things stand in
the way: a function statement gives its function a string for a name, where the host wants a text,
and the host takes a boolean and its number for one key.
-/

namespace LuaInterpreter

open Run

namespace Convert

variable {s : Store} {k : Evaluator}

theorem toHost_of_isHostable {v : Value} (hv : IsHostable s v) :
    toHost k v s = .ok (hostOf s id v) s :=
  bind_of_ok (s := s) (toHostFrom_of_not_table hv)

/-- The host refuses a function whose name is a string of the language. -/
theorem toHost_of_string {f : Nat} {name : Bytes}
    (hname : (s.function? f).bind (·.name) = some (.string name)) :
    toHost k (.func f) s = .error (.fault .nameNotText) s := by
  have hfails : Run.ofExcept (hostName ((s.function? f).bind (·.name))) s =
      .error (.fault .nameNotText) s := by
    rw [hname]
    rfl
  refine bind_of_error ?_
  rw [toHostFrom, get_bind_apply]
  exact bind_of_error hfails

/-- A dictionary gets a new entry only for a key that is not the same as one that it has. -/
theorem length_putEntry (key value : HostValue) (entries : List (HostValue × HostValue)) :
    (putEntry key value entries).length =
      if entries.any (fun e => sameKey e.1 key) then entries.length else entries.length + 1 := by
  induction entries with
  | nil => rfl
  | cons e rest ih =>
    rw [putEntry, List.any_cons]
    cases he : sameKey e.1 key with
    | true => rfl
    | false =>
      rw [if_neg Bool.false_ne_true, List.length_cons, ih, Bool.false_or]
      split <;> rfl

/-- Where nothing stands in the way, nothing is lost. Take a table from which only tables without
metatables can be reached, with keys that the host keeps apart and values that it can take. With
enough fuel, each of these tables becomes a dictionary of its own, with one entry for each key that
has a value, and no two keys are the same to the host. A function whose name is a string is refused.
A boolean and its number are the same key, and of two such keys a dictionary has one. -/
theorem hostable_tables_become_dictionaries {s : Store} {root : Nat} (hG : IsHostGraph s root) :
    (∃ fuel, ∀ k : Evaluator, fuel ≤ k.fuel → ∃ (φ : Nat → Nat) (objects : Array HostObject),
      toHost k (.table root) s = .ok (.plain (.object (φ root))) { s with objects } ∧
      (∀ a b, s.Leads root a → s.Leads root b → φ a = φ b → a = b) ∧
      ∀ a, s.Leads root a → ∃ entries, objects[φ a]? = some (.dict entries) ∧
        entries = (Table.live (s.table a).entries).map
          (fun e => (hostOf s id e.1, hostOf s φ e.2)) ∧
        (entries.map Prod.fst).Pairwise fun j key => sameKey j key = false) ∧
    (∀ k v, IsHostable s v → toHost k v s = .ok (hostOf s id v) s) ∧
    (∀ k f name, (s.function? f).bind (·.name) = some (.string name) →
      toHost k (.func f) s = .error (.fault .nameNotText) s) ∧
    (∀ b n, sameKey (hostOf s id (.bool b)) (hostOf s id (.num n)) =
      Number.eq (.int (if b then 1 else 0)) n) ∧
    ∀ key value entries, (putEntry key value entries).length =
      if entries.any (fun e => sameKey e.1 key) then entries.length else entries.length + 1 := by
  refine ⟨⟨s.tables.size * (s.width + 2) + 1, fun k hfuel => ?_⟩, fun k v => toHost_of_isHostable,
    fun k f name => toHost_of_string, fun b n => sameKey_bool_num.1, length_putEntry⟩
  obtain ⟨φ, objects, hrun, hinj, hdicts⟩ := toHost_copies hG hfuel
  refine ⟨φ, objects, hrun, hinj, fun a ha => ⟨_, hdicts a ha, rfl, ?_⟩⟩
  have hdistinct := distinct_hostEntries (s := s) (hG.keys a ha) (hG.apart a ha)
  rw [Rendition.entries, List.map_map] at hdistinct ⊢
  exact hdistinct

/-- The tables of `cyclicTables`, and a function with the name `f` as a function statement gives
it. -/
def namedFunction : Store :=
  { cyclicTables with
    functions := #[{ params := [], variadic := false, scope := none, code := .block default,
                     name := some (.string [102]) }] }

/-- The tables become dictionaries, but the function is refused. -/
theorem namedFunction_is_refused : IsHostGraph namedFunction 0 ∧
    (∃ fuel, ∀ k : Evaluator, fuel ≤ k.fuel → ∃ d t,
      toHost k (.table 0) namedFunction = .ok (.plain (.object d)) t) ∧
    ∀ k, toHost k (.func 0) namedFunction = .error (.fault .nameNotText) namedFunction := by
  have hG : namedFunction.IsDataGraph {0, 1} :=
    ⟨cyclicTables_isDataGraph.lt_size, cyclicTables_isDataGraph.metatable,
      cyclicTables_isDataGraph.keys, cyclicTables_isDataGraph.apart, cyclicTables_isDataGraph.data⟩
  have hhost := isHostGraph_of_isDataGraph hG (.inl rfl)
  obtain ⟨⟨fuel, hfuel⟩, -, hrefused, -⟩ := hostable_tables_become_dictionaries hhost
  refine ⟨hhost, ⟨fuel, fun k hk => ?_⟩, fun k => hrefused k 0 [102] rfl⟩
  obtain ⟨φ, objects, hrun, -⟩ := hfuel k hk
  exact ⟨_, _, hrun⟩

end Convert

end LuaInterpreter
