import LuaInterpreter.Proofs.Conversion.ToLua

/-!
# Data to the host and back

A graph of tables that hold data is converted to dictionaries and back to tables. Cycles and shared
tables are allowed. What comes of it is a copy of the tables that can be reached.
-/

namespace LuaInterpreter

open Run Copying Value

/-- The tables that one store has beyond another one are a copy of what can be reached there from a
table. There is one for each, with the number `φ`, and at every key it has what the old one has. -/
structure Store.CopiesGraph (s : Store) (root : Nat) (φ : Nat → Nat) (t : Store) : Prop where
  old : ∀ a < s.tables.size, t.table a = s.table a
  new : ∀ a, s.Leads root a → s.tables.size ≤ φ a ∧ φ a < t.tables.size
  injective : ∀ a b, s.Leads root a → s.Leads root b → φ a = φ b → a = b
  onto : ∀ i, s.tables.size ≤ i → i < t.tables.size → ∃ a, s.Leads root a ∧ φ a = i
  metatable : ∀ a, s.Leads root a → (t.table (φ a)).metatable = none
  get : ∀ a, s.Leads root a → ∀ key,
    (t.table (φ a)).get key = ((s.table a).get key).rename φ
  rest : t = { s with tables := t.tables, objects := t.objects }

namespace Convert

variable {s : Store} {G : Set Nat} {root : Nat} {k : Evaluator}

/-- The conversion to the host makes a dictionary of each table that can be reached. -/
theorem toHost_copies (hG : IsHostGraph s root)
    (hfuel : s.tables.size * (s.width + 2) + 1 ≤ k.fuel) :
    ∃ (φ : Nat → Nat) (objects : Array HostObject),
      toHost k (.table root) s = .ok ((hostRendition s).name (φ root)) { s with objects } ∧
      (∀ a b, s.Leads root a → s.Leads root b → φ a = φ b → a = b) ∧
      ∀ a, s.Leads root a →
        objects[φ a]? = some (.dict ((hostRendition s).entries φ (s.table a).entries)) := by
  obtain ⟨memo, order, objects, hrun, horder, hcopies⟩ :=
    (toHostConversion hG k).copies_reached rfl hfuel
  exact ⟨_, objects, bind_of_ok hrun, fun a b ha _ => number_inj (horder a ha),
    fun a ha => hcopies.done a (horder a ha) List.not_mem_nil⟩

/-- The conversion from the host makes a table of each dictionary that tables have become. -/
theorem toLua_copies (hG : s.IsDataGraph G) (hroot : root ∈ G)
    (hfuel : s.tables.size * (s.width + 2) + 1 ≤ k.fuel) {φ : Nat → Nat}
    {objects : Array HostObject} (hinj : ∀ a b, s.Leads root a → s.Leads root b → φ a = φ b → a = b)
    (hobjects : ∀ a, s.Leads root a →
      objects[φ a]? = some (.dict ((hostRendition s).entries φ (s.table a).entries))) :
    ∃ (ψ : Nat → Nat) (t : Store),
      toLua k ((hostRendition s).name (φ root)) { s with objects } = .ok (.table (ψ root)) t ∧
      s.CopiesGraph root ψ t := by
  obtain ⟨memo, order, tables, hrun, horder, hcopies⟩ :=
    (toLuaConversion (t := { s with objects }) hG hroot hobjects hinj).copies_reached rfl hfuel
  let ψ := (luaRendition.copying (hG.lt_of_leads hroot) s.tables.size).number order
  have hcopy {a : Nat} (ha : s.Leads root a) : ({ s with tables, objects } : Store).table (ψ a) =
      luaRendition.node (luaRendition.entries ψ (s.table a).entries) := by
    rw [Store.table, Array.getD_eq_getD_getElem?, hcopies.done a (horder a ha) List.not_mem_nil]
    rfl
  refine ⟨ψ, { s with tables, objects }, bind_of_ok hrun, ?_⟩
  exact {
    old := by
      intro a ha
      rw [Store.table, Store.table, Array.getD_eq_getD_getElem?, Array.getD_eq_getD_getElem?,
        hcopies.frame a ha nofun]
    new := fun a ha => ⟨Nat.le_add_right _ _, number_lt_size hcopies.ready (horder a ha)⟩
    injective := fun a b ha _ => number_inj (horder a ha)
    onto := by
      intro i hi hlt
      obtain ⟨a, ha, rfl⟩ := exists_number_eq hcopies.ready hi hlt
      exact ⟨a, hcopies.ready.allowed a ha, rfl⟩
    metatable := fun a ha => congrArg Table.metatable (hcopy ha)
    get := fun a ha key => (congrArg (·.get key) (hcopy ha)).trans
      (get_entries (hG.keys a (hG.mem_of_leads hroot ha)) key)
    rest := rfl }

end Convert

/-- To the host and back is the identity on data. Take a graph of tables that hold data, and one of
its tables. With enough fuel, converting it to the host and back gives a table, and what can be
reached from this is a copy of what can be reached from the first one. -/
theorem round_trip_copies_graph {s : Store} {G : Set Nat} {root : Nat} (hG : s.IsDataGraph G)
    (hroot : root ∈ G) : ∃ fuel, ∀ k : Evaluator, fuel ≤ k.fuel →
      ∃ (φ : Nat → Nat) (t : Store),
        (Convert.toHost k (.table root) >>= Convert.toLua k) s = .ok (.table (φ root)) t ∧
        s.CopiesGraph root φ t := by
  refine ⟨s.tables.size * (s.width + 2) + 1, fun k hfuel => ?_⟩
  obtain ⟨φ, objects, hhost, hinj, hobjects⟩ :=
    Convert.toHost_copies (Convert.isHostGraph_of_isDataGraph hG hroot) hfuel
  obtain ⟨ψ, t, hlua, hcopies⟩ := Convert.toLua_copies hG hroot hfuel hinj hobjects
  exact ⟨ψ, t, (bind_of_ok hhost).trans hlua, hcopies⟩

/-- What the first table of `cyclicTables` is made of: itself, the second table twice, and `nil`
under a key that had a value. -/
def cyclicPairs : List (Value × Value) :=
  [(.ascii "self", .table 0), (.bool true, .table 1), (.int 1, .bool false), (.int 1, .nil),
    (.float 0.5, .table 1), (.nil, .float Float.nan)]

/-- What the second one is made of. -/
def mixedPairs : List (Value × Value) := [(.bool false, .table 0), (.int 1, .float 1)]

/-- Two tables that refer to each other, and the first one to itself. -/
def cyclicTables : Store := { tables := #[.ofPairs cyclicPairs, .ofPairs mixedPairs] }

theorem cyclicTables_entries : (cyclicTables.table 0).entries =
    [(.ascii "self", .table 0), (.bool true, .table 1), (.int 1, .nil), (.float 0.5, .table 1),
      (.nil, .float Float.nan)] := rfl

theorem cyclicTables_isDataGraph : cyclicTables.IsDataGraph {0, 1} where
  lt_size := by
    rintro a (rfl | rfl)
    · decide
    · decide
  metatable := by
    rintro a (rfl | rfl)
    · rfl
    · rfl
  keys := by
    have hhalf : (0.5 : Float) ≠ Float.nan := by decide
    rintro a (rfl | rfl)
    · refine Table.hasPlainKeys_ofPairs (h := cyclicPairs) ?_
      simp [cyclicPairs, Value.IsPlainKey, Number.NotNaN, ascii, int, float,
        hhalf]
    · refine Table.hasPlainKeys_ofPairs (h := mixedPairs) ?_
      simp [mixedPairs, Value.IsPlainKey, Number.NotNaN, int]
  apart := by
    rintro a (rfl | rfl) b hb
    · cases b with
      | false | true => rfl
    · cases b with
      | false => rfl
      | true => cases hb
  data := by
    rintro a (rfl | rfl)
    · rw [cyclicTables_entries]
      simp [Value.IsDatum, float]
    · show ∀ e ∈ mixedPairs, e.2.IsDatum {0, 1}
      simp [mixedPairs, Value.IsDatum, float]

/-- The copy of the first table refers to itself, and has the copy of the second one twice. -/
theorem cyclicTables_round_trip :
    cyclicTables.IsDataGraph {0, 1} ∧ ∃ fuel, ∀ k : Evaluator, fuel ≤ k.fuel →
      ∃ (i j : Nat) (t : Store), i ≠ j ∧
        (Convert.toHost k (.table 0) >>= Convert.toLua k) cyclicTables = .ok (.table i) t ∧
        (t.table i).get (.ascii "self") = .table i ∧ (t.table i).get (.bool true) = .table j ∧
        (t.table i).get (.float 0.5) = .table j ∧ (t.table i).get (.int 1) = .nil ∧
        (t.table j).get (.bool false) = .table i ∧ (t.table j).get (.int 1) = .float 1 := by
  obtain ⟨fuel, hfuel⟩ := round_trip_copies_graph cyclicTables_isDataGraph (.inl rfl)
  refine ⟨cyclicTables_isDataGraph, fuel, fun k hk => ?_⟩
  obtain ⟨φ, t, hrun, hcopies⟩ := hfuel k hk
  have hentry : (.bool true, .table 1) ∈ (cyclicTables.table 0).entries := by
    rw [cyclicTables_entries]
    simp
  have hsecond : cyclicTables.Leads 0 1 := .entry .refl hentry
  have hget := hcopies.get 0 .refl
  have hget' := hcopies.get 1 hsecond
  refine ⟨φ 0, φ 1, t, ?_, hrun, hget _, hget _, hget _, hget _, hget' _, hget' _⟩
  exact fun heq => nomatch hcopies.injective 0 1 .refl hsecond heq

end LuaInterpreter
