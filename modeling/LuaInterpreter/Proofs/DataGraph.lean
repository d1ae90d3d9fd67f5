import LuaInterpreter.Proofs.GraphCopy
import LuaInterpreter.Proofs.PlainKey
import LuaInterpreter.Store.Basic

/-!
# Graphs of tables that hold data

Tables without metatables whose keys and values are data, and other such tables as values. Cycles
and shared tables are allowed.
-/

namespace LuaInterpreter

open List Copying

/-! ## Graphs -/

def Value.rename (φ : Nat → Nat) : Value → Value
  | .table a => .table (φ a)
  | v => v

/-- Data: `nil`, booleans, numbers, strings, and the tables of a graph. -/
def Value.IsDatum (G : Set Nat) : Value → Prop
  | .nil | .bool _ | .num _ | .str _ => True
  | .table a => a ∈ G
  | _ => False

/-- A table of a graph, or a value of another kind that is taken as it is. -/
def Value.Within (Plain : Value → Prop) (G : Set Nat) (v : Value) : Prop :=
  (∃ a ∈ G, v = .table a) ∨ Plain v ∧ ∀ a, v ≠ .table a

theorem Value.IsDatum.within {G : Set Nat} {v : Value} (h : v.IsDatum G) :
    v.Within (IsDatum ∅) G := by
  cases v with
  | table a => exact .inl ⟨a, h, rfl⟩
  | _ => exact .inr ⟨h, nofun⟩

/-- Tables without metatables that hold data. Their keys are `nil`, booleans, strings and numbers
that are not NaN. No table has values under both a boolean and the number that the host counts as
the same key. -/
structure Store.IsDataGraph (s : Store) (G : Set Nat) : Prop where
  lt_size : ∀ a ∈ G, a < s.tables.size
  metatable : ∀ a ∈ G, (s.table a).metatable = none
  keys : ∀ a ∈ G, Table.HasPlainKeys (s.table a).entries
  apart : ∀ a ∈ G, ∀ b : Bool, (s.table a).has (.bool b) = true →
    (s.table a).has (.int (if b then 1 else 0)) = false
  data : ∀ a ∈ G, ∀ e ∈ (s.table a).entries, e.2.IsDatum G

/-- Entries lead from one table to another. -/
inductive Store.Leads (s : Store) (root : Nat) : Nat → Prop
  | refl : s.Leads root root
  | entry {a b : Nat} {key : Value} :
      s.Leads root a → (key, .table b) ∈ (s.table a).entries → s.Leads root b

namespace Table

/-- The tables that entries lead to. -/
def references (es : List (Value × Value)) : List Nat :=
  es.filterMap fun e =>
    match e.2 with
    | .table a => some a
    | _ => none

variable {es : List (Value × Value)} {a : Nat}

theorem mem_references : a ∈ references es ↔ ∃ key, (key, .table a) ∈ es := by
  rw [references, mem_filterMap]
  constructor
  · rintro ⟨⟨key, value⟩, he, hvalue⟩
    cases value with
    | table b =>
      cases hvalue
      exact ⟨key, he⟩
    | _ => cases hvalue
  · rintro ⟨key, he⟩
    exact ⟨(key, .table a), he, rfl⟩

theorem mem_references_cons {e : Value × Value} :
    a ∈ references (e :: es) ↔ e.2 = .table a ∨ a ∈ references es := by
  simp only [mem_references, mem_cons, exists_or]
  refine or_congr_left ⟨?_, fun h => ⟨e.1, by rw [← h]⟩⟩
  rintro ⟨key, rfl⟩
  rfl

end Table

section

variable {s : Store} {G : Set Nat} {root : Nat}

variable {a : Nat}

theorem Store.IsDataGraph.mem_of_leads (hG : s.IsDataGraph G) (hroot : root ∈ G)
    (h : s.Leads root a) : a ∈ G := by
  induction h with
  | refl => exact hroot
  | entry _ he ih => exact hG.data _ ih _ he

theorem Store.IsDataGraph.lt_of_leads (hG : s.IsDataGraph G) (hroot : root ∈ G) (a : Nat)
    (h : s.Leads root a) : a < s.tables.size :=
  hG.lt_size a (hG.mem_of_leads hroot h)

theorem Store.IsDataGraph.isDatum_of_leads (hG : s.IsDataGraph G) (hroot : root ∈ G)
    (ha : s.Leads root a) {e : Value × Value} (he : e ∈ (s.table a).entries) :
    e.2.IsDatum {b | s.Leads root b} := by
  obtain ⟨key, value⟩ := e
  have hdatum := hG.data a (hG.mem_of_leads hroot ha) _ he
  cases value with
  | table b => exact ha.entry he
  | _ => exact hdatum

/-- No table has more entries. -/
def Store.width (s : Store) : Nat :=
  (Finset.range s.tables.size).sup fun a => (s.table a).entries.length

theorem Store.length_le_width (s : Store) (a : Nat) (ha : a < s.tables.size) :
    (s.table a).entries.length ≤ s.width :=
  Finset.le_sup (f := fun a => (s.table a).entries.length) (Finset.mem_range.mpr ha)

end

/-! ## Conversions -/

def Table.live (es : List (Value × Value)) : List (Value × Value) := es.filter fun e => !e.2.isNil

/-- What keys and values become, given the numbers of the copies, and what all the entries of a
table become. -/
structure Rendition (β T : Type) where
  key : Value → β
  value : (Nat → Nat) → Value → β
  node : List (β × β) → T
  value_table : ∀ φ a, value φ (.table a) = value id (.table (φ a))
  value_congr : ∀ φ ψ v, (∀ a, v = .table a → φ a = ψ a) → value φ v = value ψ v

variable {β T : Type} {r : Rendition β T} {s : Store} {G : Set Nat} {root : Nat} {φ ψ : Nat → Nat}
  {e : Value × Value} {es : List (Value × Value)}

namespace Rendition

def entries (r : Rendition β T) (φ : Nat → Nat) (es : List (Value × Value)) : List (β × β) :=
  (Table.live es).map fun e => (r.key e.1, r.value φ e.2)

def name (r : Rendition β T) (i : Nat) : β := r.value id (.table i)

theorem entries_congr (h : ∀ a ∈ Table.references es, φ a = ψ a) :
    r.entries φ es = r.entries ψ es := by
  refine map_congr_left fun e he => Prod.ext rfl (r.value_congr _ _ _ fun a ha => ?_)
  exact h a (Table.mem_references.mpr ⟨e.1, ha ▸ mem_of_mem_filter he⟩)

theorem entries_cons_of_isNil (he : e.2.isNil = true) : r.entries φ (e :: es) = r.entries φ es := by
  simp [entries, Table.live, he]

theorem entries_cons (he : e.2.isNil = false) :
    r.entries φ (e :: es) = (r.key e.1, r.value φ e.2) :: r.entries φ es := by
  simp [entries, Table.live, he]

/-- The part of a graph that can be reached, to be copied into cells. -/
def copying (r : Rendition β T) (hsize : ∀ a, s.Leads root a → a < s.tables.size) (base : Nat) :
    Copying T where
  base := base
  Allowed := s.Leads root
  count := s.tables.size
  lt_count := hsize
  children := fun a => Table.references (s.table a).entries
  width := s.width
  image := fun φ a => r.node (r.entries φ (s.table a).entries)
  image_congr := fun _ _ _ h => congrArg r.node (entries_congr h)

end Rendition

/-- A conversion of values, which gives each table that it comes to a cell of its own and then fills
in what the entries of the table become. -/
structure Conversion (r : Rendition β T) (c : Copying T) where
  store : Array T → Store
  convert : Nat → List (Nat × β) → Value → Run (β × List (Nat × β))
  fill : Nat → Nat → List (Nat × β) → List (Value × Value) → Run (List (Nat × β))
  /-- What a table is remembered by. -/
  memoKey : Nat → Nat
  memoKey_inj : ∀ a b, c.Allowed a → c.Allowed b → memoKey a = memoKey b → a = b
  /-- Keys that would be taken for the same. -/
  same : β → β → Bool
  /-- What is converted at once. -/
  Plain : Value → Prop
  /-- The entries of a table that the conversion comes to, and which ones these are. -/
  rows : Nat → List (Value × Value)
  Fit : Value × Value → Prop
  fit : ∀ a, c.Allowed a → ∀ e ∈ rows a, e.2.Within Plain {b | c.Allowed b} ∧ Fit e
  length_rows : ∀ a, c.Allowed a → (rows a).length ≤ c.width
  distinct : ∀ a, c.Allowed a →
    ((r.entries id (rows a)).map Prod.fst).Pairwise fun j key => same j key = false
  children_rows : ∀ a, c.children a ⊆ Table.references (rows a)
  image_rows : ∀ φ a, c.image φ a = r.node (r.entries φ (rows a))
  convert_plain : ∀ fuel memo v φ heap, Plain v →
    convert fuel memo v (store heap) = .ok (r.value φ v, memo) (store heap)
  convert_known : ∀ fuel memo a b t, memo.lookup (memoKey a) = some b →
    convert (fuel + 1) memo (.table a) t = .ok (b, memo) t
  convert_fresh : ∀ fuel memo memo' a heap heap', c.Allowed a → memo.lookup (memoKey a) = none →
    fill fuel heap.size ((memoKey a, r.name heap.size) :: memo) (rows a)
      (store (heap.push (r.node []))) = .ok memo' (store heap') →
    convert (fuel + 1) memo (.table a) (store heap) = .ok (r.name heap.size, memo') (store heap')
  fill_nil : ∀ fuel cell memo t, fill fuel cell memo [] t = .ok memo t
  fill_skip : ∀ fuel cell memo e es, Fit e → e.2.isNil = true →
    fill (fuel + 1) cell memo (e :: es) = fill fuel cell memo es
  fill_cons : ∀ fuel cell memo memo' e es φ heap heap' done, Fit e → e.2.isNil = false →
    convert fuel memo e.2 (store heap) = .ok (r.value φ e.2, memo') (store heap') →
    (∀ d ∈ done, same d.1 (r.key e.1) = false) →
    ∃ f : T → T, fill (fuel + 1) cell memo (e :: es) (store heap) =
        fill fuel cell memo' es (store (heap'.modify cell f)) ∧
      f (r.node done) = r.node (done ++ [(r.key e.1, r.value φ e.2)])

namespace Conversion

variable {c : Copying T} {C : Conversion r c} {fuel : Nat}

/-- With this much fuel, data is converted from any state of copying. -/
def Converts (C : Conversion r c) (fuel : Nat) : Prop :=
  ∀ memo order heap v, c.Ready order heap → c.Remembers C.memoKey r.name memo order →
    v.Within C.Plain {a | c.Allowed a} → c.budget order ≤ fuel →
    ∃ memo' order' heap', C.convert fuel memo v (C.store heap) =
        .ok (r.value (c.number order') v, memo') (C.store heap') ∧
      c.Remembers C.memoKey r.name memo' order' ∧ c.Copies none order heap order' heap' ∧
      ∀ a, v = .table a → a ∈ order'

/-- With this much fuel, entries are filled into a cell from any state of copying. -/
def Fills (C : Conversion r c) (fuel : Nat) : Prop :=
  ∀ cell memo order heap done es, c.Ready order heap →
    c.Remembers C.memoKey r.name memo order → heap[cell]? = some (r.node done) →
    (∀ e ∈ es, e.2.Within C.Plain {a | c.Allowed a} ∧ C.Fit e) →
    (done.map Prod.fst ++ (r.entries id es).map Prod.fst).Pairwise
      (fun j key => C.same j key = false) →
    es.length + c.budget order ≤ fuel →
    ∃ memo' order' heap', C.fill fuel cell memo es (C.store heap) = .ok memo' (C.store heap') ∧
      c.Remembers C.memoKey r.name memo' order' ∧ c.Copies (some cell) order heap order' heap' ∧
      (∀ a ∈ Table.references es, a ∈ order') ∧
      heap'[cell]? = some (r.node (done ++ r.entries (c.number order') es))

theorem converts_of (hfills : ∀ m < fuel, C.Fills m) : C.Converts fuel := by
  intro memo order heap v hready hmemo hv hfuel
  rcases hv with ⟨a, ha, rfl⟩ | ⟨hplain, hne⟩
  · obtain ⟨m, rfl⟩ := Nat.exists_eq_add_one.mpr (Nat.lt_of_lt_of_le (Nat.succ_pos _) hfuel)
    have hlookup := hmemo a ha
    by_cases hmem : a ∈ order
    · rw [if_pos hmem, Rendition.name, ← r.value_table] at hlookup
      refine ⟨memo, order, heap, C.convert_known _ _ _ _ _ hlookup, hmemo, .refl hready, ?_⟩
      rintro _ ⟨⟩
      exact hmem
    · rw [if_neg hmem] at hlookup
      have hlength := C.length_rows a ha
      have hbudget := budget_fresh hready ha hmem
      obtain ⟨memo', order', heap', hrun, hmemo', hcopies, hclosed, hcell⟩ :=
        hfills m (Nat.lt_succ_self m) heap.size _ (order ++ [a]) (heap.push (r.node [])) []
          (C.rows a) (hready.push ha hmem _) (hmemo.cons C.memoKey_inj ha hready hmem)
          Array.getElem?_push_size (C.fit a ha) (C.distinct a ha) (by omega)
      rw [nil_append, ← C.image_rows] at hcell
      refine ⟨memo', order', heap', ?_, hmemo', hcopies.node hready hmem hcell fun b hb =>
        hclosed b (C.children_rows a hb), ?_⟩
      · rw [r.value_table, number_fresh hready hmem hcopies.grows]
        exact C.convert_fresh _ _ _ _ _ _ ha hlookup hrun
      · rintro _ ⟨⟩
        exact hcopies.grows.subset (by simp)
  · exact ⟨memo, order, heap, C.convert_plain _ _ _ _ _ hplain, hmemo, .refl hready,
      fun a ha => absurd ha (hne a)⟩

theorem fills_of (h : ∀ m < fuel, C.Converts m ∧ C.Fills m) : C.Fills fuel := by
  intro cell memo order heap done es hready hmemo hcell hes hdistinct hfuel
  obtain ⟨fuel, rfl⟩ := Nat.exists_eq_add_one.mpr
    (Nat.lt_of_lt_of_le (Nat.lt_add_left _ (Nat.succ_pos _)) hfuel)
  obtain ⟨hto, hrest⟩ := h fuel (Nat.lt_succ_self fuel)
  cases es with
  | nil =>
    refine ⟨memo, order, heap, C.fill_nil _ _ _ _, hmemo, .refl hready, nofun, ?_⟩
    rw [hcell]
    simp [Rendition.entries, Table.live]
  | cons e es =>
    obtain ⟨⟨hvalue, hfit⟩, hes⟩ := forall_mem_cons.mp hes
    rw [length_cons] at hfuel
    cases hnil : e.2.isNil with
    | true =>
      rw [Rendition.entries_cons_of_isNil hnil] at hdistinct
      obtain ⟨memo', order', heap', hrun, hmemo', hcopies, hrefs, hcell'⟩ :=
        hrest cell memo order heap done es hready hmemo hcell hes hdistinct (by omega)
      refine ⟨memo', order', heap', ?_, hmemo', hcopies, fun a ha => ?_, ?_⟩
      · rw [C.fill_skip _ _ _ _ _ hfit hnil, hrun]
      · refine hrefs a ((Table.mem_references_cons.mp ha).resolve_left fun heq => ?_)
        rw [heq] at hnil
        cases hnil
      · rw [Rendition.entries_cons_of_isNil hnil, hcell']
    | false =>
      rw [Rendition.entries_cons hnil, map_cons] at hdistinct
      have hnew : ∀ d ∈ done, C.same d.1 (r.key e.1) = false := fun d hd =>
        (pairwise_append.mp hdistinct).2.2 _ (mem_map_of_mem hd) _ mem_cons_self
      obtain ⟨memo₁, order₁, heap₁, hrun₁, hmemo₁, hcopies₁, hmem₁⟩ :=
        hto memo order heap e.2 hready hmemo hvalue (by omega)
      -- Meanwhile the cell has not changed: converting the value fills new cells only.
      have hlt : cell < heap.size := (Array.getElem?_eq_some_iff.mp hcell).1
      have hcell₁ := (hcopies₁.frame cell hlt nofun).trans hcell
      obtain ⟨f, hrun₂, hf⟩ := C.fill_cons fuel cell memo _ e es _ heap _ done hfit hnil hrun₁ hnew
      have hcell₂ : (heap₁.modify cell f)[cell]? =
          some (r.node (done ++ [(r.key e.1, r.value (c.number order₁) e.2)])) := by
        rw [Array.getElem?_modify, if_pos rfl, hcell₁, Option.map_some, hf]
      have hcopies₂ := Copying.Copies.fill (i := cell) hcopies₁.ready f
      have hbudget := budget_anti (c := c) hcopies₁.grows
      obtain ⟨memo', order', heap', hrun, hmemo', hcopies, hrefs, hcell'⟩ :=
        hrest cell memo₁ order₁ _ _ es hcopies₂.ready hmemo₁ hcell₂ hes
          (by simpa using hdistinct) (by omega)
      refine ⟨memo', order', heap', hrun₂.trans hrun, hmemo',
        .entry hready hlt hcopies₁ hcopies₂ hcopies, fun a ha => ?_, ?_⟩
      · rcases Table.mem_references_cons.mp ha with heq | ha
        · exact hcopies.grows.subset (hmem₁ a heq)
        · exact hrefs a ha
      · have hvalue' := r.value_congr (c.number order₁) (c.number order') e.2 fun a ha =>
          (number_of_grows hcopies.grows (hmem₁ a ha)).symm
        rw [hcell', Rendition.entries_cons hnil, hvalue', append_assoc]
        rfl

theorem converts (C : Conversion r c) (fuel : Nat) : C.Converts fuel ∧ C.Fills fuel := by
  induction fuel using Nat.strongRecOn with
  | ind fuel ih => exact ⟨converts_of fun m hm => (ih m hm).2, fills_of ih⟩

/-- A conversion that starts with nothing comes to all that can be reached. -/
theorem copies_reached {base : Nat} {hsize : ∀ a, s.Leads root a → a < s.tables.size}
    (C : Conversion r (r.copying hsize base)) {heap : Array T} (hbase : heap.size = base)
    (hfuel : s.tables.size * (s.width + 2) + 1 ≤ fuel) :
    ∃ memo order heap', C.convert fuel [] (.table root) (C.store heap) =
        .ok (r.name ((r.copying hsize base).number order root), memo) (C.store heap') ∧
      (∀ a, s.Leads root a → a ∈ order) ∧
      (r.copying hsize base).Copies none [] heap order heap' := by
  obtain ⟨memo, order, heap', hrun, -, hcopies, hmem⟩ := (C.converts fuel).1 [] [] heap
    (.table root) ⟨nodup_nil, nofun, hbase⟩ (fun _ _ => rfl) (.inl ⟨root, .refl, rfl⟩) hfuel
  rw [r.value_table] at hrun
  refine ⟨memo, order, heap', hrun, fun a ha => ?_, hcopies⟩
  induction ha with
  | refl => exact hmem root rfl
  | entry _ he ih =>
    exact hcopies.closed _ ih not_mem_nil _ (Table.mem_references.mpr ⟨_, he⟩)

end Conversion

end LuaInterpreter
