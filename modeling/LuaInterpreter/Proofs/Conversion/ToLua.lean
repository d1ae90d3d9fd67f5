import LuaInterpreter.Proofs.Conversion.ToHost

/-!
# Data from the host

A graph of dictionaries that tables have become is converted back: each dictionary becomes a table
again, with the keys in the form in which they are kept.
-/

namespace LuaInterpreter

open Run List Table Value

namespace Convert

variable {s : Store} {G : Set Nat} {root : Nat} {φ ψ : Nat → Nat} {v : Value}
  {es : List (Value × Value)}

/-! ## What entries become -/

/-- What the entries of a new table are made of. -/
def luaRendition : Rendition Value Table where
  key := Table.keyOf
  value := rename
  node := fun es => { entries := es }
  value_table := fun _ _ => rfl
  value_congr := by
    intro φ ψ v h
    cases v with
    | table a => rw [rename, h a rfl, rename]
    | _ => rfl

theorem mem_references_live {a : Nat} :
    a ∈ Table.references (Table.live es) ↔ a ∈ Table.references es := by
  simp [mem_references, Table.live, isNil]

theorem isNil_rename (ψ : Nat → Nat) (v : Value) : (v.rename ψ).isNil = v.isNil := by
  cases v <;> rfl

/-- A key finds in the new entries what it finds in those that are not `nil`. -/
theorem lookup_entries (hes : ∀ e ∈ es, e.1.IsPlainKey) (j : Value) :
    Table.lookup j (luaRendition.entries ψ es) =
      (Table.lookup j (Table.live es)).map (rename ψ) := by
  have hlive : ∀ e ∈ Table.live es, e.1.IsPlainKey := fun e he => hes e (mem_of_mem_filter he)
  unfold Rendition.entries
  generalize Table.live es = es at hlive
  induction es with
  | nil => rfl
  | cons e es ih =>
    obtain ⟨he, hes⟩ := forall_mem_cons.mp hlive
    rw [map_cons, Table.lookup, Table.lookup, ih hes]
    show (if (Table.keyOf e.1).rawEq j = true then _ else _) = _
    rw [rawEq_keyOf he]
    split <;> rfl

theorem lookup_live (hes : Table.HasPlainKeys es) (j : Value) :
    (Table.lookup j (Table.live es)).getD .nil = (Table.lookup j es).getD .nil := by
  induction es with
  | nil => rfl
  | cons e es ih =>
    rw [Table.lookup]
    cases hv : e.2.isNil with
    | true =>
      have hlive : Table.live (e :: es) = Table.live es := by simp [Table.live, hv]
      rw [hlive]
      by_cases hj : e.1.rawEq j = true
      · -- No other entry has the key, so that there is only `nil`.
        have habsent : Table.lookup j (Table.live es) = none := by
          refine Table.lookup_eq_none_iff.mpr fun e' he' => ?_
          have hmem := mem_of_mem_filter he'
          rw [← Bool.not_eq_true]
          intro hj'
          have hsame :=
            rawEq_of_rawEq (hes.plain e' (mem_cons_of_mem e hmem)) hj hj'
          rw [(pairwise_cons.mp hes.distinct).1 e' hmem] at hsame
          cases hsame
        rw [if_pos hj, habsent]
        exact (isNil_iff.mp hv).symm
      · rw [if_neg hj, ih hes.tail]
    | false =>
      have hlive : Table.live (e :: es) = e :: Table.live es := by simp [Table.live, hv]
      rw [hlive, Table.lookup]
      split
      · rfl
      · exact ih hes.tail

theorem get_entries {t : Table} (ht : Table.HasPlainKeys t.entries) (j : Value) :
    (luaRendition.node (luaRendition.entries ψ t.entries)).get j = (t.get j).rename ψ := by
  rw [Table.get, Table.get, ← lookup_live ht j]
  show (Table.lookup j (luaRendition.entries ψ t.entries)).getD .nil = _
  rw [lookup_entries ht.plain]
  cases Table.lookup j (Table.live t.entries) <;> rfl

/-! ## The conversion -/

variable {fuel : Nat} {memo memo' : Memo} {heap heap' : Array Table}

variable {t : Store} {d cell : Nat}

theorem toLuaFrom_of_not_table (hv : v.IsDatum ∅) :
    toLuaFrom fuel memo (hostOf s φ v) t = .ok (v.rename ψ, memo) t := by
  cases v with
  | nil | bool | str =>
    rw [hostOf, toLuaFrom]
    rfl
  | num n =>
    cases n with
    | int | float =>
      rw [hostOf, toLuaFrom]
      rfl
  | _ => exact hv.elim

theorem toLuaFrom_fresh {entries : List (HostValue × HostValue)}
    (hdict : s.objects[d]? = some (.dict entries)) (hmemo : memo.lookup d = none)
    (hfill : fillEntries fuel (.table heap.size) ((d, .table heap.size) :: memo) entries
      { s with tables := heap.push {} } = .ok memo' { s with tables := heap' }) :
    toLuaFrom (fuel + 1) memo ((hostRendition s).name d) { s with tables := heap } =
      .ok (.table heap.size, memo') { s with tables := heap' } := by
  have hnew : newTable {} { s with tables := heap } =
      .ok (.table heap.size) { s with tables := heap.push {} } := rfl
  show toLuaFrom (fuel + 1) memo (.plain (.object d)) _ = _
  rw [toLuaFrom, hmemo]
  refine (bind_of_ok hnew).trans ?_
  simp only [get_bind_apply, hdict]
  exact bind_of_ok hfill

theorem distinct_kept (hes : Table.HasPlainKeys es) :
    ((luaRendition.entries id (Table.live es)).map Prod.fst).Pairwise
      fun j key => j.rawEq key = false := by
  rw [Rendition.entries, map_map, pairwise_map]
  refine ((hes.distinct.filter _).filter _).imp_of_mem fun {e e'} he _ hne => ?_
  have hkey := hes.plain e (mem_of_mem_filter (mem_of_mem_filter he))
  show (Table.keyOf e.1).rawEq (Table.keyOf e'.1) = false
  rw [rawEq_keyOf hkey, rawEq_keyOf_right hkey, hne]

/-- The conversion of the dictionaries that tables have become gives each of them a table again. The
dictionaries have the numbers `φ`. -/
def toLuaConversion (hG : s.IsDataGraph G) (hroot : root ∈ G) {t : Store}
    (hobjects : ∀ a, s.Leads root a →
      t.objects[φ a]? = some (.dict ((hostRendition s).entries φ (s.table a).entries)))
    (hinj : ∀ a b, s.Leads root a → s.Leads root b → φ a = φ b → a = b) :
    Conversion luaRendition (luaRendition.copying (hG.lt_of_leads hroot) s.tables.size) where
  store := fun heap => { t with tables := heap }
  convert := fun fuel memo v => toLuaFrom fuel memo (hostOf s φ v)
  fill := fun fuel cell memo es =>
    fillEntries fuel (.table cell) memo
      (es.map fun e : Value × Value => (hostOf s id e.1, hostOf s φ e.2))
  memoKey := φ
  memoKey_inj := hinj
  same := rawEq
  Plain := Value.IsDatum ∅
  rows := fun a => Table.live (s.table a).entries
  Fit := fun e => e.1.IsPlainKey ∧ e.2.isNil = false
  fit := fun a ha e he =>
    have hmem := mem_of_mem_filter he
    ⟨(hG.isDatum_of_leads hroot ha hmem).within, (hG.keys a (hG.mem_of_leads hroot ha)).plain e hmem,
      by simpa using (mem_filter.mp he).2⟩
  length_rows := fun a ha => Nat.le_trans (length_filter_le _ _)
    (s.length_le_width a (hG.lt_of_leads hroot a ha))
  distinct := fun a ha => distinct_kept (hG.keys a (hG.mem_of_leads hroot ha))
  children_rows := fun _ _ => mem_references_live.mpr
  image_rows := by simp [Rendition.copying, Rendition.entries, Table.live]
  convert_plain := fun _ _ _ _ _ => toLuaFrom_of_not_table
  convert_known := by
    intro fuel memo a b t hmemo
    rw [hostOf, toLuaFrom, hmemo]
    rfl
  convert_fresh := fun _ _ _ a _ _ ha => toLuaFrom_fresh (hobjects a ha)
  fill_nil := by
    intro fuel cell memo t
    rw [map_nil, fillEntries]
    rfl
  fill_skip := by
    intro fuel cell memo e es hfit he
    cases hfit.2.symm.trans he
  fill_cons := by
    intro fuel cell memo memo' e es ψ heap heap' done hfit _ hvalue hnew
    have hrename : e.1.rename id = e.1 := by
      cases e.1 <;> rfl
    have hkeyed : toLuaFrom fuel memo (hostOf s id e.1) { t with tables := heap } =
        .ok (e.1, memo) { t with tables := heap } :=
      (toLuaFrom_of_not_table (isDatum_of_isPlainKey hfit.1)).trans (by rw [hrename])
    have hput : rawPut (.table cell) e.1 (e.2.rename ψ) { t with tables := heap' } =
        .ok () { t with tables := heap'.modify cell fun t => t.put e.1 (e.2.rename ψ) } := by
      refine bind_of_ok (a := ()) (t := { t with tables := heap' }) ?_
      rw [requireKey, isKey_of_isPlainKey hfit.1]
      rfl
    rw [map_cons, fillEntries]
    refine ⟨_, (bind_of_ok hkeyed).trans ((bind_of_ok hvalue).trans (bind_of_ok hput)), ?_⟩
    exact put_of_absent (Table.lookup_eq_none_iff.mpr hnew) ((isNil_rename _ _).trans hfit.2)

end Convert

end LuaInterpreter
