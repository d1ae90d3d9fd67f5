import LuaInterpreter.Proofs.TableMove
import LuaInterpreter.Proofs.Wrapping

/-!
# Inserting into a list and removing from it

A list in a table goes up to the border. A value is inserted by moving all later ones up, from the
last one down, and removed by moving them down, from the first one up; no value is written to a
position before the one that is there has been read.
-/

namespace LuaInterpreter

open Run List Table Store Nat Number

open Evaluator (withFuel)

/-! ## Positions and borders -/

namespace Table

variable {t : Table} {n : Nat}

theorem getElem?_itemsFrom (t : Table) (n i : Nat) :
    (t.itemsFrom 0 n)[i]? = if i < n then some (t.get (.int (i + 1))) else none := by
  rw [itemsFrom, List.getElem?_map]
  split
  · next hi => rw [List.getElem?_range' hi, Nat.zero_add, Nat.one_mul, Option.map_some]
  · next hi => rw [List.getElem?_eq_none (by rw [length_range']; omega), Option.map_none]

variable {u : Table} {p : Nat} {v : Value}

theorem itemsFrom_eq_iff :
    t.itemsFrom 0 n = u.itemsFrom 0 n ↔ ∀ i < n, t.get (.int (i + 1)) = u.get (.int (i + 1)) := by
  simp only [itemsFrom, map_inj_left, mem_range'_1, Nat.zero_le, true_and, Nat.zero_add]

/-- A value stands between two parts of a list, the second of which is one position further up. -/
theorem itemsFrom_eq_insertIdx (hp : p ≤ n)
    (hbefore : ∀ i < p, u.get (.int (i + 1)) = t.get (.int (i + 1)))
    (hat : u.get (.int (p + 1)) = v)
    (hbehind : ∀ i, p ≤ i → i < n → u.get (.int (i + 1 + 1)) = t.get (.int (i + 1))) :
    u.itemsFrom 0 (n + 1) = (t.itemsFrom 0 n).insertIdx p v := by
  refine ext_getElem? fun i => ?_
  rw [List.getElem?_insertIdx, length_itemsFrom]
  simp only [getElem?_itemsFrom]
  rcases Nat.lt_trichotomy i p with hi | rfl | hi
  · rw [if_pos (by omega), if_pos hi, if_pos (by omega), hbefore i hi]
  · rw [if_pos (by omega), if_neg (Nat.lt_irrefl i), if_pos rfl, if_pos hp, hat]
  · obtain ⟨i, rfl⟩ := exists_eq_add_one_of_ne_zero (Nat.ne_zero_of_lt hi)
    rw [if_neg (show ¬i + 1 < p by omega), if_neg (show ¬i + 1 = p by omega), Nat.add_sub_cancel]
    simp only [Nat.add_lt_add_iff_right]
    split
    · next hn => exact congrArg some (hbehind i (by omega) hn)
    · rfl

/-- A value is missing between two parts of a list, the second of which is one position further
down. -/
theorem itemsFrom_eq_eraseIdx (hp : p ≤ n)
    (hbefore : ∀ i < p, u.get (.int (i + 1)) = t.get (.int (i + 1)))
    (hbehind : ∀ i, p ≤ i → i < n → u.get (.int (i + 1)) = t.get (.int (i + 1 + 1))) :
    u.itemsFrom 0 n = (t.itemsFrom 0 (n + 1)).eraseIdx p := by
  rw [itemsFrom_eq_insertIdx hp (fun i hi => (hbefore i hi).symm) rfl
    fun i hi hn => (hbehind i hi hn).symm, eraseIdx_insertIdx_self]

/-- As many positions in a row have values as there are entries, at most. -/
theorem le_length_entries (h : ∀ i < n, t.get (.int (i + 1)) ≠ .nil) : n ≤ t.entries.length := by
  have hsub : (List.range n).map (fun (i : Nat) => .int (i + 1)) ⊆
      t.entries.map fun e => keyOf e.1 := by
    intro key hkey
    obtain ⟨i, hi, rfl⟩ := mem_map.mp hkey
    obtain ⟨e, he, hei⟩ := exists_mem_of_get_ne_nil (h i (mem_range.mp hi))
    rw [rawEq_comm_of_isPlainKey (isPlainKey_int _),
      rawEq_iff_of_isPlainKey (isPlainKey_int _)] at hei
    exact mem_map.mpr ⟨e, he, hei.symm⟩
  have hnodup : ((List.range n).map fun (i : Nat) => Value.int (i + 1)).Nodup := by
    refine nodup_range.map fun i j hij => ?_
    simpa [Value.int] using hij
  have hlength := (subperm_of_subset hnodup hsub).length_le
  rwa [length_map, length_range, length_map] at hlength

theorem border_eq (hset : ∀ i < n, t.get (.int (i + 1)) ≠ .nil)
    (hnil : t.get (.int (n + 1)) = .nil) : t.border = n := by
  have hfrom (fuel start : Nat) (hstart : start ≤ n) (hfuel : n ≤ start + fuel) :
      t.borderFrom fuel start = n := by
    induction fuel generalizing start with
    | zero => exact Nat.le_antisymm hstart hfuel
    | succ fuel ih =>
      rw [borderFrom]
      rcases Nat.eq_or_lt_of_le hstart with rfl | hlt
      · rw [if_neg]
        rw [has_iff, hnil]
        exact fun h => h rfl
      · rw [if_pos ((has_iff t _).mpr (hset start hlt))]
        exact ih (start + 1) hlt (by omega)
  -- The search makes one step for each entry, and there is one for each position.
  exact hfrom t.entries.length 0 (Nat.zero_le n)
    ((le_length_entries hset).trans (Nat.le_add_left _ _))

/-- Once a value is inserted, the list is longer by one, if no position behind its end was set. -/
theorem border_of_insertIdx (hv : v ≠ .nil)
    (hitems : u.itemsFrom 0 (t.border + 1) = t.items.insertIdx p v)
    (hagrees : t.AgreesOutside u (p + 1) (t.border + 2))
    (hend : t.get (.int (t.border + 1 + 1)) = .nil) : u.border = t.border + 1 := by
  refine border_eq (fun i hi => ?_) ?_
  · have hmem : u.get (.int (i + 1)) ∈ t.items.insertIdx p v := by
      rw [← hitems]
      exact mem_of_getElem? ((getElem?_itemsFrom u _ i).trans (if_pos hi))
    rcases eq_or_mem_of_mem_insertIdx hmem with heq | hmem
    · exact heq ▸ hv
    · exact ne_nil_of_mem_items hmem
  · push_cast
    rw [hagrees.get_int (.inr (by omega)), hend]

theorem AgreesOutside.get_eq {i j : Int} (h : t.AgreesOutside u i j)
    (hpositions : ∀ l, i ≤ l → l < j → u.get (.int l) = t.get (.int l)) (key : Value) :
    u.get key = t.get key := by
  by_cases hkey : ∃ l, (i ≤ l ∧ l < j) ∧ (Value.int l).rawEq key = true
  · obtain ⟨l, hl, hkey⟩ := hkey
    rw [get_congr (isPlainKey_int l) hkey u, get_congr (isPlainKey_int l) hkey t,
      hpositions l hl.1 hl.2]
  · exact h key fun l hi hj => Bool.eq_false_iff.mpr fun hl => hkey ⟨l, ⟨hi, hj⟩, hl⟩

end Table

namespace TableLibrary

variable {k : Evaluator} {id n p : Nat} {v : Value} {s : Store}

/-! ## Moving all later values -/

theorem span_behind (hp : p ≤ n) : (span (p + 1) n : Int) = n - p := by
  unfold span
  omega

section

variable (k : Evaluator) (hid : id < s.tables.size) (hmetatable : (s.table id).metatable = none)

include hid hmetatable

/-- Each value goes one position up, the last one first. The induction is on the number of
values. -/
theorem copyFrom_last_first (count : Nat) (i : Int) :
    ∃ u, copyFrom k (.table id) (.table id) (-1) count i (i + 1) s = .ok () u ∧ s.Rewrites u id ∧
      (∀ c < count, (u.table id).get (.int (i - c + 1)) = (s.table id).get (.int (i - c))) ∧
      (s.table id).AgreesOutside (u.table id) (i + 2 - count) (i + 2) := by
  induction count generalizing s i with
  | zero => exact ⟨s, rfl, .refl s id, fun c hc => absurd hc (Nat.not_lt_zero c), .refl _ _ _⟩
  | succ count ih =>
    have hstep := rewrites_putItem hid (i + 1) ((s.table id).get (.int i))
    obtain ⟨u, hrun, hrewrites, hread, hagrees⟩ :=
      ih (hstep.size ▸ hid) (hstep.metatable_eq_none hmetatable) (i - 1)
    have hput := agreesOutside_put (s.table id) (i + 1) ((s.table id).get (.int i))
    rw [table_putItem hid] at hread hagrees
    rw [show i - 1 + 1 = i + 1 + -1 by omega] at hrun
    refine ⟨u, ?_, hstep.trans hrewrites, fun c hc => ?_, ?_⟩
    · exact (bind_of_ok (item_of_metatable_eq_none hmetatable k i)).trans
        ((bind_of_ok (put_of_metatable_eq_none hmetatable k (i + 1) _)).trans hrun)
    · cases c with
      | zero =>
        rw [cast_zero, Int.sub_zero, hagrees.get_int (.inr (by omega)), get_put_int,
          if_pos rfl]
      | succ c =>
        have hposition : i - (c + 1 : Nat) = i - 1 - c := by
          push_cast
          ring
        rw [hposition, hread c (lt_of_succ_lt_succ hc), hput.get_int (.inl (by omega))]
    · refine (hput.mono ?_ (by omega)).trans (hagrees.mono ?_ (by omega))
      · push_cast
        omega
      · push_cast
        omega

/-! ## What becomes of the list -/

/-- The later values are moved up, and then a value is put at the position that is left. -/
theorem insertAt_of_metatable_eq_none (hp : p ≤ n) (v : Value) :
    ∃ u, (copyFrom k (.table id) (.table id) (-1) (span (p + 1) n) n (n + 1) >>= fun _ =>
        put k (.table id) (p + 1) v) s = .ok () u ∧ s.Rewrites u id ∧
      (u.table id).itemsFrom 0 (n + 1) = ((s.table id).itemsFrom 0 n).insertIdx p v ∧
      (s.table id).AgreesOutside (u.table id) (p + 1) (n + 2) := by
  have hspan := span_behind hp
  obtain ⟨u, hrun, hrewrites, hread, hagrees⟩ :=
    copyFrom_last_first k hid hmetatable (span (p + 1) n) n
  have hu : id < u.tables.size := hrewrites.size ▸ hid
  refine ⟨u.putItem id (p + 1) v, ?_, hrewrites.trans (rewrites_putItem hu _ _), ?_, ?_⟩
  · exact (bind_of_ok hrun).trans
      (put_of_metatable_eq_none (hrewrites.metatable_eq_none hmetatable) k _ v)
  · rw [table_putItem hu]
    refine itemsFrom_eq_insertIdx hp (fun i hi => ?_) ?_ fun i hi hn => ?_
    · rw [get_put_int, if_neg (by omega), hagrees.get_int (.inl (by omega))]
    · rw [get_put_int, if_pos rfl]
    · have hmoved := hread (n - (i + 1)) (by omega)
      rw [show (n : Int) - (n - (i + 1) : Nat) = i + 1 by omega] at hmoved
      rw [get_put_int, if_neg (by omega), hmoved]
  · rw [table_putItem hu]
    exact (hagrees.mono (by omega) (by omega)).trans
      ((agreesOutside_put _ _ v).mono (by omega) (by omega))

/-- A value is taken out, the later ones are moved down, and the last position is cleared. -/
theorem removeAt_of_metatable_eq_none (hp : p ≤ n) :
    ∃ u, (put k (.table id) (p + 1) .nil >>= fun _ =>
        copyFrom k (.table id) (.table id) 1 (span (p + 1) (n + 1 : Nat)) (p + 1 + 1) (p + 1) >>= fun _ =>
        put k (.table id) (n + 1 : Nat) .nil) s = .ok () u ∧ s.Rewrites u id ∧
      (u.table id).itemsFrom 0 n = ((s.table id).itemsFrom 0 (n + 1)).eraseIdx p ∧
      (u.table id).get (.int (n + 1)) = .nil ∧
      (s.table id).AgreesOutside (u.table id) (p + 1) (n + 2) := by
  have hspan : (span (p + 1) (n + 1 : Nat) : Int) = (n + 1 : Nat) - p :=
    span_behind (le_succ_of_le hp)
  have hclear := rewrites_putItem hid (p + 1) .nil
  have hnone := hclear.metatable_eq_none hmetatable
  obtain ⟨u, hrun, hrewrites, hread, hagrees⟩ := copyFrom_of_metatable_eq_none k
    (span (p + 1) (n + 1 : Nat)) (hclear.size ▸ hid) hnone hnone (p + 1 + 1) (p + 1)
  rw [table_putItem hid] at hread hagrees
  have hu : id < u.tables.size := (hclear.trans hrewrites).size ▸ hid
  refine ⟨u.putItem id (n + 1 : Nat) .nil, ?_,
    (hclear.trans hrewrites).trans (rewrites_putItem hu _ _), ?_, ?_, ?_⟩
  · exact (bind_of_ok (put_of_metatable_eq_none hmetatable k _ .nil)).trans ((bind_of_ok hrun).trans
      (put_of_metatable_eq_none (hrewrites.metatable_eq_none hnone) k _ .nil))
  · rw [table_putItem hu]
    refine itemsFrom_eq_eraseIdx hp (fun i hi => ?_) fun i hi hn => ?_
    · rw [get_put_int, if_neg (by omega), hagrees.get_int (.inl (by omega)),
        get_put_int, if_neg (by omega)]
    · -- When a value is read, only positions before it have been written.
      have hmoved := hread (i - p) (by omega)
      rw [origin_of_not_overlapping (by omega), get_put_int, if_neg (by omega),
        show (p : Int) + 1 + (i - p : Nat) = i + 1 by omega,
        show (p : Int) + 1 + 1 + (i - p : Nat) = i + 1 + 1 by omega] at hmoved
      rw [get_put_int, if_neg (by omega), hmoved]
  · rw [table_putItem hu, get_put_int, if_pos (by push_cast; rfl)]
  · rw [table_putItem hu]
    exact (((agreesOutside_put _ _ _).mono (Int.le_refl _) (by omega)).trans
      (hagrees.mono (Int.le_refl _) (by omega))).trans
        ((agreesOutside_put _ _ _).mono (by omega) (by omega))

end

/-! ## The functions of the library -/

/-- The arguments that insert `v` behind the first `p` of `n` values. Without a position it goes
behind all of them; that position is computed, so it must not wrap around. -/
inductive InsertArguments (id n : Nat) (v : Value) : Nat → List Results → Prop
  | behind {p : Nat} (hp : p ≤ n) :
    InsertArguments id n v p [.one (.table id), .one (.int (p + 1)), .one v]
  | last (hn : (n : Int) + 1 < maxInt) : InsertArguments id n v n [.one (.table id), .one v]

/-- The arguments that remove the value behind the first `p` of `n`. Without a position that is the
last one. -/
inductive RemoveArguments (id n : Nat) : Nat → List Results → Prop
  | behind {p : Nat} (hp : p < n) : RemoveArguments id n p [.one (.table id), .one (.int (p + 1))]
  | last {p : Nat} (hn : n = p + 1) : RemoveArguments id n p [.one (.table id)]

variable {args : List Results} {u : Store} {g : Nat}

theorem RemoveArguments.lt (h : RemoveArguments id n p args) : p < n := by
  cases h with
  | behind hp => exact hp
  | last hn => exact hn ▸ lt_succ_self p

theorem add_one (call : Caller) (hn : (n : Int) + 1 < maxInt) (s : Store) :
    Operator.add call (.int n) (.int 1) s = .ok (.int (n + 1)) s := by
  have hinner : Number.IsInner (n + 1) := by
    refine ⟨?_, hn⟩
    unfold minInt
    omega
  have hsum : add (.int n) (.int 1) = .ok (.int (n + 1)) :=
    congrArg (fun i => Except.ok (int i)) (wrap_of_isInner hinner)
  show (Run.ofExcept (add (.int n) (.int 1)) >>= fun x => pure (Value.num x)) s = _
  rw [hsum]
  rfl

theorem call_insert {f : Nat} (hf : s.function? f = some (.ofBuiltin .tableInsert))
    (hid : id < s.tables.size) (hmetatable : (s.table id).metatable = none)
    (hborder : (s.table id).border = n) (hv : v ≠ .nil) (hargs : InsertArguments id n v p args)
    (scope : Option Nat) (traced : Bool) :
    ∃ u, Eval.call k (.func f) args scope traced s = .ok (.many []) u ∧ s.Rewrites u id ∧
      (u.table id).itemsFrom 0 (n + 1) = ((s.table id).itemsFrom 0 n).insertIdx p v ∧
      (s.table id).AgreesOutside (u.table id) (p + 1) (n + 2) := by
  have hp : p ≤ n := by
    cases hargs with
    | behind hp => exact hp
    | last => exact Nat.le_refl n
  have hlength := length_eq_border hmetatable k.call false
  rw [hborder] at hlength
  obtain ⟨u, hrun, hkept⟩ := insertAt_of_metatable_eq_none k hid hmetatable hp v
  refine ⟨u, Eval.call_builtin_of_ok hf ?_, hkept⟩
  cases hargs with
  | behind =>
    have hinsert : insert k (.table id) (.int (p + 1)) v s = .ok () u := by
      rw [insert, bind_of_ok hlength, if_neg (by rwa [Value.isNil_iff])]
      exact hrun
    exact bind_of_ok hinsert
  | last hn =>
    have hinsert : insert k (.table id) v .nil s = .ok () u := by
      rw [insert, bind_of_ok hlength, if_pos (Value.isNil_iff.mpr rfl),
        bind_of_ok (add_one k.call hn s)]
      exact hrun
    exact bind_of_ok hinsert

theorem call_remove (hg : s.function? g = some (.ofBuiltin .tableRemove)) (hid : id < s.tables.size)
    (hmetatable : (s.table id).metatable = none) (hborder : (s.table id).border = n + 1)
    (hargs : RemoveArguments id (n + 1) p args) (scope : Option Nat) (traced : Bool) :
    ∃ u, Eval.call k (.func g) args scope traced s =
        .ok (.ofList [(s.table id).get (.int (p + 1))]) u ∧ s.Rewrites u id ∧
      (u.table id).itemsFrom 0 n = ((s.table id).itemsFrom 0 (n + 1)).eraseIdx p ∧
      (u.table id).get (.int (n + 1)) = .nil ∧
      (s.table id).AgreesOutside (u.table id) (p + 1) (n + 2) := by
  have hp : p ≤ n := le_of_lt_succ hargs.lt
  have hlength := length_eq_border hmetatable k.call false
  rw [hborder] at hlength
  obtain ⟨u, hrun, hkept⟩ := removeAt_of_metatable_eq_none k hid hmetatable hp
  refine ⟨u, Eval.call_builtin_of_ok hg ?_, hkept⟩
  have hremove {pos : Value}
      (hpos : (if pos.isNil then .int (n + 1 : Nat) else pos) = .int (p + 1)) :
      remove k (.table id) pos s = .ok ((s.table id).get (.int (p + 1))) u := by
    obtain ⟨_, t, hclear, hrest⟩ := bind_eq_ok_iff.mp hrun
    obtain ⟨_, t', hshift, hlast⟩ := bind_eq_ok_iff.mp hrest
    rw [remove, bind_of_ok hlength, hpos]
    refine (bind_of_ok (item_of_metatable_eq_none hmetatable k _)).trans
      ((bind_of_ok hclear).trans ?_)
    have hin : ((int 1).le (.int (p + 1)) && (int (p + 1)).le (.int (n + 1 : Nat))) =
        true := by
      simp only [le, Bool.and_eq_true, decide_eq_true_eq]
      omega
    dsimp only [Value.int]
    rw [if_pos hin]
    exact (bind_of_ok hshift).trans (bind_of_ok hlast)
  cases hargs with
  | behind => exact bind_of_ok (hremove rfl)
  | last hn =>
    refine bind_of_ok (hremove ?_)
    rw [hn]
    rfl

/-- What was inserted is given when it is removed, and the table has the values that it had. -/
theorem call_remove_inserted {t : Store} (hg : t.function? g = some (.ofBuiltin .tableRemove))
    (hid : id < t.tables.size) (hmetatable : (t.table id).metatable = none) (hv : v ≠ .nil)
    (hp : p ≤ (s.table id).border)
    (hitems : (t.table id).itemsFrom 0 ((s.table id).border + 1) = (s.table id).items.insertIdx p v)
    (hagrees : (s.table id).AgreesOutside (t.table id) (p + 1) ((s.table id).border + 2))
    (hend : ∀ i : Nat, (s.table id).border ≤ i → (s.table id).get (.int (i + 1)) = .nil)
    (hargs : RemoveArguments id ((s.table id).border + 1) p args) (scope : Option Nat)
    (traced : Bool) :
    ∃ u, Eval.call k (.func g) args scope traced t = .ok (.ofList [v]) u ∧
      ∀ key, (u.table id).get key = (s.table id).get key := by
  have hborder : (t.table id).border = (s.table id).border + 1 :=
    border_of_insertIdx hv hitems hagrees (hend ((s.table id).border + 1) (le_succ _))
  obtain ⟨u, hcall, -, hitems', hnil, hagrees'⟩ :=
    call_remove (k := k) hg hid hmetatable hborder hargs scope traced
  rw [hitems, eraseIdx_insertIdx_self] at hitems'
  have hgiven : (t.table id).get (.int (p + 1)) = v := by
    have hat := congrArg (fun vs => vs[p]?) hitems
    rw [getElem?_itemsFrom, if_pos (lt_succ_of_le hp),
      List.getElem?_insertIdx_self, length_items, if_pos hp] at hat
    exact Option.some.inj hat
  refine ⟨u, hgiven ▸ hcall, (hagrees.trans hagrees').get_eq fun l hl hl' => ?_⟩
  obtain ⟨i, rfl⟩ : ∃ i : Nat, l = i + 1 := ⟨(l - 1).toNat, by omega⟩
  rcases Nat.lt_or_ge i (s.table id).border with hi | hi
  · exact Table.itemsFrom_eq_iff.mp hitems' i hi
  · rw [show i = (s.table id).border by omega, hnil, hend _ (Nat.le_refl _)]

/-- Inserting and removing are what they are for lists. Let a table have no metatable, and take its
values up to the border, which is its length. A value that is inserted behind the first `p` of them
stands there afterwards, and the later ones stand behind it. A value that is removed is given, the
later ones stand in its place, and nothing is left at the last position. No key but the positions
from there on is affected, and nothing else in the store is. So if there are no values behind the
border, what was inserted can be removed, and then every key has the value that it had. -/
theorem insert_and_remove_edit_list {m f g id : Nat} {s : Store}
    (hf : s.function? f = some (.ofBuiltin .tableInsert))
    (hg : s.function? g = some (.ofBuiltin .tableRemove)) (hid : id < s.tables.size)
    (hmetatable : (s.table id).metatable = none) (scope : Option Nat) (traced : Bool) :
    Operator.length (withFuel m).call (.table id) false s = .ok (.int (s.table id).border) s ∧
    (∀ p v args, v ≠ .nil → InsertArguments id (s.table id).border v p args → ∃ t,
      (withFuel (m + 1)).call (.func f) args scope traced s = .ok (.many []) t ∧
      s.Rewrites t id ∧
      (t.table id).itemsFrom 0 ((s.table id).border + 1) = (s.table id).items.insertIdx p v ∧
      (∀ key, (∀ i : Int, p + 1 ≤ i → i ≤ (s.table id).border + 1 →
        (Value.int i).rawEq key = false) → (t.table id).get key = (s.table id).get key) ∧
      ((∀ i : Nat, (s.table id).border ≤ i → (s.table id).get (.int (i + 1)) = .nil) →
        ∀ args' scope' traced', RemoveArguments id ((s.table id).border + 1) p args' → ∃ u,
          (withFuel (m + 1)).call (.func g) args' scope' traced' t = .ok (.ofList [v]) u ∧
          ∀ key, (u.table id).get key = (s.table id).get key)) ∧
    (∀ p args, RemoveArguments id (s.table id).border p args → ∃ v t,
      (s.table id).items[p]? = some v ∧
      (withFuel (m + 1)).call (.func g) args scope traced s = .ok (.ofList [v]) t ∧
      s.Rewrites t id ∧
      (t.table id).itemsFrom 0 ((s.table id).border - 1) = (s.table id).items.eraseIdx p ∧
      (t.table id).get (.int (s.table id).border) = .nil ∧
      (∀ key, (∀ i : Int, p + 1 ≤ i → i ≤ (s.table id).border →
        (Value.int i).rawEq key = false) → (t.table id).get key = (s.table id).get key)) := by
  refine ⟨length_eq_border hmetatable _ false, ?_, ?_⟩
  · intro p v args hv hargs
    obtain ⟨t, hcall, hrewrites, hitems, hagrees⟩ :=
      call_insert (k := withFuel m) hf hid hmetatable rfl hv hargs scope traced
    refine ⟨t, hcall, hrewrites, hitems, fun key hkey => ?_,
      fun hend args' scope' traced' hargs' => ?_⟩
    · exact hagrees key fun i hi hi' => hkey i hi (by omega)
    · have hp : p ≤ (s.table id).border := le_of_lt_succ hargs'.lt
      have hg' : t.function? g = some (.ofBuiltin .tableRemove) := by
        rwa [Store.function?, hrewrites.functions]
      exact call_remove_inserted hg' (hrewrites.size ▸ hid) (hrewrites.metatable_eq_none hmetatable)
        hv hp hitems hagrees hend hargs' scope' traced'
  · intro p args hargs
    have hp := hargs.lt
    obtain ⟨n, hn⟩ := exists_eq_add_one_of_ne_zero (Nat.ne_zero_of_lt hp)
    rw [hn] at hargs hp
    obtain ⟨t, hcall, hrewrites, hitems, hnil, hagrees⟩ :=
      call_remove (k := withFuel m) hg hid hmetatable hn hargs scope traced
    refine ⟨_, t, ?_, hcall, hrewrites, ?_, ?_, fun key hkey => ?_⟩
    · rw [Table.items, hn, getElem?_itemsFrom, if_pos hp]
    · rw [Table.items, hn, Nat.add_sub_cancel, hitems]
    · rw [hn]
      exact hnil
    · exact hagrees key fun i hi hi' => hkey i hi (by rw [hn]; push_cast; omega)

/-- A fourth integer is inserted behind the first of three and removed, or the last one is removed
at once; the field that is no position is kept. -/
theorem sortingStore_edited : ∃ t u w,
    (withFuel 1).call (.func Builtin.tableInsert.number)
      [.one (.table 1), .one (.int 2), .one (.int 9)] none true (sortingStore [1, 2, 3]) =
        .ok (.many []) t ∧
    (t.table 1).itemsFrom 0 4 = [.int 1, .int 9, .int 2, .int 3] ∧
    (withFuel 1).call (.func Builtin.tableRemove.number) [.one (.table 1), .one (.int 2)] none true
      t = .ok (.ofList [.int 9]) u ∧
    (∀ key, (u.table 1).get key = ((sortingStore [1, 2, 3]).table 1).get key) ∧
    (withFuel 1).call (.func Builtin.tableRemove.number) [.one (.table 1)] none true
      (sortingStore [1, 2, 3]) = .ok (.ofList [.int 3]) w ∧
    (w.table 1).itemsFrom 0 2 = [.int 1, .int 2] ∧ (w.table 1).get (.str [120]) = .bool true := by
  have hend (i : Nat) (hi : 3 ≤ i) :
      ((sortingStore [1, 2, 3]).table 1).get (.int (i + 1)) = .nil := by
    by_contra hset
    obtain ⟨e, he, hkey⟩ := exists_mem_of_get_ne_nil hset
    have hentries : ((sortingStore [1, 2, 3]).table 1).entries =
        [(.str [120], .bool true), (.int 1, .int 1), (.int 2, .int 2), (.int 3, .int 3)] := rfl
    rw [hentries] at he
    simp only [mem_cons, not_mem_nil, or_false] at he
    obtain rfl | rfl | rfl | rfl := he
    · cases hkey
    all_goals
      rw [rawEq_int, decide_eq_true_eq] at hkey
      omega
  have hid : 1 < (sortingStore [1, 2, 3]).tables.size := by decide
  obtain ⟨-, hinsert, hremove⟩ := insert_and_remove_edit_list (m := 0)
    (f := Builtin.tableInsert.number) (g := Builtin.tableRemove.number) rfl rfl hid rfl none true
  obtain ⟨t, hcall, -, hitems, -, hrestored⟩ :=
    hinsert 1 (.int 9) _ (by nofun) (.behind (by decide))
  obtain ⟨u, hcall', hread⟩ := hrestored hend _ none true (.behind (by decide))
  obtain ⟨v, w, hv, hcall'', -, hitems', -, hother⟩ := hremove 2 _ (.last rfl)
  cases hv
  exact ⟨t, u, w, hcall, hitems, hcall', hread, hcall'', hitems', hother _ fun i _ _ => rfl⟩

end TableLibrary

end LuaInterpreter
