import LuaInterpreter.Proofs.BubbleSort
import LuaInterpreter.Proofs.MultipleAssignment
import LuaInterpreter.Proofs.Return
import LuaInterpreter.Proofs.Traversal
import Mathlib.Data.Set.List

/-!
# Sorting a table

A table is sorted by sweeps over its positions, up to its border, until a sweep swaps nothing. What a
sweep does to the items is what it does to a list, as long as comparisons can be relied on and leave
the table alone.
-/

namespace LuaInterpreter

open Run List Table Eval Builtin Value

open Evaluator (withFuel)

/-! ## Positions -/

namespace Table

variable {t u v : Table} {p n : Nat}

variable {q m : Nat} (i : Int)

theorem rawEq_int (j : Int) : (int i).rawEq (.int j) = decide (i = j) := by
  simp [int, rawEq, Number.eq, Bool.beq_eq_decide_eq]

/-- The values at the `n` positions after the first `p`. -/
def itemsFrom (t : Table) (p n : Nat) : List Value :=
  (List.range' p n).map fun (i : Nat) => t.get (.int (i + 1))

theorem itemsFrom_succ (t : Table) (p n : Nat) :
    t.itemsFrom p (n + 1) = t.get (.int (p + 1)) :: t.itemsFrom (p + 1) n := by
  rw [itemsFrom, range'_succ, map_cons, itemsFrom]

theorem length_itemsFrom (t : Table) (p n : Nat) : (t.itemsFrom p n).length = n := by
  rw [itemsFrom, length_map, length_range']

/-- Two tables differ at most at the `n` positions after the first `p`. -/
def AgreesBut (t u : Table) (p n : Nat) : Prop :=
  ∀ key, (∀ i : Nat, p ≤ i → i < p + n → (int (i + 1)).rawEq key = false) →
    u.get key = t.get key

theorem AgreesBut.refl (t : Table) (p n : Nat) : t.AgreesBut t p n := fun _ _ => rfl

theorem AgreesBut.trans (htu : t.AgreesBut u p n) (huv : u.AgreesBut v p n) : t.AgreesBut v p n :=
  fun key hkey => (huv key hkey).trans (htu key hkey)

theorem AgreesBut.mono (h : t.AgreesBut u q m) (hp : p ≤ q) (hn : q + m ≤ p + n) :
    t.AgreesBut u p n :=
  fun key hkey => h key fun i hi hi' => hkey i (by omega) (by omega)

theorem AgreesBut.get_int (h : t.AgreesBut u p n) {i : Nat} (hi : i < p ∨ p + n ≤ i) :
    u.get (.int (i + 1)) = t.get (.int (i + 1)) := by
  refine h _ fun j hj hj' => ?_
  rw [rawEq_int, decide_eq_false_iff_not]
  omega

theorem AgreesBut.itemsFrom_eq (h : t.AgreesBut u p n) (hq : q + m ≤ p ∨ p + n ≤ q) :
    u.itemsFrom q m = t.itemsFrom q m := by
  refine map_congr_left fun i hi => ?_
  rw [mem_range'_1] at hi
  exact h.get_int (by omega)

theorem isPlainKey_int : (int i).IsPlainKey := trivial

theorem get_put_int (t : Table) (i j : Int) (v : Value) :
    (t.put (.int i) v).get (.int j) = if i = j then v else t.get (.int j) := by
  rw [get_put_of_isPlainKey t (isPlainKey_int i), rawEq_int]
  simp

theorem agreesBut_put (t : Table) (p : Nat) (v : Value) :
    t.AgreesBut (t.put (.int (p + 1)) v) p 1 := by
  intro key hkey
  rw [get_put_of_isPlainKey t (isPlainKey_int _), if_neg]
  rw [hkey p (Nat.le_refl p) (Nat.lt_succ_self p)]
  exact Bool.false_ne_true

/-- A table with `b` and `a` put at the two positions after the first `p`. -/
def putPair (t : Table) (p : Nat) (b a : Value) : Table :=
  (t.put (.int ((p + 1 : Nat) + 1)) a).put (.int (p + 1)) b

theorem metatable_putPair (t : Table) (p : Nat) (b a : Value) :
    (t.putPair p b a).metatable = t.metatable := by
  rw [putPair, metatable_put, metatable_put]

theorem agreesBut_putPair (t : Table) (p : Nat) (b a : Value) :
    t.AgreesBut (t.putPair p b a) p 2 :=
  ((agreesBut_put t (p + 1) a).mono (by omega) (by omega)).trans
    ((agreesBut_put _ p b).mono (by omega) (by omega))

theorem itemsFrom_putPair (t : Table) (p n : Nat) (b a : Value) :
    (t.putPair p b a).itemsFrom p (n + 2) = b :: a :: t.itemsFrom (p + 2) n := by
  have hlater : (t.putPair p b a).get (.int ((p + 1 : Nat) + 1)) = a := by
    rw [putPair, get_put_int, if_neg (by omega), get_put_int, if_pos rfl]
  rw [itemsFrom_succ, itemsFrom_succ, hlater, putPair, get_put_int, if_pos rfl, ← putPair,
    (agreesBut_putPair t p b a).itemsFrom_eq (.inr (Nat.le_refl _))]

/-! ## Borders -/

theorem get_ne_nil_of_lt_borderFrom {fuel start i : Nat} (hstart : start ≤ i)
    (h : i < t.borderFrom fuel start) : t.get (.int (i + 1)) ≠ .nil := by
  induction fuel generalizing start with
  | zero => exact absurd h (Nat.not_lt.mpr hstart)
  | succ fuel ih =>
    rw [borderFrom] at h
    split at h
    · next hhas =>
      rcases Nat.eq_or_lt_of_le hstart with rfl | hlt
      · rw [has, Bool.not_eq_true', isNil_eq_false_iff] at hhas
        exact hhas
      · exact ih hlt h
    · exact absurd h (Nat.not_lt.mpr hstart)

def items (t : Table) : List Value := t.itemsFrom 0 t.border

theorem length_items (t : Table) : t.items.length = t.border := length_itemsFrom t 0 t.border

theorem ne_nil_of_mem_items {v : Value} (h : v ∈ t.items) : v ≠ .nil := by
  obtain ⟨i, hi, rfl⟩ := mem_map.mp h
  rw [mem_range'_1, Nat.zero_add] at hi
  exact get_ne_nil_of_lt_borderFrom hi.1 hi.2

end Table

namespace Store

variable {s : Store} {id : Nat}

def putItem (s : Store) (id : Nat) (i : Int) (v : Value) : Store :=
  { s with tables := s.tables.modify id fun t => t.put (.int i) v }

theorem lt_size_of_get_ne_nil {key : Value} (h : (s.table id).get key ≠ .nil) :
    id < s.tables.size := by
  obtain ⟨e, he, -⟩ := exists_mem_of_get_ne_nil h
  by_contra hid
  simp [Store.table, hid] at he

theorem table_putItem (hid : id < s.tables.size) (i : Int) (v : Value) :
    (s.putItem id i v).table id = (s.table id).put (.int i) v :=
  table_modify s id _ hid

theorem metatable_putItem (h : (s.table id).metatable = none) (i : Int) (v : Value) :
    ((s.putItem id i v).table id).metatable = none := by
  by_cases hid : id < s.tables.size
  · rw [table_putItem hid, metatable_put, h]
  · simp [Store.table, putItem, hid]

/-- A store with `b` and `a` put at the two positions of a table after the first `p`. -/
def putPair (s : Store) (id p : Nat) (b a : Value) : Store :=
  (s.putItem id ((p + 1 : Nat) + 1) a).putItem id (p + 1) b

theorem table_putPair (hid : id < s.tables.size) (p : Nat) (b a : Value) :
    (s.putPair id p b a).table id = (s.table id).putPair p b a := by
  have hid' : id < (s.putItem id ((p + 1 : Nat) + 1) a).tables.size := by
    rwa [putItem, Array.size_modify]
  rw [putPair, table_putItem hid', table_putItem hid, Table.putPair]

end Store

namespace TableLibrary

variable {k : Evaluator} {id : Nat} {s : Store}

theorem item_of_metatable_eq_none (h : (s.table id).metatable = none) (k : Evaluator) (i : Int) :
    item k (.table id) i s = .ok ((s.table id).get (.int i)) s := by
  rw [item, read_of_metatable_eq_none h]
  rfl

theorem put_of_metatable_eq_none (h : (s.table id).metatable = none) (k : Evaluator) (i : Int)
    (v : Value) : put k (.table id) i v s = .ok () (s.putItem id i v) := by
  rw [put, write_of_metatable_eq_none h]
  rfl

/-! ## Sweeps -/

/-- Compares the values at the two positions of a table after the first `p`. -/
def compareAt (k : Evaluator) (comp : Value) (id p : Nat) : Run Bool := fun s =>
  outOfOrder k comp ((s.table id).get (.int ((p + 1 : Nat) + 1)))
    ((s.table id).get (.int (p + 1))) s

section

variable {comp : Value} {p : Nat} {t : Store}

variable (hmetatable : (s.table id).metatable = none)
include hmetatable

theorem items_bind {α : Type} (k : Evaluator) (p : Nat) (f : Value → Value → Run α) :
    (item k (.table id) ((p + 1 : Nat) + 1) >>= fun b => item k (.table id) (p + 1) >>= f b) s =
      f ((s.table id).get (.int ((p + 1 : Nat) + 1))) ((s.table id).get (.int (p + 1))) s :=
  (bind_of_ok (item_of_metatable_eq_none hmetatable k _)).trans
    (bind_of_ok (item_of_metatable_eq_none hmetatable k _))

theorem pass_of_error {e : Signal} (h : compareAt k comp id p s = .error e t) (count : Nat)
    (swapped : Bool) : pass k (.table id) comp (count + 1) (p + 1) swapped s = .error e t :=
  (items_bind hmetatable k p _).trans (bind_of_error h)

theorem pass_of_kept (h : compareAt k comp id p s = .ok false t) (count : Nat) (swapped : Bool) :
    pass k (.table id) comp (count + 1) (p + 1) swapped s =
      pass k (.table id) comp count ((p + 1 : Nat) + 1) swapped t :=
  (items_bind hmetatable k p _).trans (bind_of_ok h)

/-- Where the comparison has left the table alone, the values that were compared are swapped. -/
theorem pass_of_swapped (h : compareAt k comp id p s = .ok true t)
    (htable : t.table id = s.table id) (count : Nat) (swapped : Bool) :
    pass k (.table id) comp (count + 1) (p + 1) swapped s =
      pass k (.table id) comp count ((p + 1 : Nat) + 1) true
        (t.putPair id p ((s.table id).get (.int ((p + 1 : Nat) + 1)))
          ((s.table id).get (.int (p + 1)))) := by
  have hput := put_of_metatable_eq_none (htable ▸ hmetatable) k ((p + 1 : Nat) + 1)
    ((s.table id).get (.int (p + 1)))
  have hput' := put_of_metatable_eq_none (Store.metatable_putItem (htable ▸ hmetatable)
    ((p + 1 : Nat) + 1) ((s.table id).get (.int (p + 1)))) k (p + 1)
    ((s.table id).get (.int ((p + 1 : Nat) + 1)))
  refine (items_bind hmetatable k p _).trans ((bind_of_ok h).trans ?_)
  refine (items_bind (htable ▸ hmetatable) k p _).trans ?_
  rw [htable]
  exact (bind_of_ok hput).trans (bind_of_ok hput')

end

/-- What sorting relies on, in the stores of a set: comparisons of elements answer as `lt` does,
leave the table alone and do not lead out of the set, and neither does putting an element at a
position. -/
structure Sortable (k : Evaluator) (comp : Value) (id : Nat) (vs : List Value)
    (lt : Value → Value → Bool) (I : Store → Prop) : Prop where
  not_nil : ∀ a ∈ vs, a ≠ .nil
  compares : ∀ u, I u → ∀ a ∈ vs, ∀ b ∈ vs,
    ∃ v, outOfOrder k comp a b u = .ok (lt a b) v ∧ I v ∧ v.table id = u.table id
  moves : ∀ u, I u → ∀ i < vs.length, ∀ a ∈ vs, I (u.putItem id (i + 1) a)

section

variable {comp : Value} {vs rest : List Value} {lt : Value → Value → Bool} {I : Store → Prop}
  {a b : Value} {p : Nat}

section

variable (h : Sortable k comp id vs lt I)
include h

theorem pass_succ (hs : I s) (hmetatable : (s.table id).metatable = none)
    (hitems : (s.table id).itemsFrom p (rest.length + 2) = a :: b :: rest) (ha : a ∈ vs)
    (hb : b ∈ vs) (hp : p + 1 < vs.length) (swapped : Bool) :
    ∃ t, I t ∧ (t.table id).metatable = none ∧
      (t.table id).itemsFrom p (rest.length + 2) =
        (if lt b a then b else a) :: (if lt b a then a else b) :: rest ∧
      (s.table id).AgreesBut (t.table id) p 2 ∧
      pass k (.table id) comp (rest.length + 1) (p + 1) swapped s =
        pass k (.table id) comp rest.length ((p + 1 : Nat) + 1) (swapped || lt b a) t := by
  obtain ⟨u, hcompare, hu, htable⟩ := h.compares s hs b hb a ha
  have hfirst := hitems
  rw [itemsFrom_succ, itemsFrom_succ, List.cons.injEq, List.cons.injEq] at hfirst
  obtain ⟨hget, hget', hrest⟩ := hfirst
  have hcompareAt : compareAt k comp id p s = .ok (lt b a) u := by
    rw [compareAt, hget, hget', hcompare]
  cases hlt : lt b a with
  | true =>
    rw [hlt] at hcompareAt
    have hset : (u.table id).get (.int (p + 1)) ≠ .nil := by
      rw [htable, hget]
      exact h.not_nil a ha
    have hpair := Store.table_putPair (Store.lt_size_of_get_ne_nil hset) p b a
    have hpass := pass_of_swapped hmetatable hcompareAt htable rest.length swapped
    rw [htable] at hpair
    rw [hget, hget'] at hpass
    refine ⟨u.putPair id p b a, h.moves _ (h.moves u hu (p + 1) hp a ha) p (Nat.lt_of_succ_lt hp) b hb,
      ?_, ?_, ?_, ?_⟩
    · rw [hpair, metatable_putPair, hmetatable]
    · rw [hpair, itemsFrom_putPair, hrest]
      rfl
    · exact hpair ▸ agreesBut_putPair _ p b a
    · rw [Bool.or_true, hpass]
  | false =>
    rw [hlt] at hcompareAt
    refine ⟨u, hu, htable ▸ hmetatable, ?_, htable ▸ .refl _ _ _, ?_⟩
    · rw [htable, hitems]
      rfl
    · rw [Bool.or_false]
      exact pass_of_kept hmetatable hcompareAt rest.length swapped

/-- A sweep over a part of the table does to its items what a sweep does to a list. The induction is
on the items behind the one that is carried along. -/
theorem pass_of_sortable (hs : I s) (hmetatable : (s.table id).metatable = none)
    (hitems : (s.table id).itemsFrom p (rest.length + 1) = a :: rest) (hsub : a :: rest ⊆ vs)
    (hbound : p + rest.length < vs.length) (swapped : Bool) :
    ∃ u, pass k (.table id) comp rest.length (p + 1) swapped s =
        .ok (swapped || (carry lt a rest).2) u ∧
      I u ∧ (u.table id).metatable = none ∧
      (u.table id).itemsFrom p (rest.length + 1) = (carry lt a rest).1 ∧
      (s.table id).AgreesBut (u.table id) p (rest.length + 1) := by
  induction rest generalizing p a s swapped with
  | nil =>
    refine ⟨s, ?_, hs, hmetatable, hitems, .refl _ _ _⟩
    rw [carry, Bool.or_false]
    rfl
  | cons b rest ih =>
    rw [length_cons] at hitems hbound ⊢
    obtain ⟨ha, hsub⟩ := cons_subset.mp hsub
    obtain ⟨hb, hsub⟩ := cons_subset.mp hsub
    obtain ⟨t, ht, hmetatable', hitems', hstep, hpass⟩ :=
      pass_succ h hs hmetatable hitems ha hb (by omega) swapped
    rw [itemsFrom_succ, List.cons.injEq] at hitems'
    have hcarried : (if lt b a then a else b) ∈ vs := by
      split
      · exact ha
      · exact hb
    obtain ⟨u, hrun, hu, hmetatable'', hresult, hagrees⟩ := ih ht hmetatable' hitems'.2
      (cons_subset.mpr ⟨hcarried, hsub⟩) (by omega) (swapped || lt b a)
    refine ⟨u, ?_, hu, hmetatable'', ?_, ?_⟩
    · rw [hpass, hrun, carry_cons, Bool.or_assoc]
    · rw [itemsFrom_succ, hresult, hagrees.get_int (.inl (Nat.lt_succ_self p)), hitems'.1,
        carry_cons]
    · exact (hstep.mono (Nat.le_refl p) (by omega)).trans (hagrees.mono (by omega) (by omega))

/-- Sweeps are repeated until one swaps nothing. The induction is on the fuel, of which there is more
than inversions; each sweep that swaps neighbours leaves fewer. -/
theorem loop_sorts (horder : StrictWeakOrderOn lt vs) {ws : List Value} {fuel : Nat} (hs : I s)
    (hmetatable : (s.table id).metatable = none) (hitems : (s.table id).itemsFrom 0 vs.length = ws)
    (hws : Rearranges lt vs ws) (hfuel : inversions lt ws < fuel) :
    ∃ u, Run.loop fuel (fun () => do
        return if ← pass k (.table id) comp (vs.length - 1) 1 false then .inl () else .inr ()) () s =
          .ok () u ∧
      Rearranges lt vs ((u.table id).itemsFrom 0 vs.length) ∧
      ((u.table id).itemsFrom 0 vs.length).Pairwise (fun x y => lt y x = false) ∧
      (s.table id).AgreesBut (u.table id) 0 vs.length := by
  induction fuel generalizing s ws with
  | zero => cases hfuel
  | succ fuel ih =>
    have hlength := congrArg List.length hitems
    rw [length_itemsFrom] at hlength
    cases ws with
    | nil =>
      refine ⟨s, ?_, hitems ▸ hws, hitems ▸ .nil, .refl _ _ _⟩
      rw [hlength]
      rfl
    | cons a rest =>
      rw [length_cons] at hlength
      have horder' := horder.of_subset hws.perm.subset
      rw [hlength] at hitems ih ⊢
      obtain ⟨u, hpass, hu, hmetatable', hresult, hagrees⟩ :=
        pass_of_sortable h hs hmetatable hitems hws.perm.subset (by omega) false
      have hround : (do
          return if ← pass k (.table id) comp rest.length 1 false then .inl () else .inr () :
            Run (Unit ⊕ Unit)) s = .ok (if (carry lt a rest).2 then .inl () else .inr ()) u := by
        exact bind_of_ok hpass
      cases hswapped : (carry lt a rest).2 with
      | true =>
        have hfewer := inversions_carry horder'
        rw [hswapped] at hround hfewer
        obtain ⟨v, hloop, hrearranges, hsorted, hagrees'⟩ := ih hu hmetatable' hresult
          (hws.carry horder) (Nat.lt_of_lt_of_le hfewer (Nat.le_of_lt_succ hfuel))
        exact ⟨v, (bind_of_ok hround).trans hloop, hrearranges, hsorted,
          hagrees.trans hagrees'⟩
      | false =>
        obtain ⟨hsame, hsorted⟩ := pairwise_of_not_swapped horder' hswapped
        rw [hswapped] at hround
        rw [hsame] at hresult
        exact ⟨u, bind_of_ok hround, hresult ▸ hws, hresult ▸ hsorted, hagrees⟩

omit h in
theorem length_eq_border (h : (s.table id).metatable = none) (call : Caller) (raw : Bool) :
    Operator.length call (.table id) raw s = .ok (.int (s.table id).border) s := by
  have hmethod : hasMetavalue (.table id) "__len" s = .ok false s :=
    bind_of_ok (metatable_of_eq_none h _)
  exact bind_of_ok hmethod

omit h in
theorem sort_eq_loop (hmetatable : (s.table id).metatable = none) {n : Nat}
    (hborder : (s.table id).border = n) (k : Evaluator) (comp : Value) :
    sort k (.table id) comp s = Run.loop k.fuel (fun () => do
      return if ← pass k (.table id) comp (n - 1) 1 false then .inl () else .inr ()) () s := by
  have hspan : span 1 (n - 1) = n - 1 := by
    unfold span
    omega
  rw [sort, bind_of_ok (length_eq_border hmetatable k.call false), hborder]
  show loop k.fuel _ () s = _
  rw [hspan]

/-- A table without metatable is sorted, if there is more fuel than the square of its length. -/
theorem sort_of_sortable (horder : StrictWeakOrderOn lt vs) (hs : I s)
    (hmetatable : (s.table id).metatable = none) (hitems : (s.table id).items = vs)
    (hfuel : vs.length * vs.length < k.fuel) :
    ∃ t, sort k (.table id) comp s = .ok () t ∧
      Rearranges lt vs ((t.table id).itemsFrom 0 vs.length) ∧
      ((t.table id).itemsFrom 0 vs.length).Pairwise (fun x y => lt y x = false) ∧
      (s.table id).AgreesBut (t.table id) 0 vs.length := by
  have hborder : (s.table id).border = vs.length := by rw [← hitems, length_items]
  rw [Table.items, hborder] at hitems
  obtain ⟨t, hloop, hresult⟩ := loop_sorts h horder hs hmetatable hitems (.refl lt vs)
    (Nat.lt_of_le_of_lt (inversions_le lt vs) hfuel)
  exact ⟨t, (sort_eq_loop hmetatable hborder k comp).trans hloop, hresult⟩

end

variable {m f : Nat} {t : Store}

theorem call_sort (hf : s.function? f = some (.ofBuiltin .tableSort))
    (h : sort (withFuel m) (.table id) comp s = .ok () t) (scope : Option Nat) (traced : Bool) :
    (withFuel (m + 1)).call (.func f) [.one (.table id), .one comp] scope traced s =
      .ok (.many []) t :=
  call_builtin_of_ok hf (bind_of_ok h)

end

/-! ## Comparison functions -/

/-- The stores that can come up while a table is sorted: elements are compared, and put at its
positions. -/
inductive During (k : Evaluator) (comp : Value) (id : Nat) (vs : List Value) (s : Store) :
    Store → Prop
  | start : During k comp id vs s s
  | compared {u v : Store} {a b : Value} {r : Results} : During k comp id vs s u →
      a ∈ vs → b ∈ vs → k.call comp [.one a, .one b] none true u = .ok r v →
      During k comp id vs s v
  | moved {u : Store} {i : Nat} {a : Value} : During k comp id vs s u → i < vs.length → a ∈ vs →
      During k comp id vs s (u.putItem id (i + 1) a)

/-- Whenever a function compares two elements, it gives one boolean, as `lt` says, and leaves the
table alone. -/
def Compares (k : Evaluator) (comp : Value) (id : Nat) (vs : List Value)
    (lt : Value → Value → Bool) (s : Store) : Prop :=
  ∀ u, During k comp id vs s u → ∀ a ∈ vs, ∀ b ∈ vs,
    ∃ v, k.call comp [.one a, .one b] none true u = .ok (.ofList [.bool (lt a b)]) v ∧
      v.table id = u.table id

theorem Compares.sortable {g : Nat} {vs : List Value} {lt : Value → Value → Bool}
    (h : Compares k (.func g) id vs lt s) (hvs : ∀ a ∈ vs, a ≠ .nil) :
    Sortable k (.func g) id vs lt (During k (.func g) id vs s) where
  not_nil := hvs
  compares := by
    intro u hu a ha b hb
    obtain ⟨v, hcall, htable⟩ := h u hu a ha b hb
    exact ⟨v, bind_of_ok hcall, .compared hu ha hb hcall, htable⟩
  moves := fun _ hu _ hi _ ha => .moved hu hi ha

end TableLibrary

namespace Eval

variable {s : Store}

/-- A function `function(x, y) return x < y end`. -/
inductive ReturnsLess (f : Function) : Prop
  | intro {parent : Nat} {x y : Bytes} {body : Block} {st : Stat} {e left right : Expr} :
      f.scope = some parent → f.params = [x, y] → x ≠ y → f.code = .block body → body.stats = [] →
      body.ret = some st → st.form = .return (some [e]) → e.form = .binary .lt left right →
      left.Spells x → right.Spells y → ReturnsLess f

variable {e : Expr} {x : Bytes}

theorem single_of_spells (h : e.Spells x) (n scope : Nat) (s : Store) :
    single (withFuel (n + 1)) scope e s = .ok (s.getName scope x) s := by
  obtain ⟨name, hform, hname⟩ := h
  have hexpr : (withFuel (n + 1)).expr scope e s = .ok (.one (s.getName scope x)) s := by
    show expression (withFuel n) scope e s = _
    simp only [expression, hform]
    exact traced_eq_ok_iff.mpr (bind_of_ok (nameString_eq_ok_iff.mpr ⟨hname, rfl⟩))
  simp only [single, hform]
  exact bind_of_ok hexpr

theorem expr_less {left right : Expr} {y : Bytes} {scope : Nat} {i j : Int}
    (hform : e.form = .binary .lt left right) (hleft : left.Spells x) (hright : right.Spells y)
    (hx : s.getName scope x = .int i) (hy : s.getName scope y = .int j) (n : Nat) :
    (withFuel (n + 2)).expr scope e s = .ok (.one (.bool (decide (i < j)))) s := by
  have hsingle := single_of_spells hleft n scope s
  have hsingle' := single_of_spells hright n scope s
  rw [hx] at hsingle
  rw [hy] at hsingle'
  show expression (withFuel (n + 1)) scope e s = _
  simp only [expression, hform]
  refine traced_eq_ok_iff.mpr (bind_of_ok ?_)
  exact (bind_of_ok hsingle).trans (bind_of_ok hsingle')

theorem call_less {m g : Nat} {f : Function} (hf : ReturnsLess f) (hg : s.function? g = some f)
    (i j : Int) (caller : Option Nat) (traced : Bool) :
    ∃ t, (withFuel (m + 4)).call (.func g) [.one (.int i), .one (.int j)] caller traced s =
        .ok (.ofList [.bool (decide (i < j))]) t ∧
      t.tables = s.tables ∧ t.functions = s.functions := by
  obtain @⟨parent, x, y, body, st, e, left, right, hscope, hparams, hne, hcode, hstats, hret, hst,
    hform, hleft, hright⟩ := hf
  have hdistinct : f.params.Nodup := by simp [hparams, hne]
  have hx : (entry s f parent [.one (.int i), .one (.int j)]).getName s.scopes.size x = .int i :=
    getName_entry hdistinct (i := 0) (by rw [hparams]; rfl)
  have hy : (entry s f parent [.one (.int i), .one (.int j)]).getName s.scopes.size y = .int j :=
    getName_entry hdistinct (i := 1) (by rw [hparams]; rfl)
  refine ⟨entry s f parent [.one (.int i), .one (.int j)], ?_, rfl, rfl⟩
  refine (call_eq_ok_iff hg hcode hscope).mpr (blockValue_eq_ok_iff.mpr (.inr ?_))
  have hreturn := statement_return hst (bind_of_ok (expr_less hform hleft hright hx hy m))
  simp only [flatMap_singleton, flattenAll] at hreturn
  rw [runBlock, hstats, hret]
  exact (bind_of_ok (pure_apply none)).trans (bind_of_error hreturn)

end Eval

namespace TableLibrary

variable {s : Store} {id : Nat}

def intLess : Value → Value → Bool
  | .num (.int i), .num (.int j) => decide (i < j)
  | _, _ => false

/-- Whatever else happens while integers are sorted, the function is still there and compares them. -/
theorem compares_less {m g : Nat} {f : Function} (hf : Eval.ReturnsLess f)
    (hg : s.function? g = some f) (id : Nat) (is : List Int) :
    Compares (withFuel (m + 4)) (.func g) id (is.map .int) intLess s := by
  intro u hu
  have hkept : u.function? g = some f := by
    induction hu with
    | start => exact hg
    | compared _ ha hb hcall ih =>
      obtain ⟨i, -, rfl⟩ := mem_map.mp ha
      obtain ⟨j, -, rfl⟩ := mem_map.mp hb
      obtain ⟨t, ht, -, hfunctions⟩ := call_less (m := m) hf ih i j none true
      cases ht.symm.trans hcall
      rw [Store.function?, hfunctions]
      exact ih
    | moved _ _ _ ih => exact ih
  simp only [forall_mem_map]
  intro i _ j _
  obtain ⟨t, ht, htables, -⟩ := call_less (m := m) hf hkept i j none true
  exact ⟨t, ht, by rw [Store.table, htables, ← Store.table]⟩

theorem strictWeakOrderOn_intLess (is : List Int) : StrictWeakOrderOn intLess (is.map .int) := by
  constructor
  · exact forall_mem_map.mpr fun i _ => decide_eq_false (lt_irrefl i)
  · simp only [forall_mem_map]
    intro i _ j _ l _ hij hjl
    exact decide_eq_true (lt_trans (of_decide_eq_true hij) (of_decide_eq_true hjl))
  · simp only [forall_mem_map]
    intro i _ j _ l _ hij hjl
    have hequal {i j : Int} : equivalent intLess (.int i) (.int j) = true ↔ i = j := by
      rw [equivalent_eq_true_iff]
      show decide (i < j) = false ∧ decide (j < i) = false ↔ i = j
      simp only [decide_eq_false_iff_not]
      omega
    rw [hequal] at hij hjl ⊢
    exact hij.trans hjl

/-- Sorting with a comparison function sorts. Let a table have no metatable, and let a function give
one boolean for any two of its items whenever it is called, leave the table alone and order these
items. With fuel for as many sweeps as the square of their number, sorting ends. Then the table has
the same items, none of which comes before an earlier one, equivalent items are in the order that
they had, and what the table has under other keys is unchanged. -/
theorem sort_is_stable {m f g id : Nat} {vs : List Value} {lt : Value → Value → Bool} {s : Store}
    (hf : s.function? f = some (.ofBuiltin .tableSort))
    (hmetatable : (s.table id).metatable = none) (hitems : (s.table id).items = vs)
    (hcompares : Compares (withFuel m) (.func g) id vs lt s) (horder : StrictWeakOrderOn lt vs)
    (hfuel : vs.length * vs.length < m) (scope : Option Nat) (traced : Bool) :
    ∃ t ws, (withFuel (m + 1)).call (.func f) [.one (.table id), .one (.func g)] scope traced s =
        .ok (.many []) t ∧
      (t.table id).itemsFrom 0 vs.length = ws ∧ ws.Perm vs ∧
      (∀ (i j : Nat) (a b : Value), i ≤ j → ws[i]? = some a → ws[j]? = some b → lt b a = false) ∧
      (∀ a ∈ vs, ws.filter (equivalent lt a) = vs.filter (equivalent lt a)) ∧
      ∀ key, (∀ i : Nat, i < vs.length → (Value.int (i + 1)).rawEq key = false) →
        (t.table id).get key = (s.table id).get key := by
  have hnil : ∀ a ∈ vs, a ≠ .nil := fun a ha => ne_nil_of_mem_items (hitems ▸ ha)
  have hn : (withFuel m).fuel = m := by cases m <;> rfl
  obtain ⟨t, hsort, hrearranges, hsorted, hagrees⟩ := sort_of_sortable (hcompares.sortable hnil)
    horder .start hmetatable hitems (hn.symm ▸ hfuel)
  refine ⟨t, _, call_sort hf hsort scope traced, rfl, hrearranges.perm, ?_, hrearranges.stable, ?_⟩
  · exact fun i j a b hij ha hb => hrearranges.not_lt horder hsorted hij ha hb
  · exact fun key hkey => hagrees key fun i _ hi => hkey i (by omega)

/-- The function `function(a, b) return a < b end`. -/
def lessFunction : Function where
  params := [Bytes.ofAscii "a", Bytes.ofAscii "b"]
  variadic := false
  scope := some 0
  code := .block (.mk {} [] (some (.mk {} (.return (some [.mk {} (.binary .lt
    (.mk {} (.variable { lexeme := { text := "a" } }))
    (.mk {} (.variable { lexeme := { text := "b" } })))])))))

theorem returnsLess_lessFunction : Eval.ReturnsLess lessFunction :=
  .intro rfl rfl (by decide) rfl rfl rfl rfl rfl ⟨_, rfl, rfl⟩ ⟨_, rfl, rfl⟩

/-- A session with the library, that function and a table with items and a further field. -/
def sortingStore (is : List Int) : Store :=
  { tables := #[{}, Table.ofPairs ((.str [120], .bool true) ::
      (List.range is.length).map fun (i : Nat) => (.int (i + 1), .int (is.getD i 0)))]
    functions := (all.map Function.ofBuiltin).toArray.push lessFunction
    scopes := #[{ session := 0, parent := none }]
    sessions := #[{ globals := 0, root := 0 }] }

/-- Three integers are sorted, and the other field is kept. -/
theorem sortingStore_sorted : ∃ t ws,
    (withFuel 11).call (.func Builtin.tableSort.number)
      [.one (.table 1), .one (.func Builtin.all.length)] none true (sortingStore [2, 3, 1]) =
        .ok (.many []) t ∧
    (t.table 1).itemsFrom 0 3 = ws ∧ ws.Perm [.int 2, .int 3, .int 1] ∧
    (∀ (i j : Nat) (a b : Value), i ≤ j → ws[i]? = some a → ws[j]? = some b →
      intLess b a = false) ∧
    (t.table 1).get (.str [120]) = .bool true := by
  have hless : (sortingStore [2, 3, 1]).function? all.length = some lessFunction := rfl
  have hitems : ((sortingStore [2, 3, 1]).table 1).items = [2, 3, 1].map .int := rfl
  obtain ⟨t, ws, hcall, hws, hperm, hsorted, -, hother⟩ := sort_is_stable (m := 10)
    (f := tableSort.number) rfl rfl hitems
    (compares_less (m := 6) returnsLess_lessFunction hless 1 [2, 3, 1])
    (strictWeakOrderOn_intLess [2, 3, 1]) (by decide) none true
  exact ⟨t, ws, hcall, hws, hperm, hsorted, hother _ fun i _ => rfl⟩

/-! ## The default order -/

section

variable {is js : List Int}

theorem exists_ints {ws : List Value} (h : ws.Perm (is.map .int)) :
    ∃ js : List Int, ws = js.map .int ∧ js.Perm is := by
  have hinjective : Function.Injective int := fun i j hij => by cases hij; rfl
  have hrange : ws ∈ Set.range (List.map .int) := by
    rw [Set.range_list_map]
    intro v hv
    obtain ⟨i, -, hi⟩ := mem_map.mp (h.subset hv)
    exact ⟨i, hi⟩
  obtain ⟨js, rfl⟩ := hrange
  exact ⟨js, rfl, (map_perm_map_iff hinjective).mp h⟩

theorem eq_of_perm_of_increasing {ks : List Int} (hperm : js.Perm ks) (hjs : js.Pairwise (· ≤ ·))
    (hks : ks.Pairwise (· ≤ ·)) : js = ks :=
  hperm.eq_of_pairwise (fun _ _ _ _ => le_antisymm) hjs hks

/-- Integers in increasing order are in decreasing order only if they are all the same. -/
theorem pairwise_reverse_iff (h : js.Pairwise (· ≤ ·)) :
    js.reverse.Pairwise (· ≤ ·) ↔ ∀ i ∈ js, ∀ j ∈ js, i = j := by
  rw [pairwise_reverse]
  constructor
  · intro hreverse
    have hequal : js.Pairwise (· = ·) := (h.and hreverse).imp fun hle => le_antisymm hle.1 hle.2
    exact fun i hi j hj => List.Pairwise.forall_of_forall (fun _ _ => rfl) hequal hi hj
  · exact fun hequal => pairwise_of_forall_mem_list fun i hi j hj => (hequal j hj i hi).le

theorem sortable_default (k : Evaluator) (id : Nat) (is : List Int) :
    Sortable k .nil id (is.map .int) (fun a b => intLess b a) fun _ => True where
  not_nil := forall_mem_map.mpr fun _ _ => nofun
  compares := by
    simp only [forall_mem_map]
    exact fun u _ i _ j _ => ⟨u, rfl, trivial, rfl⟩
  moves := fun _ _ _ _ _ _ => trivial

end

/-- Sorting integers without a comparison function sorts them in decreasing order, which is the
reverse of what sorting them with `function(a, b) return a < b end` does. The two agree, and the
result is in increasing order, only if all the integers are the same. -/
theorem default_sort_is_decreasing {m f g id : Nat} {less : Function} {is : List Int} {s : Store}
    (hf : s.function? f = some (.ofBuiltin .tableSort)) (hg : s.function? g = some less)
    (hless : Eval.ReturnsLess less) (hmetatable : (s.table id).metatable = none)
    (hitems : (s.table id).items = is.map .int) (hfuel : is.length * is.length < m + 4)
    (scope : Option Nat) (traced : Bool) :
    ∃ (js : List Int) (t u : Store), js.Perm is ∧ js.Pairwise (· ≤ ·) ∧
      (withFuel (m + 5)).call (.func f) [.one (.table id), .one (.func g)] scope traced s =
        .ok (.many []) t ∧
      (t.table id).itemsFrom 0 is.length = js.map .int ∧
      (withFuel (m + 5)).call (.func f) [.one (.table id)] scope traced s = .ok (.many []) u ∧
      (u.table id).itemsFrom 0 is.length = js.reverse.map .int ∧
      (js.reverse.Pairwise (· ≤ ·) ↔ ∀ i ∈ is, ∀ j ∈ is, i = j) ∧
      (js.reverse = js ↔ ∀ i ∈ is, ∀ j ∈ is, i = j) := by
  have hlength : (is.map int).length = is.length := length_map _
  have horder := strictWeakOrderOn_intLess is
  have hnil : ∀ a ∈ is.map int, a ≠ .nil := (sortable_default (withFuel 0) id is).not_nil
  obtain ⟨t, hsort, hrearranges, hsorted, -⟩ :=
    sort_of_sortable ((compares_less (m := m) hless hg id is).sortable hnil) horder .start hmetatable
      hitems (hlength.symm ▸ hfuel)
  obtain ⟨u, hsort', hrearranges', hsorted', -⟩ :=
    sort_of_sortable (sortable_default (withFuel (m + 4)) id is) horder.flip trivial hmetatable
      hitems (hlength.symm ▸ hfuel)
  rw [hlength] at hrearranges hsorted hrearranges' hsorted'
  obtain ⟨js, hjs, hperm⟩ := exists_ints hrearranges.perm
  obtain ⟨ks, hks, hperm'⟩ := exists_ints hrearranges'.perm
  rw [hjs, pairwise_map] at hsorted
  rw [hks, pairwise_map] at hsorted'
  have hincreasing : js.Pairwise (· ≤ ·) :=
    hsorted.imp fun hlt => not_lt.mp (of_decide_eq_false hlt)
  have hdecreasing : ks.reverse.Pairwise (· ≤ ·) :=
    pairwise_reverse.mpr (hsorted'.imp fun hlt => not_lt.mp (of_decide_eq_false hlt))
  obtain rfl : ks.reverse = js := eq_of_perm_of_increasing
    ((reverse_perm ks).trans (hperm'.trans hperm.symm)) hdecreasing hincreasing
  have hequal : (∀ i ∈ ks.reverse, ∀ j ∈ ks.reverse, i = j) ↔ ∀ i ∈ is, ∀ j ∈ is, i = j := by
    simp only [hperm.mem_iff]
  have hboth := pairwise_reverse_iff hincreasing
  rw [hequal] at hboth
  refine ⟨_, t, u, hperm, hincreasing, call_sort hf hsort scope traced, hjs,
    call_builtin_of_ok hf (bind_of_ok hsort'), ?_, hboth, ?_⟩
  · rw [reverse_reverse, hks]
  · rw [← hboth]
    constructor
    · exact fun hreverse => hreverse.symm ▸ hincreasing
    · exact fun hreverse => eq_of_perm_of_increasing (reverse_perm _) hreverse hincreasing

/-- Two integers in increasing order are left as they are with the comparison function, and swapped
without one. -/
theorem sortingStore_sorted_decreasing : ∃ t u,
    (withFuel 6).call (.func Builtin.tableSort.number)
      [.one (.table 1), .one (.func Builtin.all.length)] none true (sortingStore [1, 2]) =
        .ok (.many []) t ∧
    (t.table 1).itemsFrom 0 2 = [.int 1, .int 2] ∧
    (withFuel 6).call (.func Builtin.tableSort.number) [.one (.table 1)] none true
      (sortingStore [1, 2]) = .ok (.many []) u ∧
    (u.table 1).itemsFrom 0 2 = [.int 2, .int 1] := by
  have hless : (sortingStore [1, 2]).function? all.length = some lessFunction := rfl
  have hitems : ((sortingStore [1, 2]).table 1).items = [1, 2].map .int := rfl
  obtain ⟨js, t, u, hperm, hincreasing, hcall, ht, hcall', hu, -, -⟩ :=
    default_sort_is_decreasing (m := 1) (f := tableSort.number) rfl hless
      returnsLess_lessFunction rfl hitems (by decide) none true
  cases eq_of_perm_of_increasing hperm hincreasing (by decide)
  exact ⟨t, u, hcall, ht, hcall', hu⟩

end TableLibrary

end LuaInterpreter
