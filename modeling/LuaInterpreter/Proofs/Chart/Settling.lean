import Mathlib.Algebra.Order.BigOperators.Group.List
import Mathlib.Algebra.Order.Ring.Nat
import Mathlib.Data.List.ProdSigma
import Mathlib.Data.List.Perm.Subperm
import LuaInterpreter.Proofs.Chart.Soundness

/-!
# Settled columns

A column is settled when all consequences of its entries have been drawn. The fuel of `settle` is
enough for that: each visit to an entry is paid for by an entry that was added or that got a greater
weight, and there are only so many items and weights.
-/

namespace LuaInterpreter

open List Option Item

variable {text : List Char} {chart : Array Column} {p : Nat}

/-! ## Rounds of offers -/

/-- The entries at the places of an agenda are visited until none is left. -/
inductive Settles (chart : Array Column) (p : Nat) : List Nat → Column → Column → Prop
  | done (col : Column) : Settles chart p [] col col
  | miss {k : Nat} {agenda : List Nat} {col col' : Column} : col[k]? = none →
      Settles chart p agenda col col' → Settles chart p (k :: agenda) col col'
  | visit {k : Nat} {agenda changed : List Nat} {col col' col'' : Column} {e : Entry} :
      col[k]? = some e → EnteredAll .byRule col (e.consequences chart p col) col' changed →
      Settles chart p (changed ++ agenda) col' col'' → Settles chart p (k :: agenda) col col''

theorem exists_enteredAll (col : Column) (xs : List Entry) (changed : List Nat) :
    ∃ col' more, xs.foldl (fun (s : Column × List Nat) new =>
        ((s.1.enter .byRule new).1, (s.1.enter .byRule new).2.toList ++ s.2)) (col, changed)
      = (col', more ++ changed) ∧ EnteredAll .byRule col xs col' more := by
  induction xs generalizing col changed with
  | nil => exact ⟨col, [], rfl, .nil col⟩
  | cons x xs ih =>
    obtain ⟨col', more, hfold, hoffers⟩ := ih (col.enter .byRule x).1
      ((col.enter .byRule x).2.toList ++ changed)
    refine ⟨col', more ++ (col.enter .byRule x).2.toList, ?_, .cons (col.entered .byRule x) hoffers⟩
    rw [foldl_cons, hfold, append_assoc]

variable {k : Nat} {e : Entry} {r : Production} {x : Entry}

theorem settleFrom_visit (chart : Array Column) (p fuel : Nat) (agenda : List Nat) {col : Column}
    (he : col[k]? = some e) :
    ∃ col' changed, EnteredAll .byRule col (e.consequences chart p col) col' changed ∧
      settleFrom chart p (fuel + 1) (k :: agenda) col =
        settleFrom chart p fuel (changed ++ agenda) col' := by
  obtain ⟨col', changed, hfold, hoffers⟩ :=
    exists_enteredAll col (e.consequences chart p col) []
  refine ⟨col', changed, hoffers, ?_⟩
  rw [append_nil] at hfold
  rw [settleFrom, he]
  exact congrArg (fun s : Column × List Nat => settleFrom chart p fuel (s.2 ++ agenda) s.1) hfold

/-! ## Entries stay sound -/

/-- The columns of a chart and one more that is being settled. -/
structure Settling (text : List Char) (chart : Array Column) (p : Nat) (col : Column) : Prop where
  size : chart.size = p
  earlier : ∀ q < p, ∀ e ∈ chart.getD q #[], e.Sound text chart q
  sound : ∀ e ∈ col, e.Sound text (chart.push col) p
  distinct : col.Distinct

theorem getD_push_self (hsize : chart.size = p) (col : Column) :
    (chart.push col).getD p #[] = col := by
  rw [Array.getD_eq_getD_getElem?, Array.getElem?_push, if_pos hsize.symm, getD_some]

theorem getD_push_of_lt (hsize : chart.size = p) (col : Column) {q : Nat} (hq : q < p) :
    (chart.push col).getD q #[] = chart.getD q #[] := by
  rw [Array.getD_eq_getD_getElem?, Array.getElem?_push, if_neg (by omega),
    ← Array.getD_eq_getD_getElem?]

namespace Settling

variable {col col' : Column} {e x : Entry}

variable (h : Settling text chart p col)
include h

theorem sound_at {q : Nat} (hq : q ≤ p) (he : e ∈ (chart.push col).getD q #[]) :
    e.Sound text (chart.push col) q := by
  rcases Nat.lt_or_eq_of_le hq with hlt | rfl
  · have hsame {q' : Nat} (hq' : q' ≤ q) : (chart.push col).getD q' #[] = chart.getD q' #[] :=
      getD_push_of_lt h.size col (by omega)
    rw [hsame (Nat.le_refl q)] at he
    refine (h.earlier q hlt e he).mono (fun q' hq' => hsame (Nat.le_of_lt hq')) ?_
    rw [hsame (Nat.le_refl q)]
    exact .refl q _
  · exact h.sound e (getD_push_self h.size col ▸ he)

theorem sound_of_mem_consequences (he : e ∈ col) (hx : x ∈ e.consequences chart p col) :
    x.Sound text (chart.push col) p ∧ x.arrived = .byRule := by
  have hmem {f : Entry} (hf : f ∈ col) : f ∈ (chart.push col).getD p #[] :=
    (getD_push_self h.size col).symm ▸ hf
  have hsound := h.sound e he
  unfold Entry.consequences at hx
  split at hx
  · next hnext =>
    obtain ⟨w, hw, hx⟩ := mem_filterMap.mp hx
    split at hx
    · next hwnext =>
      cases hx
      have hw' : w ∈ (chart.push col).getD e.item.start #[] := by
        have hw := Array.mem_toList_iff.mp hw
        split at hw
        · next hstart => exact hstart ▸ hmem hw
        · next hstart =>
          have hle := hsound.start_le_home
          have hle' := hsound.home_le
          rwa [getD_push_of_lt h.size col (by omega)]
      have hle : e.item.start ≤ p := Nat.le_trans hsound.start_le_home hsound.home_le
      refine ⟨.category (h.sound_at hle hw') hw' hsound (hmem he) rfl ?_ hwnext, rfl⟩
      rw [Item.isComplete, hnext, isNone_none]
    · cases hx
  · next c hnext =>
    rcases mem_append.mp hx with hx | hx
    · split at hx
      · cases hx
      · obtain ⟨r, -, rfl⟩ := mem_map.mp hx
        exact ⟨.predicted r p, rfl⟩
    · obtain ⟨y, hy, hx⟩ := mem_filterMap.mp hx
      split at hx
      · next hreads =>
        cases hx
        obtain ⟨hstart, hcategory, hcomplete⟩ := Entry.reads_iff.mp hreads
        have hy := Array.mem_toList_iff.mp hy
        exact ⟨.category hsound (hmem he) (h.sound y hy) (hmem hy) hstart hcomplete
          (hcategory ▸ hnext), rfl⟩
      · cases hx
  · cases hx

theorem sound_mono (hrefines : col.Refines p col') (he : e.Sound text (chart.push col) p) :
    e.Sound text (chart.push col') p := by
  refine he.mono (fun q hq => ?_) ?_
  · rw [getD_push_of_lt h.size col' hq, getD_push_of_lt h.size col hq]
  · rwa [getD_push_self h.size, getD_push_self h.size]

theorem offer {place : Option Nat} (hx : x.Sound text (chart.push col) p)
    (hrule : x.arrived = .byRule) (hoffer : Entered .byRule col x col' place) :
    Settling text chart p col' ∧ col.Refines p col' := by
  have hrefines : col.Refines p col' := by
    refine hoffer.refines (hx.here (hrule ▸ nofun)) fun old hold hrule' hagrees hbeats => ?_
    have hold' := h.sound old hold
    exact hold'.weight_le_of_beats hx (hold'.here (hrule' ▸ nofun)) (hx.here (hrule ▸ nofun)) hagrees
      hbeats
  refine ⟨⟨h.size, h.earlier, fun f hf => ?_, hoffer.distinct h.distinct⟩, hrefines⟩
  rcases hoffer.mem_or_eq hf with hf | rfl
  · exact h.sound_mono hrefines (h.sound f hf)
  · exact h.sound_mono hrefines hx

end Settling

/-! ## The fuel suffices -/

def Category.all : List Category :=
  [.chunk, .block, .stats, .stat, .conditional, .elseifs, .elseif, .otherwise, .attribNames,
    .attribNameTail, .attribName, .attrib, .ret, .label, .funcName, .funcNameTail, .variables,
    .variableTail, .variable, .names, .nameTail, .exprs, .exprTail, .entry, .expr, .prefixExpr,
    .call, .args, .funcBody, .params, .table, .fields, .fieldTail, .field, .separator, .compareOp,
    .shiftOp, .sumOp, .productOp, .unaryOp, .string, .numeral, .sign, .hexNumeral, .decimalNumeral]

theorem Category.mem_all (c : Category) : c ∈ all := by
  cases c <;> decide

def dottedProductions : List (Production × Nat) :=
  (Category.all.flatMap Category.productions).flatMap fun r =>
    (List.range (r.symbols.length + 1)).map (r, ·)

theorem length_dottedProductions : dottedProductions.length ≤ dottedRules := by
  decide +kernel

theorem mem_dottedProductions {d : Nat} (hd : d ≤ r.symbols.length) :
    (r, d) ∈ dottedProductions := by
  refine mem_flatMap.mpr ⟨r, ?_, mem_map.mpr ⟨d, ?_, rfl⟩⟩
  · exact mem_flatMap.mpr ⟨r.category, r.category.mem_all, r.mem_productions⟩
  · exact mem_range.mpr (Nat.lt_succ_of_le hd)

/-- What may still be added to a column and improved in it. -/
def potential (p : Nat) (col : Column) : Nat :=
  (dottedRules * (p + 1) - col.size) * (p + 1) + (col.toList.map fun e => (-e.weight).toNat).sum

theorem sum_map_set {f : Entry → Nat} {entries : List Entry} {old : Entry}
    (h : entries[k]? = some old) (x : Entry) :
    ((entries.set k x).map f).sum + f old = (entries.map f).sum + f x := by
  induction entries generalizing k with
  | nil => cases h
  | cons e entries ih =>
    cases k with
    | zero =>
      cases h
      simp only [set_cons_zero, map_cons, sum_cons]
      omega
    | succ k =>
      have hrest := ih (k := k) h
      simp only [set_cons_succ, map_cons, sum_cons]
      omega

namespace Settling

variable {col col' : Column} {e x : Entry}

variable (h : Settling text chart p col)
include h

theorem size_le : col.size ≤ dottedRules * (p + 1) := by
  let key (e : Entry) : (Production × Nat) × Nat := ((e.item.rule, e.item.dot), e.item.start)
  have hnodup : (col.toList.map key).Nodup := by
    refine pairwise_map.mpr (pairwise_iff_getElem.mpr fun i j hi hj hij heq => ?_)
    have hitem := Prod.mk.inj heq
    have hagrees := Item.agrees_iff.mpr ⟨hitem.2, .inl (Prod.mk.inj hitem.1)⟩
    exact Nat.ne_of_lt hij (h.distinct i j _ _ (Array.getElem?_eq_getElem hi)
      (Array.getElem?_eq_getElem hj) hagrees)
  have hsubset : col.toList.map key ⊆ dottedProductions ×ˢ List.range (p + 1) := by
    intro k hk
    obtain ⟨e, he, rfl⟩ := mem_map.mp hk
    have hsound := h.sound e (Array.mem_toList_iff.mp he)
    have hstart := Nat.le_trans hsound.start_le_home hsound.home_le
    exact mem_product.mpr ⟨mem_dottedProductions hsound.dot_le,
      mem_range.mpr (Nat.lt_succ_of_le hstart)⟩
  calc col.size = (col.toList.map key).length := by rw [length_map, Array.length_toList]
    _ ≤ (dottedProductions ×ˢ List.range (p + 1)).length :=
      (List.Nodup.subperm hnodup hsubset).length_le
    _ = dottedProductions.length * (p + 1) := by rw [length_product, length_range]
    _ ≤ dottedRules * (p + 1) := Nat.mul_le_mul_right _ length_dottedProductions

/-- A place that is reported is paid for. -/
theorem potential_offer {place : Option Nat} (hx : x.Sound text (chart.push col) p)
    (hrule : x.arrived = .byRule) (hoffer : Entered .byRule col x col' place) :
    potential p col' + place.toList.length ≤ potential p col := by
  have hsize := (h.offer hx hrule hoffer).1.size_le
  have hweight := hx.weight_nonpos
  unfold potential
  cases hoffer with
  | added _ =>
    have hdebt : (-x.weight).toNat ≤ p := by
      have hneg := hx.neg_le_weight
      have hhome := hx.home_le
      omega
    rw [Array.size_push] at hsize ⊢
    obtain ⟨m, hm⟩ := Nat.exists_eq_add_of_le hsize
    have hbefore : dottedRules * (p + 1) - col.size = m + 1 := by omega
    have hafter : dottedRules * (p + 1) - (col.size + 1) = m := by omega
    rw [hbefore, hafter, Nat.succ_mul, Array.toList_push, map_append, sum_append,
      map_singleton, sum_singleton, toList_some, length_singleton]
    omega
  | @improved k old hold hagrees hrule' _ hbeats =>
    have hold' := h.sound old (Array.mem_of_getElem? hold)
    have hle := hold'.weight_le_of_beats hx (hold'.here (hrule' ▸ nofun))
      (hx.here (hrule ▸ nofun)) hagrees hbeats
    have hsum := sum_map_set (f := fun e => (-e.weight).toNat)
      ((Array.getElem?_toList).trans hold) x
    rw [Array.size_setIfInBounds, Array.toList_setIfInBounds]
    split
    · rw [toList_some, length_singleton]
      omega
    · rw [toList_none, length_nil]
      omega
  | kept _ _ _ => exact Nat.le_refl _

theorem offerAll {xs : List Entry} {changed : List Nat}
    (hxs : ∀ x ∈ xs, x.Sound text (chart.push col) p ∧ x.arrived = .byRule)
    (hoffers : EnteredAll .byRule col xs col' changed) :
    Settling text chart p col' ∧ potential p col' + changed.length ≤ potential p col := by
  induction hoffers with
  | nil => exact ⟨h, Nat.le_refl _⟩
  | cons hoffer _ ih =>
    obtain ⟨hx, hrule⟩ := hxs _ mem_cons_self
    obtain ⟨hcol, hrefines⟩ := h.offer hx hrule hoffer
    have hpaid := h.potential_offer hx hrule hoffer
    obtain ⟨hcol', hrest⟩ := ih hcol fun y hy => by
      obtain ⟨hy, hrule⟩ := hxs y (mem_cons_of_mem _ hy)
      exact ⟨h.sound_mono hrefines hy, hrule⟩
    refine ⟨hcol', ?_⟩
    rw [length_append]
    omega

theorem settles_settleFrom {fuel : Nat} {agenda : List Nat}
    (hfuel : agenda.length + potential p col ≤ fuel) :
    Settles chart p agenda col (settleFrom chart p fuel agenda col) := by
  induction fuel generalizing agenda col with
  | zero =>
    obtain rfl : agenda = [] := length_eq_zero_iff.mp (by omega)
    exact .done col
  | succ fuel ih =>
    cases agenda with
    | nil => exact .done col
    | cons k agenda =>
      rw [length_cons] at hfuel
      cases he : col[k]? with
      | none =>
        rw [settleFrom, he]
        exact .miss he (ih h (by omega))
      | some e =>
        have hxs := fun x hx => h.sound_of_mem_consequences (x := x) (Array.mem_of_getElem? he) hx
        obtain ⟨col', changed, hoffers, hvisit⟩ := settleFrom_visit chart p fuel agenda he
        obtain ⟨hcol, hpaid⟩ := h.offerAll hxs hoffers
        rw [hvisit]
        refine .visit he hoffers (ih hcol ?_)
        rw [length_append]
        omega

theorem sum_debt_le : (col.toList.map fun e => (-e.weight).toNat).sum ≤ col.size * p := by
  have hdebt : ∀ d ∈ col.toList.map fun e => (-e.weight).toNat, d ≤ p := by
    intro d hd
    obtain ⟨e, he, rfl⟩ := mem_map.mp hd
    have hsound := h.sound e (Array.mem_toList_iff.mp he)
    have hneg := hsound.neg_le_weight
    have hhome := hsound.home_le
    omega
  have hsum := sum_le_card_nsmul _ p hdebt
  rwa [length_map, Array.length_toList, nsmul_eq_mul, Nat.cast_id] at hsum

theorem settles : Settles chart p (List.range col.size) col (settle chart p col) := by
  refine h.settles_settleFrom ?_
  have hdebt := h.sum_debt_le
  have hsize := h.size_le
  obtain ⟨m, hm⟩ := Nat.exists_eq_add_of_le hsize
  unfold potential
  rw [length_range, hm, Nat.add_sub_cancel_left]
  simp only [Nat.add_mul, Nat.mul_add]
  omega

end Settling

/-! ## All consequences are drawn -/

theorem Category.category_of_mem {c : Category} (h : r ∈ c.productions) : r.category = c := by
  have hall : c.productions.all (·.category == c) = true := by
    cases c <;> decide
  exact eq_of_beq (all_eq_true.mp hall r h)

/-- A place that is not reported has no entry that weighs more. -/
theorem Entered.at_place {col col' : Column} {f : Entry} {place : Option Nat} {i : Nat}
    (h : Entered .byRule col x col' place) (hf : col'[i]? = some f) :
    place = some i ∨
    ∃ f', col[i]? = some f' ∧ f.item.agrees f'.item = true ∧ f.weight ≤ f'.weight := by
  cases h with
  | added _ =>
    rw [Array.getElem?_push] at hf
    split at hf
    · next hi => exact .inl (hi ▸ rfl)
    · exact .inr ⟨f, hf, agrees_refl _, Int.le_refl _⟩
  | @improved k old hold hagrees _ _ _ =>
    rw [Array.getElem?_setIfInBounds] at hf
    split at hf
    · next hki =>
      split at hf
      · cases hf
        split
        · exact .inl (hki ▸ rfl)
        · next hle =>
          exact .inr ⟨old, hki ▸ hold, agrees_symm hagrees, Int.not_lt.mp hle⟩
      · cases hf
    · exact .inr ⟨f, hf, agrees_refl _, Int.le_refl _⟩
  | kept _ _ _ => exact .inr ⟨f, hf, agrees_refl _, Int.le_refl _⟩

namespace EnteredAll

variable {col col' : Column} {xs : List Entry} {changed : List Nat} {f x : Entry}

variable (h : EnteredAll .byRule col xs col' changed)
include h

theorem at_place {i : Nat} (hf : col'[i]? = some f) :
    i ∈ changed ∨
    ∃ f', col[i]? = some f' ∧ f.item.agrees f'.item = true ∧ f.weight ≤ f'.weight := by
  induction h with
  | nil => exact .inr ⟨f, hf, agrees_refl _, Int.le_refl _⟩
  | cons hoffer _ ih =>
    rcases ih hf with hmem | ⟨f', hf', hagrees, hweight⟩
    · exact .inl (mem_append_left _ hmem)
    · rcases hoffer.at_place hf' with rfl | ⟨f'', hf'', hagrees', hweight'⟩
      · exact .inl (mem_append_right _ (mem_singleton_self i))
      · exact .inr ⟨f'', hf'', agrees_trans hagrees hagrees',
          Int.le_trans hweight hweight'⟩

end EnteredAll

/-- The consequences of an entry are in the column, but for those of readings without any text. -/
def Entry.Closed (chart : Array Column) (p : Nat) (col : Column) (e : Entry) : Prop :=
  match e.item.next? with
  | none => e.item.start < p → ∀ w ∈ chart.getD e.item.start #[],
    w.item.next? = some (.category e.item.rule.category) →
    col.Covers .byRule (w.extend p (.node e.home e.item) e.weight .byRule)
  | some (.category c) => ∀ r ∈ c.productions, col.Covers .byRule (Entry.predicted r p)
  | some (.terminal _) => True

/-- Entries are closed or still to be visited; a category is predicted as a whole. -/
structure Progress (chart : Array Column) (p : Nat) (agenda : List Nat) (col : Column) : Prop where
  closed : ∀ (i : Nat) (e : Entry), col[i]? = some e → i ∈ agenda ∨ e.Closed chart p col
  full : ∀ x ∈ col, x.item.start = p → x.item.dot = 0 →
    ∀ r ∈ x.item.rule.category.productions, col.Covers .byRule (Entry.predicted r p)

namespace Entry.Closed

variable {col col' : Column} {e f : Entry}

theorem mono (h : e.Closed chart p col)
    (hcovers : ∀ x, col.Covers .byRule x → col'.Covers .byRule x) : e.Closed chart p col' := by
  unfold Closed at h ⊢
  split
  · next hnext =>
    rw [hnext] at h
    exact fun hlt w hw hwnext => hcovers _ (h hlt w hw hwnext)
  · next c hnext =>
    rw [hnext] at h
    exact fun r hr => hcovers _ (h r hr)
  · trivial

/-- A reading that weighs no more than a closed one has no further consequences. -/
theorem of_agrees (h : e.Closed chart p col) (hagrees : f.item.agrees e.item = true)
    (hweight : f.weight ≤ e.weight) : f.Closed chart p col := by
  cases hcomplete : e.item.isComplete with
  | false =>
    -- the items are the same, and only the item of an incomplete entry matters
    have hitem := eq_of_agrees hagrees hcomplete
    unfold Closed at h ⊢
    rw [hitem]
    split
    · next hnext =>
      rw [Item.isComplete, hnext] at hcomplete
      cases hcomplete
    · next c hnext =>
      rw [hnext] at h
      exact h
    · trivial
  | true =>
    have hnext : e.item.next? = none := isNone_iff_eq_none.mp hcomplete
    have hnext' : f.item.next? = none := isNone_iff_eq_none.mp
      (isComplete_of_agrees hagrees hcomplete)
    unfold Closed at h ⊢
    rw [hnext] at h
    rw [hnext', start_eq_of_agrees hagrees, category_eq_of_agrees hagrees]
    intro hlt w hw hwnext
    obtain ⟨g, hg, hagrees', hbeats⟩ := h hlt w hw hwnext
    refine ⟨g, hg, hagrees', fun hrule hrule' => ?_⟩
    refine Bool.eq_false_iff.mpr fun hyes => Bool.eq_false_iff.mp (hbeats hrule hrule') ?_
    refine Entry.beats_of_weight_le ?_ ?_ ?_ hyes
    · rfl
    · rfl
    · exact Int.add_le_add_left hweight _

end Entry.Closed

/-- A fresh item among the consequences comes with the other productions of its category. -/
theorem Entry.predicted_of_mem_consequences {col : Column} (hx : x ∈ e.consequences chart p col)
    (hdot : x.item.dot = 0) :
    ∃ c, x.item.rule.category = c ∧
      ∀ r ∈ c.productions, Entry.predicted r p ∈ e.consequences chart p col := by
  unfold consequences at hx ⊢
  split
  · next hnext =>
    rw [hnext] at hx
    obtain ⟨w, -, hx⟩ := mem_filterMap.mp hx
    split at hx
    · cases hx
      cases hdot
    · cases hx
  · next c hnext =>
    rw [hnext] at hx
    rcases mem_append.mp hx with hx | hx
    · split at hx
      · cases hx
      · next hany =>
        obtain ⟨r, hr, rfl⟩ := mem_map.mp hx
        refine ⟨c, Category.category_of_mem hr, fun r' hr' => mem_append_left _ ?_⟩
        rw [if_neg hany]
        exact mem_map_of_mem hr'
    · obtain ⟨y, -, hx⟩ := mem_filterMap.mp hx
      split at hx
      · cases hx
        cases hdot
      · cases hx
  · next hnext =>
    rw [hnext] at hx
    cases hx

namespace Progress

variable {col col' : Column} {agenda changed : List Nat} {e : Entry}

theorem visit {k : Nat} (h : Progress chart p (k :: agenda) col) (he : col[k]? = some e)
    (hoffers : EnteredAll .byRule col (e.consequences chart p col) col' changed) :
    Progress chart p (changed ++ agenda) col' := by
  have hmono : ∀ x, col.Covers .byRule x → col'.Covers .byRule x :=
    fun x hx => hoffers.covers hx
  have hnew : e.Closed chart p col' := by
    unfold Entry.Closed
    split
    · next hnext =>
      intro hlt w hw hwnext
      refine hoffers.covers_of_mem ?_
      unfold Entry.consequences
      rw [hnext]
      refine mem_filterMap.mpr ⟨w, ?_, if_pos hwnext⟩
      rw [if_neg (Nat.ne_of_lt hlt)]
      exact Array.mem_toList_iff.mpr hw
    · next c hnext =>
      intro r hr
      by_cases hany : (col.toList.any fun x =>
          x.item.start == p && x.item.dot == 0 && x.item.rule.category == c) = true
      · obtain ⟨x, hx, hpredicted⟩ := any_eq_true.mp hany
        simp only [Bool.and_eq_true, beq_iff_eq] at hpredicted
        exact hmono _ (h.full x (Array.mem_toList_iff.mp hx) hpredicted.1.1 hpredicted.1.2 r
          (hpredicted.2 ▸ hr))
      · refine hoffers.covers_of_mem ?_
        unfold Entry.consequences
        rw [hnext]
        refine mem_append_left _ ?_
        rw [if_neg hany]
        exact mem_map_of_mem hr
    · trivial
  refine ⟨fun i f hf => ?_, fun x hx hstart hdot r hr => ?_⟩
  · rcases hoffers.at_place hf with hchanged | ⟨f', hf', hagrees, hweight⟩
    · exact .inl (mem_append_left _ hchanged)
    · rcases h.closed i f' hf' with hagenda | hclosed
      · rcases mem_cons.mp hagenda with rfl | hagenda
        · cases he.symm.trans hf'
          exact .inr (hnew.of_agrees hagrees hweight)
        · exact .inl (mem_append_right _ hagenda)
      · exact .inr ((hclosed.mono hmono).of_agrees hagrees hweight)
  · rcases hoffers.mem_or_mem hx with hx | hx
    · exact hmono _ (h.full x hx hstart hdot r hr)
    · obtain ⟨c, hc, hall⟩ := Entry.predicted_of_mem_consequences hx hdot
      exact hoffers.covers_of_mem (hall r (hc ▸ hr))

end Progress

namespace Settling

variable {col col' : Column} {f x : Entry}

variable {agenda : List Nat}

variable (h : Settling text chart p col)
include h

theorem done (hsettles : Settles chart p agenda col col') : Settling text chart p col' := by
  induction hsettles with
  | done => exact h
  | miss _ _ ih => exact ih h
  | visit he hoffers _ ih =>
    exact ih (h.offerAll (fun x hx => h.sound_of_mem_consequences (Array.mem_of_getElem? he) hx)
      hoffers).1

theorem closed_of_progress (hprogress : Progress chart p agenda col)
    (hsettles : Settles chart p agenda col col') (hf : f ∈ col') : f.Closed chart p col' := by
  induction hsettles with
  | done col =>
    obtain ⟨i, hi⟩ := Array.mem_iff_getElem?.mp hf
    rcases hprogress.closed i f hi with hagenda | hclosed
    · cases hagenda
    · exact hclosed
  | @miss k agenda col _ hk _ ih =>
    refine ih h ⟨fun i e he => ?_, hprogress.full⟩ hf
    rcases hprogress.closed i e he with hagenda | hclosed
    · rcases mem_cons.mp hagenda with rfl | hagenda
      · cases he.symm.trans hk
      · exact .inl hagenda
    · exact .inr hclosed
  | visit he hoffers _ ih =>
    have hxs := fun x hx => h.sound_of_mem_consequences (x := x) (Array.mem_of_getElem? he) hx
    exact ih (h.offerAll hxs hoffers).1 (hprogress.visit he hoffers) hf

end Settling

/-- What has arrived stays, and what needed not be offered still needs not. -/
theorem Settles.keeps {agenda : List Nat} {col col' : Column}
    (h : Settles chart p agenda col col') : (∀ f ∈ col, f.arrived ≠ .byRule → f ∈ col') ∧
    ∀ x, col.Covers .byRule x → col'.Covers .byRule x := by
  induction h with
  | done => exact ⟨fun f hf _ => hf, fun x hx => hx⟩
  | miss _ _ ih => exact ih
  | visit _ hoffers _ ih =>
    exact ⟨fun f hf hne => ih.1 f (hoffers.mem_of_arrived_ne hf hne) hne,
      fun x hx => ih.2 x (hoffers.covers hx)⟩

end LuaInterpreter
