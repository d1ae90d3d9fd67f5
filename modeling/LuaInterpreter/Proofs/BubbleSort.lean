import Mathlib.Data.List.Basic

/-!
# Sorting by swaps of neighbours

A sweep goes once through a list and swaps neighbours that are out of order. An element is carried
along until it meets one that does not have to come before it, which is then carried on. If no
neighbours were swapped, the list is sorted; otherwise it has fewer inversions than before.
-/

namespace LuaInterpreter

open List

/-! ## Orders -/

section

variable {α : Type}

def equivalent (lt : α → α → Bool) (a b : α) : Bool := !lt a b && !lt b a

/-- A comparison orders the elements of a list: to come before is irreflexive and transitive, and to
be equivalent is transitive. -/
structure StrictWeakOrderOn (lt : α → α → Bool) (vs : List α) : Prop where
  irrefl : ∀ a ∈ vs, lt a a = false
  trans : ∀ a ∈ vs, ∀ b ∈ vs, ∀ c ∈ vs, lt a b = true → lt b c = true → lt a c = true
  equivalent_trans : ∀ a ∈ vs, ∀ b ∈ vs, ∀ c ∈ vs,
    equivalent lt a b = true → equivalent lt b c = true → equivalent lt a c = true

variable {lt : α → α → Bool} {vs ws : List α} {a b c : α}

theorem equivalent_eq_true_iff : equivalent lt a b = true ↔ lt a b = false ∧ lt b a = false := by
  simp [equivalent]

theorem equivalent_comm (lt : α → α → Bool) (a b : α) : equivalent lt a b = equivalent lt b a :=
  Bool.and_comm _ _

namespace StrictWeakOrderOn

theorem of_subset (h : StrictWeakOrderOn lt vs) (hws : ws ⊆ vs) : StrictWeakOrderOn lt ws where
  irrefl := fun a ha => h.irrefl a (hws ha)
  trans := fun a ha b hb c hc => h.trans a (hws ha) b (hws hb) c (hws hc)
  equivalent_trans := fun a ha b hb c hc => h.equivalent_trans a (hws ha) b (hws hb) c (hws hc)

theorem flip (h : StrictWeakOrderOn lt vs) : StrictWeakOrderOn (fun a b => lt b a) vs where
  irrefl := h.irrefl
  trans := fun a ha b hb c hc hab hbc => h.trans c hc b hb a ha hbc hab
  equivalent_trans := by
    intro a ha b hb c hc hab hbc
    have hcomm (x y : α) : equivalent (fun a b => lt b a) x y = equivalent lt x y :=
      equivalent_comm lt y x
    rw [hcomm] at hab hbc ⊢
    exact h.equivalent_trans a ha b hb c hc hab hbc

variable (h : StrictWeakOrderOn lt vs)
include h

theorem asymm (ha : a ∈ vs) (hb : b ∈ vs) (hab : lt a b = true) : lt b a = false := by
  refine Bool.eq_false_iff.mpr fun hba => ?_
  have haa := h.trans a ha b hb a ha hab hba
  rw [h.irrefl a ha] at haa
  cases haa

/-- If two neighbours each are in order, so are the outer two of three elements. -/
theorem negTrans (ha : a ∈ vs) (hb : b ∈ vs) (hc : c ∈ vs) (hba : lt b a = false)
    (hcb : lt c b = false) : lt c a = false := by
  refine Bool.eq_false_iff.mpr fun hca => ?_
  have hab : lt a b = false := by
    refine Bool.eq_false_iff.mpr fun hab => ?_
    rw [h.trans c hc a ha b hb hca hab] at hcb
    cases hcb
  have hbc : lt b c = false := by
    refine Bool.eq_false_iff.mpr fun hbc => ?_
    rw [h.trans b hb c hc a ha hbc hca] at hba
    cases hba
  have hac := h.equivalent_trans a ha b hb c hc (equivalent_eq_true_iff.mpr ⟨hab, hba⟩)
    (equivalent_eq_true_iff.mpr ⟨hbc, hcb⟩)
  rw [(equivalent_eq_true_iff.mp hac).2] at hca
  cases hca

theorem not_lt_of_equivalent (ha : a ∈ vs) (hb : b ∈ vs) (hc : c ∈ vs)
    (hca : equivalent lt c a = true) (hcb : equivalent lt c b = true) : lt b a = false := by
  rw [equivalent_comm] at hcb
  exact (equivalent_eq_true_iff.mp (h.equivalent_trans b hb c hc a ha hcb hca)).1

end StrictWeakOrderOn

/-! ## Sweeps -/

/-- One sweep through a list, with an element that is carried along, and whether any neighbours were
swapped. -/
def carry (lt : α → α → Bool) (a : α) : List α → List α × Bool
  | [] => ([a], false)
  | b :: rest =>
    if lt b a then (b :: (carry lt a rest).1, true)
    else (a :: (carry lt b rest).1, (carry lt b rest).2)

variable {rest : List α}

theorem carry_cons (lt : α → α → Bool) (a b : α) (rest : List α) :
    carry lt a (b :: rest) =
      ((if lt b a then b else a) :: (carry lt (if lt b a then a else b) rest).1,
        lt b a || (carry lt (if lt b a then a else b) rest).2) := by
  rw [carry]
  cases lt b a <;> rfl

theorem carry_cons_of_lt (h : lt b a = true) (rest : List α) :
    carry lt a (b :: rest) = (b :: (carry lt a rest).1, true) :=
  if_pos h

theorem carry_cons_of_not_lt (h : lt b a = false) (rest : List α) :
    carry lt a (b :: rest) = (a :: (carry lt b rest).1, (carry lt b rest).2) :=
  if_neg (Bool.not_eq_true _ ▸ h)

theorem carry_perm (lt : α → α → Bool) (a : α) (rest : List α) :
    (carry lt a rest).1.Perm (a :: rest) := by
  induction rest generalizing a with
  | nil => exact .refl _
  | cons b rest ih =>
    cases h : lt b a with
    | true =>
      rw [carry_cons_of_lt h]
      exact ((ih a).cons b).trans (.swap a b rest)
    | false =>
      rw [carry_cons_of_not_lt h]
      exact (ih b).cons a

/-- Only elements that are not equivalent are swapped, so each class keeps its order. -/
theorem filter_carry (horder : StrictWeakOrderOn lt vs) (hsub : a :: rest ⊆ vs) (hc : c ∈ vs) :
    (carry lt a rest).1.filter (equivalent lt c) = (a :: rest).filter (equivalent lt c) := by
  induction rest generalizing a with
  | nil => rfl
  | cons b rest ih =>
    obtain ⟨ha, hrest⟩ := cons_subset.mp hsub
    obtain ⟨hb, hrest⟩ := cons_subset.mp hrest
    cases h : lt b a with
    | true =>
      have hapart (hca : equivalent lt c a = true) : equivalent lt c b = false := by
        refine Bool.eq_false_iff.mpr fun hcb => ?_
        rw [horder.not_lt_of_equivalent ha hb hc hca hcb] at h
        cases h
      rw [carry_cons_of_lt h, filter_cons, ih (cons_subset.mpr ⟨ha, hrest⟩)]
      cases hca : equivalent lt c a with
      | true => simp [hca, hapart hca]
      | false => simp [filter_cons, hca]
    | false =>
      rw [carry_cons_of_not_lt h, filter_cons, ih (cons_subset.mpr ⟨hb, hrest⟩),
        ← filter_cons]

/-- A list has the elements of another one, and equivalent elements are in the same order. -/
structure Rearranges (lt : α → α → Bool) (vs ws : List α) : Prop where
  perm : ws.Perm vs
  stable : ∀ c ∈ vs, ws.filter (equivalent lt c) = vs.filter (equivalent lt c)

theorem Rearranges.refl (lt : α → α → Bool) (vs : List α) : Rearranges lt vs vs :=
  ⟨.refl vs, fun _ _ => rfl⟩

theorem Rearranges.carry (h : Rearranges lt vs (a :: rest)) (horder : StrictWeakOrderOn lt vs) :
    Rearranges lt vs (carry lt a rest).1 where
  perm := (carry_perm lt a rest).trans h.perm
  stable := fun c hc => (filter_carry horder h.perm.subset hc).trans (h.stable c hc)

/-- In a sorted rearrangement no element comes before itself or an earlier one. -/
theorem Rearranges.not_lt (h : Rearranges lt vs ws) (horder : StrictWeakOrderOn lt vs)
    (hsorted : ws.Pairwise fun x y => lt y x = false) {i j : Nat} (hij : i ≤ j)
    (ha : ws[i]? = some a) (hb : ws[j]? = some b) : lt b a = false := by
  rcases Nat.eq_or_lt_of_le hij with rfl | hlt
  · cases ha.symm.trans hb
    exact horder.irrefl a (h.perm.subset (mem_of_getElem? ha))
  · obtain ⟨hi, rfl⟩ := List.getElem?_eq_some_iff.mp ha
    obtain ⟨hj, rfl⟩ := List.getElem?_eq_some_iff.mp hb
    exact pairwise_iff_getElem.mp hsorted i j hi hj hlt

theorem pairwise_of_not_swapped (horder : StrictWeakOrderOn lt (a :: rest))
    (h : (carry lt a rest).2 = false) :
    (carry lt a rest).1 = a :: rest ∧ (a :: rest).Pairwise fun x y => lt y x = false := by
  induction rest generalizing a with
  | nil => exact ⟨rfl, pairwise_singleton _ _⟩
  | cons b rest ih =>
    cases hba : lt b a with
    | true =>
      rw [carry_cons_of_lt hba] at h
      cases h
    | false =>
      rw [carry_cons_of_not_lt hba] at h ⊢
      obtain ⟨hsame, hsorted⟩ := ih (horder.of_subset (subset_cons_self a _)) h
      refine ⟨by rw [hsame], pairwise_cons.mpr ⟨fun c hc => ?_, hsorted⟩⟩
      rcases mem_cons.mp hc with rfl | hc
      · exact hba
      · refine horder.negTrans (b := b) (by simp) (by simp) (by simp [hc]) hba ?_
        exact (pairwise_cons.mp hsorted).1 c hc

/-! ## Inversions -/

def inversions (lt : α → α → Bool) : List α → Nat
  | [] => 0
  | a :: rest => rest.countP (lt · a) + inversions lt rest

theorem inversions_le (lt : α → α → Bool) (vs : List α) :
    inversions lt vs ≤ vs.length * vs.length := by
  induction vs with
  | nil => exact Nat.le_refl 0
  | cons a rest ih =>
    have hcount : rest.countP (lt · a) ≤ rest.length := countP_le_length
    rw [inversions, length_cons, Nat.succ_mul_succ]
    omega

/-- A swap takes one inversion away and adds none. -/
theorem inversions_carry (horder : StrictWeakOrderOn lt (a :: rest)) :
    inversions lt (carry lt a rest).1 + (carry lt a rest).2.toNat ≤ inversions lt (a :: rest) := by
  induction rest generalizing a with
  | nil => exact Nat.le_refl _
  | cons b rest ih =>
    cases h : lt b a with
    | true =>
      have hab : lt a b = false := horder.asymm (by simp) (by simp) h
      have hrest := ih (horder.of_subset (cons_subset_cons a (subset_cons_self b rest)))
      rw [carry_cons_of_lt h]
      simp only [inversions, (carry_perm lt a rest).countP_eq, countP_cons, h, hab,
        Bool.toNat_true, if_true, Bool.false_eq_true, if_false] at hrest ⊢
      omega
    | false =>
      have hrest := ih (horder.of_subset (subset_cons_self a _))
      rw [carry_cons_of_not_lt h]
      simp only [inversions, (carry_perm lt b rest).countP_eq] at hrest ⊢
      omega

end

end LuaInterpreter
