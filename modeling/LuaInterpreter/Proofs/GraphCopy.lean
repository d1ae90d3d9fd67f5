import Mathlib.Data.List.Nodup
import Mathlib.Data.List.Perm.Subperm

/-!
# Copying a graph node by node

Conversions in both directions copy a graph of containers depth first. A node gets its copy when it
is come to first, and only then are its entries filled in, which leads to further nodes. So the
copies are numbered in the order in which the nodes are come to.
-/

namespace LuaInterpreter

open List

/-- A graph that is to be copied into cells. -/
structure Copying (T : Type) where
  /-- The number of the first copy. -/
  base : Nat
  /-- The nodes that can be come to. -/
  Allowed : Nat → Prop
  /-- They are below this number. -/
  count : Nat
  lt_count : ∀ a, Allowed a → a < count
  /-- The nodes that the entries of a node lead to. -/
  children : Nat → List Nat
  /-- No node has more entries. -/
  width : Nat
  /-- The finished copy of a node, given the numbers of all copies. -/
  image : (Nat → Nat) → Nat → T
  image_congr : ∀ a φ ψ, (∀ b ∈ children a, φ b = ψ b) → image φ a = image ψ a

namespace Copying

variable {T : Type} {c : Copying T} {order order' order'' : List Nat} {heap heap' heap'' : Array T}
  {a : Nat}

def number (c : Copying T) (order : List Nat) (a : Nat) : Nat := c.base + order.idxOf a

/-- The nodes that have been come to, and as many cells for their copies. -/
structure Ready (c : Copying T) (order : List Nat) (heap : Array T) : Prop where
  nodup : order.Nodup
  allowed : ∀ a ∈ order, c.Allowed a
  size : heap.size = c.base + order.length

/-! ## Numbers -/

theorem number_of_grows (h : order <+: order') (ha : a ∈ order) :
    c.number order' a = c.number order a := by
  obtain ⟨new, rfl⟩ := h
  rw [number, idxOf_append_of_mem ha, number]

section

variable (h : c.Ready order heap)
include h

theorem number_lt_size (ha : a ∈ order) : c.number order a < heap.size := by
  rw [h.size]
  exact Nat.add_lt_add_left (idxOf_lt_length_of_mem ha) _

theorem size_le_number (hgrows : order <+: order') (ha : a ∉ order) :
    heap.size ≤ c.number order' a := by
  obtain ⟨new, rfl⟩ := hgrows
  rw [h.size, number, idxOf_append_of_notMem ha]
  exact Nat.add_le_add_left (Nat.le_add_right _ _) _

omit h in
theorem number_inj (ha : a ∈ order) {b : Nat} (h : c.number order a = c.number order b) : a = b :=
  (idxOf_inj ha).mp (Nat.add_left_cancel h)

theorem exists_number_eq {i : Nat} (hbase : c.base ≤ i) (hi : i < heap.size) :
    ∃ a ∈ order, c.number order a = i := by
  have hlt : i - c.base < order.length := by
    have := h.size
    omega
  refine ⟨order[i - c.base], getElem_mem hlt, ?_⟩
  rw [number, h.nodup.idxOf_getElem]
  omega

theorem Ready.nodup_concat (hnew : a ∉ order) : (order ++ [a]).Nodup := by
  refine nodup_append.mpr ⟨h.nodup, nodup_singleton a, ?_⟩
  rintro b hb _ hb' rfl
  exact hnew (mem_singleton.mp hb' ▸ hb)

theorem Ready.allowed_concat (ha : c.Allowed a) : ∀ b ∈ order ++ [a], c.Allowed b :=
  forall_mem_append.mpr ⟨h.allowed, by simpa using ha⟩

end

theorem Ready.push (h : c.Ready order heap) (ha : c.Allowed a) (hnew : a ∉ order) (x : T) :
    c.Ready (order ++ [a]) (heap.push x) where
  nodup := h.nodup_concat hnew
  allowed := h.allowed_concat ha
  size := by
    rw [Array.size_push, length_append, h.size]
    rfl

theorem number_fresh (h : c.Ready order heap) (hnew : a ∉ order)
    (hgrows : order ++ [a] <+: order') : c.number order' a = heap.size := by
  rw [number_of_grows hgrows (by simp), number, idxOf_append_of_notMem hnew, h.size]
  simp

/-! ## Copies -/

/-- From one state of copying to a later one, with the copies of all nodes that were come to in
between. Cells that were there before stay as they are, but for one that is being filled in. -/
structure Copies (c : Copying T) (cell : Option Nat) (order : List Nat) (heap : Array T)
    (order' : List Nat) (heap' : Array T) : Prop where
  grows : order <+: order'
  ready : c.Ready order' heap'
  frame : ∀ i < heap.size, cell ≠ some i → heap'[i]? = heap[i]?
  done : ∀ a ∈ order', a ∉ order → heap'[c.number order' a]? = some (c.image (c.number order') a)
  closed : ∀ a ∈ order', a ∉ order → ∀ b ∈ c.children a, b ∈ order'

namespace Copies

variable {cell : Option Nat}

theorem refl (h : c.Ready order heap) : c.Copies cell order heap order heap where
  grows := prefix_rfl
  ready := h
  frame := fun _ _ _ => rfl
  done := fun _ ha hnew => absurd ha hnew
  closed := fun _ ha hnew => absurd ha hnew

theorem fill {i : Nat} (h : c.Ready order heap) (f : T → T) :
    c.Copies (some i) order heap order (heap.modify i f) where
  grows := prefix_rfl
  ready := ⟨h.nodup, h.allowed, Array.size_modify.trans h.size⟩
  frame := by
    intro j _ hj
    rw [Array.getElem?_modify, if_neg fun hij => hj (congrArg some hij)]
  done := fun _ ha hnew => absurd ha hnew
  closed := fun _ ha hnew => absurd ha hnew

theorem weaken (h : c.Copies none order heap order' heap') :
    c.Copies cell order heap order' heap' where
  grows := h.grows
  ready := h.ready
  frame := fun i hi _ => h.frame i hi nofun
  done := h.done
  closed := h.closed

theorem size_le (h : c.Copies cell order heap order' heap') (hready : c.Ready order heap) :
    heap.size ≤ heap'.size := by
  rw [hready.size, h.ready.size]
  exact Nat.add_le_add_left h.grows.length_le _

theorem trans (hready : c.Ready order heap) (hcell : ∀ i, cell = some i → i < heap.size)
    (h : c.Copies cell order heap order' heap') (h' : c.Copies cell order' heap' order'' heap'') :
    c.Copies cell order heap order'' heap'' where
  grows := h.grows.trans h'.grows
  ready := h'.ready
  frame := by
    intro i hi hne
    rw [h'.frame i (Nat.lt_of_lt_of_le hi (h.size_le hready)) hne, h.frame i hi hne]
  done := by
    intro a ha hnew
    by_cases hold : a ∈ order'
    · -- The copy was finished before, and its number is none of a cell that was there at first.
      have hne : cell ≠ some (c.number order' a) := fun hi =>
        absurd (hcell _ hi) (Nat.not_lt.mpr (size_le_number hready h.grows hnew))
      have hlt := number_lt_size h.ready hold
      rw [number_of_grows h'.grows hold, h'.frame _ hlt hne, h.done a hold hnew]
      refine congrArg some (c.image_congr a _ _ fun b hb => ?_)
      exact (number_of_grows h'.grows (h.closed a hold hnew b hb)).symm
    · exact h'.done a ha hold
  closed := by
    intro a ha hnew b hb
    by_cases hold : a ∈ order'
    · exact h'.grows.subset (h.closed a hold hnew b hb)
    · exact h'.closed a ha hold b hb

/-- Filling one entry into a cell: what the entry leads to is copied, the cell is changed, and then
come the other entries. -/
theorem entry {i : Nat} {order₁ : List Nat} {heap₁ heap₂ : Array T} (hready : c.Ready order heap)
    (hi : i < heap.size) (hvalue : c.Copies none order heap order₁ heap₁)
    (hfill : c.Copies (some i) order₁ heap₁ order₁ heap₂)
    (hrest : c.Copies (some i) order₁ heap₂ order' heap') :
    c.Copies (some i) order heap order' heap' := by
  have hinside (j : Nat) (hj : some i = some j) : j < heap.size := Option.some.inj hj ▸ hi
  have hinside₁ (j : Nat) (hj : some i = some j) : j < heap₁.size :=
    Nat.lt_of_lt_of_le (hinside j hj) (hvalue.size_le hready)
  exact hvalue.weaken.trans hready hinside (hfill.trans hvalue.ready hinside₁ hrest)

/-- A node gets a new cell; once this is the finished copy, the node has been copied. -/
theorem node (hready : c.Ready order heap) (hnew : a ∉ order) {x : T}
    (h : c.Copies (some heap.size) (order ++ [a]) (heap.push x) order' heap')
    (hdone : heap'[heap.size]? = some (c.image (c.number order') a))
    (hclosed : ∀ b ∈ c.children a, b ∈ order') : c.Copies none order heap order' heap' where
  grows := (prefix_append order [a]).trans h.grows
  ready := h.ready
  frame := by
    intro i hi _
    have hlt : i < (heap.push x).size := Nat.lt_of_lt_of_le hi (by simp)
    rw [h.frame i hlt fun heq => Nat.ne_of_gt hi (Option.some.inj heq), Array.getElem?_push_lt hi,
      Array.getElem?_eq_getElem hi]
  done := by
    intro b hb hnew'
    by_cases hba : b = a
    · rw [hba, number_fresh hready hnew h.grows, hdone]
    · exact h.done b hb (by simp [hnew', hba])
  closed := by
    intro b hb hnew'
    by_cases hba : b = a
    · rw [hba]
      exact hclosed
    · exact h.closed b hb (by simp [hnew', hba])

end Copies

/-! ## Looking copies up -/

/-- A list holds the copies of the nodes that have been come to, each under the key of its node. -/
def Remembers {β : Type} (c : Copying T) (key : Nat → Nat) (name : Nat → β)
    (memo : List (Nat × β)) (order : List Nat) : Prop :=
  ∀ a, c.Allowed a →
    memo.lookup (key a) = if a ∈ order then some (name (c.number order a)) else none

theorem Remembers.cons {β : Type} {key : Nat → Nat} {name : Nat → β} {memo : List (Nat × β)}
    (h : c.Remembers key name memo order)
    (hkey : ∀ a b, c.Allowed a → c.Allowed b → key a = key b → a = b) (ha : c.Allowed a)
    (hready : c.Ready order heap) (hnew : a ∉ order) :
    c.Remembers key name ((key a, name heap.size) :: memo) (order ++ [a]) := by
  intro b hb
  by_cases hba : b = a
  · rw [hba, lookup_cons_self, if_pos (by simp), number_fresh hready hnew prefix_rfl]
  · have hne : (key b == key a) = false :=
      beq_eq_false_iff_ne.mpr fun heq => hba (hkey b a hb ha heq)
    rw [lookup_cons, hne, h b hb]
    by_cases hmem : b ∈ order
    · rw [if_pos hmem, if_pos (mem_append_left _ hmem),
        number_of_grows (prefix_append order [a]) hmem]
    · rw [if_neg hmem, if_neg (by simp [hmem, hba])]

/-! ## Enough fuel -/

/-- How much fuel is enough once some nodes have been come to. Each further node takes some for
itself and for its entries. -/
def budget (c : Copying T) (order : List Nat) : Nat := (c.count - order.length) * (c.width + 2) + 1

theorem budget_anti (h : order <+: order') : c.budget order' ≤ c.budget order :=
  Nat.succ_le_succ (Nat.mul_le_mul_right _ (Nat.sub_le_sub_left h.length_le _))

theorem budget_fresh (h : c.Ready order heap) (ha : c.Allowed a) (hnew : a ∉ order) :
    c.budget (order ++ [a]) + (c.width + 2) = c.budget order := by
  have hlength : (order ++ [a]).length ≤ c.count := by
    have hsubset : order ++ [a] ⊆ List.range c.count := fun b hb =>
      mem_range.mpr (c.lt_count b (h.allowed_concat ha b hb))
    simpa using (subperm_of_subset (h.nodup_concat hnew) hsubset).length_le
  rw [length_append, length_singleton] at hlength
  obtain ⟨d, hd⟩ := Nat.exists_eq_add_of_le hlength
  rw [budget, budget, length_append, length_singleton, hd, Nat.add_sub_cancel_left,
    show order.length + 1 + d - order.length = d + 1 by omega, Nat.succ_mul]
  omega

end Copying

end LuaInterpreter
