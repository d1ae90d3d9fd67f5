import LuaInterpreter.Proofs.Chart.Preference

/-!
# Texts that can be read

A text is read if the grammar has a derivation for it, with something skipped at its end perhaps. A
derivation is followed through the chart symbol by symbol: a terminal moves an entry on, and so does a
category that has been read. Categories that can be read without any text are left out.
-/

namespace LuaInterpreter

open Item List

variable {start : Category} {text : List Char} {chart : Array Column} {p q : Nat}

/-- The column at a position has an entry for the item, or for another reading of what it has read. -/
def Item.IsAt (item : Item) (chart : Array Column) (p : Nat) : Prop :=
  ∃ e ∈ chart.getD p #[], e.item.agrees item = true

/-- Everything between two positions is passed by something that was read or skipped. -/
def PassedThrough (start : Category) (text : List Char) (chart : Array Column) (p q : Nat) : Prop :=
  ∀ k, p ≤ k → k < q → Passed start text chart k

theorem PassedThrough.trans {m : Nat} (h : PassedThrough start text chart p m)
    (h' : PassedThrough start text chart m q) : PassedThrough start text chart p q := by
  intro k hp hq
  rcases Nat.lt_or_ge k m with hlt | hge
  · exact h k hp hlt
  · exact h' k hge hq

theorem PassedThrough.refl (p : Nat) : PassedThrough start text chart p p :=
  fun _ hle hlt => absurd hlt (Nat.not_lt.mpr hle)

/-- A derivation in which every category is one that always reads something. -/
inductive Advances (text : List Char) : List Symbol → Nat → Nat → Prop
  | nil (p : Nat) : Advances text [] p p
  | terminal {t : Terminal} {symbols : List Symbol} {p k n q : Nat} :
      Gap text p k → t.read? (text.drop k) = some n → Advances text symbols (k + n) q →
      Advances text (.terminal t :: symbols) p q
  | category {r : Production} {symbols : List Symbol} {p m q : Nat} :
      r.category.consumes = true → Advances text r.symbols p m → Advances text symbols m q →
      Advances text (.category r.category :: symbols) p q

variable {item : Item} {symbols : List Symbol}

theorem Advances.derives (h : Advances text symbols p q) : ∃ w, Derives text symbols p q w := by
  induction h with
  | nil p => exact ⟨_, .nil p⟩
  | terminal hgap hread _ ih =>
    obtain ⟨w, hrest⟩ := ih
    exact ⟨_, .terminal hgap hread hrest⟩
  | category _ _ _ ih ih' =>
    obtain ⟨v, hr⟩ := ih
    obtain ⟨w, hrest⟩ := ih'
    exact ⟨_, .category hr hrest⟩

theorem Advances.le (h : Advances text symbols p q) : p ≤ q := by
  obtain ⟨w, hderives⟩ := h.derives
  exact hderives.le

theorem Item.IsAt.exists_entry {symbol : Symbol} (h : item.IsAt chart p)
    (hnext : item.next? = some symbol) : ∃ e ∈ chart.getD p #[], e.item = item := by
  obtain ⟨e, he, hagrees⟩ := h
  exact ⟨e, he, eq_of_agrees hagrees (isComplete_of_next? hnext)⟩

theorem Item.next?_of_cons {x : Symbol} {symbols : List Symbol}
    (h : x :: symbols <+: item.rule.symbols.drop item.dot) :
    item.next? = some x ∧ symbols <+: item.advance.rule.symbols.drop item.advance.dot := by
  obtain ⟨more, hmore⟩ := h
  refine ⟨?_, more, ?_⟩
  · rw [Item.next?, ← head?_drop, ← hmore]
    rfl
  · rw [Item.advance, ← tail_drop, ← hmore]
    rfl

namespace IsChart

section

variable (hchart : IsChart start text chart)
include hchart

variable (hitem : item.IsAt chart p)
include hitem

/-- Skipped text takes along what awaits a terminal, and what has been read as a whole. -/
theorem past_gap (hcarried : (∃ t, item.next? = some (.terminal t)) ∨
      (item.rule.category = start ∧ item.isComplete = true)) (hgap : Gap text p q)
    (hq : q < chart.size) : item.IsAt chart q ∧ PassedThrough start text chart p q := by
  induction hgap with
  | refl => exact ⟨hitem, .refl p⟩
  | @step q n _ hn ih =>
    obtain ⟨⟨e, he, hagrees⟩, hpassed⟩ := ih (by omega)
    have hcarried : e.IsCarried start := by
      rcases hcarried with ⟨t, ht⟩ | ⟨hcategory, hcomplete⟩
      · rw [Entry.IsCarried, eq_of_agrees hagrees (isComplete_of_next? ht)]
        exact .inl ⟨t, ht⟩
      · exact .inr ⟨(category_eq_of_agrees hagrees).trans hcategory,
          isComplete_of_agrees hagrees hcomplete⟩
    obtain ⟨f, hf, -, hagrees'⟩ := hchart.carried q e he hcarried n hn hq
    refine ⟨⟨f, hf, agrees_trans hagrees' hagrees⟩, hpassed.trans fun k hle hlt => ?_⟩
    exact ⟨q, hle, _, mem_arrivalsAt_of_skip he hcarried hn, hlt⟩

theorem past_terminal {t : Terminal} {n : Nat} (hnext : item.next? = some (.terminal t))
    (hread : t.read? (text.drop p) = some n) (hsize : p + n < chart.size) :
    item.advance.IsAt chart (p + n) ∧ PassedThrough start text chart p (p + n) := by
  obtain ⟨e, he, rfl⟩ := hitem.exists_entry hnext
  obtain ⟨f, hf, -, hagrees', -⟩ := hchart.scanned p e he t n hnext hread hsize
  refine ⟨⟨f, hf, hagrees'⟩, fun k hle hlt => ?_⟩
  exact ⟨p, hle, _, mem_arrivalsAt_of_read start he hnext hread, hlt⟩

variable {r : Production}

theorem past_category {m : Nat} (hnext : item.next? = some (.category r.category))
    (hr : Item.IsAt ⟨r, r.symbols.length, p⟩ chart m) (hlt : p < m) :
    item.advance.IsAt chart m := by
  obtain ⟨e, he, rfl⟩ := hitem.exists_entry hnext
  obtain ⟨f, hf, hagrees'⟩ := hr
  have hcomplete : f.item.isComplete = true :=
    isComplete_of_agrees hagrees' (Item.isComplete_iff.mpr (Nat.le_refl _))
  have hstart : f.item.start = p := start_eq_of_agrees hagrees'
  have hcategory : f.item.rule.category = r.category := category_eq_of_agrees hagrees'
  obtain ⟨x, hx, hxagrees, -⟩ := hchart.completed m f hf hcomplete (hstart ▸ hlt) e
    (hstart ▸ he) (hcategory ▸ hnext)
  exact ⟨x, hx, hxagrees⟩

/-- Where an entry awaits a category, the productions of the category begin. -/
theorem isAt_predicted (hnext : item.next? = some (.category r.category)) :
    Item.IsAt ⟨r, 0, p⟩ chart p := by
  obtain ⟨e, he, rfl⟩ := hitem.exists_entry hnext
  obtain ⟨f, hf, hagrees', -⟩ := hchart.predicted p e he _ hnext r r.mem_productions
  exact ⟨f, hf, hagrees'⟩

end

/-- A derivation moves an entry on by its symbols. -/
theorem past_advances (hchart : IsChart start text chart) (h : Advances text symbols p q)
    (hitem : item.IsAt chart p) (hnext : symbols <+: item.rule.symbols.drop item.dot)
    (hq : q < chart.size) :
    Item.IsAt ⟨item.rule, item.dot + symbols.length, item.start⟩ chart q ∧
      PassedThrough start text chart p q := by
  induction h generalizing item with
  | nil => exact ⟨hitem, .refl _⟩
  | @terminal t symbols p k n q hgap hread hrest ih =>
    obtain ⟨hterminal, hnext'⟩ := next?_of_cons hnext
    have hsize : k + n < chart.size := Nat.lt_of_le_of_lt hrest.le hq
    obtain ⟨hbefore, hskipped⟩ := hchart.past_gap hitem (.inl ⟨t, hterminal⟩) hgap (by omega)
    obtain ⟨hafter, hpassed⟩ := hchart.past_terminal hbefore hterminal hread hsize
    obtain ⟨hlast, hpassed'⟩ := ih hafter hnext' hq
    refine ⟨?_, hskipped.trans (hpassed.trans hpassed')⟩
    rwa [length_cons, Nat.add_comm symbols.length, ← Nat.add_assoc]
  | @category r symbols p m q hconsumes hr hrest ih ih' =>
    obtain ⟨hcategory, hnext'⟩ := next?_of_cons hnext
    have hsize : m < chart.size := Nat.lt_of_le_of_lt hrest.le hq
    obtain ⟨hread, hpassed⟩ := ih (hchart.isAt_predicted hitem hcategory) (prefix_refl _) hsize
    rw [Nat.zero_add] at hread
    obtain ⟨v, hderives⟩ := hr.derives
    have hafter := hchart.past_category hitem hcategory hread (hderives.lt_of_consumes hconsumes)
    obtain ⟨hlast, hpassed'⟩ := ih' hafter hnext' hq
    refine ⟨?_, hpassed.trans hpassed'⟩
    rwa [length_cons, Nat.add_comm symbols.length, ← Nat.add_assoc]

end IsChart

/-- A text is read if it has a derivation and the rest of it can be skipped. -/
theorem readText_of_advances {r : Production} (h : Advances text r.symbols 0 q)
    (hgap : Gap text q text.length) : ∃ tree, readText r.category text = .ok tree := by
  have hchart := isChart_chartTo r.category text (text.length + 1)
  have hlast : text.length < (wholeChart r.category text).size := by
    rw [size_chartTo]
    exact Nat.lt_succ_self _
  have hfirst : Item.IsAt ⟨r, 0, 0⟩ (wholeChart r.category text) 0 := by
    obtain ⟨e, he, hagrees, -⟩ := @covers_first r.category text _ r r.mem_productions (Nat.succ_pos _)
    exact ⟨e, he, hagrees⟩
  obtain ⟨hread, hpassed⟩ := hchart.past_advances h hfirst (prefix_refl _)
    (Nat.lt_of_le_of_lt hgap.le hlast)
  have hcomplete : Item.isComplete ⟨r, 0 + r.symbols.length, 0⟩ = true :=
    Item.isComplete_iff.mpr (Nat.le_add_left _ _)
  obtain ⟨⟨e, he, hagrees⟩, hskipped⟩ := hchart.past_gap hread (.inr ⟨rfl, hcomplete⟩) hgap hlast
  have hreads : e.reads r.category 0 = true := Entry.reads_iff.mpr
    ⟨start_eq_of_agrees hagrees, category_eq_of_agrees hagrees,
      isComplete_of_agrees hagrees hcomplete⟩
  obtain ⟨f, -, -, hread⟩ :=
    exists_reading (fun p hp => (hpassed.trans hskipped) p (Nat.zero_le p) hp) he hreads
  exact ⟨_, hread⟩

end LuaInterpreter
