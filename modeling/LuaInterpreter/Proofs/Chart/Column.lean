import LuaInterpreter.Syntax.Chart

/-!
# Columns

A column holds at most one of the entries that agree with each other. What an entry does to a column
is said once, and everything else follows from it.
-/

namespace LuaInterpreter

open Array Item Option

/-! ## Agreement and preference -/

namespace Item

variable {a b c : Item}

theorem isComplete_iff : a.isComplete = true ↔ a.rule.symbols.length ≤ a.dot := by
  rw [isComplete, next?, isNone_iff_eq_none, List.getElem?_eq_none_iff]

variable {symbol : Symbol}

theorem isComplete_of_next? (h : a.next? = some symbol) : a.isComplete = false := by
  rw [isComplete, h, isNone_some]

theorem dot_lt_of_next? (h : a.next? = some symbol) : a.dot < a.rule.symbols.length :=
  (List.getElem?_eq_some_iff.mp h).1

theorem take_of_next? (h : a.next? = some symbol) :
    a.rule.symbols.take (a.dot + 1) = a.rule.symbols.take a.dot ++ [symbol] := by
  rw [next?] at h
  rw [List.take_add_one, h, toList_some]

theorem agrees_iff : a.agrees b = true ↔ a.start = b.start ∧
    (a.rule = b.rule ∧ a.dot = b.dot ∨
      a.rule.category = b.rule.category ∧ a.isComplete = true ∧ b.isComplete = true) := by
  simp only [agrees, Bool.and_eq_true, Bool.or_eq_true, beq_iff_eq, and_assoc]

theorem agrees_refl (a : Item) : a.agrees a = true := agrees_iff.mpr ⟨rfl, .inl ⟨rfl, rfl⟩⟩

section

variable (h : a.agrees b = true)
include h

theorem isComplete_of_agrees (hb : b.isComplete = true) : a.isComplete = true := by
  rcases (agrees_iff.mp h).2 with ⟨hrule, hdot⟩ | ⟨-, ha, -⟩
  · rwa [isComplete_iff, hrule, hdot, ← isComplete_iff]
  · exact ha

theorem agrees_symm : b.agrees a = true := by
  obtain ⟨hstart, ⟨hrule, hdot⟩ | ⟨hcategory, ha, hb⟩⟩ := agrees_iff.mp h
  · exact agrees_iff.mpr ⟨hstart.symm, .inl ⟨hrule.symm, hdot.symm⟩⟩
  · exact agrees_iff.mpr ⟨hstart.symm, .inr ⟨hcategory.symm, hb, ha⟩⟩

theorem category_eq_of_agrees : a.rule.category = b.rule.category := by
  rcases (agrees_iff.mp h).2 with ⟨hrule, -⟩ | ⟨hcategory, -, -⟩
  · rw [hrule]
  · exact hcategory

theorem start_eq_of_agrees : a.start = b.start := (agrees_iff.mp h).1

theorem eq_of_agrees (hb : b.isComplete = false) : a = b := by
  obtain ⟨hstart, ⟨hrule, hdot⟩ | ⟨-, -, hb'⟩⟩ := agrees_iff.mp h
  · cases a
    cases b
    cases hstart
    cases hrule
    cases hdot
    rfl
  · rw [hb] at hb'
    cases hb'

theorem agrees_trans (h' : b.agrees c = true) : a.agrees c = true := by
  cases hb : b.isComplete with
  | false => rwa [eq_of_agrees h hb]
  | true =>
    have ha := isComplete_of_agrees h hb
    have hc := isComplete_of_agrees (agrees_symm h') hb
    have hstart := (start_eq_of_agrees h).trans (start_eq_of_agrees h')
    have hcategory := (category_eq_of_agrees h).trans (category_eq_of_agrees h')
    exact agrees_iff.mpr ⟨hstart, .inr ⟨hcategory, ha, hc⟩⟩

end

theorem agrees_of_complete (hstart : a.start = b.start)
    (hcategory : a.rule.category = b.rule.category) (ha : a.isComplete = true)
    (hb : b.isComplete = true) : a.agrees b = true :=
  agrees_iff.mpr ⟨hstart, .inr ⟨hcategory, ha, hb⟩⟩

end Item

namespace Entry

variable {a b c : Entry}

theorem beats_iff : a.beats b = true ↔ a.step.isSome = true ∧ b.step.isSome = false ∨
    a.step.isSome = b.step.isSome ∧ (b.weight < a.weight ∨
      a.weight = b.weight ∧ a.item.rule.rank < b.item.rule.rank) := by
  unfold beats
  cases a.step.isSome <;> cases b.step.isSome <;> simp

theorem beats_irrefl (a : Entry) : a.beats a = false := by
  rw [Bool.eq_false_iff, ne_eq, beats_iff]
  rintro (⟨hsome, hnone⟩ | ⟨-, hlt | ⟨-, hlt⟩⟩)
  · rw [hsome] at hnone
    cases hnone
  · exact Int.lt_irrefl _ hlt
  · exact Nat.lt_irrefl _ hlt

theorem beats_trans (h : a.beats b = true) (h' : b.beats c = true) : a.beats c = true := by
  rw [beats_iff] at h h' ⊢
  rcases h with ⟨ha, hb⟩ | ⟨hab, h⟩
  · rcases h' with ⟨hb', -⟩ | ⟨hbc, -⟩
    · rw [hb] at hb'
      cases hb'
    · exact .inl ⟨ha, hbc ▸ hb⟩
  · rcases h' with ⟨hb, hc⟩ | ⟨hbc, h'⟩
    · exact .inl ⟨hab.trans hb, hc⟩
    · exact .inr ⟨hab.trans hbc, by omega⟩

/-- Among readings with a last step, the greater weight wins, and then the smaller rank. -/
theorem beats_eq_false_iff (ha : a.step.isSome = true) (hb : b.step.isSome = true) :
    a.beats b = false ↔ a.weight < b.weight ∨
      (a.weight = b.weight ∧ b.item.rule.rank ≤ a.item.rule.rank) := by
  rw [Bool.eq_false_iff, ne_eq, beats_iff, ha, hb]
  simp only [Bool.true_eq_false, and_false, true_and, false_or]
  omega

theorem beats_of_weight_le (hitem : a.item = b.item) (hstep : a.step.isSome = b.step.isSome)
    (hweight : a.weight ≤ b.weight) (h : a.beats c = true) : b.beats c = true := by
  rw [beats_iff] at h ⊢
  rw [← hitem, ← hstep]
  rcases h with hstep | ⟨hstep, h⟩
  · exact .inl hstep
  · exact .inr ⟨hstep, by omega⟩

theorem weight_le_of_beats (hstep : a.step.isSome = b.step.isSome) (h : a.beats b = true) :
    b.weight ≤ a.weight := by
  rcases beats_iff.mp h with ⟨ha, hb⟩ | ⟨-, hlt | ⟨heq, -⟩⟩
  · rw [hstep, hb] at ha
    cases ha
  · exact Int.le_of_lt hlt
  · exact Int.le_of_eq heq.symm

theorem reads_iff {e : Entry} {category : Category} {start : Nat} : e.reads category start = true ↔
    e.item.start = start ∧ e.item.rule.category = category ∧ e.item.isComplete = true := by
  simp only [reads, Bool.and_eq_true, beq_iff_eq, and_assoc]

end Entry

/-! ## What can become of a column -/

namespace Column

variable {col : Column} {e f : Entry} {item : Item}

theorem place?_eq_none_iff : col.place? item = none ↔ ∀ f ∈ col, f.item.agrees item = false := by
  simp [place?]

theorem exists_of_place? {k : Nat} (h : col.place? item = some k) :
    ∃ f, col[k]? = some f ∧ f.item.agrees item = true := by
  obtain ⟨hk, hagrees, -⟩ := List.findIdx?_eq_some_iff_getElem.mp h
  exact ⟨col[k], getElem?_eq_getElem hk, hagrees⟩

end Column

/-- What a new entry makes of a column, where only entries that came as `a` can give way, and the
place it reports. -/
inductive Entered (a : Arrived) (col : Column) (e : Entry) : Column → Option Nat → Prop
  | added : (∀ f ∈ col, f.item.agrees e.item = false) → Entered a col e (col.push e) (some col.size)
  | improved {k : Nat} {old : Entry} : col[k]? = some old → old.item.agrees e.item = true →
      old.arrived = a → e.arrived = a → e.beats old = true →
      Entered a col e (col.setIfInBounds k e) (if old.weight < e.weight then some k else none)
  | kept {old : Entry} : old ∈ col → old.item.agrees e.item = true →
      (old.arrived = a → e.arrived = a → e.beats old = false) → Entered a col e col none

namespace Column

theorem entered (col : Column) (a : Arrived) (e : Entry) :
    Entered a col e (col.enter a e).1 (col.enter a e).2 := by
  unfold enter
  split
  · next hplace => exact .added (place?_eq_none_iff.mp hplace)
  · next k hplace =>
    obtain ⟨old, hold, hagrees⟩ := exists_of_place? hplace
    rw [hold]
    dsimp only
    split
    · next h =>
      simp only [Bool.and_eq_true, beq_iff_eq] at h
      exact .improved hold hagrees h.1.1 h.1.2 h.2
    · next h =>
      refine .kept (mem_of_getElem? hold) hagrees fun hrule hrule' => ?_
      rw [hrule, hrule'] at h
      simpa using h

/-! ## Entries are found by their items -/

def Distinct (col : Column) : Prop := ∀ (i j : Nat) (a b : Entry), col[i]? = some a →
  col[j]? = some b → a.item.agrees b.item = true → i = j

def lookup (col : Column) (item : Item) : Option Entry := (col.place? item).bind (col[·]?)

variable {col : Column} {e f : Entry} {item : Item}

theorem Distinct.eq_of_agrees (h : col.Distinct) (he : e ∈ col) (hf : f ∈ col)
    (hagrees : e.item.agrees f.item = true) : e = f := by
  obtain ⟨i, hi⟩ := mem_iff_getElem?.mp he
  obtain ⟨j, hj⟩ := mem_iff_getElem?.mp hf
  have hij := h i j e f hi hj hagrees
  rw [hij, hj] at hi
  exact (Option.some.inj hi).symm

theorem Distinct.lookup_eq (h : col.Distinct) (he : e ∈ col) (hagrees : e.item.agrees item = true) :
    col.lookup item = some e := by
  unfold lookup
  cases hplace : col.place? item with
  | none =>
    rw [place?_eq_none_iff.mp hplace e he] at hagrees
    cases hagrees
  | some k =>
    obtain ⟨f, hf, hagrees'⟩ := exists_of_place? hplace
    have hfe := agrees_trans hagrees' (agrees_symm hagrees)
    rw [bind_some, hf, h.eq_of_agrees (mem_of_getElem? hf) he hfe]

end Column

namespace Entered

variable {a : Arrived} {col col' : Column} {e f x : Entry}

open Column

theorem getElem?_set {k i : Nat} {old : Entry} (hold : col[k]? = some old)
    (hagrees : old.item.agrees e.item = true) (hf : (col.setIfInBounds k e)[i]? = some f) :
    ∃ g, col[i]? = some g ∧ g.item.agrees f.item = true := by
  rw [getElem?_setIfInBounds] at hf
  split at hf
  · next hki =>
    split at hf
    · cases hf
      exact ⟨old, hki ▸ hold, hagrees⟩
    · cases hf
  · exact ⟨f, hf, agrees_refl _⟩

theorem eq_or_mem_set {k : Nat} {old : Entry} (hold : col[k]? = some old) (hf : f ∈ col)
    (e : Entry) : f = old ∨ f ∈ col.setIfInBounds k e := by
  obtain ⟨i, hi⟩ := mem_iff_getElem?.mp hf
  by_cases hki : k = i
  · exact .inl (Option.some.inj (hi.symm.trans (hki ▸ hold)))
  · refine .inr (mem_iff_getElem?.mpr ⟨i, ?_⟩)
    rw [getElem?_setIfInBounds, if_neg hki, hi]

variable {place : Option Nat} (h : Entered a col e col' place)
include h

theorem distinct (hcol : col.Distinct) : col'.Distinct := by
  cases h with
  | added hfresh =>
    have hfresh' {f : Entry} {i : Nat} (hf : col[i]? = some f) : f.item.agrees e.item = false :=
      hfresh f (mem_of_getElem? hf)
    intro i j b c hi hj hagrees
    rw [getElem?_push] at hi hj
    split at hi <;> split at hj
    · next hsize hsize' => rw [hsize, hsize']
    · cases hi
      cases (hfresh' hj).symm.trans (agrees_symm hagrees)
    · cases hj
      cases (hfresh' hi).symm.trans hagrees
    · exact hcol i j b c hi hj hagrees
  | improved hold hagrees _ _ _ =>
    intro i j b c hi hj hbc
    obtain ⟨b', hi', hb⟩ := getElem?_set hold hagrees hi
    obtain ⟨c', hj', hc⟩ := getElem?_set hold hagrees hj
    exact hcol i j b' c' hi' hj' (agrees_trans hb (agrees_trans hbc (agrees_symm hc)))
  | kept _ _ _ => exact hcol

theorem mem_or_eq (hf : f ∈ col') : f ∈ col ∨ f = e := by
  cases h with
  | added _ => exact Array.mem_push.mp hf
  | improved _ _ _ _ _ => exact mem_or_eq_of_mem_setIfInBounds hf
  | kept _ _ _ => exact .inl hf

theorem mem_of_arrived_ne (hf : f ∈ col) (hne : f.arrived ≠ a) : f ∈ col' := by
  cases h with
  | added _ => exact mem_push_of_mem e hf
  | improved hold _ hrule _ _ =>
    rcases eq_or_mem_set hold hf e with rfl | hf
    · exact absurd hrule hne
    · exact hf
  | kept _ _ _ => exact hf

end Entered

/-! ## Entries that need not come again -/

/-- The column has an entry that agrees with `x` and would not give way to it. -/
def Column.Covers (a : Arrived) (col : Column) (x : Entry) : Prop := ∃ f ∈ col,
  f.item.agrees x.item = true ∧ (f.arrived = a → x.arrived = a → x.beats f = false)

theorem Column.Covers.of_mem {a : Arrived} {col : Column} {x : Entry} (h : x ∈ col) :
    col.Covers a x :=
  ⟨x, h, agrees_refl _, fun _ _ => x.beats_irrefl⟩

/-- Every entry still has one that agrees with it and is not worse. -/
def Column.Refines (position : Nat) (col col' : Column) : Prop := ∀ f ∈ col, ∃ f' ∈ col',
  f'.item.agrees f.item = true ∧ f.weight ≤ f'.weight ∧ (f.home = position → f'.home = position)

namespace Entered

variable {a : Arrived} {col col' : Column} {e f x : Entry}

open Column

variable {place : Option Nat} (h : Entered a col e col' place)
include h

theorem covers_self : col'.Covers a e := by
  cases h with
  | added _ => exact .of_mem mem_push_self
  | improved hold _ _ _ _ =>
    exact .of_mem (mem_setIfInBounds (Array.getElem?_eq_some_iff.mp hold).1)
  | kept hold hagrees hbeats => exact ⟨_, hold, hagrees, hbeats⟩

theorem covers (hx : col.Covers a x) : col'.Covers a x := by
  obtain ⟨f, hf, hagrees, hbeats⟩ := hx
  cases h with
  | added _ => exact ⟨f, mem_push_of_mem e hf, hagrees, hbeats⟩
  | improved hold hagrees' hrule _ hbeats' =>
    rcases eq_or_mem_set hold hf e with rfl | hf
    · -- the entry that covered `x` gives way to one that is better still
      obtain ⟨hk, -⟩ := Array.getElem?_eq_some_iff.mp hold
      refine ⟨e, mem_setIfInBounds hk,
        agrees_trans (agrees_symm hagrees') hagrees, fun _ hx => ?_⟩
      have hno := hbeats hrule hx
      cases hyes : x.beats e with
      | false => rfl
      | true => rw [Entry.beats_trans hyes hbeats'] at hno; cases hno
    · exact ⟨f, hf, hagrees, hbeats⟩
  | kept _ _ _ => exact ⟨f, hf, hagrees, hbeats⟩

theorem refines {position : Nat} (hhome : e.home = position)
    (hweight : ∀ old ∈ col, old.arrived = a → old.item.agrees e.item = true → e.beats old = true →
      old.weight ≤ e.weight) : col.Refines position col' := by
  intro f hf
  cases h with
  | added _ => exact ⟨f, mem_push_of_mem e hf, agrees_refl _, Int.le_refl _, id⟩
  | improved hold hagrees hrule _ hbeats =>
    rcases eq_or_mem_set hold hf e with rfl | hf'
    · obtain ⟨hk, -⟩ := Array.getElem?_eq_some_iff.mp hold
      exact ⟨e, mem_setIfInBounds hk, agrees_symm hagrees,
        hweight f hf hrule hagrees hbeats, fun _ => hhome⟩
    · exact ⟨f, hf', agrees_refl _, Int.le_refl _, id⟩
  | kept _ _ _ => exact ⟨f, hf, agrees_refl _, Int.le_refl _, id⟩

end Entered

/-! ## Entries one after the other -/

/-- The places of the entries that changed are collected. -/
inductive EnteredAll (a : Arrived) : Column → List Entry → Column → List Nat → Prop
  | nil (col : Column) : EnteredAll a col [] col []
  | cons {col col' col'' : Column} {x : Entry} {xs : List Entry} {place : Option Nat}
      {changed : List Nat} : Entered a col x col' place → EnteredAll a col' xs col'' changed →
      EnteredAll a col (x :: xs) col'' (changed ++ place.toList)

namespace EnteredAll

variable {a : Arrived} {col col' : Column} {xs : List Entry} {changed : List Nat} {f x : Entry}

variable (h : EnteredAll a col xs col' changed)
include h

theorem distinct (hcol : col.Distinct) : col'.Distinct := by
  induction h with
  | nil => exact hcol
  | cons hentered _ ih => exact ih (hentered.distinct hcol)

theorem mem_or_mem (hf : f ∈ col') : f ∈ col ∨ f ∈ xs := by
  induction h with
  | nil => exact .inl hf
  | cons hentered _ ih =>
    rcases ih hf with hf | hf
    · rcases hentered.mem_or_eq hf with hf | rfl
      · exact .inl hf
      · exact .inr (.head _)
    · exact .inr (.tail _ hf)

theorem mem_of_arrived_ne (hf : f ∈ col) (hne : f.arrived ≠ a) : f ∈ col' := by
  induction h with
  | nil => exact hf
  | cons hentered _ ih => exact ih (hentered.mem_of_arrived_ne hf hne)

theorem covers (hx : col.Covers a x) : col'.Covers a x := by
  induction h with
  | nil => exact hx
  | cons hentered _ ih => exact ih (hentered.covers hx)

theorem covers_of_mem (hx : x ∈ xs) : col'.Covers a x := by
  induction h with
  | nil => cases hx
  | cons hentered hrest ih =>
    rcases List.mem_cons.mp hx with rfl | hx
    · exact hrest.covers hentered.covers_self
    · exact ih hx

end EnteredAll

theorem Column.enteredAll_receive (col : Column) (es : List Entry) :
    ∃ changed, EnteredAll .byTerminal col es (col.receive es) changed := by
  induction es generalizing col with
  | nil => exact ⟨[], .nil col⟩
  | cons e es ih =>
    obtain ⟨changed, h⟩ := ih (col.enter .byTerminal e).1
    exact ⟨_, .cons (col.entered .byTerminal e) h⟩

namespace Column.Refines

variable {position : Nat} {col col' col'' : Column}

theorem refl (position : Nat) (col : Column) : Refines position col col :=
  fun f hf => ⟨f, hf, agrees_refl _, Int.le_refl _, id⟩

end Column.Refines

end LuaInterpreter
