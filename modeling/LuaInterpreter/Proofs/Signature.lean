import LuaInterpreter.Store.Text

/-!
# Parameters as text

The text of a function's parameters opens a bracket for each optional one, and for the dots of a
variadic function, and closes all of them at its very end. Without the brackets it is the list of
the names; the names before the first bracket are those of the required parameters.
-/

namespace LuaInterpreter.Function

open List

def isBracket (c : Char) : Bool := c == '[' || c == ']'

/-- No bracket is closed before it was opened, and each is closed. -/
def Balanced (text : List Char) : Prop :=
  (∀ p, p <+: text → p.count ']' ≤ p.count '[') ∧ text.count '[' = text.count ']'

/-- The names that are listed, with dots for further arguments. -/
def listed (variadic : Bool) (names : List String) : List String :=
  names ++ if variadic then ["..."] else []

/-- Items behind those before an index, with commas between all of them. -/
def separated : (index : Nat) → List String → List Char
  | _, [] => []
  | index, p :: rest =>
    (if index = 0 then [] else [',', ' ']) ++ p.toList ++ separated (index + 1) rest

/-- The text of items up to where brackets are closed. -/
structure Opens (required index : Nat) (items : List String) (front : List Char) : Prop where
  not_closed : ']' ∉ front
  count : front.count '[' = items.length - (required - index)
  filter : front.filter (!isBracket ·) = separated index items
  begins : separated index (items.take (required - index)) <+: front

variable {required index : Nat} {items names : List String}

theorem separated_zero : separated 0 items = (", ".intercalate items).toList := by
  have hmore (p : String) (items : List String) (index : Nat) :
      p.toList ++ separated (index + 1) items = (", ".intercalate (p :: items)).toList := by
    induction items generalizing p index with
    | nil => simp [separated]
    | cons q items ih =>
      rw [String.intercalate_cons_cons, String.toList_append, ← ih q (index + 1)]
      simp [separated]
  cases items with
  | nil => rfl
  | cons p items => exact hmore p items 0

/-- Dots are written like a last optional parameter. -/
theorem paramsFrom_variadic (hle : required ≤ index + names.length) :
    paramsFrom true required index names = paramsFrom false required index (names ++ ["..."]) := by
  induction names generalizing index with
  | nil =>
    have hindex : ¬(index : Int) < required := by simpa using hle
    rw [nil_append, paramsFrom, paramsFrom, if_neg hindex, if_pos rfl]
    split <;> rfl
  | cons p names ih =>
    rw [length_cons] at hle
    simp only [cons_append, paramsFrom, ih (by omega : required ≤ index + 1 + names.length)]

theorem exists_opens (hle : required ≤ index + items.length)
    (hitems : ∀ p ∈ items, ∀ c ∈ p.toList, isBracket c = false) :
    ∃ front, (paramsFrom false required index items).toList =
      front ++ replicate (items.length - (required - index)) ']' ∧
        Opens required index items front := by
  induction items generalizing index with
  | nil => exact ⟨[], by simp [paramsFrom], by simp, by simp, rfl, by simp [separated]⟩
  | cons p items ih =>
    rw [length_cons] at hle ⊢
    rw [forall_mem_cons] at hitems
    obtain ⟨front, htext, hopens⟩ := @ih (index + 1) (by omega) hitems.2
    -- What stands before the rest has no brackets but the one that may be opened.
    obtain ⟨item, hitem⟩ : ∃ item, (if index = 0 then [] else [',', ' ']) ++ p.toList = item :=
      ⟨_, rfl⟩
    have hplain : ∀ c ∈ item, isBracket c = false := by
      rw [← hitem]
      refine forall_mem_append.mpr ⟨?_, hitems.1⟩
      split <;> simp [isBracket]
    have hopen : '[' ∉ item := fun h => absurd (hplain _ h) (by decide)
    have hclose : ']' ∉ item := fun h => absurd (hplain _ h) (by decide)
    have hfilter : item.filter (!isBracket ·) = item := by simpa using hplain
    have hseparated (ps : List String) :
        separated index (p :: ps) = item ++ separated (index + 1) ps := by
      rw [separated, hitem]
    by_cases hindex : index < required
    · have hpairs : items.length + 1 - (required - index) =
          items.length - (required - (index + 1)) := by
        omega
      refine ⟨item ++ front, ?_, ?_, ?_, ?_, ?_⟩
      · rw [hpairs, paramsFrom, if_pos (Int.ofNat_lt.mpr hindex), String.toList_append,
          String.toList_append, htext, append_assoc, ← hitem]
        split <;> simp
      · simp [hclose, hopens.not_closed]
      · rw [count_append, count_eq_zero_of_not_mem hopen, hopens.count, length_cons, hpairs,
          Nat.zero_add]
      · rw [filter_append, hfilter, hopens.filter, hseparated]
      · rw [show required - index = required - (index + 1) + 1 by omega, take_succ_cons, hseparated]
        exact (prefix_append_right_inj item).mpr hopens.begins
    · have hpairs : items.length + 1 - (required - index) =
          items.length - (required - (index + 1)) + 1 := by
        omega
      refine ⟨'[' :: (item ++ front), ?_, ?_, ?_, ?_, ?_⟩
      · rw [hpairs, replicate_succ', paramsFrom, if_neg (mt Int.ofNat_lt.mp hindex), ← hitem]
        simp only [String.toList_append, htext]
        split <;> simp
      · simp [hclose, hopens.not_closed]
      · rw [count_cons_self, count_append, count_eq_zero_of_not_mem hopen, hopens.count,
          length_cons, hpairs, Nat.zero_add]
      · rw [filter_cons_of_neg (by decide), filter_append, hfilter, hopens.filter, hseparated]
      · rw [Nat.sub_eq_zero_of_le (Nat.le_of_not_lt hindex)]
        exact nil_prefix

/-- Brackets that are closed when all have been opened are balanced. -/
theorem balanced_of_closed_at_end {front : List Char} (h : ']' ∉ front) :
    Balanced (front ++ replicate (front.count '[') ']') := by
  have hclosed := count_eq_zero_of_not_mem h
  have hnone (n : Nat) : (replicate n ']').count '[' = 0 := by
    rw [count_replicate]
    rfl
  refine ⟨fun p hp => ?_, by simp [hclosed, hnone]⟩
  rcases prefix_or_prefix_of_prefix hp (prefix_append front _) with hfront | ⟨q, rfl⟩
  · rw [count_eq_zero_of_not_mem fun hmem => h (hfront.subset hmem)]
    exact Nat.zero_le _
  · have hq := ((prefix_append_right_inj front).mp hp).sublist.count_le ']'
    rw [count_replicate_self] at hq
    rw [count_append, count_append, hclosed]
    omega

/-- Each optional parameter and the dots of a variadic function open a bracket, and all brackets are
closed at the very end. Between them stand the names, with commas; the text begins with those of the
required parameters. -/
theorem signature_brackets_close_at_end (variadic : Bool) (hle : required ≤ names.length)
    (hnames : ∀ p ∈ names, ∀ c ∈ p.toList, isBracket c = false) :
    let text := (paramsFrom variadic required 0 names).toList
    let pairs := names.length - required + variadic.toNat
    Balanced text ∧
      (∃ front, text = front ++ replicate pairs ']' ∧ ']' ∉ front ∧ front.count '[' = pairs) ∧
      text.filter (!isBracket ·) = (", ".intercalate (listed variadic names)).toList ∧
      (", ".intercalate (names.take required)).toList <+: text := by
  intro text pairs
  have hitems : ∀ p ∈ listed variadic names, ∀ c ∈ p.toList, isBracket c = false := by
    cases variadic with
    | false => simpa [listed] using hnames
    | true => exact forall_mem_append.mpr ⟨hnames, by simp [isBracket]⟩
  have hpairs : (listed variadic names).length - (required - 0) = pairs := by
    cases variadic <;> simp [listed, pairs] <;> omega
  have hlength : required ≤ 0 + (listed variadic names).length := by
    rw [listed, length_append]
    omega
  obtain ⟨front, htext, hopens⟩ := exists_opens hlength hitems
  have hvariadic : paramsFrom variadic required 0 names =
      paramsFrom false required 0 (listed variadic names) := by
    cases variadic with
    | false => rw [listed, if_neg Bool.false_ne_true, append_nil]
    | true => exact paramsFrom_variadic (by omega)
  have htext : text = front ++ replicate pairs ']' := by rw [← hpairs, ← htext, ← hvariadic]
  have hcount : front.count '[' = pairs := hopens.count.trans hpairs
  refine ⟨?_, ⟨front, htext, hopens.not_closed, hcount⟩, ?_, ?_⟩
  · rw [htext, ← hcount]
    exact balanced_of_closed_at_end hopens.not_closed
  · rw [htext, filter_append, hopens.filter, separated_zero, filter_replicate]
    simp [isBracket]
  · have htake : (listed variadic names).take (required - 0) = names.take required :=
      take_append_of_le_length hle
    have hbegins := hopens.begins
    rw [htake, separated_zero] at hbegins
    exact htext ▸ hbegins.trans (prefix_append front _)

/-- Of three parameters the last two are optional, and there may be more arguments. -/
theorem two_of_three_are_bracketed :
    paramsFrom true 1 0 ["a", "b", "c"] = "a[, b[, c[, ...]]]" ∧
      Balanced (paramsFrom true 1 0 ["a", "b", "c"]).toList :=
  ⟨by decide,
    (@signature_brackets_close_at_end 1 ["a", "b", "c"] true (by decide) (by simp [isBracket])).1⟩

end LuaInterpreter.Function
