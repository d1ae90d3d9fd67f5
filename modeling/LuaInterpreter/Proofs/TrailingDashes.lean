import LuaInterpreter.Proofs.Chart.TreeShape
import LuaInterpreter.Proofs.Expression.Spelling

/-!
# Dashes at the end of a text

A comment to the end of its line includes the line end. So at the end of a text, without a line end,
two dashes begin no comment: the first one is a token, the sign for subtraction.
-/

namespace LuaInterpreter

open List Scan Terminal

/-! ## Positions that are not passed over -/

/-- A tree that is read from one position to another has a leaf for the terminal at `d`. -/
inductive Tree.LeafAt (text : List Char) (d : Nat) (t : Terminal) : Tree → Nat → Nat → Prop
  | leaf {p n : Nat} : Gap text p d → t.read? (text.drop d) = some n → Tree.LeafAt text d t
      (.leaf t (String.ofList ((text.drop d).take n)) (lineAt text d)) p (d + n)
  | node {r : Production} {xs ys : List Symbol} {front back : List Tree} {child : Tree}
      {p m k q : Nat} : Tree.CoverAll text xs front p m → Tree.LeafAt text d t child m k →
      Tree.CoverAll text ys back k q → Tree.LeafAt text d t (.node r (front ++ child :: back)) p q

/-- Nothing is skipped from a position on, and nothing that is skipped or read before it reaches
beyond it. -/
structure IsBoundary (text : List Char) (d : Nat) : Prop where
  skips : skips (text.drop d) = []
  skips_le : ∀ k < d, ∀ n ∈ LuaInterpreter.skips (text.drop k), k + n ≤ d
  read_le : ∀ t : Terminal, t.InGrammar → ∀ k < d, ∀ n, t.read? (text.drop k) = some n → k + n ≤ d

variable {text : List Char} {d : Nat}

theorem IsBoundary.le_of_gap {p q : Nat} (hd : IsBoundary text d) (hp : p ≤ d) (h : Gap text p q) :
    q ≤ d := by
  induction h with
  | refl => exact hp
  | step _ hn ih =>
    rcases Nat.eq_or_lt_of_le ih with rfl | hlt
    · rw [hd.skips] at hn
      cases hn
    · exact hd.skips_le _ hlt _ hn

mutual

/-- What is read across a boundary has a leaf there. -/
theorem Tree.Covers.exists_leafAt {x : Symbol} {p q : Nat} (hd : IsBoundary text d)
    (hx : ∀ t, x = .terminal t → t.InGrammar) (hp : p ≤ d) (hq : d < q) :
    {tree : Tree} → tree.Covers text x p q → ∃ t n, t.InGrammar ∧
      t.read? (text.drop d) = some n ∧ tree.LeafAt text d t p q
  | .leaf t .., h => by
    cases h with
    | @leaf _ _ k n hgap hread =>
      obtain rfl : k = d := by
        by_contra hne
        have hk := Nat.lt_of_le_of_ne (hd.le_of_gap hp hgap) hne
        have hle := hd.read_le t (hx t rfl) k hk n hread
        omega
      exact ⟨t, n, hx t rfl, hread, .leaf hgap hread⟩
  | .node r _, h => by
    cases h with
    | node _ hall =>
      exact Tree.CoverAll.exists_leafAt hd r (fun t ht => ⟨r, ht⟩) hp hq (.nil p) hall

theorem Tree.CoverAll.exists_leafAt {xs ys : List Symbol} {front : List Tree} {p m q : Nat}
    (hd : IsBoundary text d) (r : Production) (hxs : ∀ t, .terminal t ∈ xs → t.InGrammar)
    (hm : m ≤ d) (hq : d < q) (hfront : Tree.CoverAll text ys front p m) :
    {ts : List Tree} → Tree.CoverAll text xs ts m q → ∃ t n, t.InGrammar ∧
      t.read? (text.drop d) = some n ∧ (Tree.node r (front ++ ts)).LeafAt text d t p q
  | [], h => by
    cases h with
    | nil => omega
  | tree :: ts, h => by
    cases h with
    | @cons _ _ _ _ _ k _ htree hts =>
      rcases Nat.lt_or_ge d k with hk | hk
      · obtain ⟨t, n, ht, hread, hleaf⟩ :=
          htree.exists_leafAt hd (fun t ht => hxs t (ht ▸ .head _)) hm hk
        exact ⟨t, n, ht, hread, .node hfront hleaf hts⟩
      · rw [append_cons]
        exact Tree.CoverAll.exists_leafAt hd r (fun t ht => hxs t (.tail _ ht)) hk hq
          (hfront.concat htree) hts

end

/-! ## Dashes -/

theorem Production.dashes (r : Production) : r.symbols.all (fun symbol => match symbol with
    | .terminal t => t == .word "-" || t == .quoted || !t.holds '-'
    | .category _ => true) = true := by
  cases r <;> decide

theorem Terminal.InGrammar.of_dash {t : Terminal} (ht : t.InGrammar) (h : t.holds '-' = true) :
    t = .word "-" ∨ t = .quoted := by
  obtain ⟨r, hr⟩ := ht
  simpa [h] using all_eq_true.mp r.dashes _ hr

/-- Two dashes at the end of a text are no comment. Take a text of which nothing that can be skipped
and no quoted text reaches beyond its end, and after it a blank, two dashes and the rest of a last
line that does not begin with a bracket. If the whole is read at all, its tree has the first dash as
a leaf, and goes on to the end of the text. -/
theorem trailing_dashes_are_no_comment {c w : List Char}
    (htext : text = c ++ ' ' :: '-' :: '-' :: w) (hline : '\n' ∉ w) (hbracket : w.head? ≠ some '[')
    (hclosed : ∀ k ≤ c.length, (∀ n ∈ skips (text.drop k), k + n ≤ c.length + 1) ∧
      ∀ n ∈ quoted.read? (text.drop k), k + n ≤ c.length + 1) (start : Category) :
    (∃ e, readText start text = .error e) ∨ ∃ tree q, readText start text = .ok tree ∧
      tree.LeafAt text (c.length + 1) (.word "-") 0 q ∧ Gap text q text.length := by
  have hdrop : text.drop (c.length + 1) = '-' :: '-' :: w := by
    rw [htext, ← drop_drop, drop_left]
    rfl
  have hd : IsBoundary text (c.length + 1) := by
    refine ⟨?_, fun k hk => (hclosed k (Nat.le_of_lt_succ hk)).1, fun t ht k hk n hread => ?_⟩
    · have hspan : spanLength (· != '\n') w = w.length := by
        have hall : ∀ x ∈ w, (x != '\n') = true := fun x hx => bne_iff_ne.mpr (hline <| · ▸ hx)
        rw [← @spanLength_append _ w [] hall (by simp), append_nil]
      have hlong : longBracketLength w = none := by
        unfold longBracketLength
        split
        · exact absurd rfl hbracket
        · rfl
      rw [hdrop]
      simp [skips, spanLength, isBlank, hspan, hlong]
    · by_contra hlt
      have hmem : '-' ∈ (text.drop k).take n := by
        refine mem_of_getElem? (i := c.length + 1 - k) ?_
        rw [getElem?_take, if_pos (by omega), getElem?_drop, Nat.add_sub_cancel' hk.le,
          ← Nat.add_zero (c.length + 1), ← getElem?_drop, hdrop]
        rfl
      rcases ht.of_dash (holds_of_read? hread hmem) with rfl | rfl
      · obtain ⟨rfl, -⟩ := read?_word hread
        exact hlt hk
      · exact hlt ((hclosed k (Nat.le_of_lt_succ hk)).2 n hread)
  cases htree : readText start text with
  | error e => exact .inl ⟨e, rfl⟩
  | ok tree =>
    obtain ⟨q, hcovers, hgap⟩ := readText_covers htree
    have hq : c.length + 1 < q := by
      by_contra hle
      have := hd.le_of_gap (Nat.le_of_not_lt hle) hgap
      simp only [htext, length_append, length_cons] at this
      omega
    have hstart (t) (ht : Symbol.category start = .terminal t) : t.InGrammar := by cases ht
    obtain ⟨t, n, ht, hread, hleaf⟩ := hcovers.exists_leafAt hd hstart (Nat.zero_le _) hq
    obtain ⟨m, rfl⟩ := Nat.exists_eq_add_one.mpr (ht.read?_pos hread)
    rw [hdrop] at hread
    obtain rfl : t = .word "-" := (ht.of_dash (holds_of_read? hread (.head _))).resolve_right
      fun hquoted => by cases hquoted ▸ hread
    exact .inr ⟨tree, q, rfl, hleaf, hgap⟩

theorem dashes_after_return : (∃ e, readText .chunk "return 1 --2".toList = .error e) ∨
    ∃ tree q, readText .chunk "return 1 --2".toList = .ok tree ∧
      tree.LeafAt "return 1 --2".toList 9 (.word "-") 0 q ∧ Gap "return 1 --2".toList q 12 :=
  trailing_dashes_are_no_comment (c := "return 1".toList) (w := ['2']) rfl (by decide) (by decide)
    (by decide) .chunk

end LuaInterpreter
