import LuaInterpreter.Proofs.Chart.Unfolding

/-!
# The shape of trees

Whatever text is read, the tree that reading gives has the shape that the grammar prescribes: below
a production stand trees of its symbols, in order. The chart is unfolded with a bounded number of
steps, so this also says that the bound is never met. A step that comes to no smaller part of the
text goes from a production to the category that it begins with, and such steps lead down in
`Category.height`.
-/

namespace LuaInterpreter

open List Item Production Entry

variable {start : Category} {text : List Char} {chart : Array Column}

/-! ## Trees of symbols -/

mutual

/-- A tree of a symbol. The leaf of a word holds that word. -/
inductive Tree.Fits : Symbol → Tree → Prop
  | leaf {t : Terminal} {s : String} {line : Nat} :
      (∀ w, t = .word w → s = w) → Tree.Fits (.terminal t) (.leaf t s line)
  | node {c : Category} {r : Production} {children : List Tree} :
      r.category = c → Tree.FitAll r.symbols children → Tree.Fits (.category c) (.node r children)

/-- Trees of some symbols, one for each. -/
inductive Tree.FitAll : List Symbol → List Tree → Prop
  | nil : Tree.FitAll [] []
  | cons {x : Symbol} {xs : List Symbol} {t : Tree} {ts : List Tree} :
      Tree.Fits x t → Tree.FitAll xs ts → Tree.FitAll (x :: xs) (t :: ts)

end

mutual

/-- A tree of a symbol whose leaves are read in the text, from one position to another. Text may be
skipped before each leaf. -/
inductive Tree.Covers (text : List Char) : Symbol → Tree → Nat → Nat → Prop
  | leaf {t : Terminal} {p k n : Nat} : Gap text p k → t.read? (text.drop k) = some n →
      Tree.Covers text (.terminal t)
        (.leaf t (String.ofList ((text.drop k).take n)) (lineAt text k)) p (k + n)
  | node {c : Category} {r : Production} {children : List Tree} {p q : Nat} :
      r.category = c → Tree.CoverAll text r.symbols children p q →
      Tree.Covers text (.category c) (.node r children) p q

inductive Tree.CoverAll (text : List Char) : List Symbol → List Tree → Nat → Nat → Prop
  | nil (p : Nat) : Tree.CoverAll text [] [] p p
  | cons {x : Symbol} {xs : List Symbol} {t : Tree} {ts : List Tree} {p m q : Nat} :
      Tree.Covers text x t p m → Tree.CoverAll text xs ts m q →
      Tree.CoverAll text (x :: xs) (t :: ts) p q

end

mutual

theorem Tree.Covers.fits {x : Symbol} {p q : Nat} : {t : Tree} → t.Covers text x p q → t.Fits x
  | .leaf .., h => by
    cases h with
    | leaf _ hread =>
      refine .leaf ?_
      rintro w rfl
      obtain ⟨rfl, rest, hrest⟩ := Terminal.read?_word hread
      rw [hrest, ← String.length_toList, take_left, String.ofList_toList]
  | .node .., h => by
    cases h with
    | node hc hall => exact .node hc hall.fitAll

theorem Tree.CoverAll.fitAll {xs : List Symbol} {p q : Nat} :
    {ts : List Tree} → Tree.CoverAll text xs ts p q → Tree.FitAll xs ts
  | [], h => by
    cases h
    exact .nil
  | _ :: _, h => by
    cases h with
    | cons ht hts => exact .cons ht.fits hts.fitAll

end

mutual

/-- Text that is skipped before a tree belongs to its first leaf, or comes after it if it has none. -/
theorem Tree.Covers.absorb {x : Symbol} {k p q : Nat} (hgap : Gap text k p) :
    {t : Tree} → t.Covers text x p q → ∃ m, t.Covers text x k m ∧ Gap text m q
  | .leaf .., h => by
    cases h with
    | leaf hgap' hread => exact ⟨_, .leaf (hgap.trans hgap') hread, .refl _⟩
  | .node .., h => by
    cases h with
    | node hc hall =>
      obtain ⟨m, hall', hgap'⟩ := hall.absorb hgap
      exact ⟨m, .node hc hall', hgap'⟩

theorem Tree.CoverAll.absorb {xs : List Symbol} {k p q : Nat} (hgap : Gap text k p) :
    {ts : List Tree} → Tree.CoverAll text xs ts p q →
      ∃ m, Tree.CoverAll text xs ts k m ∧ Gap text m q
  | [], h => by
    cases h
    exact ⟨k, .nil k, hgap⟩
  | _ :: _, h => by
    cases h with
    | cons ht hts =>
      obtain ⟨m, ht', hgap'⟩ := ht.absorb hgap
      obtain ⟨m', hts', hgap''⟩ := hts.absorb hgap'
      exact ⟨m', .cons ht' hts', hgap''⟩

end

theorem Tree.CoverAll.concat {xs : List Symbol} {ts : List Tree} {x : Symbol} {t : Tree}
    {p m q : Nat} (h : Tree.CoverAll text xs ts p m) (ht : t.Covers text x m q) :
    Tree.CoverAll text (xs ++ [x]) (ts ++ [t]) p q := by
  induction xs generalizing ts p with
  | nil =>
    cases h
    exact .cons ht (.nil _)
  | cons y xs ih =>
    cases h with
    | cons hy hrest => exact .cons hy (ih hrest)

/-! ## Productions that begin with a category -/

/-- How many productions can follow each other, each of which is all that the one before reads. -/
def Category.height : Category → Nat
  | .chunk | .exprs | .fields => 5
  | .block | .entry | .field => 4
  | .stats | .expr => 3
  | .stat | .elseifs | .attribNames | .variables | .prefixExpr | .args | .params | .numeral => 2
  | _ => 1

theorem Category.height_le (c : Category) : c.height ≤ 5 := by
  cases c <;> decide

namespace Production

def corner? (r : Production) : Option Category :=
  match r.symbols.head? with
  | some (.category c) => some c
  | _ => none

theorem corner?_eq_some_iff {r : Production} {c : Category} :
    r.corner? = some c ↔ r.symbols[0]? = some (.category c) := by
  rw [← List.head?_eq_getElem?, corner?]
  split
  · next c' h => rw [h, Option.some.injEq, Option.some.injEq, Symbol.category.injEq]
  · next h => exact ⟨nofun, fun hc => absurd hc (h c)⟩

theorem length_symbols_le (r : Production) : r.symbols.length ≤ 11 := by
  cases r <;> decide

theorem height_lt {r : Production} {c : Category} (hc : r.corner? = some c)
    (hlength : r.symbols.length = 1) : c.height < r.category.height := by
  have h : (r.corner?.all fun c =>
      r.symbols.length != 1 || c.height < r.category.height) = true := by
    cases r <;> decide
  simpa [hc, hlength] using h

/-- A production of several symbols begins with one that reads something. -/
theorem head_consumes {r : Production} (h : 2 ≤ r.symbols.length) :
    (r.symbols.take 1).any Symbol.consumes = true := by
  revert h
  cases r <;> decide

theorem second_consumes {r : Production} {x : Symbol} (h : r.corner?.isSome = true)
    (hx : r.symbols[1]? = some x) : x.consumes = true := by
  have hall : (!r.corner?.isSome || r.symbols[1]?.all Symbol.consumes) = true := by
    cases r <;> decide
  simpa [h, hx] using hall

end Production

/-! ## The steps of unfolding -/

/-- What it takes to get down to the text through categories that productions begin with. -/
def Item.lead (i : Item) : Nat :=
  if i.dot = 1 ∧ i.rule.corner?.isSome = true then
    if i.rule.symbols.length = 1 then i.rule.category.height else 6
  else 0

theorem Item.lead_le (i : Item) : i.lead ≤ 6 := by
  have hheight := i.rule.category.height_le
  unfold lead
  split
  · split <;> omega
  · omega

/-- The number of steps that it takes to unfold an entry, at most. -/
def Entry.demand (e : Entry) : Nat :=
  dottedRules * (e.home - e.item.start) + (16 * e.item.lead + e.item.dot)

section Steps

variable {item : Item} {d b j : Nat} {last : Part} {before : Option (Nat × Item)} {u v : Int}

variable (hchart : IsChart start text chart)
include hchart

theorem Latest.lt_of_consumes (h : Latest text chart item d last b j u) {x : Symbol}
    (hx : item.rule.symbols[d]? = some x) (hconsumes : x.consumes = true) : b < j := by
  unfold Latest at h
  split at h
  · next t s line =>
    obtain ⟨hsymbol, -, k, n, hgap, hread, rfl, -⟩ := h
    have hle := hgap.le
    have hpos := read?_pos hsymbol hread
    omega
  · next home i =>
    obtain ⟨hsymbol, hcomplete, hgap, hle, hgap', -, g, hg, hagrees, hhome, -⟩ := h
    obtain rfl := Option.some.inj (hx.symm.trans hsymbol)
    obtain ⟨q, hderives, hq⟩ :=
      (hchart.sound home g hg).derives_all (isComplete_of_agrees hagrees hcomplete)
    rw [start_eq_of_agrees hagrees] at hderives
    have hlt := hderives.lt_of_consumes ((category_eq_of_agrees hagrees).symm ▸ hconsumes)
    have hle := hgap.le
    have hle' := hgap'.le
    have hle'' := hq.le
    omega

theorem Prior.le (h : Prior chart item d before b v) : item.start ≤ b := by
  obtain ⟨q, v', -, hgap, hderives⟩ := Preferred.exists_prior hchart h
  exact Nat.le_trans hderives.le hgap.le

theorem Prior.lt (h : Prior chart item d before b v) (hd : 0 < d)
    (hlength : d < item.rule.symbols.length) : item.start < b := by
  obtain ⟨q, v', -, hgap, hderives⟩ := Preferred.exists_prior hchart h
  refine Nat.lt_of_lt_of_le (hderives.lt_of_any ?_ ?_) hgap.le
  · exact fun hmem => item.rule.word_ne_empty (mem_of_mem_take hmem)
  · obtain ⟨x, hx, hconsumes⟩ :=
      any_eq_true.mp (head_consumes (r := item.rule) (by omega))
    exact any_eq_true.mpr ⟨x, take_subset_take_left _ hd hx, hconsumes⟩

variable {e : Entry} (hdot : e.item.dot = d + 1) (hlength : d < e.item.rule.symbols.length)
  (hprior : Prior chart e.item d before b v)
include hdot hlength hprior

/-- One step leads back to the symbols before. -/
theorem demand_before {f : Entry} (hlatest : Latest text chart e.item d last b e.home u)
    (hitem : f.item = ⟨e.item.rule, d, e.item.start⟩) (hhome : f.home = b) :
    f.demand + 1 ≤ e.demand := by
  have hle := hprior.le hchart
  have hle' := hlatest.le
  rw [demand, demand, hitem, hhome, hdot]
  simp only [dottedRules]
  by_cases hlead : d = 1 ∧ e.item.rule.corner?.isSome = true
  · obtain ⟨rfl, hcorner⟩ := hlead
    have hx := List.getElem?_eq_getElem hlength
    have hlt := hlatest.lt_of_consumes hchart hx (second_consumes hcorner hx)
    have hmost := lead_le ⟨e.item.rule, 1, e.item.start⟩
    omega
  · have hnone : Item.lead ⟨e.item.rule, d, e.item.start⟩ = 0 := if_neg hlead
    omega

/-- Two steps lead down to the category that was read last. -/
theorem demand_last {g : Entry} {h : Nat} {i : Item}
    (hlatest : Latest text chart e.item d (.node h i) b e.home u) (hg : g ∈ chart.getD h #[])
    (hagrees : g.item.agrees i = true) (hhome : g.home = h) : g.demand + 2 ≤ e.demand := by
  obtain ⟨hsymbol, hcomplete, hgap, hspan, hgap', -⟩ := hlatest
  have hgcomplete := isComplete_of_agrees hagrees hcomplete
  have hcategory := category_eq_of_agrees hagrees
  have hall := Item.isComplete_iff.mp hgcomplete
  have hdot_le := (hchart.sound h g hg).dot_le
  have hmost := g.item.rule.length_symbols_le
  have hle := hprior.le hchart
  have hle' := hgap.le
  have hle'' := hgap'.le
  rw [demand, demand, start_eq_of_agrees hagrees, hhome, hdot]
  simp only [dottedRules]
  by_cases hd : d = 0
  · subst hd
    -- The category is what the production begins with.
    have hcorner : e.item.rule.corner? = some i.rule.category :=
      Production.corner?_eq_some_iff.mpr hsymbol
    have hlead : g.item.lead + 1 ≤ e.item.lead := by
      have hheight := i.rule.category.height_le
      have hone : g.item.lead ≤ i.rule.category.height := by
        unfold Item.lead
        split
        · rw [if_pos (by omega), hcategory]
        · exact Nat.zero_le _
      rw [show e.item.lead = _ from if_pos ⟨hdot, by rw [hcorner]; rfl⟩]
      split
      · next hlength => exact Nat.lt_of_le_of_lt hone (height_lt hcorner hlength)
      · omega
    omega
  · have hlt := hprior.lt hchart (Nat.pos_of_ne_zero hd) hlength
    have hlead := g.item.lead_le
    omega

/-! ## Unfolding -/

/-- An entry is unfolded to trees of the symbols that it has read, which cover the text up to where
the entry belongs. -/
def Entry.CoversSymbols (text : List Char) (chart : Array Column) (fuel : Nat) (e : Entry) : Prop :=
  ∀ after, ∃ ts q, e.trees chart fuel after = ts ++ after ∧
    Tree.CoverAll text (e.item.rule.symbols.take e.item.dot) ts e.item.start q ∧
    Gap text q e.home

namespace IsChart

variable {fuel : Nat} (hlatest : Latest text chart e.item d last b e.home u)
  (hfuel : e.demand ≤ fuel)
  (ih : ∀ m < fuel, ∀ p, ∀ f ∈ chart.getD p #[], f.demand ≤ m → f.CoversSymbols text chart m)
include hlatest hfuel ih

theorem covers_last :
    ∃ x m, e.item.rule.symbols[d]? = some x ∧
      (partTree chart fuel last).Covers text x b m ∧ Gap text m e.home := by
  cases last with
  | token t s line =>
    obtain ⟨hsymbol, -, k, n, hgap, hread, hhome, rfl, rfl⟩ := hlatest
    rw [partTree, hhome]
    exact ⟨_, _, hsymbol, .leaf hgap hread, .refl _⟩
  | node h i =>
    obtain ⟨hsymbol, hcomplete, hgap, -, hgap', -, g, hg, hagrees, hhome, -⟩ := id hlatest
    have hdemand := demand_last hchart hdot hlength hprior hlatest hg hagrees hhome
    obtain ⟨fuel, rfl⟩ : ∃ m, fuel = m + 2 := ⟨fuel - 2, by omega⟩
    rw [hchart.partTree_eq hg hagrees]
    obtain ⟨ts, q, hts, hcover, hq⟩ := ih fuel (by omega) h g hg (by omega) []
    have hgcomplete := isComplete_of_agrees hagrees hcomplete
    rw [take_of_length_le (Item.isComplete_iff.mp hgcomplete),
      start_eq_of_agrees hagrees] at hcover
    obtain ⟨m, hcover', hm⟩ := hcover.absorb hgap
    rw [hts, append_nil]
    refine ⟨_, m, hsymbol, .node (category_eq_of_agrees hagrees) hcover', hm.trans ?_⟩
    exact (hhome ▸ hq).trans hgap'

theorem covers_before (after : List Tree) :
    ∃ ts q, childrenOf chart fuel before after = ts ++ after ∧
      Tree.CoverAll text (e.item.rule.symbols.take d) ts e.item.start q ∧ Gap text q b := by
  cases before with
  | none =>
    obtain ⟨rfl, rfl, -⟩ := hprior
    rw [childrenOf, take_zero]
    exact ⟨[], _, rfl, .nil _, .refl _⟩
  | some reference =>
    obtain ⟨h, i⟩ := reference
    obtain ⟨-, rfl, rfl, f, hf, hitem, hhome, -⟩ := id hprior
    have hdemand := demand_before hchart hdot hlength hprior hlatest hitem hhome
    obtain ⟨fuel, rfl⟩ : ∃ m, fuel = m + 1 := ⟨fuel - 1, by omega⟩
    rw [hchart.childrenOf_eq hf (hitem ▸ agrees_refl _)]
    obtain ⟨ts, q, hts, hcover, hq⟩ := ih fuel (by omega) _ f hf (by omega) after
    rw [hitem] at hcover
    exact ⟨ts, q, hts, hcover, hhome ▸ hq⟩

end IsChart

end Steps

/-- There are steps enough to unfold an entry of a chart if they meet its demand. -/
theorem IsChart.coversSymbols (hchart : IsChart start text chart) (fuel : Nat) {p : Nat} {e : Entry}
    (he : e ∈ chart.getD p #[]) (hfuel : e.demand ≤ fuel) : e.CoversSymbols text chart fuel := by
  induction fuel using Nat.strongRecOn generalizing p e with
  | ind fuel ih =>
    intro after
    have hsound := hchart.sound p e he
    have htraced := hsound.traced
    rw [Entry.Traced] at htraced
    rw [trees]
    cases hstep : e.step with
    | none =>
      rw [hstep] at htraced
      rw [htraced.1, take_zero, htraced.2.1]
      exact ⟨[], _, rfl, .nil _, .refl _⟩
    | some step =>
      rw [hstep] at htraced
      obtain ⟨d, b, v, u, hdot, hprior, hlatest, -⟩ := htraced
      have hlength : d < e.item.rule.symbols.length := by
        have hle := hsound.dot_le
        omega
      obtain ⟨x, m, hx, hlast, hm⟩ := hchart.covers_last hdot hlength hprior hlatest hfuel ih
      obtain ⟨ts, q, hts, hcover, hq⟩ := hchart.covers_before hdot hlength hprior hlatest hfuel ih
        (partTree chart fuel step.last :: after)
      obtain ⟨m', hlast', hm'⟩ := hlast.absorb hq
      rw [hdot, take_add_one, hx, Option.toList_some]
      refine ⟨ts ++ [partTree chart fuel step.last], m', ?_, hcover.concat hlast', hm'.trans hm⟩
      rw [append_assoc]
      exact hts

/-- Reading a text as a category gives a tree of that category whose leaves are the text, but for
what can be skipped. -/
theorem readText_covers {tree : Tree} (h : readText start text = .ok tree) :
    ∃ q, tree.Covers text (.category start) 0 q ∧ Gap text q text.length := by
  unfold readText at h
  dsimp only at h
  split at h
  · cases h
  · next chart hread =>
    obtain rfl : chart = chartTo start text (text.length + 1) :=
      @eq_chartTo_of_readFrom start text chart 0 text 1 0 rfl (Nat.zero_le _) hread
    have hchart := isChart_chartTo start text (text.length + 1)
    rw [size_chartTo, Nat.add_sub_cancel] at h
    split at h
    · cases h
    · next e hfind =>
      have he := Array.mem_toList_iff.mp (mem_of_find?_eq_some hfind)
      have hreads := find?_some hfind
      obtain ⟨hstart, hcategory, hcomplete⟩ := reads_iff.mp hreads
      have hsound := hchart.sound _ e he
      have hdemand : e.demand ≤ dottedRules * (text.length + 1) - 1 := by
        have hhome := hsound.home_le
        have hlead := e.item.lead_le
        have hdot := hsound.dot_le
        have hlength := e.item.rule.length_symbols_le
        simp only [demand, dottedRules]
        omega
      cases h
      rw [show dottedRules * (text.length + 1) = dottedRules * (text.length + 1) - 1 + 1 by
        simp only [dottedRules]; omega, hchart.treeOf_eq he (agrees_refl _)]
      obtain ⟨ts, q, hts, hcover, hq⟩ := hchart.coversSymbols _ he hdemand []
      rw [take_of_length_le (Item.isComplete_iff.mp hcomplete), hstart] at hcover
      rw [hts, append_nil]
      exact ⟨q, .node hcategory hcover, hq.trans hsound.gap⟩

theorem readText_fits {tree : Tree} (h : readText start text = .ok tree) :
    tree.Fits (.category start) := by
  obtain ⟨q, hcovers, -⟩ := readText_covers h
  exact hcovers.fits

end LuaInterpreter
