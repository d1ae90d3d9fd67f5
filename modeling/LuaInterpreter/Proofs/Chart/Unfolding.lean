import LuaInterpreter.Proofs.Chart.Preference

/-!
# Unfolding the chart

The tree of an entry is put together from its last step, which leads to the entry of the symbols
before and to the entry of the category read last. If a reading is preferred, these are the entries
of its parts, so the tree is its tree.
-/

namespace LuaInterpreter

open List Item Tree Entry

variable {start : Category} {text : List Char} {chart : Array Column}

/-! ## The trees of an entry -/

mutual

def Tree.size : Tree → Nat
  | .leaf _ _ _ => 1
  | .node _ children => sizeAll children + 1

def Tree.sizeAll : List Tree → Nat
  | [] => 0
  | t :: ts => t.size + sizeAll ts

end

variable (ts : List Tree) (t : Tree)

theorem Tree.sizeAll_append (us : List Tree) :
    sizeAll (ts ++ us) = sizeAll ts + sizeAll us := by
  induction ts with
  | nil => rw [nil_append, sizeAll, Nat.zero_add]
  | cons t ts ih => rw [cons_append, sizeAll, ih, sizeAll, Nat.add_assoc]

/-- The trees of the symbols that an entry has read, followed by `after`. -/
def Entry.trees (chart : Array Column) (fuel : Nat) (e : Entry) (after : List Tree) : List Tree :=
  match e.step with
  | none => after
  | some step => childrenOf chart fuel step.before (partTree chart fuel step.last :: after)

/-- The entry has read these trees. -/
def Entry.Unfolds (chart : Array Column) (e : Entry) (ts : List Tree) : Prop :=
  ∀ fuel after, 2 * sizeAll ts ≤ fuel → e.trees chart fuel after = ts ++ after

namespace IsChart

variable {e : Entry} {item : Item} {h : Nat}

variable (hchart : IsChart start text chart)
include hchart

variable (he : e ∈ chart.getD h #[])
include he

variable (hagrees : e.item.agrees item = true)
include hagrees

theorem treeOf_eq (fuel : Nat) :
    treeOf chart (fuel + 1) h item = .node e.item.rule (e.trees chart fuel []) := by
  have hlookup := (hchart.distinct h).lookup_eq he hagrees
  rw [Column.lookup] at hlookup
  rw [treeOf]
  rw [hlookup, trees]
  dsimp only
  cases e.step <;> rfl

theorem childrenOf_eq (fuel : Nat) (after : List Tree) :
    childrenOf chart (fuel + 1) (some (h, item)) after = e.trees chart fuel after := by
  have hlookup := (hchart.distinct h).lookup_eq he hagrees
  rw [Column.lookup] at hlookup
  cases hstep : e.step <;> simp only [childrenOf, hlookup, trees, hstep]

theorem partTree_eq (fuel : Nat) :
    partTree chart (fuel + 2) (.node h item) = .node e.item.rule (e.trees chart fuel []) := by
  rw [partTree, hchart.treeOf_eq he hagrees]

end IsChart

def UnfoldsBefore (chart : Array Column) (before : Option (Nat × Item)) (ts : List Tree) : Prop :=
  ∀ fuel after, 2 * sizeAll ts + 1 ≤ fuel → childrenOf chart fuel before after = ts ++ after

def UnfoldsLast (chart : Array Column) (last : Part) (t : Tree) : Prop :=
  ∀ fuel, 2 * t.size ≤ fuel → partTree chart fuel last = t

theorem Tree.size_pos : 0 < t.size := by
  cases t <;> exact Nat.succ_pos _

theorem Entry.Unfolds.concat {e : Entry} {step : Step} {ts : List Tree} {t : Tree}
    (hstep : e.step = some step) (hbefore : UnfoldsBefore chart step.before ts)
    (hlast : UnfoldsLast chart step.last t) : e.Unfolds chart (ts ++ [t]) := by
  intro fuel after hfuel
  rw [sizeAll_append, sizeAll, sizeAll, Nat.add_zero] at hfuel
  have hpos := t.size_pos
  rw [trees, hstep]
  dsimp only
  rw [hlast fuel (by omega), hbefore fuel _ (by omega), append_assoc, singleton_append]

/-! ## The trees of a preferred reading -/

namespace Preferred

variable {r : Production} {d s b : Nat} {w : Int} {ts : List Tree}

variable {item : Item} {before : Option (Nat × Item)} {v : Int} {r' : Production} {j : Nat}

variable (hchart : IsChart start text chart)
include hchart

theorem exists_prior (hprior : Prior chart item d before b v) :
    ∃ q v', v ≤ v' ∧ Gap text q b ∧ Derives text (item.rule.symbols.take d) item.start q v' := by
  cases before with
  | none =>
    obtain ⟨rfl, rfl, rfl⟩ := hprior
    exact ⟨_, 0, Int.le_refl 0, .refl _, .nil _⟩
  | some reference =>
    obtain ⟨h, i⟩ := reference
    obtain ⟨-, rfl, rfl, f, hf, hitem, hhome, hweight⟩ := hprior
    obtain ⟨q, hderives, hgap⟩ := (hchart.sound b f hf).derives
    rw [hitem] at hderives
    exact ⟨q, f.weight, hweight, hhome ▸ hgap, hderives⟩

/-- The chart shows the trees of `d` symbols wherever it has an entry for them that weighs enough.
After a category that is carried past skipped text, it can have one behind that text. -/
def Shown (text : List Char) (chart : Array Column) (r : Production) (d s b : Nat) (w : Int)
    (ts : List Tree) : Prop :=
  ∀ b' f, Gap text b b' → (d = r.symbols.length → b' = b) → f ∈ chart.getD b' #[] →
    f.item = ⟨r, d, s⟩ → f.home = b' → w ≤ f.weight → f.Unfolds chart ts

variable (h : Preferred start text r d s b w ts)
include h

theorem unfoldsBefore {b' : Nat} (hshown : Shown text chart r d s b w ts)
    (hd : d < r.symbols.length) (hitem : item = ⟨r, d + 1, s⟩)
    (hprior : Prior chart item d before b' v) (hgap : Gap text b b') (hweight : w ≤ v) :
    UnfoldsBefore chart before ts := by
  intro fuel after hfuel
  cases before with
  | none =>
    obtain ⟨rfl, -⟩ := hprior
    obtain ⟨-, -, rfl⟩ := h.of_zero
    rw [childrenOf, nil_append]
  | some reference =>
    obtain ⟨h, i⟩ := reference
    obtain ⟨-, rfl, rfl, f, hf, hfitem, hhome, hfweight⟩ := hprior
    obtain ⟨fuel, rfl⟩ : ∃ m, fuel = m + 1 := ⟨fuel - 1, by omega⟩
    rw [hchart.childrenOf_eq hf (hfitem ▸ agrees_refl _)]
    rw [hitem] at hfitem
    exact hshown b' f hgap (fun heq => absurd heq (Nat.ne_of_lt hd)) hf hfitem hhome
      (Int.le_trans hweight hfweight) fuel after (by omega)

variable (htext : Spaced text)
include htext

theorem shown_terminal {k n : Nat} {t : Terminal} (hsymbol : r.symbols[d]? = some (.terminal t))
    (hgap : Gap text b k) (hread : t.read? (text.drop k) = some n)
    (hsplit : ∀ q v k' n', Derives text (r.symbols.take d) s q v → Gap text q k' →
      t.read? (text.drop k') = some n' → k' + n' = k + n → w ≤ v → q = b)
    (hshown : Shown text chart r d s b w ts) :
    Shown text chart r (d + 1) s (k + n) (w + t.weight)
      (ts ++ [.leaf t (String.ofList ((text.drop k).take n)) (lineAt text k)]) := by
  intro j e hj _ he hitem hhome hweight
  obtain ⟨step, b', v, u, hstep, hprior, hlatest, hle⟩ :=
    (hchart.sound j e he).exists_step (d := d) (by rw [hitem])
  cases hlast : step.last with
  | node h' i =>
    rw [hlast] at hlatest
    obtain ⟨hsymbol', -⟩ := hlatest
    rw [hitem] at hsymbol'
    cases hsymbol.symm.trans hsymbol'
  | token t' s' line =>
    rw [hlast] at hlatest
    obtain ⟨hsymbol', rfl, k', n', hgap', hread', hhome', rfl, rfl⟩ := hlatest
    rw [hitem] at hsymbol'
    obtain rfl : t = t' := by
      injection hsymbol.symm.trans hsymbol' with heq
      injection heq
    have hgrammar : t.InGrammar := ⟨r, mem_of_getElem? hsymbol⟩
    have hend : k' + n' = k + n := by
      have hfirm := htext.firm_of_read hgrammar hread'
      rw [← hhome', hhome] at hfirm ⊢
      exact (htext.eq_of_firm hj hfirm).symm
    obtain ⟨q, v', hv, hq, hderives⟩ := exists_prior hchart hprior
    rw [hitem] at hderives
    obtain rfl := hsplit q v' k' n' hderives (hq.trans hgap') hread' hend (by omega)
    obtain rfl := htext.read_unique hgrammar hgrammar hgap (hq.trans hgap') hread hread'
    obtain rfl : n' = n := Nat.add_left_cancel hend
    refine .concat hstep (unfoldsBefore hchart h hshown
      (List.getElem?_eq_some_iff.mp hsymbol).1 hitem hprior hq (by omega)) ?_
    intro fuel _
    rw [hlast, partTree]

omit h in
/-- A category of a preferred reading is completed where it ends, not behind skipped text. -/
theorem home_eq {x g : Entry} {h : Nat} (hx : x ∈ chart.getD j #[]) (hxhome : x.home = j)
    (hxrule : x.item.rule = r') (hxcomplete : x.item.isComplete = true) (hg : g ∈ chart.getD h #[])
    (hagrees : g.item.agrees x.item = true) (hghome : g.home = h) (hgap : Gap text j h)
    (hcase : r'.category = start ∨ h = j ∨ ∀ y : Production, y.category = r'.category →
      y.EndsInTerminal) : h = j := by
  have hsize : h < chart.size := by
    by_contra hle
    rw [getD_of_size_le (Nat.le_of_not_lt hle)] at hg
    exact Array.not_mem_empty g hg
  rcases hcase with hstart | heq | hends
  · obtain ⟨f, hf, hfitem, hfhome, -⟩ :=
      hchart.exists_past_gap htext hx (.inr ⟨hxrule ▸ hstart, hxcomplete⟩) hgap hsize
    have heq := (hchart.distinct h).eq_of_agrees hg hf (hfitem ▸ hagrees)
    rw [← hghome, heq, hfhome, hxhome]
  · exact heq
  · have hcategory : g.item.rule.category = r'.category :=
      hxrule ▸ category_eq_of_agrees hagrees
    have hcomplete := isComplete_of_agrees hagrees hxcomplete
    obtain ⟨t, hterminal⟩ := hends _ hcategory
    exact (htext.eq_of_firm hgap (hghome ▸ hchart.firm_of_last htext hg hcomplete hterminal)).symm

theorem shown_category {u : Int} {us : List Tree}
    (hsymbol : r.symbols[d]? = some (.category r'.category))
    (hconsumes : r'.category.consumes = true)
    (hcase : r'.category = start ∨ d + 1 = r.symbols.length ∨
      ∀ x : Production, x.category = r'.category → x.EndsInTerminal)
    (hchild : ∀ k, Gap text b k → Preferred start text r' r'.symbols.length k j u us)
    (hbest : ∀ k, Gap text b k → Best text r' k j u)
    (hsplit : ∀ q v k (x : Production) v', Derives text (r.symbols.take d) s q v → Gap text q k →
      x.category = r'.category → Derives text x.symbols k j v' → w + u ≤ v + v' → q = b)
    (hj : j < chart.size) (hshown : Shown text chart r d s b w ts)
    (hshown' : ∀ k, Gap text b k → Predicted chart r'.category k →
      Shown text chart r' r'.symbols.length k j u us) :
    Shown text chart r (d + 1) s j (w + u) (ts ++ [.node r' us]) := by
  intro j' e hgap hend he hitem hhome hweight
  obtain ⟨step, b', v, u', hstep, hprior, hlatest, hle⟩ :=
    (hchart.sound j' e he).exists_step (d := d) (by rw [hitem])
  cases hlast : step.last with
  | token t s' line =>
    rw [hlast] at hlatest
    obtain ⟨hsymbol', -⟩ := hlatest
    rw [hitem] at hsymbol'
    cases hsymbol.symm.trans hsymbol'
  | node h' i =>
    rw [hlast] at hlatest
    obtain ⟨hsymbol', hcomplete, hgap', -, hgap'', ⟨z, hz, hzitem⟩, g, hg, hagrees, hghome,
      hgweight⟩ := hlatest
    rw [hitem] at hsymbol' hzitem
    have hcategory : i.rule.category = r'.category := by
      injection hsymbol'.symm.trans hsymbol with heq
      injection heq
    -- where the category that was read last ends
    have hgcomplete := isComplete_of_agrees hagrees hcomplete
    have hgcategory : g.item.rule.category = r'.category :=
      (category_eq_of_agrees hagrees).trans hcategory
    obtain ⟨q', hderives', hq'⟩ := (hchart.sound h' g hg).derives_all hgcomplete
    rw [start_eq_of_agrees hagrees] at hderives'
    have hfirm : Firm text q' := by
      have hlt := hderives'.lt_of_consumes (hgcategory ▸ hconsumes)
      exact (htext.firm_of_derives (fun _ ht => ⟨_, ht⟩) hderives').resolve_left (Nat.ne_of_gt hlt)
    have hfirm' := (hchild b (.refl b)).firm htext (r'.symbols_length_pos hconsumes)
    rw [hhome] at hgap''
    rw [hghome] at hq'
    obtain rfl : q' = j := htext.firm_unique (hq'.trans hgap'') hgap hfirm hfirm'
    -- where the symbols before it end
    obtain ⟨q, v', hv, hq, hderives⟩ := exists_prior hchart hprior
    rw [hitem] at hderives
    obtain rfl := hsplit q v' i.start g.item.rule g.weight hderives (hq.trans hgap') hgcategory
      hderives' (by omega)
    -- the entry of the category is that of its preferred reading
    have hpredicted : Predicted chart r'.category i.start :=
      hchart.predicted i.start z hz _ (by rw [hzitem]; exact hsymbol)
    have hpreferred := hchild i.start (hq.trans hgap')
    obtain ⟨x, hx, hxitem, hxhome, hxweight⟩ := hpreferred.exists_complete hchart htext hconsumes
      (hbest i.start (hq.trans hgap')) (hpreferred.followed hchart htext hpredicted hj)
    have hxrule : x.item.rule = r' := by rw [hxitem]
    have hxcomplete : x.item.isComplete = true := by
      rw [hxitem]
      exact Item.isComplete_iff.mpr (Nat.le_refl _)
    have hagrees' : g.item.agrees x.item = true := by
      refine agrees_of_complete ?_ (hgcategory.trans (hxrule ▸ rfl)) hgcomplete hxcomplete
      rw [start_eq_of_agrees hagrees, hxitem]
    obtain rfl : h' = q' := by
      refine home_eq hchart htext hx hxhome hxrule hxcomplete hg hagrees' hghome hq' ?_
      rcases hcase with hstart | hlength | hends
      · exact .inl hstart
      · obtain rfl := hend hlength
        exact .inr (.inl (htext.eq_of_firm hgap'' hfirm))
      · exact .inr (.inr hends)
    obtain rfl := (hchart.distinct h').eq_of_agrees hg hx hagrees'
    refine .concat hstep (unfoldsBefore hchart h hshown
      (List.getElem?_eq_some_iff.mp hsymbol).1 hitem hprior hq (by omega)) ?_
    intro fuel hfuel
    rw [size] at hfuel
    obtain ⟨fuel, rfl⟩ : ∃ m, fuel = m + 2 := ⟨fuel - 2, by omega⟩
    rw [hlast, hchart.partTree_eq hg hagrees, hxrule, hshown' i.start (hq.trans hgap') hpredicted h' g
      (.refl _) (fun _ => rfl) hg hxitem hxhome (Int.le_of_eq hxweight.symm) fuel [] (by omega),
      append_nil]

theorem shown (hb : b < chart.size) : Shown text chart r d s b w ts := by
  induction h with
  | zero r s =>
    intro b' f _ _ hf hitem _ _ fuel after _
    have hstep := (hchart.sound b' f hf).dot_eq_zero_iff.mp (hitem ▸ rfl)
    rw [trees, hstep, nil_append]
  | terminal h hsymbol hgap hread hsplit ih =>
    have hle := hgap.le
    exact shown_terminal hchart h htext hsymbol hgap hread hsplit (ih (by omega))
  | @category r r' d s b j w u ts us h hsymbol hconsumes hcase hchild hbest hsplit ih ih' =>
    have hlt := (hchild b (.refl b)).lt (r'.symbols_length_pos hconsumes)
    exact shown_category hchart h htext hsymbol hconsumes hcase hchild hbest hsplit hb
      (ih (by omega)) (fun k hk _ => ih' k hk hb)

end Preferred

/-! ## Reading a text -/

theorem readText_of_preferred {r : Production} {w : Int} {ts : List Tree} (htext : Spaced text)
    (hconsumes : r.category.consumes = true)
    (h : Preferred r.category text r r.symbols.length 0 text.length w ts)
    (hbest : Best text r 0 text.length w)
    (hfuel : 2 * sizeAll ts + 1 ≤ dottedRules * (text.length + 1)) :
    readText r.category text = .ok (.node r ts) := by
  have hsize := size_chartTo r.category text (text.length + 1)
  have hchart := isChart_chartTo r.category text (text.length + 1)
  have hpredicted : Predicted (wholeChart r.category text) r.category 0 :=
    fun x hx => covers_first hx (Nat.succ_pos _)
  have hfollowed := h.followed hchart htext hpredicted (by omega)
  obtain ⟨x, hx, hitem, hhome, hweight⟩ := h.exists_complete hchart htext hconsumes hbest hfollowed
  have hcomplete : x.item.isComplete = true := by
    rw [hitem]
    exact Item.isComplete_iff.mpr (Nat.le_refl _)
  have hreads : x.reads r.category 0 = true :=
    reads_iff.mpr ⟨hitem ▸ rfl, hitem ▸ rfl, hcomplete⟩
  obtain ⟨y, hy, hreads', hread⟩ :=
    exists_reading (fun p hp => hfollowed.passed p (Nat.zero_le p) hp) hx hreads
  obtain rfl : x = y := by
    obtain ⟨hstart, hcategory, hcomplete'⟩ := reads_iff.mp hreads'
    obtain ⟨hstart', hcategory', -⟩ := reads_iff.mp hreads
    exact (hchart.distinct _).eq_of_agrees hx hy (agrees_of_complete
      (hstart'.trans hstart.symm) (hcategory'.trans hcategory.symm) hcomplete hcomplete')
  obtain ⟨fuel, hfuel'⟩ : ∃ m, dottedRules * (text.length + 1) = m + 1 :=
    ⟨dottedRules * (text.length + 1) - 1, by omega⟩
  rw [hread, hfuel', hchart.treeOf_eq hx (agrees_refl _), h.shown hchart htext (by omega) text.length x
    (.refl _) (fun _ => rfl) hx hitem hhome (Int.le_of_eq hweight.symm) fuel [] (by omega),
    append_nil, hitem]

end LuaInterpreter
