import LuaInterpreter.Proofs.Chart.Columns

/-!
# Preferred readings

When a chart is done, the tree of an entry is put together from the entries that its steps lead to.
Which tree that is can be said without the chart: a reading is preferred if no other reading of the
same text is better, and if no other way to divide the text between its parts weighs as much.
-/

namespace LuaInterpreter

open List Item Production

variable {start : Category} {text : List Char} {chart : Array Column}

/-! ## Texts with single blanks -/

def Terminal.InGrammar (t : Terminal) : Prop := ∃ r : Production, .terminal t ∈ r.symbols

/-- Only single blanks can be skipped, and no terminal begins or ends with one. -/
structure Spaced (text : List Char) : Prop where
  skip : ∀ p n, n ∈ skips (text.drop p) → n = 1 ∧ skips (text.drop (p + 1)) = []
  read_first : ∀ t : Terminal, t.InGrammar → ∀ p n, t.read? (text.drop p) = some n →
    skips (text.drop p) = []
  read_last : ∀ t : Terminal, t.InGrammar → ∀ p q n, t.read? (text.drop p) = some n →
    q + 1 = p + n → skips (text.drop q) = []

/-- No skipped text ends at a position. -/
def Firm (text : List Char) (q : Nat) : Prop := ∀ p, p + 1 = q → skips (text.drop p) = []

namespace Spaced

variable {p q k k' n m : Nat}

variable (h : Spaced text)
include h

theorem gap_cases (hgap : Gap text p q) : p = q ∨ q = p + 1 ∧ 1 ∈ skips (text.drop p) := by
  induction hgap with
  | refl => exact .inl rfl
  | step hgap hn ih =>
    obtain ⟨rfl, -⟩ := h.skip _ _ hn
    rcases ih with rfl | ⟨rfl, hskip⟩
    · exact .inr ⟨rfl, hn⟩
    · rw [(h.skip _ _ hskip).2] at hn
      cases hn

theorem eq_of_firm (hgap : Gap text p q) (hq : Firm text q) : p = q := by
  rcases h.gap_cases hgap with rfl | ⟨rfl, hskip⟩
  · rfl
  · rw [hq p rfl] at hskip
    cases hskip

/-- Skipped text that ends at one position begins at one firm position. -/
theorem firm_unique (hgap : Gap text p k) (hgap' : Gap text q k) (hp : Firm text p)
    (hq : Firm text q) : p = q := by
  rcases h.gap_cases hgap with rfl | ⟨rfl, -⟩
  · exact (h.eq_of_firm hgap' hp).symm
  · rcases h.gap_cases hgap' with rfl | ⟨heq, -⟩
    · exact h.eq_of_firm hgap hq
    · exact Nat.succ.inj heq

variable {t : Terminal}

/-- A terminal is read where no more text can be skipped. -/
theorem read_unique {t' : Terminal} (ht : t.InGrammar) (ht' : t'.InGrammar) (hgap : Gap text p k)
    (hgap' : Gap text p k') (hread : t.read? (text.drop k) = some n)
    (hread' : t'.read? (text.drop k') = some m) : k = k' := by
  have hk := h.read_first t ht k n hread
  have hk' := h.read_first t' ht' k' m hread'
  rcases h.gap_cases hgap with rfl | ⟨rfl, hskip⟩
  · rcases h.gap_cases hgap' with rfl | ⟨rfl, hskip⟩
    · rfl
    · rw [hk] at hskip
      cases hskip
  · rcases h.gap_cases hgap' with rfl | ⟨rfl, -⟩
    · rw [hk'] at hskip
      cases hskip
    · rfl

theorem firm_of_read (ht : t.InGrammar) (hread : t.read? (text.drop k) = some n) :
    Firm text (k + n) :=
  fun q hq => h.read_last t ht k q n hread hq

theorem firm_of_derives {symbols : List Symbol} {w : Int}
    (hsymbols : ∀ t, .terminal t ∈ symbols → t.InGrammar) (hderives : Derives text symbols p q w) :
    q = p ∨ Firm text q := by
  induction hderives with
  | nil => exact .inl rfl
  | @terminal t _ _ _ _ _ _ _ hread _ ih =>
    rcases ih (fun t ht => hsymbols t (.tail _ ht)) with rfl | hfirm
    · exact .inr (h.firm_of_read (hsymbols t (.head _)) hread)
    · exact .inr hfirm
  | @category r _ _ _ _ _ _ _ _ ih ih' =>
    rcases ih' (fun t ht => hsymbols t (.tail _ ht)) with rfl | hfirm
    · exact ih fun t ht => ⟨r, ht⟩
    · exact .inr hfirm

end Spaced

variable {r : Production}

/-! ## Preference -/

/-- Whether the last thing that a production reads is a terminal. -/
def Production.EndsInTerminal (r : Production) : Prop :=
  ∃ t, r.symbols.getLast? = some (.terminal t)

/-- No other production of the category reads the text from `s` to `j` in a better way, and none
that ends in a terminal hides it. -/
def Best (text : List Char) (r : Production) (s j : Nat) (w : Int) : Prop :=
  ∀ (x : Production) (v : Int), x.category = r.category → Derives text x.symbols s j v →
    (v < w ∨ v = w ∧ r.rank ≤ x.rank) ∧ (x.EndsInTerminal → r.EndsInTerminal)

/-- The first `d` symbols of a production are read from `s` to a position, with a weight, as some
trees. Every category is read in the best way. In any reading that weighs as much, the last symbol
begins at the same place. -/
inductive Preferred (start : Category) (text : List Char) :
    Production → Nat → Nat → Nat → Int → List Tree → Prop
  | zero (r : Production) (s : Nat) : Preferred start text r 0 s s 0 []
  | terminal {r : Production} {d s b k n : Nat} {w : Int} {ts : List Tree} {t : Terminal} :
      Preferred start text r d s b w ts → r.symbols[d]? = some (.terminal t) → Gap text b k →
      t.read? (text.drop k) = some n →
      (∀ q v k' n', Derives text (r.symbols.take d) s q v → Gap text q k' →
        t.read? (text.drop k') = some n' → k' + n' = k + n → w ≤ v → q = b) →
      Preferred start text r (d + 1) s (k + n) (w + t.weight)
        (ts ++ [.leaf t (String.ofList ((text.drop k).take n)) (lineAt text k)])
  | category {r r' : Production} {d s b j : Nat} {w u : Int} {ts us : List Tree} :
      Preferred start text r d s b w ts → r.symbols[d]? = some (.category r'.category) →
      r'.category.consumes = true →
      (r'.category = start ∨ d + 1 = r.symbols.length ∨
        ∀ x : Production, x.category = r'.category → x.EndsInTerminal) →
      (∀ k, Gap text b k → Preferred start text r' r'.symbols.length k j u us) →
      (∀ k, Gap text b k → Best text r' k j u) →
      (∀ q v k (x : Production) v', Derives text (r.symbols.take d) s q v → Gap text q k →
        x.category = r'.category → Derives text x.symbols k j v' → w + u ≤ v + v' → q = b) →
      Preferred start text r (d + 1) s j (w + u) (ts ++ [.node r' us])

namespace Preferred

variable {r : Production} {d s b : Nat} {w : Int} {ts : List Tree}

section

variable (h : Preferred start text r d s b w ts)
include h

theorem derives : Derives text (r.symbols.take d) s b w := by
  induction h with
  | zero => exact .nil _
  | @terminal r d _ _ _ _ _ _ t _ hsymbol hgap hread _ ih =>
    rw [take_add_one, hsymbol]
    exact ih.concat_terminal hgap hread
  | @category r r' d s b j w u _ _ _ hsymbol _ _ _ _ _ ih ih' =>
    have hchild := ih' b (.refl b)
    rw [take_length] at hchild
    have hlast : Derives text [.category r'.category] b j (u + 0) := .category hchild (.nil _)
    rw [Int.add_zero] at hlast
    rw [take_add_one, hsymbol]
    exact ih.append hlast

omit h in
theorem of_zero (h : Preferred start text r 0 s b w ts) : b = s ∧ w = 0 ∧ ts = [] := by
  cases h
  exact ⟨rfl, rfl, rfl⟩

theorem dot_le : d ≤ r.symbols.length := by
  cases h with
  | zero => exact Nat.zero_le _
  | terminal _ hsymbol _ _ _ => exact (List.getElem?_eq_some_iff.mp hsymbol).1
  | category _ hsymbol _ _ _ _ _ => exact (List.getElem?_eq_some_iff.mp hsymbol).1

theorem lt (hd : 0 < d) : s < b := by
  cases h with
  | zero => exact absurd hd (Nat.lt_irrefl 0)
  | @terminal _ _ _ b k n _ _ t h hsymbol hgap hread _ =>
    have hpos := read?_pos hsymbol hread
    have hle := h.derives.le
    have hgap := hgap.le
    omega
  | @category _ r' _ _ b j _ _ _ _ h _ hconsumes _ hchild _ _ =>
    have hderives := (hchild b (.refl b)).derives
    rw [take_length] at hderives
    exact Nat.lt_of_le_of_lt h.derives.le (hderives.lt_of_consumes hconsumes)

end

theorem firm (htext : Spaced text) (h : Preferred start text r d s b w ts) (hd : 0 < d) :
    Firm text b :=
  (htext.firm_of_derives (fun _ ht => ⟨r, mem_of_mem_take ht⟩) h.derives).resolve_left
    (Nat.ne_of_gt (h.lt hd))

end Preferred

theorem Production.eq_of_rank_eq {x : Production} (h : r.rank = x.rank) : r = x := by
  have hof : ofNat r.ctorIdx = ofNat x.ctorIdx := congrArg ofNat h
  rwa [ofNat_ctorIdx, ofNat_ctorIdx] at hof

theorem Production.symbols_length_pos (r : Production) (h : r.category.consumes = true) :
    0 < r.symbols.length := by
  obtain ⟨symbol, hmem, -⟩ := any_eq_true.mp (r.any_consumes h)
  exact length_pos_of_mem hmem

/-! ## Entries at firm positions -/

namespace IsChart

variable {e f g : Entry} {r : Production} {d p q s b k j n : Nat} {w : Int}

variable (hchart : IsChart start text chart)
include hchart

variable (htext : Spaced text)
include htext

section

variable (he : e ∈ chart.getD p #[])
include he

theorem arrived_ne_bySkip (hp : Firm text p) : e.arrived ≠ .bySkip := by
  intro hskip
  obtain ⟨q, n, a, hn, rfl, -⟩ := (hchart.sound p e he).carried hskip
  obtain ⟨rfl, -⟩ := htext.skip q n hn
  rw [hp q rfl] at hn
  cases hn

theorem home_eq (hp : Firm text p) : e.home = p :=
  (hchart.sound p e he).here (hchart.arrived_ne_bySkip htext he hp)

omit htext in
theorem exists_token (hterminal : e.arrived = .byTerminal) :
    ∃ d t k n, e.item.dot = d + 1 ∧ e.item.rule.symbols[d]? = some (.terminal t) ∧
      t.read? (text.drop k) = some n ∧ e.home = k + n := by
  have hsound := hchart.sound p e he
  obtain ⟨step, t, s, line, hstep, hlast⟩ := hsound.ended hterminal
  have htraced := hsound.traced
  rw [Entry.Traced, hstep] at htraced
  obtain ⟨d, b, v, u, hdot, -, hlatest, -⟩ := htraced
  rw [hlast] at hlatest
  obtain ⟨hsymbol, -, k, n, -, hread, hhome, -⟩ := hlatest
  exact ⟨d, t, k, n, hdot, hsymbol, hread, hhome⟩

theorem firm_home (hterminal : e.arrived = .byTerminal) : Firm text e.home := by
  obtain ⟨d, t, k, n, -, hsymbol, hread, hhome⟩ := hchart.exists_token he hterminal
  rw [hhome]
  exact htext.firm_of_read ⟨_, mem_of_getElem? hsymbol⟩ hread

/-- What ends in a terminal ends at a firm position, however it came into its column. -/
theorem firm_of_last {t : Terminal} (hcomplete : e.item.isComplete = true)
    (hterminal : e.item.rule.symbols.getLast? = some (.terminal t)) : Firm text e.home := by
  have hsound := hchart.sound p e he
  obtain ⟨d, hd⟩ : ∃ d, e.item.rule.symbols.length = d + 1 :=
    Nat.exists_eq_add_one.mpr (length_pos_of_mem (mem_of_getLast? hterminal))
  obtain ⟨step, b, v, u, -, -, hlatest, -⟩ := hsound.exists_step ((hsound.dot_eq hcomplete).trans hd)
  rw [List.getLast?_eq_getElem?, hd, Nat.add_sub_cancel] at hterminal
  cases hlast : step.last with
  | node h i =>
    rw [hlast] at hlatest
    cases hlatest.1.symm.trans hterminal
  | token t' s line =>
    rw [hlast] at hlatest
    obtain ⟨hsymbol, -, k, n, -, hread, hhome, -⟩ := hlatest
    rw [hhome]
    exact htext.firm_of_read ⟨_, mem_of_getElem? hsymbol⟩ hread

theorem derives_of_complete (hp : Firm text p) (hcomplete : e.item.isComplete = true) :
    Derives text e.item.rule.symbols e.item.start p e.weight := by
  obtain ⟨q, hderives, hgap⟩ := (hchart.sound p e he).derives_all hcomplete
  rw [hchart.home_eq htext he hp] at hgap
  exact htext.eq_of_firm hgap hp ▸ hderives

end

/-- Skipped text takes an entry along as it is. -/
theorem exists_past_gap (he : e ∈ chart.getD b #[]) (hcarried : e.IsCarried start)
    (hgap : Gap text b k) (hk : k < chart.size) :
    ∃ f ∈ chart.getD k #[], f.item = e.item ∧ f.home = e.home ∧ f.weight = e.weight := by
  rcases htext.gap_cases hgap with rfl | ⟨rfl, hskip⟩
  · exact ⟨e, he, rfl, rfl, rfl⟩
  · obtain ⟨f, hf, hne, hagrees⟩ := hchart.carried b e he hcarried 1 hskip hk
    have hnotFirm : ¬Firm text (b + 1) := by
      intro hfirm
      rw [hfirm b rfl] at hskip
      cases hskip
    have hbySkip : f.arrived = .bySkip := by
      cases harrived : f.arrived with
      | bySkip => rfl
      | byRule => exact absurd harrived hne
      | byTerminal =>
        have hhome := (hchart.sound _ f hf).here (harrived ▸ nofun)
        exact absurd (hhome ▸ hchart.firm_home htext hf harrived) hnotFirm
    obtain ⟨q, n, a, hn, hq, hmem⟩ := (hchart.sound _ f hf).carried hbySkip
    obtain ⟨rfl, -⟩ := htext.skip q n hn
    obtain rfl : q = b := Nat.succ.inj hq
    have heq := (hchart.distinct q).eq_of_agrees hmem he hagrees
    subst heq
    exact ⟨f, hf, rfl, rfl, rfl⟩

end IsChart

/-! ## What the chart has of a reading -/

/-- The column at `j` has read `d + 1` symbols of a production from `s`, or it has a complete
reading of the same category that does not give way to one with the weight `w`. -/
def Reached (chart : Array Column) (r : Production) (d s j : Nat) (w : Int) : Prop :=
  ∃ g ∈ chart.getD j #[], g.item.agrees ⟨r, d + 1, s⟩ = true ∧
    ((∃ t, r.symbols[d]? = some (.terminal t)) ∧ g.arrived = .byTerminal ∨
      (∃ c, r.symbols[d]? = some (.category c)) ∧ g.arrived ≠ .bySkip) ∧
    ((∃ t, r.symbols[d]? = some (.terminal t)) ∨ g.arrived = .byRule →
      w < g.weight ∨ w = g.weight ∧ g.item.rule.rank ≤ r.rank)

namespace IsChart

variable {e f g x : Entry} {r : Production} {t : Terminal} {d p q s b k j n : Nat} {w : Int}

variable (hchart : IsChart start text chart)
include hchart

theorem step_isSome (hg : g ∈ chart.getD j #[]) (hhome : g.home = j) (hlt : g.item.start < j) :
    g.step.isSome = true := by
  have hsound := hchart.sound j g hg
  rw [Option.isSome_iff_ne_none, ne_eq, ← hsound.dot_eq_zero_iff]
  intro hdot
  have hstart := (hsound.home_eq_start hdot).1
  omega

theorem reached_terminal (htext : Spaced text) (he : e ∈ chart.getD b #[])
    (hitem : e.item = ⟨r, d, s⟩) (hsymbol : r.symbols[d]? = some (.terminal t))
    (hgap : Gap text b k) (hread : t.read? (text.drop k) = some n) (hsize : k + n < chart.size) :
    Reached chart r d s (k + n) (e.weight + t.weight) := by
  have hgrammar : t.InGrammar := ⟨r, mem_of_getElem? hsymbol⟩
  have hnext : e.item.next? = some (.terminal t) := by
    rw [hitem]
    exact hsymbol
  obtain ⟨f, hf, hfitem, -, hfweight⟩ :=
    hchart.exists_past_gap htext he (.inl ⟨t, hnext⟩) hgap (by omega)
  obtain ⟨g, hg, hne, hagrees, hbeats⟩ :=
    hchart.scanned k f hf t n (hfitem ▸ hnext) hread hsize
  rw [hfitem, hitem] at hagrees
  have hterminal : g.arrived = .byTerminal := by
    cases harrived : g.arrived with
    | byTerminal => rfl
    | byRule => exact absurd harrived hne
    | bySkip =>
      exact absurd harrived (hchart.arrived_ne_bySkip htext hg (htext.firm_of_read hgrammar hread))
  refine ⟨g, hg, hagrees, .inl ⟨⟨t, hsymbol⟩, hterminal⟩, fun _ => ?_⟩
  have hstart : g.item.start < k + n := by
    have hpos := read?_pos hsymbol hread
    have hle := (hchart.sound k f hf).start_le_home
    have hle' := (hchart.sound k f hf).home_le
    have hs : g.item.start = s := start_eq_of_agrees hagrees
    have hs' : f.item.start = s := by rw [hfitem, hitem]
    omega
  have hstep := hchart.step_isSome hg ((hchart.sound _ g hg).here (hterminal ▸ nofun)) hstart
  have hno := (Entry.beats_eq_false_iff rfl hstep).mp (hbeats hterminal)
  have hrule : f.item.rule = r := by rw [hfitem, hitem]
  rwa [show (f.extend (k + n) (.token t (String.ofList ((text.drop k).take n)) (lineAt text k))
    t.weight .byTerminal).item.rule = r from hrule, show (f.extend (k + n)
    (.token t (String.ofList ((text.drop k).take n)) (lineAt text k)) t.weight .byTerminal).weight =
    e.weight + t.weight from hfweight ▸ rfl] at hno

theorem reached_category (htext : Spaced text) (he : e ∈ chart.getD b #[])
    (hitem : e.item = ⟨r, d, s⟩) (hj : Firm text j) (hx : x ∈ chart.getD j #[])
    (hcomplete : x.item.isComplete = true) (hstart : x.item.start = b) (hlt : b < j)
    (hsymbol : r.symbols[d]? = some (.category x.item.rule.category)) :
    Reached chart r d s j (e.weight + x.weight) := by
  have hnext : e.item.next? = some (.category x.item.rule.category) := by
    rw [hitem]
    exact hsymbol
  obtain ⟨g, hg, hagrees, hbeats⟩ := hchart.completed j x hx hcomplete (hstart ▸ hlt) e
    (hstart ▸ he) hnext
  have hagrees : g.item.agrees ⟨r, d + 1, s⟩ = true := by
    have hadvance : (e.extend j (.node x.home x.item) x.weight .byRule).item = ⟨r, d + 1, s⟩ := by
      rw [Entry.extend, hitem]
      rfl
    rwa [hadvance] at hagrees
  refine ⟨g, hg, hagrees, .inr ⟨⟨_, hsymbol⟩, hchart.arrived_ne_bySkip htext hg hj⟩, ?_⟩
  rintro (⟨t, hterminal⟩ | hrule)
  · cases hsymbol.symm.trans hterminal
  · have hstart : g.item.start < j := by
      have hs : g.item.start = s := start_eq_of_agrees hagrees
      have hle := (hchart.sound b e he).start_le_home
      have hle' := (hchart.sound b e he).home_le
      rw [hitem] at hle
      have hle : s ≤ e.home := hle
      omega
    have hstep := hchart.step_isSome hg (hchart.home_eq htext hg hj) hstart
    have hno := (Entry.beats_eq_false_iff rfl hstep).mp (hbeats hrule rfl)
    have hrule : e.item.rule = r := by rw [hitem]
    rwa [show (e.extend j (.node x.home x.item) x.weight .byRule).item.rule = r from hrule] at hno

end IsChart

namespace Reached

variable {r : Production} {d s j : Nat} {w v : Int}

theorem mono (h : Reached chart r d s j w) (hle : v ≤ w) : Reached chart r d s j v := by
  obtain ⟨g, hg, hagrees, harrived, hbetter⟩ := h
  refine ⟨g, hg, hagrees, harrived, fun hcase => ?_⟩
  have hbetter := hbetter hcase
  omega

/-- A production that is not read to its end has an entry of its own. -/
theorem exists_partial (hchart : IsChart start text chart) (htext : Spaced text)
    (hj : Firm text j) (hd : d + 1 < r.symbols.length) (h : Reached chart r d s j w) :
    ∃ g ∈ chart.getD j #[], g.item = ⟨r, d + 1, s⟩ ∧ g.home = j ∧ w ≤ g.weight := by
  obtain ⟨g, hg, hagrees, harrived, hbetter⟩ := h
  have hitem : g.item = ⟨r, d + 1, s⟩ :=
    eq_of_agrees hagrees (isComplete_of_next? (List.getElem?_eq_getElem hd))
  refine ⟨g, hg, hitem, hchart.home_eq htext hg hj, ?_⟩
  suffices hcase : (∃ t, r.symbols[d]? = some (.terminal t)) ∨ g.arrived = .byRule by
    have hbetter := hbetter hcase
    omega
  rcases harrived with ⟨hterminal, -⟩ | ⟨⟨c, hsymbol⟩, hne⟩
  · exact .inl hterminal
  · cases harrived : g.arrived with
    | byRule => exact .inr rfl
    | bySkip => exact absurd harrived hne
    | byTerminal =>
      obtain ⟨d', t, k, n, hdot, hterminal, -⟩ := hchart.exists_token hg harrived
      rw [hitem] at hdot hterminal
      cases hdot
      cases hsymbol.symm.trans hterminal

/-- The best reading of a category has an entry of its own. -/
theorem exists_complete (hchart : IsChart start text chart) (htext : Spaced text)
    (hj : Firm text j) (hd : d + 1 = r.symbols.length) (hbest : Best text r s j w)
    (h : Reached chart r d s j w) :
    ∃ g ∈ chart.getD j #[], g.item = ⟨r, d + 1, s⟩ ∧ g.home = j ∧ g.weight = w := by
  obtain ⟨g, hg, hagrees, harrived, hbetter⟩ := h
  have hlast : r.symbols.getLast? = r.symbols[d]? := by
    rw [List.getLast?_eq_getElem?, ← hd, Nat.add_sub_cancel]
  have hcomplete : g.item.isComplete = true :=
    isComplete_of_agrees hagrees (Item.isComplete_iff.mpr hd.ge)
  have hderives := hchart.derives_of_complete htext hg hj hcomplete
  rw [start_eq_of_agrees hagrees] at hderives
  obtain ⟨hle, hends⟩ := hbest _ _ (category_eq_of_agrees hagrees) hderives
  have hdot := (hchart.sound j g hg).dot_eq hcomplete
  have hcase : (∃ t, r.symbols[d]? = some (.terminal t)) ∨ g.arrived = .byRule := by
    rcases harrived with ⟨hterminal, -⟩ | ⟨⟨c, hsymbol⟩, hne⟩
    · exact .inl hterminal
    · cases harrived : g.arrived with
      | byRule => exact .inr rfl
      | bySkip => exact absurd harrived hne
      | byTerminal =>
        obtain ⟨d', t, k, n, hdot', hterminal, -⟩ := hchart.exists_token hg harrived
        have hends' : g.item.rule.EndsInTerminal := by
          refine ⟨t, ?_⟩
          rw [List.getLast?_eq_getElem?, ← hdot, hdot', Nat.add_sub_cancel]
          exact hterminal
        obtain ⟨t', hterminal'⟩ := hends hends'
        exact .inl ⟨t', hlast ▸ hterminal'⟩
  have hbetter := hbetter hcase
  have hrule : g.item.rule = r := eq_of_rank_eq (by omega)
  refine ⟨g, hg, ?_, hchart.home_eq htext hg hj, by omega⟩
  have hstart : g.item.start = s := start_eq_of_agrees hagrees
  rw [hrule, ← hd] at hdot
  rw [← hrule, ← hdot, ← hstart]

end Reached

/-! ## The chart has the preferred reading -/

/-- All productions of a category are predicted at a position. -/
def Predicted (chart : Array Column) (c : Category) (p : Nat) : Prop :=
  ∀ r ∈ c.productions, (chart.getD p #[]).Covers .byRule (.predicted r p)

theorem IsChart.exists_predicted {s : Nat} (hchart : IsChart start text chart)
    (hpredicted : Predicted chart r.category s) (hr : 0 < r.symbols.length) :
    ∃ e ∈ chart.getD s #[], e.item = ⟨r, 0, s⟩ ∧ e.home = s ∧ 0 ≤ e.weight := by
  obtain ⟨e, he, hagrees, -⟩ := hpredicted r r.mem_productions
  have hitem : e.item = ⟨r, 0, s⟩ :=
    eq_of_agrees hagrees (isComplete_of_next? (List.getElem?_eq_getElem hr))
  obtain ⟨hhome, hweight⟩ := (hchart.sound s e he).home_eq_start (hitem ▸ rfl)
  rw [hitem] at hhome
  exact ⟨e, he, hitem, hhome, Int.le_of_eq hweight.symm⟩

/-- What the chart has of a reading of `d` symbols: the entry that was reached last, and something
that leads past every position on the way. -/
structure Followed (start : Category) (text : List Char) (chart : Array Column) (r : Production)
    (d s b : Nat) (w : Int) : Prop where
  reached : ∀ d', d = d' + 1 → Reached chart r d' s b w
  passed : ∀ p, s ≤ p → p < b → Passed start text chart p

namespace Preferred

variable {r : Production} {d s b : Nat} {w : Int} {ts : List Tree}

variable (hchart : IsChart start text chart)
include hchart

variable (htext : Spaced text)
include htext

theorem exists_partial (h : Preferred start text r d s b w ts)
    (hpredicted : Predicted chart r.category s) (hd : d < r.symbols.length)
    (hfollowed : Followed start text chart r d s b w) :
    ∃ e ∈ chart.getD b #[], e.item = ⟨r, d, s⟩ ∧ e.home = b ∧ w ≤ e.weight := by
  cases d with
  | zero =>
    obtain ⟨rfl, rfl, -⟩ := h.of_zero
    exact hchart.exists_predicted hpredicted hd
  | succ d => exact (hfollowed.reached d rfl).exists_partial hchart htext (h.firm htext d.succ_pos) hd

theorem exists_complete (h : Preferred start text r r.symbols.length s b w ts)
    (hr : r.category.consumes = true) (hbest : Best text r s b w)
    (hfollowed : Followed start text chart r r.symbols.length s b w) :
    ∃ e ∈ chart.getD b #[], e.item = ⟨r, r.symbols.length, s⟩ ∧ e.home = b ∧ e.weight = w := by
  obtain ⟨d, hd⟩ : ∃ d, r.symbols.length = d + 1 :=
    ⟨_, (Nat.succ_pred_eq_of_pos (r.symbols_length_pos hr)).symm⟩
  have hfirm := h.firm htext (r.symbols_length_pos hr)
  obtain ⟨g, hg, hitem, hhome, hweight⟩ :=
    (hfollowed.reached d hd).exists_complete hchart htext hfirm hd.symm hbest
  exact ⟨g, hg, hd ▸ hitem, hhome, hweight⟩

/-- A terminal leads past the text that it reads and that is skipped before it. -/
theorem passed_terminal {e : Entry} {t : Terminal} {b k n p : Nat} (he : e ∈ chart.getD b #[])
    (hnext : e.item.next? = some (.terminal t)) (hgap : Gap text b k)
    (hread : t.read? (text.drop k) = some n) (hsize : k < chart.size) (hb : b ≤ p)
    (hp : p < k + n) : Passed start text chart p := by
  rcases Nat.lt_or_ge p k with hlt | hge
  · rcases htext.gap_cases hgap with rfl | ⟨rfl, hskip⟩
    · omega
    · exact ⟨b, hb, _, mem_arrivalsAt_of_skip he (.inl ⟨t, hnext⟩) hskip, hlt⟩
  · obtain ⟨f, hf, hitem, -⟩ := hchart.exists_past_gap htext he (.inl ⟨t, hnext⟩) hgap hsize
    exact ⟨k, hge, _, mem_arrivalsAt_of_read start hf (hitem ▸ hnext) hread, hp⟩

theorem followed (h : Preferred start text r d s b w ts) (hpredicted : Predicted chart r.category s)
    (hb : b < chart.size) : Followed start text chart r d s b w := by
  induction h with
  | zero r s => exact ⟨nofun, fun p hs hlt => absurd hlt (Nat.not_lt_of_le hs)⟩
  | @terminal r d s b k n w ts t h hsymbol hgap hread _ ih =>
    have hle := hgap.le
    have hfollowed := ih hpredicted (by omega)
    obtain ⟨e, he, hitem, -, hweight⟩ := h.exists_partial hchart htext hpredicted
      (List.getElem?_eq_some_iff.mp hsymbol).1 hfollowed
    have hnext : e.item.next? = some (.terminal t) := by
      rw [hitem]
      exact hsymbol
    have hreached := hchart.reached_terminal htext he hitem hsymbol hgap hread hb
    refine ⟨?_, fun p hs hp => ?_⟩
    · rintro _ ⟨⟩
      exact hreached.mono (Int.add_le_add_right hweight _)
    · rcases Nat.lt_or_ge p b with hlt | hge
      · exact hfollowed.passed p hs hlt
      · exact passed_terminal hchart htext he hnext hgap hread (by omega) hge hp
  | @category r r' d s b j w u ts us h hsymbol hconsumes _ hchild hbest _ ih ih' =>
    have hlt : b < j := (hchild b (.refl b)).lt (r'.symbols_length_pos hconsumes)
    have hfirm := (hchild b (.refl b)).firm htext (r'.symbols_length_pos hconsumes)
    have hfollowed := ih hpredicted (by omega)
    obtain ⟨e, he, hitem, -, hweight⟩ := h.exists_partial hchart htext hpredicted
      (List.getElem?_eq_some_iff.mp hsymbol).1 hfollowed
    have hnext : e.item.next? = some (.category r'.category) := by
      rw [hitem]
      exact hsymbol
    have hfollowed' := ih' b (.refl b) (hchart.predicted b e he _ hnext) hb
    obtain ⟨x, hx, hxitem, -, hxweight⟩ := (hchild b (.refl b)).exists_complete hchart htext
      hconsumes (hbest b (.refl b)) hfollowed'
    have hreached := hchart.reached_category htext he hitem hfirm hx
      (hxitem ▸ Item.isComplete_iff.mpr (Nat.le_refl _)) (hxitem ▸ rfl) hlt (hxitem ▸ hsymbol)
    refine ⟨?_, fun p hs hp => ?_⟩
    · rintro _ ⟨⟩
      exact hreached.mono (by omega)
    · rcases Nat.lt_or_ge p b with hlt | hge
      · exact hfollowed.passed p hs hlt
      · exact hfollowed'.passed p hge hp

end Preferred

end LuaInterpreter
