import LuaInterpreter.Proofs.Chart.Column
import LuaInterpreter.Proofs.Chart.Derivation

/-!
# Sound entries

Every entry of a chart stands for a derivation, and its last step can be followed back: to the entry
of the symbols before, and to the entry of the category that was read last.
-/

namespace LuaInterpreter

open Item

def lineAt (text : List Char) (p : Nat) : Nat := (text.take p).count '\n' + 1

variable {text : List Char} {chart : Array Column}

/-- The symbols before the last one, `d` of them, end at `b`, and weigh at least `v`. -/
def Prior (chart : Array Column) (item : Item) (d : Nat) (before : Option (Nat × Item)) (b : Nat)
    (v : Int) : Prop :=
  match before with
  | none => d = 0 ∧ b = item.start ∧ v = 0
  | some (h, i) => 0 < d ∧ b = h ∧ i = { item with dot := d } ∧
    ∃ f ∈ chart.getD h #[], f.item = i ∧ f.home = h ∧ v ≤ f.weight

/-- The last symbol is read between `b` and `j`, and weighs at least `u`. -/
def Latest (text : List Char) (chart : Array Column) (item : Item) (d : Nat) (last : Part)
    (b j : Nat) (u : Int) : Prop :=
  match last with
  | .token t s line => item.rule.symbols[d]? = some (.terminal t) ∧ u = t.weight ∧
    ∃ k n, Gap text b k ∧ t.read? (text.drop k) = some n ∧ j = k + n ∧
      s = String.ofList ((text.drop k).take n) ∧ line = lineAt text k
  | .node h i => item.rule.symbols[d]? = some (.category i.rule.category) ∧ i.isComplete = true ∧
    Gap text b i.start ∧ i.start ≤ h ∧ Gap text h j ∧
    (∃ w ∈ chart.getD i.start #[], w.item = { item with dot := d }) ∧
    ∃ g ∈ chart.getD h #[], g.item.agrees i = true ∧ g.home = h ∧ u ≤ g.weight

theorem Latest.le {item : Item} {d b j : Nat} {last : Part} {u : Int}
    (h : Latest text chart item d last b j u) : b ≤ j := by
  unfold Latest at h
  split at h
  · obtain ⟨-, -, k, n, hgap, -, rfl, -⟩ := h
    exact Nat.le_trans hgap.le (Nat.le_add_right k n)
  · obtain ⟨-, -, hgap, hle, hgap', -⟩ := h
    exact Nat.le_trans hgap.le (Nat.le_trans hle hgap'.le)

namespace Entry

/-- The last step of an entry leads to entries of the chart that weigh enough. -/
def Traced (text : List Char) (chart : Array Column) (e : Entry) : Prop :=
  match e.step with
  | none => e.item.dot = 0 ∧ e.home = e.item.start ∧ e.weight = 0
  | some step => ∃ d b v u, e.item.dot = d + 1 ∧ Prior chart e.item d step.before b v ∧
    Latest text chart e.item d step.last b e.home u ∧ e.weight ≤ v + u

/-- What is true of the entries of the column at `p`. -/
structure Sound (text : List Char) (chart : Array Column) (p : Nat) (e : Entry) : Prop where
  gap : Gap text e.home p
  /-- The entry stands for a derivation, which may end before text that was skipped. -/
  derives : ∃ q, Derives text (e.item.rule.symbols.take e.item.dot) e.item.start q e.weight ∧
    Gap text q e.home
  dot_le : e.item.dot ≤ e.item.rule.symbols.length
  here : e.arrived ≠ .bySkip → e.home = p
  carried : e.arrived = .bySkip → ∃ q n a, n ∈ skips (text.drop q) ∧ q + n = p ∧
    { e with arrived := a } ∈ chart.getD q #[]
  rooted : e.home < p → ∃ f ∈ chart.getD e.home #[], f.item = e.item ∧ f.home = e.home ∧
    f.weight = e.weight
  ended : e.arrived = .byTerminal → ∃ step t s line, e.step = some step ∧ step.last = .token t s line
  traced : e.Traced text chart

namespace Sound

variable {p : Nat} {e f : Entry}

section

variable (h : e.Sound text chart p)
include h

theorem home_le : e.home ≤ p := h.gap.le

theorem start_le_home : e.item.start ≤ e.home := by
  obtain ⟨q, hderives, hgap⟩ := h.derives
  exact Nat.le_trans hderives.le hgap.le

theorem weight_nonpos : e.weight ≤ 0 := by
  obtain ⟨q, hderives, -⟩ := h.derives
  exact hderives.weight_nonpos

theorem neg_le_weight : -((e.home : Int) - e.item.start) ≤ e.weight := by
  obtain ⟨q, hderives, hgap⟩ := h.derives
  have hweight := hderives.neg_le_weight
  have hle := hgap.le
  omega

/-- An entry has an entry in its own column that is the same reading. -/
theorem exists_at_home (he : e ∈ chart.getD p #[]) :
    ∃ f ∈ chart.getD e.home #[], f.item = e.item ∧ f.home = e.home ∧ f.weight = e.weight := by
  rcases Nat.lt_or_eq_of_le h.home_le with hlt | heq
  · exact h.rooted hlt
  · exact ⟨e, heq ▸ he, rfl, rfl, rfl⟩

theorem dot_eq_zero_iff : e.item.dot = 0 ↔ e.step = none := by
  have htraced := h.traced
  unfold Traced at htraced
  split at htraced
  · next hstep => exact iff_of_true htraced.1 hstep
  · next step hstep =>
    obtain ⟨d, b, v, u, hdot, -⟩ := htraced
    rw [hdot, hstep]
    exact iff_of_false (Nat.succ_ne_zero d) nofun

theorem home_eq_start (hdot : e.item.dot = 0) : e.home = e.item.start ∧ e.weight = 0 := by
  have htraced := h.traced
  rw [Traced, h.dot_eq_zero_iff.mp hdot] at htraced
  exact htraced.2

theorem exists_step {d : Nat} (hdot : e.item.dot = d + 1) :
    ∃ step b v u, e.step = some step ∧ Prior chart e.item d step.before b v ∧
      Latest text chart e.item d step.last b e.home u ∧ e.weight ≤ v + u := by
  have htraced := h.traced
  unfold Traced at htraced
  split at htraced
  · cases htraced.1.symm.trans hdot
  · next step hstep =>
    obtain ⟨d', b, v, u, hdot', hrest⟩ := htraced
    obtain rfl : d' = d := Nat.succ.inj (hdot'.symm.trans hdot)
    exact ⟨step, b, v, u, hstep, hrest⟩

variable (hcomplete : e.item.isComplete = true)
include hcomplete

theorem dot_eq : e.item.dot = e.item.rule.symbols.length :=
  Nat.le_antisymm h.dot_le (Item.isComplete_iff.mp hcomplete)

theorem derives_all :
    ∃ q, Derives text e.item.rule.symbols e.item.start q e.weight ∧ Gap text q e.home := by
  have hderives := h.derives
  rwa [h.dot_eq hcomplete, List.take_length] at hderives

end

theorem weight_le_of_beats (hf : f.Sound text chart p) (he : e.Sound text chart p)
    (hfhere : f.home = p) (hehere : e.home = p) (hagrees : f.item.agrees e.item = true)
    (hbeats : e.beats f = true) : f.weight ≤ e.weight := by
  rcases Entry.beats_iff.mp hbeats with ⟨-, hnone⟩ | ⟨hstep, -⟩
  · have hdot : f.item.dot = 0 := by
      rw [hf.dot_eq_zero_iff]
      exact Option.not_isSome_iff_eq_none.mp (Bool.eq_false_iff.mp hnone)
    obtain ⟨hhome, hweight⟩ := hf.home_eq_start hdot
    -- both begin and end at `p`, so neither has a name
    have hstart := start_eq_of_agrees hagrees
    have hweight' := he.neg_le_weight
    omega
  · exact Entry.weight_le_of_beats hstep hbeats

/-! ### New entries -/

theorem predicted (r : Production) (p : Nat) : (Entry.predicted r p).Sound text chart p where
  gap := .refl p
  derives := ⟨p, .nil p, .refl p⟩
  dot_le := Nat.zero_le _
  here := fun _ => rfl
  carried := nofun
  rooted := fun hlt => absurd hlt (Nat.lt_irrefl p)
  ended := nofun
  traced := ⟨rfl, rfl, rfl⟩

theorem prior (h : e.Sound text chart p) (he : e ∈ chart.getD p #[]) :
    Prior chart e.item e.item.dot e.reference? e.home e.weight := by
  unfold reference? Prior
  by_cases hdot : e.item.dot = 0
  · rw [if_pos hdot]
    exact ⟨hdot, h.home_eq_start hdot⟩
  · rw [if_neg hdot]
    obtain ⟨f, hf, hitem, hhome, hweight⟩ := h.exists_at_home he
    exact ⟨Nat.pos_of_ne_zero hdot, rfl, rfl, f, hf, hitem, hhome, Int.le_of_eq hweight.symm⟩

theorem advance {last : Part} {q : Nat} {w : Int} {a : Arrived} (ha : a ≠ .bySkip)
    (hended : a = .byTerminal → ∃ t s line, last = .token t s line)
    (hlt : e.item.dot < e.item.rule.symbols.length)
    (hderives : ∃ m, Derives text (e.item.rule.symbols.take (e.item.dot + 1)) e.item.start m
      (e.weight + w) ∧ Gap text m q)
    (hprior : Prior chart e.item e.item.dot e.reference? e.home e.weight)
    (hlatest : Latest text chart e.item e.item.dot last e.home q w) :
    (e.extend q last w a).Sound text chart q where
  gap := .refl q
  derives := hderives
  dot_le := hlt
  here := fun _ => rfl
  carried := fun hskip => absurd hskip ha
  rooted := fun hlt => absurd hlt (Nat.lt_irrefl q)
  ended := by
    intro hterminal
    obtain ⟨t, s, line, rfl⟩ := hended hterminal
    exact ⟨_, t, s, line, rfl, rfl⟩
  traced := ⟨e.item.dot, e.home, e.weight, w, rfl, hprior, hlatest, Int.le_refl _⟩

theorem terminal {t : Terminal} {n : Nat} (h : e.Sound text chart p) (he : e ∈ chart.getD p #[])
    (hnext : e.item.next? = some (.terminal t)) (hread : t.read? (text.drop p) = some n) :
    (e.extend (p + n) (.token t (String.ofList ((text.drop p).take n)) (lineAt text p)) t.weight
      .byTerminal).Sound text chart (p + n) := by
  obtain ⟨q, hderives, hgap⟩ := h.derives
  refine advance nofun (fun _ => ⟨t, _, _, rfl⟩) (dot_lt_of_next? hnext)
    ⟨p + n, ?_, .refl _⟩ (h.prior he) ?_
  · rw [take_of_next? hnext]
    exact hderives.concat_terminal (hgap.trans h.gap) hread
  · exact ⟨hnext, rfl, p, n, h.gap, hread, rfl, rfl, rfl⟩

theorem category {x : Entry} {k : Nat} (h : e.Sound text chart k) (he : e ∈ chart.getD k #[])
    (hx : x.Sound text chart p) (hxmem : x ∈ chart.getD p #[]) (hstart : x.item.start = k)
    (hcomplete : x.item.isComplete = true)
    (hnext : e.item.next? = some (.category x.item.rule.category)) :
    (e.extend p (.node x.home x.item) x.weight .byRule).Sound text chart p := by
  obtain ⟨q, hderives, hgap⟩ := h.derives
  obtain ⟨q', hderives', hgap'⟩ := hx.derives_all hcomplete
  rw [hstart] at hderives'
  obtain ⟨m, hderives'', hgap''⟩ := hderives.concat_category (hgap.trans h.gap) hderives'
  refine advance nofun nofun (dot_lt_of_next? hnext)
    ⟨m, ?_, hgap''.trans (hgap'.trans hx.gap)⟩ (h.prior he) ?_
  · rw [take_of_next? hnext]
    exact hderives''
  · obtain ⟨g, hg, hitem, hhome, hweight⟩ := hx.exists_at_home hxmem
    refine ⟨hnext, hcomplete, hstart ▸ h.gap, hx.start_le_home, hx.gap, ⟨e, hstart ▸ he, rfl⟩, g, hg,
      hitem ▸ agrees_refl _, hhome, Int.le_of_eq hweight.symm⟩

theorem skip {n : Nat} (h : e.Sound text chart p) (he : e ∈ chart.getD p #[])
    (hn : n ∈ skips (text.drop p)) :
    Sound text chart (p + n) { e with arrived := .bySkip } where
  gap := h.gap.step hn
  derives := h.derives
  dot_le := h.dot_le
  here := fun hne => absurd rfl hne
  carried := fun _ => ⟨p, n, e.arrived, hn, rfl, he⟩
  rooted := fun _ => h.exists_at_home he
  ended := nofun
  traced := h.traced

/-! ### Other columns -/

section Mono

variable {chart' : Array Column} (hbefore : ∀ q < p, chart'.getD q #[] = chart.getD q #[])
  (hrefines : Column.Refines p (chart.getD p #[]) (chart'.getD p #[]))

include hbefore hrefines

/-- What an entry of an earlier column, or of this one, has become. -/
theorem exists_refined {q : Nat} (hq : q ≤ p) (hf : f ∈ chart.getD q #[]) :
    ∃ f' ∈ chart'.getD q #[], f'.item.agrees f.item = true ∧ f.weight ≤ f'.weight ∧
      (f.home = q → f'.home = q) := by
  rcases Nat.lt_or_eq_of_le hq with hlt | rfl
  · exact ⟨f, hbefore q hlt ▸ hf, agrees_refl _, Int.le_refl _, id⟩
  · exact hrefines f hf

variable {item : Item} {d b : Nat}

theorem prior_mono {before : Option (Nat × Item)} {v : Int} (hb : b ≤ p)
    (hd : d < item.rule.symbols.length) (h : Prior chart item d before b v) :
    Prior chart' item d before b v := by
  unfold Prior at h ⊢
  split
  · exact h
  · obtain ⟨hpos, rfl, rfl, f, hf, hitem, hhome, hweight⟩ := h
    obtain ⟨f', hf', hagrees, hweight', hhome'⟩ := exists_refined hbefore hrefines hb hf
    have hpartial : Item.isComplete { item with dot := d } = false :=
      isComplete_of_next? (List.getElem?_eq_getElem hd)
    rw [hitem] at hagrees
    exact ⟨hpos, rfl, rfl, f', hf', eq_of_agrees hagrees hpartial, hhome' hhome,
      Int.le_trans hweight hweight'⟩

theorem latest_mono {j : Nat} {last : Part} {u : Int} (hj : j ≤ p)
    (h : Latest text chart item d last b j u) : Latest text chart' item d last b j u := by
  unfold Latest at h ⊢
  split
  · exact h
  · obtain ⟨hsymbol, hcomplete, hgap, hstart, hgap', ⟨w, hw, hwitem⟩, g, hg, hagrees, hhome,
      hweight⟩ := h
    have hle := hgap'.le
    obtain ⟨w', hw', hagreesw, -⟩ := exists_refined hbefore hrefines (by omega) hw
    obtain ⟨g', hg', hagreesg, hweight', hhome'⟩ := exists_refined hbefore hrefines (by omega) hg
    have hpartial : w.item.isComplete = false := by
      rw [hwitem]
      exact isComplete_of_next? hsymbol
    exact ⟨hsymbol, hcomplete, hgap, hstart, hgap',
      ⟨w', hw', (eq_of_agrees hagreesw hpartial).trans hwitem⟩, g', hg',
      agrees_trans hagreesg hagrees, hhome' hhome, Int.le_trans hweight hweight'⟩

/-- An entry stays sound when the columns before it stay and no entry of its column gets worse. -/
theorem mono (h : e.Sound text chart p) : e.Sound text chart' p where
  gap := h.gap
  derives := h.derives
  dot_le := h.dot_le
  here := h.here
  carried := by
    intro hskip
    obtain ⟨q, n, a, hn, hq, hmem⟩ := h.carried hskip
    have hpos := skips_pos hn
    exact ⟨q, n, a, hn, hq, hbefore q (by omega) ▸ hmem⟩
  rooted := fun hlt => hbefore e.home hlt ▸ h.rooted hlt
  ended := h.ended
  traced := by
    have htraced := h.traced
    unfold Traced at htraced ⊢
    split
    · next hstep =>
      rw [hstep] at htraced
      exact htraced
    · next step hstep =>
      rw [hstep] at htraced
      obtain ⟨d, b, v, u, hdot, hprior, hlatest, hweight⟩ := htraced
      have hd := h.dot_le
      have hb := Nat.le_trans hlatest.le h.home_le
      exact ⟨d, b, v, u, hdot, prior_mono hbefore hrefines hb (by omega) hprior,
        latest_mono hbefore hrefines h.home_le hlatest, hweight⟩

end Mono

end Sound

end Entry

end LuaInterpreter
