import LuaInterpreter.Proofs.Chart.Settling

/-!
# The chart of a text

The columns of a chart depend only on the columns before them. So the chart of a text can be said
without regard to where reading gets stuck, and reading gives this chart unless it gets stuck.
-/

namespace LuaInterpreter

open List Nat

variable {start : Category} {text : List Char} {chart : Array Column} {p q : Nat}

/-! ## Columns one after the other -/

/-- What the column at `q` sends to later columns. -/
def arrivalsAt (start : Category) (text : List Char) (chart : Array Column) (q : Nat) :
    List Arrival :=
  arrivals start q (lineAt text q) (chart.getD q #[]) (text.drop q)

def entering (start : Category) (text : List Char) (chart : Array Column) : Column :=
  if chart.size = 0 then (start.productions.map (Entry.predicted · 0)).toArray
  else .receive #[] (((List.range chart.size).flatMap fun q =>
    (arrivalsAt start text chart q).filter (·.position == chart.size)).map (·.entry))

/-- The columns before a position. -/
def chartTo (start : Category) (text : List Char) : Nat → Array Column
  | 0 => #[]
  | p + 1 => (chartTo start text p).push
    (settle (chartTo start text p) p (entering start text (chartTo start text p)))

theorem size_chartTo (start : Category) (text : List Char) (p : Nat) :
    (chartTo start text p).size = p := by
  induction p with
  | zero => rfl
  | succ p ih => rw [chartTo, Array.size_push, ih]

theorem getD_chartTo_of_le {p' : Nat} (hq : q < p) (hp : p ≤ p') :
    (chartTo start text p').getD q #[] = (chartTo start text p).getD q #[] := by
  induction hp with
  | refl => rfl
  | step hp ih =>
    rw [← ih, chartTo, getD_push_of_lt (size_chartTo start text _) _ (Nat.lt_of_lt_of_le hq hp)]

theorem getD_chartTo (hq : q < p) : (chartTo start text p).getD q #[] =
    settle (chartTo start text q) q (entering start text (chartTo start text q)) := by
  rw [getD_chartTo_of_le (lt_succ_self q) hq, chartTo, getD_push_self (size_chartTo start text q)]

theorem getD_of_size_le (h : chart.size ≤ q) : chart.getD q #[] = #[] := by
  rw [Array.getD_eq_getD_getElem?, Array.getElem?_eq_none h, Option.getD_none]

/-! ## What arrives -/

variable {a : Arrival} {e : Entry} {n : Nat} {c : Char} {cs : List Char}

theorem mem_arrivalsAt (h : a ∈ arrivalsAt start text chart q) :
    (∃ e ∈ chart.getD q #[], ∃ t n, e.item.next? = some (.terminal t) ∧
      t.read? (text.drop q) = some n ∧ a.position = q + n ∧
      a.entry = e.extend (q + n) (.token t (String.ofList ((text.drop q).take n)) (lineAt text q))
        t.weight .byTerminal) ∨
    ∃ e ∈ chart.getD q #[], ∃ n ∈ skips (text.drop q), a.position = q + n ∧
      a.entry = { e with arrived := .bySkip } := by
  rcases mem_append.mp h with h | h
  · obtain ⟨e, he, h⟩ := mem_filterMap.mp h
    have he := Array.mem_toList_iff.mp (mem_filter.mp he).1
    split at h
    · next t hnext =>
      obtain ⟨n, hread, rfl⟩ := Option.map_eq_some_iff.mp h
      exact .inl ⟨e, he, t, n, hnext, hread, rfl, rfl⟩
    · cases h
  · obtain ⟨n, hn, h⟩ := mem_flatMap.mp h
    obtain ⟨e, he, rfl⟩ := mem_map.mp h
    have he : e ∈ (chart.getD q #[]).toList := by
      rcases mem_append.mp he with he | he
      · exact (mem_filter.mp he).1
      · exact (mem_filter.mp he).1
    exact .inr ⟨e, Array.mem_toList_iff.mp he, n, hn, rfl, rfl⟩

theorem mem_arrivalsAt_of_read (start : Category) {t : Terminal} (he : e ∈ chart.getD q #[])
    (hnext : e.item.next? = some (.terminal t)) (hread : t.read? (text.drop q) = some n) :
    ⟨q + n, e.extend (q + n) (.token t (String.ofList ((text.drop q).take n)) (lineAt text q))
      t.weight .byTerminal⟩ ∈ arrivalsAt start text chart q := by
  refine mem_append_left _ (mem_filterMap.mpr ⟨e, ?_, ?_⟩)
  · refine mem_filter.mpr ⟨Array.mem_toList_iff.mpr he, ?_⟩
    rw [Entry.awaitsTerminal, hnext]
  · rw [hnext]
    exact Option.map_eq_some_iff.mpr ⟨n, hread, rfl⟩

/-- The entries that skipped text takes along. -/
def Entry.IsCarried (start : Category) (e : Entry) : Prop :=
  (∃ t, e.item.next? = some (.terminal t)) ∨
    (e.item.rule.category = start ∧ e.item.isComplete = true)

theorem mem_arrivalsAt_of_skip (he : e ∈ chart.getD q #[]) (hcarried : e.IsCarried start)
    (hn : n ∈ skips (text.drop q)) :
    ⟨q + n, { e with arrived := .bySkip }⟩ ∈ arrivalsAt start text chart q := by
  have he := Array.mem_toList_iff.mpr he
  refine mem_append_right _ (mem_flatMap.mpr ⟨n, hn, mem_map.mpr ⟨e, ?_, rfl⟩⟩)
  rcases hcarried with ⟨t, hnext⟩ | ⟨hcategory, hcomplete⟩
  · refine mem_append_left _ (mem_filter.mpr ⟨he, ?_⟩)
    rw [Entry.awaitsTerminal, hnext]
  · refine mem_append_right _ (mem_filter.mpr ⟨he, ?_⟩)
    rw [hcategory, hcomplete, beq_self_eq_true, Bool.true_and]

theorem lt_position (h : a ∈ arrivalsAt start text chart q) : q < a.position := by
  rcases mem_arrivalsAt h with ⟨e, -, t, n, hnext, hread, hposition, -⟩ | ⟨e, -, n, hn, hposition, -⟩
  · have hpos := Production.read?_pos hnext hread
    omega
  · have hpos := skips_pos hn
    omega

/-! ## What a column receives -/

namespace Column

variable {es : List Entry} {f : Entry}

theorem distinct_receive (es : List Entry) : (receive #[] es).Distinct := by
  obtain ⟨_, h⟩ := enteredAll_receive #[] es
  exact h.distinct fun i j a b ha => nomatch ha

theorem mem_of_mem_receive (hf : f ∈ receive #[] es) : f ∈ es := by
  obtain ⟨_, h⟩ := enteredAll_receive #[] es
  exact (h.mem_or_mem hf).resolve_left (Array.not_mem_empty f)

theorem covers_receive (hf : f ∈ es) : Covers .byTerminal (receive #[] es) f := by
  obtain ⟨_, h⟩ := enteredAll_receive #[] es
  exact h.covers_of_mem hf

end Column

theorem distinct_of_pairwise {items : List Entry}
    (h : items.Pairwise fun e f => e.item.agrees f.item = false) :
    Column.Distinct items.toArray := by
  intro i j a b ha hb hagrees
  rw [List.getElem?_toArray] at ha hb
  obtain ⟨hi, rfl⟩ := List.getElem?_eq_some_iff.mp ha
  obtain ⟨hj, rfl⟩ := List.getElem?_eq_some_iff.mp hb
  have hpairwise := pairwise_iff_getElem.mp h
  rcases Nat.lt_trichotomy i j with hlt | heq | hlt
  · cases (hpairwise i j hi hj hlt).symm.trans hagrees
  · exact heq
  · cases (hpairwise j i hj hi hlt).symm.trans (Item.agrees_symm hagrees)

theorem Category.pairwise_predicted (c : Category) : (c.productions.map (Entry.predicted · 0)).Pairwise
    fun e f => e.item.agrees f.item = false := by
  cases c <;> decide

theorem mem_entering (he : e ∈ entering start text chart) :
    (chart.size = 0 ∧ ∃ r ∈ start.productions, .predicted r 0 = e) ∨
    ∃ q < chart.size, ∃ a ∈ arrivalsAt start text chart q, a.position = chart.size ∧ a.entry = e := by
  unfold entering at he
  split at he
  · next hzero => exact .inl ⟨hzero, mem_map.mp (mem_toArray.mp he)⟩
  · obtain ⟨a, ha, rfl⟩ := mem_map.mp (Column.mem_of_mem_receive he)
    obtain ⟨q, hq, ha⟩ := mem_flatMap.mp ha
    obtain ⟨ha, hposition⟩ := mem_filter.mp ha
    exact .inr ⟨q, mem_range.mp hq, a, ha, eq_of_beq hposition, rfl⟩

theorem settling_entering (start : Category) (hsize : chart.size = p)
    (hearlier : ∀ q < p, ∀ e ∈ chart.getD q #[], e.Sound text chart q) :
    Settling text chart p (entering start text chart) := by
  refine ⟨hsize, hearlier, fun e he => ?_, ?_⟩
  · rcases mem_entering he with ⟨hzero, r, -, rfl⟩ | ⟨q, hq, a, ha, hposition, rfl⟩
    · obtain rfl : p = 0 := hsize.symm.trans hzero
      exact .predicted r 0
    · rw [hsize] at hq hposition
      have hsound : a.entry.Sound text chart p := by
        rcases mem_arrivalsAt ha with ⟨e, he, t, n, hnext, hread, hn, hentry⟩ |
          ⟨e, he, n, hn, hn', hentry⟩
        · rw [hentry, ← hposition, hn]
          exact (hearlier q hq e he).terminal he hnext hread
        · rw [hentry, ← hposition, hn']
          exact (hearlier q hq e he).skip he hn
      refine hsound.mono (fun q' hq' => getD_push_of_lt hsize _ hq') ?_
      rw [getD_of_size_le (Nat.le_of_eq hsize)]
      exact fun f hf => absurd hf (Array.not_mem_empty f)
  · unfold entering
    split
    · exact distinct_of_pairwise start.pairwise_predicted
    · exact Column.distinct_receive _

section

variable (start text p)

theorem sound_chartTo : ∀ q < p,
    ∀ e ∈ (chartTo start text p).getD q #[], e.Sound text (chartTo start text p) q := by
  induction p with
  | zero => exact fun q hq => absurd hq (Nat.not_lt_zero q)
  | succ p ih =>
    have hentering := settling_entering start (size_chartTo start text p) ih
    have hsettled := hentering.done hentering.settles
    intro q hq e he
    exact hsettled.sound_at (le_of_lt_succ hq) he

theorem settling_chartTo :
    Settling text (chartTo start text p) p (entering start text (chartTo start text p)) :=
  settling_entering start (size_chartTo start text p) (sound_chartTo start text p)

theorem progress_entering :
    Progress (chartTo start text p) p (List.range (entering start text (chartTo start text p)).size)
      (entering start text (chartTo start text p)) := by
  refine ⟨fun i e he => .inl (mem_range.mpr (Array.getElem?_eq_some_iff.mp he).1), ?_⟩
  intro x hx hstart hdot r hr
  rcases mem_entering hx with ⟨hzero, r', hr', rfl⟩ | ⟨q, hq, a, ha, -, rfl⟩
  · obtain rfl : p = 0 := (size_chartTo start text p).symm.trans hzero
    have hcategory : r'.category = start := Category.category_of_mem hr'
    exact .of_mem (mem_toArray.mpr (mem_map_of_mem (hcategory ▸ hr)))
  · -- what has arrived began before this position
    rw [size_chartTo] at hq
    rcases mem_arrivalsAt ha with ⟨e, he, t, n, hnext, hread, hn, hentry⟩ | ⟨e, he, n, hn, hn', hentry⟩
    · rw [hentry] at hdot
      cases hdot
    · have hle := (sound_chartTo start text p q hq e he).start_le_home
      have hle' := (sound_chartTo start text p q hq e he).home_le
      rw [hentry] at hstart
      have hstart : e.item.start = p := hstart
      omega

end

/-! ## What all charts have in common -/

/-- What is true of the charts of a text. -/
structure IsChart (start : Category) (text : List Char) (chart : Array Column) : Prop where
  sound : ∀ p, ∀ e ∈ chart.getD p #[], e.Sound text chart p
  distinct : ∀ p, (chart.getD p #[]).Distinct
  /-- An entry that awaits a category has its productions predicted. -/
  predicted : ∀ p, ∀ e ∈ chart.getD p #[], ∀ c, e.item.next? = some (.category c) →
    ∀ r ∈ c.productions, (chart.getD p #[]).Covers .byRule (.predicted r p)
  /-- A complete entry moves those on that awaited its category. -/
  completed : ∀ p, ∀ e ∈ chart.getD p #[], e.item.isComplete = true → e.item.start < p →
    ∀ w ∈ chart.getD e.item.start #[], w.item.next? = some (.category e.item.rule.category) →
    (chart.getD p #[]).Covers .byRule (w.extend p (.node e.home e.item) e.weight .byRule)
  /-- An entry that awaits a terminal moves on where the terminal can be read. -/
  scanned : ∀ p, ∀ e ∈ chart.getD p #[], ∀ t n, e.item.next? = some (.terminal t) →
    t.read? (text.drop p) = some n → p + n < chart.size → ∃ f ∈ chart.getD (p + n) #[],
    f.arrived ≠ .byRule ∧ f.item.agrees e.item.advance = true ∧ (f.arrived = .byTerminal →
      (e.extend (p + n) (.token t (String.ofList ((text.drop p).take n)) (lineAt text p)) t.weight
        .byTerminal).beats f = false)
  /-- Skipped text takes entries along. -/
  carried : ∀ p, ∀ e ∈ chart.getD p #[], e.IsCarried start → ∀ n ∈ skips (text.drop p),
    p + n < chart.size →
    ∃ f ∈ chart.getD (p + n) #[], f.arrived ≠ .byRule ∧ f.item.agrees e.item = true

theorem arrived_ne_byRule (h : a ∈ arrivalsAt start text chart q) : a.entry.arrived ≠ .byRule := by
  rcases mem_arrivalsAt h with ⟨e, -, t, n, -, -, -, hentry⟩ | ⟨e, -, n, -, -, hentry⟩
  · rw [hentry]
    exact nofun
  · rw [hentry]
    exact nofun

/-- What arrives at a later column has an entry there that stays. -/
theorem exists_of_mem_arrivalsAt (ha : a ∈ arrivalsAt start text (chartTo start text p) q)
    (hp : a.position < p) :
    ∃ f ∈ (chartTo start text p).getD a.position #[], f.arrived ≠ .byRule ∧
      f.item.agrees a.entry.item = true ∧
      (f.arrived = .byTerminal → a.entry.arrived = .byTerminal → a.entry.beats f = false) := by
  have hlt := lt_position ha
  have hsize := size_chartTo start text a.position
  have ha' : a ∈ arrivalsAt start text (chartTo start text a.position) q := by
    rwa [arrivalsAt, ← getD_chartTo_of_le hlt (Nat.le_of_lt hp)]
  have hmem : a ∈ (List.range (chartTo start text a.position).size).flatMap fun q =>
      (arrivalsAt start text (chartTo start text a.position) q).filter
        (·.position == (chartTo start text a.position).size) := by
    rw [hsize]
    exact mem_flatMap.mpr ⟨q, mem_range.mpr hlt,
      mem_filter.mpr ⟨ha', beq_self_eq_true _⟩⟩
  have hentering : ∃ f ∈ entering start text (chartTo start text a.position), f.arrived ≠ .byRule ∧
      f.item.agrees a.entry.item = true ∧
      (f.arrived = .byTerminal → a.entry.arrived = .byTerminal → a.entry.beats f = false) := by
    rw [entering, if_neg (by omega)]
    obtain ⟨f, hf, hagrees, hbeats⟩ := Column.covers_receive (mem_map_of_mem hmem)
    refine ⟨f, hf, ?_, hagrees, hbeats⟩
    obtain ⟨b, hb, rfl⟩ := mem_map.mp (Column.mem_of_mem_receive hf)
    obtain ⟨q', -, hb⟩ := mem_flatMap.mp hb
    exact arrived_ne_byRule (mem_filter.mp hb).1
  obtain ⟨f, hf, hne, hagrees, hbeats⟩ := hentering
  have hsettling := settling_chartTo start text a.position
  refine ⟨f, ?_, hne, hagrees, hbeats⟩
  rw [getD_chartTo hp]
  exact hsettling.settles.keeps.1 f hf hne

theorem closed_chartTo (hq : q < p) (he : e ∈ (chartTo start text p).getD q #[]) :
    e.Closed (chartTo start text q) q ((chartTo start text p).getD q #[]) := by
  have hsettling := settling_chartTo start text q
  rw [getD_chartTo hq] at he ⊢
  exact hsettling.closed_of_progress (progress_entering start text q) hsettling.settles he

theorem isChart_chartTo (start : Category) (text : List Char) (n : Nat) :
    IsChart start text (chartTo start text n) := by
  have hlt {p : Nat} {e : Entry} (he : e ∈ (chartTo start text n).getD p #[]) : p < n := by
    by_contra hle
    rw [getD_of_size_le (by rw [size_chartTo]; omega)] at he
    exact Array.not_mem_empty e he
  have hsound {p : Nat} {e : Entry} (he : e ∈ (chartTo start text n).getD p #[]) :
      e.Sound text (chartTo start text n) p :=
    sound_chartTo start text n p (hlt he) e he
  constructor
  case sound => exact fun p e he => hsound he
  case distinct =>
    intro p
    by_cases hp : p < n
    · have hsettling := settling_chartTo start text p
      rw [getD_chartTo hp]
      exact (hsettling.done hsettling.settles).distinct
    · rw [getD_of_size_le (by rw [size_chartTo]; omega)]
      exact fun i j a b ha => nomatch ha
  case predicted =>
    intro p e he c hnext r hr
    have hclosed := closed_chartTo (hlt he) he
    rw [Entry.Closed, hnext] at hclosed
    exact hclosed r hr
  case completed =>
    intro p e he hcomplete hstart w hw hwnext
    have hclosed := closed_chartTo (hlt he) he
    rw [Entry.Closed, Option.isNone_iff_eq_none.mp hcomplete] at hclosed
    refine hclosed hstart w ?_ hwnext
    rwa [← getD_chartTo_of_le hstart (Nat.le_of_lt (hlt he))]
  case scanned =>
    intro p e he t k hnext hread hk
    rw [size_chartTo] at hk
    obtain ⟨f, hf, hne, hagrees, hbeats⟩ :=
      exists_of_mem_arrivalsAt (mem_arrivalsAt_of_read start he hnext hread) hk
    exact ⟨f, hf, hne, hagrees, fun hterminal => hbeats hterminal rfl⟩
  case carried =>
    intro p e he hcarried k hk hsize
    rw [size_chartTo] at hsize
    obtain ⟨f, hf, hne, hagrees, -⟩ :=
      exists_of_mem_arrivalsAt (mem_arrivalsAt_of_skip he hcarried hk) hsize
    exact ⟨f, hf, hne, hagrees⟩

theorem covers_first {r : Production} (hr : r ∈ start.productions) (hp : 0 < p) :
    ((chartTo start text p).getD 0 #[]).Covers .byRule (.predicted r 0) := by
  have hsettling := settling_chartTo start text 0
  rw [getD_chartTo hp]
  refine hsettling.settles.keeps.2 _ (.of_mem ?_)
  exact mem_toArray.mpr (mem_map_of_mem hr)

/-! ## Reading gives the chart -/

/-- Something that was read or skipped leads past a position. -/
def Passed (start : Category) (text : List Char) (chart : Array Column) (p : Nat) : Prop :=
  ∃ q ≤ p, ∃ a ∈ arrivalsAt start text chart q, p < a.position

/-- What is still to arrive after a position. -/
def awaited (start : Category) (text : List Char) (p : Nat) : List Arrival :=
  (List.range p).flatMap fun q =>
    (arrivalsAt start text (chartTo start text p) q).filter (p < ·.position)

theorem arrivalsAt_chartTo_succ (hq : q < p) :
    arrivalsAt start text (chartTo start text (p + 1)) q =
      arrivalsAt start text (chartTo start text p) q := by
  rw [arrivalsAt, arrivalsAt, getD_chartTo_of_le hq (le_succ p)]

section

variable (start text p)

/-- All that has been sent to later columns, up to those of a position. -/
theorem flatMap_arrivalsAt_succ (keep : Arrival → Bool) :
    (List.range (p + 1)).flatMap (fun q =>
        (arrivalsAt start text (chartTo start text (p + 1)) q).filter keep) =
      (List.range p).flatMap (fun q =>
        (arrivalsAt start text (chartTo start text p) q).filter keep) ++
      (arrivalsAt start text (chartTo start text (p + 1)) p).filter keep := by
  rw [range_succ, flatMap_append, flatMap_singleton]
  congr 1
  refine flatMap_congr fun q hq => ?_
  rw [arrivalsAt_chartTo_succ (mem_range.mp hq)]

theorem filter_awaited {keep : Arrival → Bool} (hkeep : ∀ a, keep a = true → p < a.position) :
    (awaited start text p).filter keep = (List.range p).flatMap fun q =>
      (arrivalsAt start text (chartTo start text p) q).filter keep := by
  rw [awaited, filter_flatMap]
  refine flatMap_congr fun q _ => ?_
  rw [filter_filter]
  refine filter_congr fun a _ => ?_
  cases ha : keep a with
  | false => rfl
  | true => simpa using hkeep a ha

theorem entering_chartTo_succ :
    entering start text (chartTo start text (p + 1)) =
      .receive #[] (((awaited start text p ++
        arrivalsAt start text (chartTo start text (p + 1)) p).filter (·.position == p + 1)).map
          (·.entry)) := by
  have hkeep (a : Arrival) (ha : (a.position == p + 1) = true) : p < a.position := by
    rw [eq_of_beq ha]
    exact lt_succ_self p
  rw [entering, size_chartTo, if_neg (succ_ne_zero p), flatMap_arrivalsAt_succ,
    filter_append, filter_awaited start text p hkeep]

theorem awaited_succ :
    awaited start text (p + 1) =
      (awaited start text p ++ arrivalsAt start text (chartTo start text (p + 1)) p).filter
        (fun a => !(a.position == p + 1)) := by
  have hkeep (a : Arrival) (ha : decide (p + 1 < a.position) = true) : p < a.position := by
    have ha := of_decide_eq_true ha
    omega
  have hsame {a : Arrival} (ha : p < a.position) :
      decide (p + 1 < a.position) = !(a.position == p + 1) := by
    rw [Bool.eq_iff_iff]
    simp only [decide_eq_true_eq, Bool.not_eq_true', beq_eq_false_iff_ne]
    omega
  rw [awaited, flatMap_arrivalsAt_succ, filter_append, ← filter_awaited start text p hkeep]
  congr 1
  · refine filter_congr fun a ha => hsame ?_
    obtain ⟨q, -, ha⟩ := mem_flatMap.mp ha
    exact of_decide_eq_true (mem_filter.mp ha).2
  · exact filter_congr fun a ha => hsame (lt_position ha)

end

theorem lineAt_succ (h : text.drop p = c :: cs) :
    lineAt text (p + 1) = if c = '\n' then lineAt text p + 1 else lineAt text p := by
  have hc : text[p]? = some c := by
    rw [← List.head?_drop, h, List.head?_cons]
  unfold lineAt
  rw [take_add_one, hc, count_append, Option.toList_some, count_singleton]
  by_cases hnewline : c = '\n'
  · rw [if_pos hnewline, hnewline, if_pos (beq_self_eq_true '\n')]
  · rw [if_neg hnewline, if_neg (by simpa using hnewline), Nat.add_zero]

theorem le_foldl_max {xs : List Nat} {horizon : Nat} (h : n ≤ horizon ∨ n ∈ xs) :
    n ≤ xs.foldl max horizon := by
  induction xs generalizing horizon with
  | nil =>
    rcases h with h | h
    · exact h
    · cases h
  | cons x xs ih =>
    refine ih ?_
    rcases h with h | h
    · exact .inl (Nat.le_trans h (Nat.le_max_left _ _))
    · rcases mem_cons.mp h with rfl | h
      · exact .inl (Nat.le_max_right _ _)
      · exact .inr h

/-- How far anything has reached once a position has sent on what it has. -/
def reach (start : Category) (text : List Char) (p horizon : Nat) : Nat :=
  ((arrivalsAt start text (chartTo start text (p + 1)) p).map (·.position) ++
    (skips (text.drop p)).map (p + ·)).foldl max horizon

/-- One position of a text: reading is stuck there, or goes on with one more column of the chart. -/
theorem readFrom_cons (hcs : text.drop p = c :: cs) (col horizon : Nat) :
    ∃ stuck col', readFrom start (c :: cs) p (lineAt text p) col (chartTo start text p)
      (entering start text (chartTo start text p)) (awaited start text p) horizon =
      if ((awaited start text p ++ arrivalsAt start text (chartTo start text (p + 1)) p).filter
          (·.position == p + 1)).isEmpty && reach start text p horizon ≤ p + 1 then .error stuck
      else readFrom start cs (p + 1) (lineAt text (p + 1)) col' (chartTo start text (p + 1))
        (entering start text (chartTo start text (p + 1))) (awaited start text (p + 1))
        (reach start text p horizon) := by
  have hfound : arrivals start p (lineAt text p)
      (settle (chartTo start text p) p (entering start text (chartTo start text p))) (c :: cs) =
      arrivalsAt start text (chartTo start text (p + 1)) p := by
    rw [arrivalsAt, getD_chartTo (lt_succ_self p), hcs]
  have hline : (if c = '\n' then (lineAt text p + 1, 1) else (lineAt text p, col + 1)).1 =
      lineAt text (p + 1) := by
    rw [apply_ite Prod.fst, lineAt_succ hcs]
  rw [readFrom, entering_chartTo_succ, awaited_succ, reach, hcs]
  dsimp only
  rw [hfound, partition_eq_filter_filter, hline]
  exact ⟨_, _, rfl⟩

theorem eq_chartTo_of_readFrom {cs : List Char} {col horizon : Nat} (hcs : text.drop p = cs)
    (hp : p ≤ text.length)
    (h : readFrom start cs p (lineAt text p) col (chartTo start text p)
      (entering start text (chartTo start text p)) (awaited start text p) horizon = .ok chart) :
    chart = chartTo start text (text.length + 1) := by
  induction cs generalizing p col horizon with
  | nil =>
    obtain rfl : p = text.length := Nat.le_antisymm hp (drop_eq_nil_iff.mp hcs)
    cases h
    rfl
  | cons c cs ih =>
    obtain ⟨stuck, col', hstep⟩ := readFrom_cons hcs col horizon
    rw [hstep] at h
    split at h
    · cases h
    · refine ih (drop_add_one_eq_tail_drop.trans (hcs ▸ rfl)) ?_ h
      exact Nat.lt_of_not_le fun hle => nomatch (drop_of_length_le hle).symm.trans hcs

theorem readFrom_eq_ok
    (hpassed : ∀ p < text.length, Passed start text (chartTo start text (text.length + 1)) p)
    {cs : List Char} {col horizon : Nat} (hcs : text.drop p = cs) (hp : p ≤ text.length)
    (hhorizon : ∀ q < p, ∀ a ∈ arrivalsAt start text (chartTo start text p) q,
      a.position ≤ horizon) :
    readFrom start cs p (lineAt text p) col (chartTo start text p)
      (entering start text (chartTo start text p)) (awaited start text p) horizon =
        .ok (chartTo start text (text.length + 1)) := by
  induction cs generalizing p col horizon with
  | nil =>
    obtain rfl : p = text.length := Nat.le_antisymm hp (drop_eq_nil_iff.mp hcs)
    rfl
  | cons c cs ih =>
    have hlt : p < text.length :=
      Nat.lt_of_not_le fun hle => nomatch (drop_of_length_le hle).symm.trans hcs
    have hreach : ∀ q < p + 1, ∀ a ∈ arrivalsAt start text (chartTo start text (p + 1)) q,
        a.position ≤ reach start text p horizon := by
      intro q hq a ha
      refine le_foldl_max ?_
      rcases Nat.lt_or_eq_of_le (le_of_lt_succ hq) with hq | rfl
      · rw [arrivalsAt_chartTo_succ hq] at ha
        exact .inl (hhorizon q hq a ha)
      · exact .inr (mem_append_left _ (mem_map_of_mem ha))
    obtain ⟨stuck, col', hstep⟩ := readFrom_cons hcs col horizon
    rw [hstep, if_neg ?_]
    · exact ih (drop_add_one_eq_tail_drop.trans (hcs ▸ rfl)) hlt hreach
    · intro hstuck
      obtain ⟨hnow, hfar⟩ := Bool.and_eq_true _ _ ▸ hstuck
      obtain ⟨q, hq, a, ha, hposition⟩ := hpassed p hlt
      rw [arrivalsAt, getD_chartTo_of_le (lt_succ_of_le hq) (succ_le_succ hp), ← arrivalsAt]
        at ha
      have hle := hreach q (lt_succ_of_le hq) a ha
      have hhere : a.position = p + 1 := by
        have hfar := of_decide_eq_true hfar
        omega
      have hmem : a ∈ awaited start text p ++ arrivalsAt start text (chartTo start text (p + 1)) p := by
        rcases Nat.lt_or_eq_of_le hq with hq | rfl
        · rw [arrivalsAt_chartTo_succ hq] at ha
          exact mem_append_left _ (mem_flatMap.mpr ⟨q, mem_range.mpr hq,
            mem_filter.mpr ⟨ha, decide_eq_true hposition⟩⟩)
        · exact mem_append_right _ ha
      have hnow := filter_eq_nil_iff.mp (List.isEmpty_iff.mp hnow) a hmem
      exact hnow (beq_iff_eq.mpr hhere)

abbrev wholeChart (start : Category) (text : List Char) : Array Column :=
  chartTo start text (text.length + 1)

/-- A text is read if nothing is left behind and a column at its end has read it. -/
theorem exists_reading (hpassed : ∀ p < text.length, Passed start text (wholeChart start text) p)
    {x : Entry} (hx : x ∈ (wholeChart start text).getD text.length #[])
    (hreads : x.reads start 0 = true) :
    ∃ y ∈ (wholeChart start text).getD text.length #[], y.reads start 0 = true ∧
      readText start text =
        .ok (treeOf (wholeChart start text) (dottedRules * (text.length + 1)) text.length y.item) := by
  have hread := @readFrom_eq_ok start text 0 hpassed text 1 0 rfl (Nat.zero_le _) nofun
  cases hfound : ((wholeChart start text).getD text.length #[]).toList.find? (·.reads start 0) with
  | none => exact absurd hreads (find?_eq_none.mp hfound x (Array.mem_toList_iff.mpr hx))
  | some y =>
    have hreads' := find?_some hfound
    refine ⟨y, Array.mem_toList_iff.mp (mem_of_find?_eq_some hfound), hreads', ?_⟩
    unfold readText
    dsimp only
    rw [show readFrom start text 0 1 1 #[]
      (start.productions.map (Entry.predicted · 0)).toArray [] 0 = _ from hread]
    dsimp only
    rw [size_chartTo, Nat.add_sub_cancel, hfound]

end LuaInterpreter
