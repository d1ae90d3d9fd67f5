import Mathlib.Algebra.Order.BigOperators.Group.Finset
import Mathlib.Logic.Relation
import LuaInterpreter.Store.Text

/-!
# The text of a table

Tables may lead back to themselves. Their text is laid out depth first, in the order of the entries:
a table is written out where it comes first, and only marked wherever it comes again. So there is
one layout, which comes to an end, as ever fewer tables are left to be written out.
-/

namespace LuaInterpreter

open List

open Relation (ReflTransGen)

/-! ## Layouts -/

mutual

/-- How the text of a value is laid out. A table is either marked or written out, pair by pair. -/
inductive Layout where
  | atom (text : String)
  | marked (id : Nat)
  | full (id : Nat) (pairs : Pairs)

inductive Pairs where
  | nil
  | cons (key value : Layout) (rest : Pairs)

end

mutual

def Layout.text : Layout → String
  | .atom x => x
  | .marked _ => Store.seenMarker
  | .full _ ps => "\x7b" ++ ", ".intercalate ps.texts ++ "\x7d"

def Pairs.texts : Pairs → List String
  | .nil => []
  | .cons k v ps => ("(" ++ k.text ++ ")=(" ++ v.text ++ ")") :: ps.texts

end

mutual

/-- The tables of a layout in the order of the text, each with whether it is written out. -/
def Layout.tables : Layout → List (Nat × Bool)
  | .atom _ => []
  | .marked id => [(id, false)]
  | .full id ps => (id, true) :: ps.tables

def Pairs.tables : Pairs → List (Nat × Bool)
  | .nil => []
  | .cons k v ps => k.tables ++ (v.tables ++ ps.tables)

end

mutual

/-- The layout is one of a value: all entries of a table that is written out are there, in order. -/
def Layout.Shows (s : Store) : Layout → Value → Prop
  | .atom x, v => s.atomText v = .ok x ∧ ∀ id, v ≠ .table id
  | .marked id, v => v = .table id
  | .full id ps, v => v = .table id ∧ ps.Show s (s.table id).entries

def Pairs.Show (s : Store) : Pairs → List (Value × Value) → Prop
  | .nil, es => es = []
  | .cons k v ps, es => ∃ e rest, es = e :: rest ∧ k.Shows s e.1 ∧ v.Shows s e.2 ∧ ps.Show s rest

end

def written (seen : List Nat) (t : Nat × Bool) : List Nat := if t.2 then t.1 :: seen else seen

/-- Of the tables that come one after the other, exactly those are written out that have not been
before. -/
def FullAtFirst : (seen : List Nat) → List (Nat × Bool) → Prop
  | _, [] => True
  | seen, t :: ts => (t.2 = true ↔ t.1 ∉ seen) ∧ FullAtFirst (written seen t) ts

variable {s : Store} {seen seen' : List Nat} {ts us : List (Nat × Bool)} {id root fuel : Nat}

theorem mem_foldl_written : id ∈ ts.foldl written seen ↔ id ∈ seen ∨ (id, true) ∈ ts := by
  induction ts generalizing seen with
  | nil => simp
  | cons t ts ih =>
    obtain ⟨i, full⟩ := t
    rw [foldl_cons, ih, mem_cons, ← or_assoc]
    cases full <;> simp [written, or_comm]

theorem fullAtFirst_append :
    FullAtFirst seen (ts ++ us) ↔ FullAtFirst seen ts ∧ FullAtFirst (ts.foldl written seen) us := by
  induction ts generalizing seen with
  | nil => simp [FullAtFirst]
  | cons t ts ih => rw [cons_append, FullAtFirst, FullAtFirst, ih, and_assoc, foldl_cons]

theorem FullAtFirst.count_eq_one (h : FullAtFirst seen ts) (hid : (id, true) ∈ ts) :
    id ∉ seen ∧ ts.count (id, true) = 1 := by
  induction ts generalizing seen with
  | nil => cases hid
  | cons t ts ih =>
    obtain ⟨hfirst, hrest⟩ := h
    by_cases ht : t = (id, true)
    · subst ht
      -- The table has been written out now, so it is not in the rest.
      have hnone : (id, true) ∉ ts := fun hmem => (ih hrest hmem).1 (.head _)
      exact ⟨hfirst.mp rfl, by rw [count_cons_self, count_eq_zero.mpr hnone]⟩
    · obtain ⟨hnew, hcount⟩ := ih hrest ((mem_cons.mp hid).resolve_left (Ne.symm ht))
      refine ⟨fun hmem => hnew ?_, by rw [count_cons_of_ne ht, hcount]⟩
      exact (mem_foldl_written.mpr (.inl hmem) : id ∈ [t].foldl written seen)

/-! ## One layout -/

mutual

theorem Layout.Shows.unique {seen : List Nat} {v : Value} : {l l' : Layout} → l.Shows s v →
    l'.Shows s v → FullAtFirst seen l.tables → FullAtFirst seen l'.tables → l = l'
  | .atom x, .atom y, hl, hl', _, _ => by rw [Except.ok.inj (hl.1.symm.trans hl'.1)]
  | .atom _, .marked id, hl, hl', _, _ => absurd hl' (hl.2 id)
  | .atom _, .full id _, hl, hl', _, _ => absurd hl'.1 (hl.2 id)
  | .marked id, .atom _, hl, hl', _, _ => absurd hl (hl'.2 id)
  | .full id _, .atom _, hl, hl', _, _ => absurd hl.1 (hl'.2 id)
  | .marked i, .marked j, hl, hl', _, _ => by rw [Value.table.inj (hl.symm.trans hl')]
  | .marked i, .full j _, hl, hl', hfirst, hfirst' => by
    cases hl.symm.trans hl'.1
    simpa using hfirst.1.trans hfirst'.1.symm
  | .full i _, .marked j, hl, hl', hfirst, hfirst' => by
    cases hl.1.symm.trans hl'
    simpa using hfirst.1.trans hfirst'.1.symm
  | .full i ps, .full j ps', hl, hl', hfirst, hfirst' => by
    cases hl.1.symm.trans hl'.1
    rw [hl.2.unique hl'.2 hfirst.2 hfirst'.2]

theorem Pairs.Show.unique {seen : List Nat} {es : List (Value × Value)} : {ps ps' : Pairs} →
    ps.Show s es → ps'.Show s es → FullAtFirst seen ps.tables → FullAtFirst seen ps'.tables →
    ps = ps'
  | .nil, .nil, _, _, _, _ => rfl
  | .nil, .cons .., hnil, ⟨_, _, hcons, _⟩, _, _ => by cases hnil.symm.trans hcons
  | .cons .., .nil, ⟨_, _, hcons, _⟩, hnil, _, _ => by cases hnil.symm.trans hcons
  | .cons k v ps, .cons k' v' ps', ⟨e, es, hes, hk, hv, hps⟩, ⟨e', es', hes', hk', hv', hps'⟩,
      hfirst, hfirst' => by
    cases hes.symm.trans hes'
    rw [Pairs.tables, fullAtFirst_append, fullAtFirst_append] at hfirst hfirst'
    obtain rfl := hk.unique hk' hfirst.1 hfirst'.1
    obtain rfl := hv.unique hv' hfirst.2.1 hfirst'.2.1
    rw [hps.unique hps' hfirst.2.2 hfirst'.2.2]

end

namespace Store

/-! ## Enough fuel -/

/-- How much fuel the tables that have not been seen need. -/
def room (s : Store) (seen : List Nat) : Nat :=
  ∑ id ∈ (Finset.range s.tables.size).filter (· ∉ seen), ((s.table id).entries.length + 2)

theorem room_written_le (s : Store) (ts : List (Nat × Bool)) (seen : List Nat) :
    s.room (ts.foldl written seen) ≤ s.room seen := by
  refine Finset.sum_le_sum_of_subset fun id hid => ?_
  rw [Finset.mem_filter] at hid ⊢
  exact ⟨hid.1, fun hmem => hid.2 (mem_foldl_written.mpr (.inl hmem))⟩

theorem room_fresh (hnew : id ∉ seen) (hid : id < s.tables.size) :
    (s.table id).entries.length + 2 + s.room (id :: seen) = s.room seen := by
  have herase : (Finset.range s.tables.size).filter (· ∉ id :: seen) =
      ((Finset.range s.tables.size).filter (· ∉ seen)).erase id := by
    ext j
    simp only [Finset.mem_filter, Finset.mem_erase, mem_cons, not_or]
    tauto
  have hmem : id ∈ (Finset.range s.tables.size).filter (· ∉ seen) := by simp [hnew, hid]
  rw [room, herase]
  exact Finset.add_sum_erase _ (fun id => (s.table id).entries.length + 2) hmem

theorem room_nil_lt (s : Store) : s.room [] < s.textFuel := by
  have hsum (ts : List Table) (n : Nat) : ts.foldl (fun n t => n + t.entries.length + 2) n =
      n + ∑ id ∈ Finset.range ts.length, ((ts.getD id {}).entries.length + 2) := by
    induction ts generalizing n with
    | nil => rfl
    | cons t ts ih =>
      rw [foldl_cons, ih, length_cons, Finset.sum_range_succ']
      simp only [getD_cons_succ, getD_cons_zero]
      omega
  have hroom : s.room [] = ∑ id ∈ Finset.range s.tables.toList.length,
      ((s.tables.toList.getD id {}).entries.length + 2) := by
    simp [room, table]
  rw [textFuel, ← Array.foldl_toList, hsum, hroom]
  omega

/-! ## The text -/

/-- Some entry of a table leads to another one, as its key or as its value. -/
def Mentions (s : Store) (i j : Nat) : Prop :=
  ∃ e ∈ (s.table i).entries, e.1 = .table j ∨ e.2 = .table j

/-- The keys and values of all tables that can be reached have a text of their own. -/
def HasTexts (s : Store) (root : Nat) : Prop :=
  ∀ id, ReflTransGen s.Mentions root id → ∀ e ∈ (s.table id).entries,
    (∃ x, s.atomText e.1 = .ok x) ∧ ∃ y, s.atomText e.2 = .ok y

/-- Tables that come after those seen before are written out where they should, they can be reached,
and where they lead to has been seen then. -/
structure Spans (s : Store) (root : Nat) (seen : List Nat) (ts : List (Nat × Bool)) : Prop where
  first : FullAtFirst seen ts
  reached : ∀ t ∈ ts, ReflTransGen s.Mentions root t.1
  closed : ∀ i j, (i, true) ∈ ts → s.Mentions i j → j ∈ ts.foldl written seen

theorem Spans.nil (s : Store) (root : Nat) (seen : List Nat) : s.Spans root seen [] :=
  ⟨trivial, forall_mem_nil _, fun _ _ h => absurd h not_mem_nil⟩

theorem Spans.append (h : s.Spans root seen ts) (h' : s.Spans root (ts.foldl written seen) us) :
    s.Spans root seen (ts ++ us) where
  first := fullAtFirst_append.mpr ⟨h.first, h'.first⟩
  reached := forall_mem_append.mpr ⟨h.reached, h'.reached⟩
  closed := by
    intro i j hi hij
    rw [foldl_append]
    rcases mem_append.mp hi with hi | hi
    · exact mem_foldl_written.mpr (.inl (h.closed i j hi hij))
    · exact h'.closed i j hi hij

/-- A value that has a text, and if it is a table, one that can be reached. -/
def CanShow (s : Store) (root : Nat) (v : Value) : Prop :=
  (∃ x, s.atomText v = .ok x) ∧ ∀ id, v = .table id → ReflTransGen s.Mentions root id

/-- With so much fuel, all values are shown. -/
def ShowsWith (s : Store) (root fuel : Nat) : Prop :=
  ∀ (seen : List Nat) (v : Value), s.CanShow root v → s.room seen < fuel →
    ∃ l : Layout, s.textFrom fuel seen v = .ok (l.text, l.tables.foldl written seen) ∧
      l.Shows s v ∧ s.Spans root seen l.tables ∧
      ∀ id, v = .table id → id ∈ l.tables.foldl written seen

/-- With so much fuel, all lists of entries are shown. -/
def ShowsEntriesWith (s : Store) (root fuel : Nat) : Prop :=
  ∀ (seen : List Nat) (es : List (Value × Value)),
    (∀ e ∈ es, s.CanShow root e.1 ∧ s.CanShow root e.2) →
    (es ≠ [] → es.length + s.room seen < fuel) →
    ∃ ps : Pairs, s.pairTexts fuel seen es = .ok (ps.texts, ps.tables.foldl written seen) ∧
      ps.Show s es ∧ s.Spans root seen ps.tables ∧
      ∀ e ∈ es, ∀ id, e.1 = .table id ∨ e.2 = .table id → id ∈ ps.tables.foldl written seen

/-- A table that has been seen is marked. Any other one is seen from then on. -/
theorem showsWith_succ (hentries : s.HasTexts root)
    (h : s.ShowsEntriesWith root fuel) : s.ShowsWith root (fuel + 1) := by
  intro seen v hv hfuel
  cases v with
  | table id =>
    have hreach := hv.2 id rfl
    rw [textFrom]
    by_cases hseen : id ∈ seen
    · rw [if_pos (by simpa using hseen)]
      refine ⟨.marked id, rfl, rfl, ⟨⟨by simp [hseen], trivial⟩, ?_, ?_⟩, ?_⟩
      · exact forall_mem_singleton.mpr hreach
      · simp [Layout.tables]
      · exact fun _ hid => Value.table.inj hid ▸ hseen
    · rw [if_neg (by simpa using hseen)]
      have hes (e : Value × Value) (he : e ∈ (s.table id).entries) :
          s.CanShow root e.1 ∧ s.CanShow root e.2 :=
        ⟨⟨(hentries id hreach e he).1, fun j hj => hreach.tail ⟨e, he, .inl hj⟩⟩,
          (hentries id hreach e he).2, fun j hj => hreach.tail ⟨e, he, .inr hj⟩⟩
      have hroom (hne : (s.table id).entries ≠ []) :
          (s.table id).entries.length + s.room (id :: seen) < fuel := by
        have hid : id < s.tables.size := by
          by_contra hid
          simp [table, Array.getD, hid] at hne
        have := room_fresh hseen hid
        omega
      obtain ⟨ps, htexts, hshow, ⟨hfirst, hreached, hclosed⟩, hseen'⟩ := h (id :: seen) _ hes hroom
      refine ⟨.full id ps, ?_, ⟨rfl, hshow⟩,
        ⟨⟨by simp [hseen], hfirst⟩, ?_, fun i j hi hij => ?_⟩, ?_⟩
      · rw [htexts]
        rfl
      · exact forall_mem_cons.mpr ⟨hreach, hreached⟩
      · rcases mem_cons.mp hi with hi | hi
        · cases hi
          obtain ⟨e, he, hj⟩ := hij
          exact hseen' e he j hj
        · exact hclosed i j hi hij
      · rintro _ ⟨⟩
        exact mem_foldl_written.mpr (.inr (.head _))
  | _ =>
    obtain ⟨x, hx⟩ := hv.1
    refine ⟨.atom x, ?_, ⟨hx, nofun⟩, .nil s root seen, nofun⟩
    rw [textFrom, hx]
    · rfl
    · exact nofun

theorem showsEntriesWith_succ (h : s.ShowsWith root fuel) (hes : s.ShowsEntriesWith root fuel) :
    s.ShowsEntriesWith root (fuel + 1) := by
  intro seen es hshow hfuel
  cases es with
  | nil => exact ⟨.nil, rfl, rfl, .nil s root seen, forall_mem_nil _⟩
  | cons e es =>
    obtain ⟨he, hshow⟩ := forall_mem_cons.mp hshow
    have hfuel := hfuel (cons_ne_nil _ _)
    rw [length_cons] at hfuel
    obtain ⟨k, hkey, hk, hspans₁, hseen₁⟩ := h seen e.1 he.1 (by omega)
    have hroom₁ := s.room_written_le k.tables seen
    obtain ⟨v, hvalue, hv, hspans₂, hseen₂⟩ := h (k.tables.foldl written seen) e.2 he.2 (by omega)
    have hroom₂ := s.room_written_le v.tables (k.tables.foldl written seen)
    obtain ⟨ps, hrest, hps, hspans₃, hseen₃⟩ :=
      hes (v.tables.foldl written (k.tables.foldl written seen)) es hshow fun _ => by omega
    refine ⟨.cons k v ps, ?_, ⟨e, es, rfl, hk, hv, hps⟩, hspans₁.append (hspans₂.append hspans₃),
      forall_mem_cons.mpr ⟨fun id hid => ?_, fun e' he' id hid => ?_⟩⟩
    · simp only [pairTexts, hkey, hvalue, hrest, bind, Except.bind, Pairs.tables, foldl_append]
      rfl
    · rw [Pairs.tables, foldl_append, foldl_append]
      rcases hid with hid | hid
      · exact mem_foldl_written.mpr (.inl (mem_foldl_written.mpr (.inl (hseen₁ id hid))))
      · exact mem_foldl_written.mpr (.inl (hseen₂ id hid))
    · rw [Pairs.tables, foldl_append, foldl_append]
      exact hseen₃ e' he' id hid

theorem showsWith (hentries : s.HasTexts root) (fuel : Nat) :
    s.ShowsWith root fuel ∧ s.ShowsEntriesWith root fuel := by
  induction fuel with
  | zero =>
    refine ⟨fun _ _ _ h => absurd h (Nat.not_lt_zero _), fun seen es _ hfuel => ?_⟩
    cases es with
    | nil => exact ⟨.nil, rfl, rfl, .nil s root seen, forall_mem_nil _⟩
    | cons e es => exact absurd (hfuel (cons_ne_nil _ _)) (Nat.not_lt_zero _)
  | succ fuel ih => exact ⟨showsWith_succ hentries ih.2, showsEntriesWith_succ ih.1 ih.2⟩

end Store

/-- The text of a table is that of its one layout in which exactly the tables that come for the
first time are written out, with all their entries in order. It is found with all fuel from some
amount on. The tables that can be reached are written out once each, and there are no others. -/
theorem tables_are_written_out_once (hentries : s.HasTexts root) :
    ∃ l : Layout, (∀ l' : Layout, l'.Shows s (.table root) ∧ FullAtFirst [] l'.tables ↔ l' = l) ∧
      s.text (.table root) = .ok l.text ∧
      (∀ fuel ≥ s.textFuel, ∃ seen, s.textFrom fuel [] (.table root) = .ok (l.text, seen)) ∧
      ∀ id, (ReflTransGen s.Mentions root id → l.tables.count (id, true) = 1) ∧
        ((∃ full, (id, full) ∈ l.tables) → ReflTransGen s.Mentions root id) := by
  have hroot : s.CanShow root (.table root) :=
    ⟨⟨_, rfl⟩, fun id hid => Value.table.inj hid ▸ .refl⟩
  have hfound (fuel : Nat) (hfuel : s.textFuel ≤ fuel) :=
    (s.showsWith hentries fuel).1 [] _ hroot (Nat.lt_of_lt_of_le s.room_nil_lt hfuel)
  obtain ⟨l, htext, hshows, ⟨hfirst, hreached, hclosed⟩, hseen⟩ := hfound _ (Nat.le_refl _)
  have hunique (l' : Layout) (hshows' : l'.Shows s (.table root))
      (hfirst' : FullAtFirst [] l'.tables) : l' = l :=
    hshows'.unique hshows hfirst' hfirst
  refine ⟨l, fun l' => ⟨fun h => hunique l' h.1 h.2, ?_⟩, ?_, fun fuel hfuel => ?_,
    fun id => ⟨fun hid => ?_, ?_⟩⟩
  · rintro rfl
    exact ⟨hshows, hfirst⟩
  · rw [Store.text, htext]
    rfl
  · obtain ⟨l', htext', hshows', hspans', -⟩ := hfound fuel hfuel
    cases hunique l' hshows' hspans'.first
    exact ⟨_, htext'⟩
  · have hfull : (id, true) ∈ l.tables := by
      refine (mem_foldl_written.mp ?_).resolve_left not_mem_nil
      induction hid with
      | refl => exact hseen root rfl
      | tail _ hij ih =>
        exact hclosed _ _ ((mem_foldl_written.mp ih).resolve_left not_mem_nil) hij
    exact (hfirst.count_eq_one hfull).2
  · rintro ⟨full, hid⟩
    exact hreached _ hid

/-- Two tables that lead to each other, the first one also to itself, with an entry that was set to
`nil`. -/
def entangledStore : Store :=
  { tables := #[{ entries := [(.int 1, .table 0), (.int 2, .table 1), (.int 3, .table 1)] },
      { entries := [(.bool true, .table 0), (.int 4, .nil)] }] }

theorem entangled_tables_are_written_out :
    ∃ l : Layout, (l.Shows entangledStore (.table 0) ∧ FullAtFirst [] l.tables) ∧
      entangledStore.text (.table 0) = .ok l.text ∧ l.text =
        "\x7b(1)=(\x7b<...>\x7d), (2)=(\x7b(true)=(\x7b<...>\x7d), (4)=(nil)\x7d), (3)=(\x7b<...>\x7d)\x7d" := by
  have hentries : entangledStore.HasTexts 0 := by
    intro id _ e he
    obtain rfl | rfl | hid : id = 0 ∨ id = 1 ∨ 2 ≤ id := by omega
    · simp [entangledStore, Store.table] at he
      rcases he with rfl | rfl | rfl <;> exact ⟨⟨_, rfl⟩, _, rfl⟩
    · simp [entangledStore, Store.table] at he
      rcases he with rfl | rfl <;> exact ⟨⟨_, rfl⟩, _, rfl⟩
    · simp [entangledStore, Store.table, Array.getD, Nat.not_lt.mpr hid] at he
  obtain ⟨l, hl, htext, -⟩ := tables_are_written_out_once hentries
  refine ⟨l, (hl l).mpr rfl, htext, ?_⟩
  exact Except.ok.inj (htext.symm.trans (by decide +kernel))

end LuaInterpreter
