import LuaInterpreter.Syntax.Chart

/-!
# Derivations

What the grammar can read, said without a chart. A derivation leads from one position of a text to
another; text may be skipped before each terminal. The weight of a derivation counts its names.
-/

namespace LuaInterpreter

open List Option Nat

variable {text : List Char}

/-! ## Skipped text -/

/-- All text from one position to another can be skipped. -/
inductive Gap (text : List Char) : Nat → Nat → Prop
  | refl (p : Nat) : Gap text p p
  | step {p q n : Nat} : Gap text p q → n ∈ skips (text.drop q) → Gap text p (q + n)

variable {p q : Nat} {cs : List Char} {n : Nat} {t : Terminal} {symbols : List Symbol} {w : Int}
  (r : Production)

theorem Gap.le (h : Gap text p q) : p ≤ q := by
  induction h with
  | refl => exact Nat.le_refl _
  | step _ _ ih => omega

theorem Gap.trans {r : Nat} (h : Gap text p q) (h' : Gap text q r) : Gap text p r := by
  induction h' with
  | refl => exact h
  | step _ hn ih => exact ih.step hn

theorem skips_pos (h : n ∈ skips cs) : 0 < n := by
  rcases mem_append.mp h with hblank | hcomment
  · split at hblank
    · cases hblank
    · next hne => exact mem_singleton.mp hblank ▸ Nat.pos_of_ne_zero hne
  · split at hcomment
    · rcases mem_append.mp hcomment with hshort | hlong
      · split at hshort
        · exact mem_singleton.mp hshort ▸ succ_pos _
        · cases hshort
      · obtain ⟨m, -, rfl⟩ := map_eq_some_iff.mp (mem_toList.mp hlong)
        exact succ_pos _
    · cases hcomment

/-! ## Terminals -/

theorem Scan.after?_eq_some_iff {pre rest : List Char} :
    after? pre cs = some rest ↔ cs = pre ++ rest := by
  induction pre generalizing cs with
  | nil => simp [after?, eq_comm]
  | cons p pre ih =>
    cases cs with
    | nil => simp [after?]
    | cons c cs => by_cases hc : p = c <;> simp [after?, ih, hc, eq_comm]

theorem Terminal.read?_word {w : String} (h : (Terminal.word w).read? cs = some n) :
    n = w.length ∧ ∃ rest, cs = w.toList ++ rest := by
  obtain ⟨rest, hafter, rfl⟩ := map_eq_some_iff.mp h
  exact ⟨rfl, rest, Scan.after?_eq_some_iff.mp hafter⟩

theorem Terminal.read?_pos (ht : t ≠ .word "") (h : t.read? cs = some n) : 0 < n := by
  cases t with
  | word w =>
    obtain ⟨_, -, rfl⟩ := map_eq_some_iff.mp h
    have hw : w ≠ "" := fun hw => ht (hw ▸ rfl)
    exact Nat.pos_of_ne_zero fun hlength => hw (String.length_eq_zero_iff.mp hlength)
  | either | name =>
    simp only [read?] at h
    split at h
    · split at h
      · exact Option.some.inj h ▸ succ_pos _
      · cases h
    · cases h
  | quoted =>
    simp only [read?] at h
    split at h
    iterate 2
      obtain ⟨_, -, rfl⟩ := map_eq_some_iff.mp h
      exact succ_pos _
    · simp only [Scan.longBracketLength] at h
      split at h
      · obtain ⟨_, -, rfl⟩ := map_eq_some_iff.mp h
        omega
      · cases h
    · cases h
  | digits | hexDigits =>
    simp only [read?, read?.positive] at h
    split at h
    · cases h
    · next hne => exact Option.some.inj h ▸ Nat.pos_of_ne_zero hne

theorem Terminal.weight_nonpos (t : Terminal) : t.weight ≤ 0 := by
  cases t with
  | name => decide
  | _ => exact Int.le_refl 0

theorem Terminal.neg_le_weight (h : t.read? cs = some n) : -(n : Int) ≤ t.weight := by
  cases t with
  | name =>
    have hpos : 0 < n := read?_pos (by decide) h
    show -(n : Int) ≤ -1
    omega
  | _ =>
    show -(n : Int) ≤ 0
    omega

theorem Production.word_ne_empty : .terminal (.word "") ∉ r.symbols := by
  cases r <;> decide

theorem Production.read?_pos {r : Production} {d : Nat}
    (hsymbol : r.symbols[d]? = some (.terminal t)) (hread : t.read? cs = some n) : 0 < n := by
  refine Terminal.read?_pos ?_ hread
  rintro rfl
  exact r.word_ne_empty (mem_of_getElem? hsymbol)

/-! ## Derivations -/

/-- The symbols can be read from one position to another, with a weight. -/
inductive Derives (text : List Char) : List Symbol → Nat → Nat → Int → Prop
  | nil (p : Nat) : Derives text [] p p 0
  | terminal {t : Terminal} {symbols : List Symbol} {p k n q : Nat} {w : Int} :
      Gap text p k → t.read? (text.drop k) = some n → Derives text symbols (k + n) q w →
      Derives text (.terminal t :: symbols) p q (t.weight + w)
  | category {r : Production} {symbols : List Symbol} {p m q : Nat} {v w : Int} :
      Derives text r.symbols p m v → Derives text symbols m q w →
      Derives text (.category r.category :: symbols) p q (v + w)

namespace Derives

variable {symbols more : List Symbol} {p m q k : Nat} {v w : Int}

variable (h : Derives text symbols p q w)
include h

theorem le : p ≤ q := by
  induction h with
  | nil => exact Nat.le_refl _
  | terminal hgap _ _ ih => exact Nat.le_trans hgap.le (Nat.le_trans (Nat.le_add_right _ _) ih)
  | category _ _ ih ih' => exact Nat.le_trans ih ih'

theorem weight_nonpos : w ≤ 0 := by
  induction h with
  | nil => exact Int.le_refl 0
  | @terminal t _ _ _ _ _ _ _ _ _ ih =>
    have ht := t.weight_nonpos
    omega
  | category _ _ ih ih' => omega

theorem neg_le_weight : -((q : Int) - p) ≤ w := by
  induction h with
  | nil => omega
  | terminal hgap hread hrest ih =>
    have hweight := Terminal.neg_le_weight hread
    have hle := hgap.le
    omega
  | category _ _ ih ih' => omega

omit h in
theorem append (h : Derives text symbols p m v) (h' : Derives text more m q w) :
    Derives text (symbols ++ more) p q (v + w) := by
  induction h with
  | nil => rwa [nil_append, Int.zero_add]
  | terminal hgap hread _ ih =>
    rw [cons_append, Int.add_assoc]
    exact .terminal hgap hread (ih h')
  | category hr _ _ ih =>
    rw [cons_append, Int.add_assoc]
    exact .category hr (ih h')

omit h in
/-- Text that is skipped before a derivation belongs to its first terminal, or comes after it if it
has none. -/
theorem absorb (hgap : Gap text k p) (h : Derives text symbols p q w) :
    ∃ m, Derives text symbols k m w ∧ Gap text m q := by
  induction h generalizing k with
  | nil => exact ⟨k, .nil k, hgap⟩
  | terminal hgap' hread hrest => exact ⟨_, .terminal (hgap.trans hgap') hread hrest, .refl _⟩
  | category _ _ ih ih' =>
    obtain ⟨_, hr, hgap'⟩ := ih hgap
    obtain ⟨_, hrest, hgap''⟩ := ih' hgap'
    exact ⟨_, .category hr hrest, hgap''⟩

theorem concat_terminal {t : Terminal} {n : Nat} (hgap : Gap text q k)
    (hread : t.read? (text.drop k) = some n) :
    Derives text (symbols ++ [.terminal t]) p (k + n) (w + t.weight) := by
  have hlast : Derives text [.terminal t] q (k + n) (t.weight + 0) :=
    .terminal hgap hread (.nil _)
  rw [Int.add_zero] at hlast
  exact h.append hlast

theorem concat_category {r : Production} (hgap : Gap text q k) (hr : Derives text r.symbols k m v) :
    ∃ m', Derives text (symbols ++ [.category r.category]) p m' (w + v) ∧ Gap text m' m := by
  obtain ⟨m', hr', hgap'⟩ := hr.absorb hgap
  have hlast : Derives text [.category r.category] q m' (v + 0) := .category hr' (.nil _)
  rw [Int.add_zero] at hlast
  exact ⟨m', h.append hlast, hgap'⟩

end Derives

/-! ## Specifications -/

/-- The symbols are read one after the other, where `Q` says what reading a category may do. -/
def Steps (text : List Char) (Q : Category → Nat → Nat → Int → Prop) :
    List Symbol → Nat → Nat → Int → Prop
  | [], p, q, w => q = p ∧ w = 0
  | .terminal t :: symbols, p, q, w => ∃ k n v, Gap text p k ∧ t.read? (text.drop k) = some n ∧
      Steps text Q symbols (k + n) q v ∧ w = t.weight + v
  | .category c :: symbols, p, q, w => ∃ m u v, Q c p m u ∧ Steps text Q symbols m q v ∧ w = u + v

variable {Q : Category → Nat → Nat → Int → Prop}

theorem Derives.steps
    (hQ : ∀ (r : Production) p q w, Steps text Q r.symbols p q w → Q r.category p q w)
    (h : Derives text symbols p q w) : Steps text Q symbols p q w := by
  induction h with
  | nil => exact ⟨rfl, rfl⟩
  | terminal hgap hread _ ih => exact ⟨_, _, _, hgap, hread, ih, rfl⟩
  | category _ _ ih ih' => exact ⟨_, _, _, hQ _ _ _ _ ih, ih', rfl⟩

theorem Steps.of_append {xs ys : List Symbol} {p q : Nat} {w : Int}
    (h : Steps text Q (xs ++ ys) p q w) :
    ∃ m u v, Steps text Q xs p m u ∧ Steps text Q ys m q v ∧ w = u + v := by
  induction xs generalizing p w with
  | nil => exact ⟨p, 0, w, ⟨rfl, rfl⟩, h, (Int.zero_add w).symm⟩
  | cons symbol xs ih =>
    cases symbol with
    | terminal t =>
      obtain ⟨k, n, v, hgap, hread, hsteps, rfl⟩ := h
      obtain ⟨m, u, v', hxs, hys, rfl⟩ := ih hsteps
      exact ⟨m, t.weight + u, v', ⟨k, n, u, hgap, hread, hxs, rfl⟩, hys, (Int.add_assoc _ _ _).symm⟩
    | category c =>
      obtain ⟨m', u', v, hc, hsteps, rfl⟩ := h
      obtain ⟨m, u, v', hxs, hys, rfl⟩ := ih hsteps
      exact ⟨m, u' + u, v', ⟨m', u', u, hc, hxs, rfl⟩, hys, (Int.add_assoc _ _ _).symm⟩

/-! ## Categories that always read something -/

/-- Whether every reading of the category has a terminal. -/
def Category.consumes : Category → Bool
  | .chunk | .block | .attrib => false
  | _ => true

def Symbol.consumes : Symbol → Bool
  | .terminal _ => true
  | .category c => c.consumes

theorem Production.any_consumes (h : r.category.consumes = true) :
    r.symbols.any Symbol.consumes = true := by
  revert h
  cases r <;> decide

theorem Steps.lt_of_consumes (hwords : .terminal (.word "") ∉ symbols)
    (h : Steps text (fun c p q _ => p ≤ q ∧ (c.consumes = true → p < q)) symbols p q w) :
    p ≤ q ∧ (symbols.any Symbol.consumes = true → p < q) := by
  induction symbols generalizing p w with
  | nil =>
    obtain ⟨rfl, -⟩ := h
    exact ⟨Nat.le_refl _, nofun⟩
  | cons symbol symbols ih =>
    have hwords' : .terminal (.word "") ∉ symbols := fun hmem => hwords (.tail _ hmem)
    cases symbol with
    | terminal t =>
      obtain ⟨k, n, v, hgap, hread, hsteps, -⟩ := h
      have ht : t ≠ .word "" := fun ht => hwords (ht ▸ mem_cons_self)
      have hpos := Terminal.read?_pos ht hread
      have hle := (ih hwords' hsteps).1
      have hgap := hgap.le
      exact ⟨by omega, fun _ => by omega⟩
    | category c =>
      obtain ⟨m, u, v, ⟨hle, hlt⟩, hsteps, -⟩ := h
      obtain ⟨hle', hlt'⟩ := ih hwords' hsteps
      refine ⟨Nat.le_trans hle hle', fun hany => ?_⟩
      rcases Bool.or_eq_true _ _ ▸ any_cons ▸ hany with hc | hany
      · exact Nat.lt_of_lt_of_le (hlt hc) hle'
      · exact Nat.lt_of_le_of_lt hle (hlt' hany)

theorem Derives.lt_of_any (hwords : .terminal (.word "") ∉ symbols) (h : Derives text symbols p q w)
    (hany : symbols.any Symbol.consumes = true) : p < q := by
  refine (Steps.lt_of_consumes hwords (h.steps fun r p q w hsteps => ?_)).2 hany
  have hlt := hsteps.lt_of_consumes r.word_ne_empty
  exact ⟨hlt.1, fun hr => hlt.2 (r.any_consumes hr)⟩

theorem Derives.lt_of_consumes {r : Production} (hr : r.category.consumes = true)
    (h : Derives text r.symbols p q w) : p < q :=
  h.lt_of_any r.word_ne_empty (r.any_consumes hr)

end LuaInterpreter
