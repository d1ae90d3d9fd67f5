import Mathlib.Data.List.Chain
import LuaInterpreter.Proofs.Chart.Preference
import LuaInterpreter.Proofs.Expression.Formula

/-!
# Spelled formulas

What the terminals of the grammar can read in a text that consists of tokens between single blanks.
-/

namespace LuaInterpreter

open Scan List Exponent

/-! ## Scanning -/

theorem Scan.spanLength_eq (p : Char → Bool) (cs : List Char) :
    spanLength p cs = (cs.takeWhile p).length := by
  induction cs with
  | nil => rfl
  | cons c cs ih => by_cases hc : p c <;> simp [spanLength, ih, hc]

variable {p : Char → Bool} {cs : List Char} {c : Char} {t : Terminal} {n : Nat} (x : Exponent)

theorem Scan.of_mem_take_spanLength (h : c ∈ cs.take (spanLength p cs)) : p c = true := by
  induction cs with
  | nil => cases h
  | cons d cs ih =>
    rw [spanLength] at h
    split at h
    · next hd =>
      rcases mem_cons.mp h with rfl | h
      · exact hd
      · exact ih h
    · cases h

theorem Scan.spanLength_append {p : Char → Bool} {cs rest : List Char} (hcs : ∀ c ∈ cs, p c = true)
    (hrest : ∀ c ∈ rest.head?, p c = false) : spanLength p (cs ++ rest) = cs.length := by
  induction cs with
  | nil =>
    cases rest with
    | nil => rfl
    | cons c rest => simp [spanLength, hrest c rfl]
  | cons c cs ih =>
    rw [cons_append, spanLength, if_pos (hcs c (.head _)), ih fun c hc => hcs c (.tail _ hc),
      length_cons]

/-- Whether what the terminal reads can begin with the character. -/
def Terminal.admits (t : Terminal) (c : Char) : Bool :=
  match t with
  | .word w => w.toList.head?.all (· == c)
  | .either a b => c == a || c == b
  | .name => isNameStart c
  | .quoted => c == '"' || c == '\'' || c == '['
  | .digits => c.isDigit
  | .hexDigits => isHexDigit c

theorem Terminal.admits_of_read? (h : t.read? (c :: cs) = some n) : t.admits c = true := by
  cases t with
  | word w =>
    obtain ⟨-, rest, hrest⟩ := read?_word h
    cases hw : w.toList with
    | nil => simp [admits, hw]
    | cons d ds =>
      rw [hw, cons_append] at hrest
      simp [admits, hw, (List.cons.inj hrest).1]
  | either a b =>
    simp only [read?] at h
    split at h
    · next hc => simpa [admits] using hc
    · cases h
  | name =>
    simp only [read?] at h
    split at h
    · next hc => exact (Bool.and_eq_true_iff.mp hc).1
    · cases h
  | quoted =>
    simp only [read?] at h
    split at h
    iterate 3 next heq => cases heq; rfl
    cases h
  | digits =>
    simp only [read?, read?.positive, spanLength] at h
    cases hc : c.isDigit with
    | true => exact hc
    | false => simp [hc] at h
  | hexDigits =>
    simp only [read?, read?.positive, spanLength] at h
    cases hc : isHexDigit c with
    | true => exact hc
    | false => simp [hc] at h

/-! ## Plain texts -/

/-- What may stand next to each other: neither two blanks nor the beginning of a comment. -/
def Adjacent (a b : Char) : Prop := ¬(a = ' ' ∧ b = ' ') ∧ ¬(a = '-' ∧ b = '-')

instance : DecidableRel Adjacent := fun _ _ => inferInstanceAs (Decidable (_ ∧ _))

def isTokenChar (c : Char) : Bool := !isBlank c && c != '"' && c != '\'' && c != '['

/-- Without quotes, comments and longer blanks. -/
structure Plain (cs : List Char) : Prop where
  char : ∀ c ∈ cs, c = ' ' ∨ isTokenChar c = true
  adjacent : cs.IsChain Adjacent

theorem isBlank_of_isTokenChar (h : isTokenChar c = true) : isBlank c = false := by
  simp only [isTokenChar, Bool.and_eq_true, Bool.not_eq_true'] at h
  exact h.1.1.1

namespace Plain

variable {cs text : List Char} {c : Char}

theorem drop (h : Plain cs) (n : Nat) : Plain (cs.drop n) :=
  ⟨fun c hc => h.char c (mem_of_mem_drop hc), h.adjacent.drop n⟩

theorem eq_space (h : Plain (c :: cs)) (hc : isBlank c = true) : c = ' ' := by
  rcases h.char c (.head _) with hc' | hc'
  · exact hc'
  · rw [isBlank_of_isTokenChar hc'] at hc
    cases hc

theorem not_space_twice (h : Plain (' ' :: cs)) : ∀ c ∈ cs.head?, isBlank c = false := by
  intro c hc
  have hadjacent := (isChain_cons.mp h.adjacent).1 c hc
  have hchar := h.char c (.tail _ (mem_of_head? hc))
  rcases hchar with rfl | hchar
  · exact absurd ⟨rfl, rfl⟩ hadjacent.1
  · exact isBlank_of_isTokenChar hchar

theorem skips_of_not_blank (h : Plain cs) (hc : ∀ c ∈ cs.head?, isBlank c = false) :
    skips cs = [] := by
  have hblanks : spanLength isBlank cs = 0 := @spanLength_append isBlank [] cs nofun hc
  simp only [skips, hblanks, ↓reduceIte, nil_append]
  split
  · have hadjacent := (isChain_cons.mp h.adjacent).1 '-' rfl
    exact absurd ⟨rfl, rfl⟩ hadjacent.2
  · rfl

theorem skips_space (h : Plain (' ' :: cs)) : skips (' ' :: cs) = [1] := by
  have hblanks : spanLength isBlank (' ' :: cs) = 1 :=
    @spanLength_append isBlank [' '] cs (by simp [isBlank]) h.not_space_twice
  simp [skips, hblanks]

end Plain

/-- Whether no character that the terminal reads is a blank. -/
def Terminal.isDense : Terminal → Bool
  | .word w => w.toList.all fun c => !isBlank c
  | .either a b => !isBlank a && !isBlank b
  | _ => true

theorem Production.isDense (r : Production) :
    r.symbols.all (fun symbol => match symbol with
      | .terminal t => t.isDense
      | .category _ => true) = true := by
  cases r <;> decide

theorem Terminal.InGrammar.isDense (h : t.InGrammar) : t.isDense = true := by
  obtain ⟨r, hr⟩ := h
  exact all_eq_true.mp r.isDense _ hr

theorem isBlank_of_class (hp : [' ', '\t', '\x0c', '\r', '\n'].any p = false) (h : p c = true) :
    isBlank c = false := by
  rw [Bool.eq_false_iff]
  intro hblank
  simp only [isBlank, Bool.or_eq_true, beq_iff_eq, or_assoc] at hblank
  refine absurd (any_eq_true.mpr ⟨c, ?_, h⟩) (Bool.eq_false_iff.mp hp)
  simpa using hblank

theorem isNameChar_of_isNameStart (h : isNameStart c = true) : isNameChar c = true := by
  simp only [isNameStart, isNameChar, Char.isAlphanum, Bool.or_eq_true] at h ⊢
  exact h.imp_left .inl

/-- Whether the character can be among what the terminal reads. -/
def Terminal.holds (t : Terminal) (c : Char) : Bool :=
  match t with
  | .word w => w.toList.contains c
  | .either a b => c == a || c == b
  | .name => isNameChar c
  | .quoted => true
  | .digits => c.isDigit
  | .hexDigits => isHexDigit c

theorem Terminal.holds_of_read? (h : t.read? cs = some n) (hc : c ∈ cs.take n) :
    t.holds c = true := by
  cases t with
  | word w =>
    obtain ⟨rfl, rest, rfl⟩ := read?_word h
    rw [← String.length_toList, take_left] at hc
    exact contains_iff_mem.mpr hc
  | either a b =>
    cases cs with
    | nil => cases h
    | cons d cs =>
      simp only [read?] at h
      split at h <;> cases h
      obtain rfl := mem_singleton.mp hc
      simpa [holds]
  | name =>
    cases cs with
    | nil => cases h
    | cons d cs =>
      simp only [read?] at h
      split at h <;> cases h
      next hd =>
      rcases mem_cons.mp hc with rfl | hc
      · exact isNameChar_of_isNameStart (Bool.and_eq_true_iff.mp hd).1
      · exact of_mem_take_spanLength hc
  | quoted => rfl
  | digits | hexDigits =>
    simp only [read?, read?.positive] at h
    split at h <;> cases h
    exact of_mem_take_spanLength hc

theorem Terminal.InGrammar.not_blank (ht : t.InGrammar) (hcs : Plain cs)
    (hread : t.read? cs = some n) (hc : c ∈ cs.take n) : isBlank c = false := by
  have hdense := ht.isDense
  have hholds := holds_of_read? hread hc
  cases t with
  | word w => simpa using all_eq_true.mp hdense c (contains_iff_mem.mp hholds)
  | either a b =>
    simp only [Terminal.isDense, Bool.and_eq_true, Bool.not_eq_true'] at hdense
    simp only [holds, Bool.or_eq_true, beq_iff_eq] at hholds
    rcases hholds with rfl | rfl
    · exact hdense.1
    · exact hdense.2
  | quoted =>
    cases cs with
    | nil => cases hread
    | cons d cs =>
      have hd := hcs.char d (.head _)
      simp only [read?] at hread
      split at hread
      iterate 3 next heq => cases heq; exact absurd hd (by decide)
      cases hread
  | _ => exact isBlank_of_class (by decide) hholds

theorem Terminal.InGrammar.read?_pos (ht : t.InGrammar) (hread : t.read? cs = some n) : 0 < n := by
  obtain ⟨r, hr⟩ := ht
  exact Terminal.read?_pos (fun hword => r.word_ne_empty (hword ▸ hr)) hread

theorem Terminal.InGrammar.ne_nil (ht : t.InGrammar) (hread : t.read? cs = some n) : cs ≠ [] := by
  rintro rfl
  cases t with
  | word w =>
    obtain ⟨hn, rest, hnil⟩ := read?_word hread
    have hw : w.toList = [] := (append_eq_nil_iff.mp hnil.symm).1
    have hpos := ht.read?_pos hread
    rw [hn, ← String.length_toList, hw] at hpos
    cases hpos
  | _ => cases hread

theorem Plain.spaced {text : List Char} (htext : Plain text) : Spaced text where
  skip := by
    intro p n hn
    cases hcs : text.drop p with
    | nil =>
      rw [hcs] at hn
      cases hn
    | cons c cs =>
      have hplain := htext.drop p
      rw [hcs] at hplain hn
      by_cases hc : isBlank c = true
      · obtain rfl := hplain.eq_space hc
        rw [hplain.skips_space] at hn
        have hdrop : text.drop (p + 1) = cs := drop_add_one_eq_tail_drop.trans (hcs ▸ rfl)
        refine ⟨mem_singleton.mp hn, ?_⟩
        exact (htext.drop (p + 1)).skips_of_not_blank (hdrop ▸ hplain.not_space_twice)
      · rw [hplain.skips_of_not_blank (by simpa using hc)] at hn
        cases hn
  read_first := by
    intro t ht p n hread
    refine (htext.drop p).skips_of_not_blank fun c hc => ht.not_blank (htext.drop p) hread ?_
    have hpos := ht.read?_pos hread
    obtain ⟨cs, hcs⟩ := List.head?_eq_some_iff.mp hc
    rw [hcs]
    obtain ⟨m, rfl⟩ := Nat.exists_eq_succ_of_ne_zero (Nat.ne_of_gt hpos)
    exact mem_cons_self
  read_last := by
    intro t ht p q n hread hq
    refine (htext.drop q).skips_of_not_blank fun c hc => ht.not_blank (htext.drop p) hread ?_
    have hpos := ht.read?_pos hread
    rw [List.head?_drop] at hc
    refine @mem_of_getElem? _ _ (q - p) _ ?_
    rw [List.getElem?_take_of_lt (by omega), List.getElem?_drop, Nat.add_sub_cancel' (by omega)]
    exact hc

/-! ## Tokens between single blanks -/

/-- A character of a class that has neither blanks nor marks is no blank and no mark. -/
theorem isTokenChar_of_class {p : Char → Bool} {c : Char}
    (hp : [' ', '\t', '\x0c', '\r', '\n', '"', '\'', '[', '-'].any p = false) (h : p c = true) :
    isTokenChar c = true ∧ c ≠ '-' := by
  have hne : ∀ d ∈ [' ', '\t', '\x0c', '\r', '\n', '"', '\'', '[', '-'], c ≠ d := by
    rintro d hd rfl
    exact Bool.eq_false_iff.mp hp (any_eq_true.mpr ⟨c, hd, h⟩)
  simp [isTokenChar, isBlank, hne]

theorem ne_space_of_isTokenChar (h : isTokenChar c = true) : c ≠ ' ' := by
  rintro rfl
  cases h

/-- Characters other than blanks and dashes may stand before anything. -/
theorem adjacent_append {xs ys : List Char} (hxs : ∀ c ∈ xs, isTokenChar c = true ∧ c ≠ '-')
    (hys : ys.IsChain Adjacent) : (xs ++ ys).IsChain Adjacent := by
  induction xs with
  | nil => exact hys
  | cons c xs ih =>
    obtain ⟨hc, hdash⟩ := hxs c (.head _)
    refine isChain_cons.mpr ⟨fun d _ => ?_, ih fun c hc => hxs c (.tail _ hc)⟩
    exact ⟨fun h => ne_space_of_isTokenChar hc h.1, fun h => hdash h.1⟩

theorem Digits.plain (ds : Digits) : ∀ c ∈ ds.chars, isTokenChar c = true ∧ c ≠ '-' :=
  fun c hc => isTokenChar_of_class (by decide) (ds.isDigit c hc)

theorem Identifier.plain (x : Identifier) : ∀ c ∈ x.chars, isTokenChar c = true ∧ c ≠ '-' := by
  intro c hc
  rcases mem_cons.mp hc with rfl | hc
  · exact isTokenChar_of_class (by decide) x.isNameStart
  · exact isTokenChar_of_class (by decide) (x.isNameChar c hc)

theorem Exponent.mark_plain : isTokenChar x.mark = true ∧ x.mark ≠ '-' := by
  unfold mark
  split <;> decide

theorem Exponent.adjacent : (x.signChars ++ x.digits.chars).IsChain Adjacent := by
  have hdigits : x.digits.chars.IsChain Adjacent := by
    rw [← append_nil x.digits.chars]
    exact adjacent_append x.digits.plain .nil
  cases hsign : x.sign with
  | none => rwa [signChars, hsign]
  | some s =>
    rw [signChars, hsign]
    refine isChain_cons.mpr ⟨fun c hc => ?_, hdigits⟩
    have hc := x.digits.plain c (mem_of_head? hc)
    exact ⟨fun h => ne_space_of_isTokenChar hc.1 h.2, fun h => hc.2 h.2⟩

namespace DecimalNumeral

variable (n : DecimalNumeral)

theorem fraction_plain : ∀ c ∈ n.fractionChars, isTokenChar c = true ∧ c ≠ '-' := by
  unfold fractionChars
  split
  · exact nofun
  · next f _ =>
    intro c hc
    rcases mem_cons.mp hc with rfl | hc
    · decide
    · exact f.plain c hc

theorem exponent_isTokenChar : ∀ c ∈ n.exponentChars, isTokenChar c = true := by
  unfold exponentChars
  split
  · exact nofun
  · next x _ =>
    intro c hc
    simp only [mem_cons, mem_append, signChars, mem_map] at hc
    rcases hc with rfl | ⟨s, -, rfl⟩ | hc
    · exact x.mark_plain.1
    · cases s <;> decide
    · exact (x.digits.plain c hc).1

theorem exponent_adjacent : n.exponentChars.IsChain Adjacent := by
  unfold exponentChars
  split
  · exact .nil
  · next x _ => exact adjacent_append (fun c hc => mem_singleton.mp hc ▸ x.mark_plain) x.adjacent

theorem isTokenChar_of_mem : ∀ c ∈ n.chars, isTokenChar c = true := by
  intro c hc
  simp only [chars, mem_append] at hc
  rcases hc with hc | hc | hc
  · exact (n.whole.plain c hc).1
  · exact (n.fraction_plain c hc).1
  · exact n.exponent_isTokenChar c hc

theorem adjacent : n.chars.IsChain Adjacent :=
  adjacent_append n.whole.plain (adjacent_append n.fraction_plain n.exponent_adjacent)

end DecimalNumeral

namespace Formula

def trail (ts : List Token) : List Char := ts.flatMap fun t => ' ' :: t.chars

@[simp] theorem trail_nil : trail [] = [] := rfl

theorem trail_cons (t : Token) (ts : List Token) : trail (t :: ts) = ' ' :: (t.chars ++ trail ts) :=
  rfl

theorem spell_cons (t : Token) (ts : List Token) : spell (t :: ts) = t.chars ++ trail ts := by
  induction ts generalizing t with
  | nil => simp [spell, List.intercalate]
  | cons u ts ih =>
    have hrest := ih u
    rw [trail_cons, ← hrest]
    simp [spell, List.intercalate]

/-! ### Their characters -/

theorem Token.isTokenChar (t : Token) : ∀ c ∈ t.chars, isTokenChar c = true := by
  intro c hc
  refine all_eq_true.mp ?_ c hc
  rcases t with ⟨_ | _ | _ | n | x⟩ | _ | _ | op | op
  any_goals decide
  · exact all_eq_true.mpr n.isTokenChar_of_mem
  · exact all_eq_true.mpr fun c hc => (x.plain c hc).1
  · cases op <;> decide
  · cases op <;> decide

theorem Token.adjacent (t : Token) : t.chars.IsChain Adjacent := by
  rcases t with ⟨_ | _ | _ | n | x⟩ | _ | _ | op | op
  any_goals decide
  · exact n.adjacent
  · rw [← append_nil (Token.atom (.name x)).chars]
    exact adjacent_append x.plain .nil
  · cases op <;> decide
  · cases op <;> decide

theorem Token.chars_ne_nil (t : Token) : t.chars ≠ [] := by
  rcases t with ⟨_ | _ | _ | n | x⟩ | _ | _ | op | op
  any_goals exact cons_ne_nil _ _
  · exact fun h => n.whole.ne_nil (append_eq_nil_iff.mp h).1
  · cases op <;> decide
  · cases op <;> decide

theorem Token.plain_append {cs : List Char} (t : Token) (hcs : Plain cs)
    (hhead : ∀ c ∈ cs.head?, c = ' ') : Plain (t.chars ++ cs) where
  char := by
    intro c hc
    rcases mem_append.mp hc with hc | hc
    · exact .inr (t.isTokenChar c hc)
    · exact hcs.char c hc
  adjacent := by
    refine t.adjacent.append hcs.adjacent fun a ha b hb => ?_
    obtain rfl := hhead b hb
    exact ⟨fun h => ne_space_of_isTokenChar (t.isTokenChar a (mem_of_getLast? ha)) h.1, nofun⟩

theorem plain_trail (ts : List Token) : Plain (trail ts) ∧ ∀ c ∈ (trail ts).head?, c = ' ' := by
  induction ts with
  | nil => exact ⟨⟨nofun, .nil⟩, nofun⟩
  | cons t ts ih =>
    have hplain := t.plain_append ih.1 ih.2
    rw [trail_cons]
    refine ⟨⟨?_, ?_⟩, fun c hc => (Option.some.inj hc).symm⟩
    · intro c hc
      rcases mem_cons.mp hc with rfl | hc
      · exact .inl rfl
      · exact hplain.char c hc
    · refine isChain_cons.mpr ⟨fun c hc => ⟨fun h => ?_, nofun⟩, hplain.adjacent⟩
      obtain ⟨d, cs, hcs⟩ := exists_cons_of_ne_nil t.chars_ne_nil
      rw [hcs, cons_append] at hc
      obtain rfl := Option.some.inj hc
      exact ne_space_of_isTokenChar (t.isTokenChar d (hcs ▸ .head _)) h.2

theorem plain_spell (ts : List Token) : Plain (spell ts) := by
  cases ts with
  | nil => exact ⟨nofun, .nil⟩
  | cons t ts =>
    rw [spell_cons]
    exact t.plain_append (plain_trail ts).1 (plain_trail ts).2

theorem trail_append (ts us : List Token) : trail (ts ++ us) = trail ts ++ trail us :=
  flatMap_append

/-! ## Positions between tokens -/

variable {text : List Char} {p q k n : Nat} {t : Token} {ts us mid mid' : List Token}

/-- The tokens that follow a position, with or without the blank before them. -/
def At (text : List Char) (p : Nat) (ts : List Token) : Prop :=
  text.drop p = spell ts ∨ text.drop p = trail ts

/-- The tokens that follow the end of a token. -/
structure After (text : List Char) (p : Nat) (ts : List Token) : Prop where
  drop_eq : text.drop p = trail ts
  le : p ≤ text.length

theorem After.at (h : After text p ts) : At text p ts := .inr h.drop_eq

theorem After.eq (h : After text p ts) (h' : After text q ts) : p = q := by
  have hlength := congrArg List.length (h.drop_eq.trans h'.drop_eq.symm)
  rw [length_drop, length_drop] at hlength
  have hp := h.le
  have hq := h'.le
  omega

theorem drop_past {cs rest : List Char} (h : text.drop k = cs ++ rest) (hcs : cs ≠ []) :
    text.drop (k + cs.length) = rest ∧ k + cs.length ≤ text.length := by
  constructor
  · rw [← drop_drop, h, drop_left]
  · have hlength := congrArg List.length h
    have hpos := length_pos_of_ne_nil hcs
    rw [length_drop, length_append] at hlength
    omega

theorem After.of_append {cs : List Char} (h : text.drop k = cs ++ trail ts) (hcs : cs ≠ []) :
    After text (k + cs.length) ts :=
  ⟨(drop_past h hcs).1, (drop_past h hcs).2⟩

theorem After.of_drop (h : text.drop k = t.chars ++ trail ts) :
    After text (k + t.chars.length) ts :=
  .of_append h t.chars_ne_nil

/-- What is read up to a position is determined by the position. -/
theorem After.split (h : After text p ts) (h' : After text p us) (heq : mid ++ ts = mid' ++ us) :
    mid = mid' ∧ ts = us := by
  have htrail : trail ts = trail us := h.drop_eq.symm.trans h'.drop_eq
  have hnil {vs ws : List Token} (h : trail (vs ++ ws) = trail ws) : vs = [] := by
    rw [trail_append, append_left_eq_self] at h
    cases vs with
    | nil => rfl
    | cons v vs => cases h
  rcases append_eq_append_iff.mp heq with ⟨cs, rfl, rfl⟩ | ⟨cs, rfl, rfl⟩
  · obtain rfl := hnil htrail
    exact ⟨(append_nil mid).symm, rfl⟩
  · obtain rfl := hnil htrail.symm
    exact ⟨append_nil mid', rfl⟩

variable (htext : Plain text)
include htext

theorem At.exists_gap (h : At text p (t :: ts)) :
    ∃ k, Gap text p k ∧ text.drop k = t.chars ++ trail ts := by
  rcases h with h | h
  · exact ⟨p, .refl p, h.trans (spell_cons t ts)⟩
  · rw [trail_cons] at h
    have hskips := (h ▸ htext.drop p).skips_space
    rw [← h] at hskips
    refine ⟨p + 1, (Gap.refl p).step (hskips ▸ mem_singleton_self 1), ?_⟩
    rw [drop_add_one_eq_tail_drop, h, tail_cons]

theorem skips_of_drop (h : text.drop k = t.chars ++ trail ts) : skips (text.drop k) = [] := by
  refine (htext.drop k).skips_of_not_blank fun c hc => ?_
  obtain ⟨d, cs, hcs⟩ := exists_cons_of_ne_nil t.chars_ne_nil
  rw [h, hcs, cons_append] at hc
  obtain rfl := Option.some.inj hc
  exact isBlank_of_isTokenChar (t.isTokenChar d (hcs ▸ .head _))

theorem At.of_gap (h : At text p ts) (hgap : Gap text p k) : At text k ts := by
  rcases htext.spaced.gap_cases hgap with rfl | ⟨rfl, hskip⟩
  · exact h
  · cases ts with
    | nil =>
      have hnil : text.drop p = [] := h.elim id id
      rw [hnil] at hskip
      cases hskip
    | cons t ts =>
      rcases h with h | h
      · rw [skips_of_drop htext (h.trans (spell_cons t ts))] at hskip
        cases hskip
      · refine .inl ?_
        rw [drop_add_one_eq_tail_drop, h, trail_cons, tail_cons, spell_cons]

theorem At.read {x : Terminal} (h : At text p ts) (hgap : Gap text p k) (hx : x.InGrammar)
    (hread : x.read? (text.drop k) = some n) :
    ∃ t us, ts = t :: us ∧ text.drop k = t.chars ++ trail us := by
  have hat := h.of_gap htext hgap
  cases ts with
  | nil =>
    have hnil : text.drop k = [] := hat.elim id id
    exact absurd hnil (hx.ne_nil hread)
  | cons t ts =>
    refine ⟨t, ts, rfl, ?_⟩
    rcases hat with hat | hat
    · exact hat.trans (spell_cons t ts)
    · have hskips := htext.spaced.read_first x hx k n hread
      rw [trail_cons] at hat
      have hspace := (hat ▸ htext.drop k).skips_space
      rw [← hat, hskips] at hspace
      cases hspace

end Formula

end LuaInterpreter
