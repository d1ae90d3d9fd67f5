import Mathlib.Data.List.TakeWhile
import LuaInterpreter.Proofs.LongBracket

/-!
# Skipped text

Blanks and comments may stand between any two terminals. A gap of a text says so by positions; here
it is said of the characters themselves, without the text around them. The two agree where no blank
follows: blanks are skipped as far as they go.
-/

namespace LuaInterpreter

open Scan List Option

open Literal (Fits longBracket opening closing fits_iff)

variable {text cs rest : List Char} {p q n : Nat}

/-! ## Blanks and comments -/

/-- Blanks, comments to the end of a line, and comments in long brackets, in any order. -/
inductive Skippable : List Char → Prop
  | nil : Skippable []
  | blank {c : Char} {cs : List Char} : isBlank c = true → Skippable cs → Skippable (c :: cs)
  | line {comment cs : List Char} : '\n' ∉ comment → Skippable cs →
      Skippable ("--".toList ++ comment ++ '\n' :: cs)
  | bracket {level : Nat} {comment cs : List Char} : Fits level comment → Skippable cs →
      Skippable ("--".toList ++ longBracket level comment ++ cs)

namespace Skippable

theorem append (h : Skippable cs) (h' : Skippable rest) : Skippable (cs ++ rest) := by
  induction h with
  | nil => exact h'
  | blank hc _ ih => exact .blank hc ih
  | line hcomment _ ih =>
    rw [append_assoc, cons_append]
    exact .line hcomment ih
  | bracket hfits _ ih =>
    rw [append_assoc]
    exact .bracket hfits ih

theorem blanks (h : ∀ c ∈ cs, isBlank c = true) : Skippable cs := by
  induction cs with
  | nil => exact .nil
  | cons c cs ih => exact .blank (h c (.head _)) (ih fun d hd => h d (.tail _ hd))

theorem head (h : Skippable cs) : ∀ c ∈ cs.head?, isBlank c = true ∨ c = '-' := by
  intro c hc
  cases h with
  | nil => cases hc
  | blank hblank _ =>
    cases hc
    exact .inl hblank
  | line _ _ | bracket _ _ =>
    cases hc
    exact .inr rfl

theorem all_blank (h : Skippable cs) (hdashes : ¬ "--".toList <:+: cs) :
    ∀ c ∈ cs, isBlank c = true := by
  induction h with
  | nil => exact forall_mem_nil _
  | blank hc _ ih =>
    intro d hd
    rcases mem_cons.mp hd with rfl | hd
    · exact hc
    · exact ih (fun hinside => hdashes (infix_cons hinside)) d hd
  | line _ _ _ | bracket _ _ _ =>
    exact absurd (prefix_append _ _).isInfix hdashes

end Skippable

/-! ## What is skipped -/

theorem eq_append_of_lengthThrough {close : List Char} (hne : close ≠ [])
    (h : lengthThrough close cs = some n) :
    ∃ before rest, cs = before ++ (close ++ rest) ∧ n = before.length + close.length ∧
      ¬ close <:+: before ++ close.dropLast := by
  induction cs generalizing n with
  | nil =>
    rw [lengthThrough, if_neg hne] at h
    cases h
  | cons c cs ih =>
    rw [lengthThrough] at h
    split at h
    · next _ rest hafter =>
      have hfront : c :: cs = close ++ rest := after?_eq_some_iff.mp hafter
      refine ⟨[], rest, hfront, ?_, fun hinside => ?_⟩
      · rw [length_nil, Nat.zero_add]
        exact (Option.some.inj h).symm
      · have hle := hinside.length_le
        rw [nil_append, length_dropLast] at hle
        have hpos := length_pos_of_ne_nil hne
        omega
    · next hnone =>
      obtain ⟨m, hm, rfl⟩ := map_eq_some_iff.mp h
      obtain ⟨before, rest, rfl, rfl, hfirst⟩ := ih hm
      refine ⟨c :: before, rest, rfl, by rw [length_cons]; omega, fun hinside => ?_⟩
      rcases infix_cons_iff.mp hinside with hfront | hinside
      · obtain ⟨last, hlast⟩ := dropLast_prefix close
        obtain ⟨more, hmore⟩ := hfront
        have hfound : after? close (c :: (before ++ (close ++ rest))) =
            some (more ++ (last ++ rest)) := by
          rw [after?_eq_some_iff]
          calc c :: (before ++ (close ++ rest))
              = c :: (before ++ ((close.dropLast ++ last) ++ rest)) := by rw [hlast]
            _ = (c :: before.append close.dropLast) ++ (last ++ rest) := by simp
            _ = close ++ (more ++ (last ++ rest)) := by rw [← hmore, append_assoc]
        rw [hnone] at hfound
        cases hfound
      · exact hfirst hinside

theorem take_spanLength_eq (c : Char) (cs : List Char) :
    cs.take (spanLength (· == c) cs) = List.replicate (spanLength (· == c) cs) c := by
  refine eq_replicate_iff.mpr ⟨?_, fun d hd => ?_⟩
  · rw [length_take, Scan.spanLength_eq]
    exact Nat.min_eq_left (List.takeWhile_prefix _).length_le
  · exact beq_iff_eq.mp (Scan.of_mem_take_spanLength (p := (· == c)) hd)

theorem exists_longBracket (h : longBracketLength cs = some n) :
    ∃ level comment rest, Fits level comment ∧ cs = longBracket level comment ++ rest ∧
      n = (longBracket level comment).length := by
  unfold longBracketLength at h
  split at h
  · next cs =>
    dsimp only at h
    split at h
    · next body hbody =>
      obtain ⟨m, hm, rfl⟩ := map_eq_some_iff.mp h
      have hclosing : closing (spanLength (· == '=') cs) ≠ [] := cons_ne_nil _ _
      obtain ⟨comment, rest, rfl, rfl, hfits⟩ := eq_append_of_lengthThrough hclosing hm
      refine ⟨spanLength (· == '=') cs, comment, rest, fits_iff.mpr hfits, ?_, ?_⟩
      · have hcs := take_append_drop (spanLength (· == '=') cs) cs
        rw [take_spanLength_eq, hbody] at hcs
        nth_rewrite 1 [← hcs]
        simp [longBracket, opening, closing]
      · simp only [longBracket, opening, length_append, length_cons,
          length_replicate, length_nil]
        omega
    · cases h
  · cases h

theorem eq_append_of_spanLength_lt {class? : Char → Bool} (h : spanLength class? cs < cs.length) :
    ∃ run c rest, cs = run ++ c :: rest ∧ run.length = spanLength class? cs ∧
      (∀ d ∈ run, class? d = true) ∧ class? c = false := by
  have hsplit : cs.takeWhile class? ++ cs.dropWhile class? = cs := takeWhile_append_dropWhile
  cases hrest : cs.dropWhile class? with
  | nil =>
    rw [hrest, append_nil] at hsplit
    rw [Scan.spanLength_eq, hsplit] at h
    exact absurd h (Nat.lt_irrefl _)
  | cons c rest =>
    refine ⟨cs.takeWhile class?, c, rest, by rw [← hrest, hsplit], (Scan.spanLength_eq _ _).symm,
      fun d => mem_takeWhile_imp, ?_⟩
    have hhead := List.head?_dropWhile_not class? cs
    rw [hrest] at hhead
    simpa using hhead

theorem skippable_of_mem_skips (h : n ∈ skips cs) : Skippable (cs.take n) := by
  rcases mem_append.mp h with hblank | hcomment
  · split at hblank
    · cases hblank
    · obtain rfl := mem_singleton.mp hblank
      exact .blanks fun c => Scan.of_mem_take_spanLength
  · split at hcomment
    · next rest =>
      rcases mem_append.mp hcomment with hshort | hlong
      · split at hshort
        · next hlt =>
          obtain rfl := mem_singleton.mp hshort
          obtain ⟨comment, c, rest, hrest, hlength, hcomment, hc⟩ := eq_append_of_spanLength_lt hlt
          obtain rfl : c = '\n' := by simpa using hc
          have hend : '\n' ∉ comment := fun hmem => absurd (hcomment _ hmem) (by decide)
          rw [← hlength, hrest]
          have htake : ('-' :: '-' :: (comment ++ '\n' :: rest)).take (comment.length + 3) =
              "--".toList ++ comment ++ ['\n'] := by
            show '-' :: '-' :: (comment ++ '\n' :: rest).take (comment.length + 1) = _
            rw [append_cons, take_left' (by simp)]
            rfl
          rw [htake]
          exact .line hend .nil
        · cases hshort
      · obtain ⟨m, hm, rfl⟩ := map_eq_some_iff.mp (mem_toList.mp hlong)
        obtain ⟨level, comment, rest, hfits, rfl, rfl⟩ := exists_longBracket hm
        have htake : ('-' :: '-' :: (longBracket level comment ++ rest)).take
            ((longBracket level comment).length + 2) =
              "--".toList ++ longBracket level comment ++ [] := by
          show '-' :: '-' :: (longBracket level comment ++ rest).take _ = _
          rw [take_left, append_nil]
          rfl
        rw [htake]
        exact .bracket hfits .nil
    · cases hcomment

theorem skippable_of_gap (h : Gap text p q) : Skippable ((text.drop p).take (q - p)) := by
  induction h with
  | refl =>
    rw [Nat.sub_self, take_zero]
    exact .nil
  | @step q n hgap hn ih =>
    have hle := hgap.le
    have hcut : (text.drop p).take (q + n - p) =
        (text.drop p).take (q - p) ++ (text.drop q).take n := by
      rw [show q + n - p = q - p + n by omega, take_add, drop_drop,
        show p + (q - p) = q by omega]
    rw [hcut]
    exact ih.append (skippable_of_mem_skips hn)

/-! ## Skipping -/

theorem Gap.cons (hn : n ∈ skips (text.drop p)) (h : Gap text (p + n) q) : Gap text p q :=
  (Gap.step (.refl p) hn).trans h

theorem Gap.eq_or_cons (h : Gap text p q) :
    p = q ∨ ∃ n ∈ skips (text.drop p), Gap text (p + n) q := by
  induction h with
  | refl => exact .inl rfl
  | step hgap hn ih =>
    rcases ih with rfl | ⟨m, hm, hgap'⟩
    · exact .inr ⟨_, hn, .refl _⟩
    · exact .inr ⟨m, hm, hgap'.step hn⟩

theorem mem_skips_of_isBlank {c : Char} (hc : isBlank c = true) (cs : List Char) :
    spanLength isBlank cs + 1 ∈ skips (c :: cs) := by
  refine mem_append_left _ ?_
  simp [spanLength, hc]

/-- Where something else than a run of blanks is skipped, no blank stands. -/
theorem eq_spanLength_of_mem_skips (h : n ∈ skips cs) :
    n = spanLength isBlank cs ∨ spanLength isBlank cs = 0 := by
  rcases mem_append.mp h with hblank | hcomment
  · split at hblank
    · cases hblank
    · exact .inl (mem_singleton.mp hblank)
  · split at hcomment
    · exact .inr rfl
    · cases hcomment

/-- A blank may stand before anything that is skipped: it is part of the first run of blanks. -/
theorem Gap.blank {c : Char} (hdrop : text.drop p = c :: cs) (hc : isBlank c = true)
    (h : Gap text (p + 1) q) (hend : ∀ d ∈ (text.drop q).head?, isBlank d = false) :
    Gap text p q := by
  have hcs : text.drop (p + 1) = cs := by
    rw [drop_add_one_eq_tail_drop, hdrop, tail_cons]
  have hskip := mem_skips_of_isBlank hc cs
  rw [← hdrop] at hskip
  have hrun : spanLength isBlank cs = 0 ∨ Gap text (p + (spanLength isBlank cs + 1)) q := by
    rcases h.eq_or_cons with rfl | ⟨n, hn, hgap⟩
    · rw [hcs] at hend
      exact .inl (@spanLength_append isBlank [] cs (forall_mem_nil _) hend)
    · rw [hcs] at hn
      rcases eq_spanLength_of_mem_skips hn with rfl | hnone
      · rw [Nat.add_comm (spanLength isBlank cs), ← Nat.add_assoc]
        exact .inr hgap
      · exact .inl hnone
  rcases hrun with hnone | hgap
  · rw [hnone] at hskip
    exact .cons hskip h
  · exact .cons hskip hgap

variable {comment : List Char}

theorem mem_skips_line (h : '\n' ∉ comment) (rest : List Char) :
    ("--".toList ++ comment ++ ['\n']).length ∈ skips ("--".toList ++ comment ++ ['\n'] ++ rest) := by
  have hspan : spanLength (· != '\n') (comment ++ ['\n'] ++ rest) = comment.length := by
    rw [append_assoc]
    refine spanLength_append (fun c hc => ?_) ?_
    · simpa using fun heq : c = '\n' => h (heq ▸ hc)
    · rintro c ⟨⟩
      rfl
  refine mem_append_right _ (mem_append_left _ ?_)
  show _ ∈ if spanLength (· != '\n') (comment ++ ['\n'] ++ rest) <
      (comment ++ ['\n'] ++ rest).length
    then [spanLength (· != '\n') (comment ++ ['\n'] ++ rest) + 3] else []
  rw [hspan, if_pos (by simp)]
  simp

theorem mem_skips_bracket {level : Nat} (h : Fits level comment) (rest : List Char) :
    ("--".toList ++ longBracket level comment).length ∈
      skips ("--".toList ++ longBracket level comment ++ rest) := by
  have hlength : longBracketLength (longBracket level comment ++ rest) =
      some (longBracket level comment).length := Literal.read?_longBracket_iff.mpr h rest
  refine mem_append_right _ (mem_append_right _ (mem_toList.mpr ?_))
  exact map_eq_some_iff.mpr ⟨_, hlength, rfl⟩

theorem Gap.append {skipped : List Char} (hdrop : text.drop p = skipped ++ (cs ++ rest))
    (hskip : skipped.length ∈ skips (skipped ++ (cs ++ rest)))
    (h : text.drop (p + skipped.length) = cs ++ rest →
      Gap text (p + skipped.length) (p + skipped.length + cs.length)) :
    Gap text p (p + (skipped ++ cs).length) := by
  rw [← hdrop] at hskip
  rw [length_append, ← Nat.add_assoc]
  exact .cons hskip (h (by rw [← drop_drop, hdrop, drop_left]))

/-- Blanks and comments are skipped, if no further blank follows. -/
theorem Skippable.gap (h : Skippable cs) (hdrop : text.drop p = cs ++ rest)
    (hrest : ∀ c ∈ rest.head?, isBlank c = false) : Gap text p (p + cs.length) := by
  induction h generalizing p with
  | nil => exact .refl p
  | @blank c cs hc _ ih =>
    have hnext : text.drop (p + 1) = cs ++ rest := by
      rw [drop_add_one_eq_tail_drop, hdrop]
      rfl
    have hend : text.drop (p + (c :: cs).length) = rest := by
      rw [← drop_drop, hdrop, drop_left]
    refine Gap.blank hdrop hc ?_ (hend ▸ hrest)
    rw [length_cons, Nat.add_comm cs.length, ← Nat.add_assoc]
    exact ih hnext
  | @line comment cs hcomment _ ih =>
    rw [append_cons _ '\n'] at hdrop ⊢
    rw [append_assoc _ cs] at hdrop
    exact .append hdrop (mem_skips_line hcomment _) ih
  | @bracket level comment cs hfits _ ih =>
    rw [append_assoc _ cs] at hdrop
    exact .append hdrop (mem_skips_bracket hfits _) ih

/-! ## Tokens -/

/-- The tokens stand in the text one after the other, with something before each of them, and after
the last, that is of no account. -/
inductive Rendered (between : List Char → Prop) : List (List Char) → List Char → Prop
  | nil {gap : List Char} : between gap → Rendered between [] gap
  | cons {gap token : List Char} {tokens : List (List Char)} {rest : List Char} :
      between gap → Rendered between tokens rest →
      Rendered between (token :: tokens) (gap ++ token ++ rest)

theorem Rendered.imp {between between' : List Char → Prop} {tokens : List (List Char)}
    (h : Rendered between tokens cs) (hgaps : ∀ gap, gap <:+: cs → between gap → between' gap) :
    Rendered between' tokens cs := by
  induction h with
  | nil hgap => exact .nil (hgaps _ infix_rfl hgap)
  | @cons gap token tokens rest hgap _ ih =>
    have hrest : rest <:+: gap ++ token ++ rest := (suffix_append _ _).isInfix
    have hfirst : gap <:+: gap ++ token ++ rest :=
      ((prefix_append gap token).trans (prefix_append _ _)).isInfix
    exact .cons (hgaps gap hfirst hgap) (ih fun gap hin => hgaps gap (hin.trans hrest))

end LuaInterpreter
