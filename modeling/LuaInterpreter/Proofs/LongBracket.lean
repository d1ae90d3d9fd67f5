import LuaInterpreter.Proofs.QuotedLiteral
import LuaInterpreter.Proofs.Utf8

/-!
# Literals in long brackets

Between long brackets all characters stand for themselves. Only line ends are read in their own way:
one directly after the opening bracket counts for nothing, and the others, however they are written,
are line feeds. Several line ends in a row give one line feed only, so that blank lines are lost.
-/

namespace LuaInterpreter.Literal

open Run List Option Scan Bytes

open Evaluator (withFuel)

/-! ## One token -/

def opening (level : Nat) : List Char := '[' :: List.replicate level '=' ++ ['[']

def closing (level : Nat) : List Char := ']' :: List.replicate level '=' ++ [']']

def longBracket (level : Nat) (text : List Char) : List Char :=
  opening level ++ text ++ closing level

/-- The text does not have the closing bracket in it, and its end is not the beginning of one that
the closing bracket would complete. -/
structure Fits (level : Nat) (text : List Char) : Prop where
  inside : ¬ closing level <:+: text
  atEnd : ¬ ']' :: List.replicate level '=' <:+ text

section

variable {level : Nat} {close text : List Char}

theorem lengthThrough_self (hne : close ≠ []) (rest : List Char) :
    lengthThrough close (close ++ rest) = some close.length := by
  have hafter : after? close (close ++ rest) = some rest := after?_eq_some_iff.mpr rfl
  cases close with
  | nil => exact absurd rfl hne
  | cons c cs => rw [cons_append, lengthThrough, ← cons_append, hafter]

theorem lengthThrough_le (hne : close ≠ []) (before rest : List Char) :
    ∃ n, lengthThrough close (before ++ (close ++ rest)) = some n ∧
      n ≤ before.length + close.length := by
  induction before with
  | nil => exact ⟨_, lengthThrough_self hne rest, Nat.le_add_left _ _⟩
  | cons c before ih =>
    obtain ⟨n, hn, hle⟩ := ih
    rw [cons_append, lengthThrough, hn, length_cons]
    split
    · exact ⟨_, rfl, Nat.le_add_left _ _⟩
    · exact ⟨n + 1, rfl, by omega⟩

/-- A bracket that does not occur earlier, not even in part, is found. -/
theorem lengthThrough_append (hne : close ≠ []) (rest : List Char)
    (h : ¬ close <:+: text ++ close.dropLast) :
    lengthThrough close (text ++ (close ++ rest)) = some (text.length + close.length) := by
  induction text with
  | nil => rw [nil_append, length_nil, Nat.zero_add, lengthThrough_self hne]
  | cons c text ih =>
    have hnone : after? close (c :: (text ++ (close ++ rest))) = none := by
      refine Option.eq_none_iff_forall_ne_some.mpr fun after hafter => h ?_
      have hfront : close <+: c :: (text ++ (close ++ rest)) :=
        ⟨after, (after?_eq_some_iff.mp hafter).symm⟩
      have hshort : c :: text ++ close.dropLast <+: c :: (text ++ (close ++ rest)) := by
        obtain ⟨last, hlast⟩ := dropLast_prefix close
        refine ⟨last ++ rest, ?_⟩
        rw [append_assoc, ← append_assoc close.dropLast, hlast]
        rfl
      refine (prefix_of_prefix_length_le hfront hshort ?_).isInfix
      rw [length_append, length_cons, length_dropLast]
      omega
    have htext : ¬ close <:+: text ++ close.dropLast := fun hoccurs => h (infix_cons hoccurs)
    rw [cons_append, lengthThrough, hnone, ih htext, length_cons]
    simp only [map_some, Option.some.injEq]
    omega

/-- An early occurrence of the closing bracket lies in the text, or takes the first character of the
closing bracket as its last. -/
theorem fits_iff : Fits level text ↔ ¬ closing level <:+: text ++ (closing level).dropLast := by
  rw [show (closing level).dropLast = ']' :: List.replicate level '=' from dropLast_concat]
  constructor
  · rintro ⟨hinside, hend⟩ ⟨before, after, heq⟩
    have hclosing : closing level = (']' :: List.replicate level '=') ++ [']'] := rfl
    rcases append_eq_append_iff.mp heq with ⟨common, htext, hafter⟩ | ⟨common, hbracket, htail⟩
    · exact hinside ⟨before, common, htext.symm⟩
    · cases common with
      | nil =>
        rw [append_nil] at hbracket
        exact hinside ⟨before, [], by rw [hbracket, append_nil]⟩
      | cons c common =>
        obtain ⟨rfl, hequals⟩ := List.cons.inj htail
        rcases eq_nil_or_concat' common with rfl | ⟨common, last, rfl⟩
        · rw [hclosing, ← append_assoc] at hbracket
          exact hend ⟨before, (append_inj_left' hbracket rfl)⟩
        · have hlast : last = ']' := by
            rw [hclosing, ← append_assoc, ← cons_append, ← append_assoc] at hbracket
            exact (List.cons.inj (append_inj_right' hbracket rfl)).1.symm
          have hmem : last ∈ List.replicate level '=' := by simp [hequals]
          rw [hlast] at hmem
          exact absurd (eq_of_mem_replicate hmem) (by decide)
  · intro h
    constructor
    · exact fun hoccurs => h (hoccurs.trans (prefix_append _ _).isInfix)
    · rintro ⟨before, rfl⟩
      exact h ⟨before, List.replicate level '=', by simp [closing]⟩

theorem longBracketLength_append (level : Nat) (body : List Char) :
    longBracketLength (opening level ++ body) =
      (lengthThrough (closing level) body).map (· + level + 2) := by
  have hlevel : spanLength (· == '=') (List.replicate level '=' ++ '[' :: body) = level := by
    rw [spanLength_append, length_replicate]
    · intro c hc
      rw [eq_of_mem_replicate hc]
      rfl
    · rintro c ⟨⟩
      rfl
  have hopening : opening level ++ body = '[' :: (List.replicate level '=' ++ '[' :: body) := by
    simp [opening]
  have hbody : (List.replicate level '=' ++ '[' :: body).drop level = '[' :: body :=
    drop_left' length_replicate
  rw [hopening, longBracketLength, hlevel, hbody]
  rfl

theorem read?_longBracket_iff :
    (∀ rest, Terminal.quoted.read? (longBracket level text ++ rest) =
        some (longBracket level text).length) ↔ Fits level text := by
  have hread (rest : List Char) : Terminal.quoted.read? (longBracket level text ++ rest) =
      (lengthThrough (closing level) (text ++ (closing level ++ rest))).map (· + level + 2) := by
    rw [← longBracketLength_append, ← append_assoc, ← append_assoc]
    rfl
  have hlength : (longBracket level text).length =
      text.length + (closing level).length + level + 2 := by
    simp [longBracket, opening, closing]
    omega
  have hne : closing level ≠ [] := cons_ne_nil _ _
  rw [fits_iff]
  constructor
  · rintro h ⟨before, after, heq⟩
    -- An occurrence that ends before the last character would have been found first.
    obtain ⟨last, hlast⟩ := dropLast_prefix (closing level)
    have hearly : text ++ (closing level ++ []) = before ++ (closing level ++ (after ++ last)) := by
      rw [append_nil, ← hlast, ← append_assoc, hlast, ← heq]
      simp only [append_assoc]
    obtain ⟨n, hn, hle⟩ := lengthThrough_le hne before (after ++ last)
    have hfound := h []
    rw [hread, hearly, hn, hlength, map_some, Option.some.injEq] at hfound
    have hshort := congrArg List.length heq
    simp only [length_append, length_dropLast] at hshort
    have hpos := length_pos_of_ne_nil hne
    omega
  · intro h rest
    rw [hread, lengthThrough_append hne rest h, hlength]
    rfl

theorem value_longBracket (level : Nat) (text : List Char) :
    value (String.ofList (longBracket level text)) = .ok (joinLines text false true) := by
  have htext : longBracket level text =
      '[' :: (List.replicate level '=' ++ '[' :: (text ++ closing level)) := by
    simp [longBracket, opening]
  have hlevel : ((longBracket level text).drop 1).takeWhile (· == '=') =
      List.replicate level '=' := by
    rw [htext, drop_one, tail_cons, takeWhile_append_of_pos]
    · simp
    · intro c hc
      rw [eq_of_mem_replicate hc]
      rfl
  have hopening : (opening level).length = level + 2 := by simp [opening]
  have hclosing : (closing level).length = level + 2 := by simp [closing]
  have hlength : (longBracket level text).length = level + 2 + text.length + (level + 2) := by
    rw [longBracket, length_append, length_append, hopening, hclosing]
  have hbody : ((longBracket level text).drop (level + 2)).take
      ((longBracket level text).length - 2 * (level + 2)) = text := by
    have hdrop : (longBracket level text).drop (level + 2) = text ++ closing level := by
      rw [longBracket, append_assoc]
      exact drop_left' hopening
    rw [hdrop, hlength]
    exact take_left' (by omega)
  have hvalue : value (String.ofList (longBracket level text)) =
      bracketed (longBracket level text) := by
    rw [value, String.toList_ofList, htext]
    rfl
  rw [hvalue, bracketed, hlevel, length_replicate, if_neg (by omega)]
  simp only [hbody]

end

/-! ## Line ends -/

/-- A text with its line ends written as line feeds. A carriage return and a line feed are one line
end if they follow each other, in either order. -/
def unified : List Char → List Char
  | [] => []
  | [c] => [if c = '\r' then '\n' else c]
  | c :: d :: cs =>
    if c = '\r' ∧ d = '\n' ∨ c = '\n' ∧ d = '\r' then '\n' :: unified cs
    else (if c = '\r' then '\n' else c) :: unified (d :: cs)

/-- What the text between the brackets is meant to be: a line end at its front does not count. -/
def meant (text : List Char) : List Char :=
  if (unified text).head? = some '\n' then (unified text).tail else unified text

/-- A text without its empty lines. What follows the last line feed stays, empty or not. -/
def withoutBlankLines (text : List Char) : List Char :=
  let lines := text.splitOn '\n'
  ['\n'].intercalate (lines.dropLast.filter (· ≠ []) ++ lines.getLast?.toList)

section

variable {c d : Char} {text cs : List Char}

theorem splitOn_newline (text : List Char) :
    ('\n' :: text).splitOn '\n' = [] :: text.splitOn '\n' := by
  rw [splitOn_cons_eq_if_modifyHead, if_pos (beq_self_eq_true _)]

theorem splitOn_cons (hc : c ≠ '\n') (text : List Char) :
    (c :: text).splitOn '\n' = (text.splitOn '\n').modifyHead (c :: ·) := by
  rw [splitOn_cons_eq_if_modifyHead, if_neg (by simpa using hc)]

theorem withoutBlankLines_newline (text : List Char) :
    withoutBlankLines ('\n' :: text) = withoutBlankLines text := by
  obtain ⟨line, lines, hlines⟩ := exists_cons_of_ne_nil (splitOn_ne_nil '\n' text)
  simp [withoutBlankLines, splitOn_newline, hlines]

theorem withoutBlankLines_singleton (hc : c ≠ '\n') : withoutBlankLines [c] = [c] := by
  simp [withoutBlankLines, splitOn_cons hc]

theorem withoutBlankLines_cons_newline (hc : c ≠ '\n') (text : List Char) :
    withoutBlankLines (c :: '\n' :: text) = c :: '\n' :: withoutBlankLines text := by
  obtain ⟨line, lines, hlines⟩ := exists_cons_of_ne_nil (splitOn_ne_nil '\n' text)
  simp [withoutBlankLines, splitOn_cons hc, splitOn_newline, hlines,
    intercalate_cons_of_ne_nil]

theorem withoutBlankLines_cons_cons (hc : c ≠ '\n') (hd : d ≠ '\n') (text : List Char) :
    withoutBlankLines (c :: d :: text) = c :: withoutBlankLines (d :: text) := by
  obtain ⟨line, lines, hlines⟩ := exists_cons_of_ne_nil (splitOn_ne_nil '\n' text)
  cases lines with
  | nil | cons next lines => simp [withoutBlankLines, splitOn_cons hc, splitOn_cons hd, hlines]

theorem not_mem_of_mem_splitOn {line : List Char} (h : line ∈ text.splitOn '\n') : '\n' ∉ line := by
  induction text generalizing line with
  | nil =>
    obtain rfl := mem_singleton.mp h
    exact not_mem_nil
  | cons c text ih =>
    by_cases hc : c = '\n'
    · rw [hc, splitOn_newline] at h
      rcases mem_cons.mp h with rfl | h
      · exact not_mem_nil
      · exact ih h
    · obtain ⟨first, lines, hlines⟩ := exists_cons_of_ne_nil (splitOn_ne_nil '\n' text)
      rw [splitOn_cons hc, hlines, modifyHead_cons] at h
      rw [hlines] at ih
      rcases mem_cons.mp h with rfl | h
      · exact not_mem_cons_of_ne_of_not_mem (.symm hc) (ih (.head _))
      · exact ih (.tail _ h)

/-- Nothing is lost of a text whose lines are not empty, the last one apart. -/
theorem withoutBlankLines_eq_self_iff :
    withoutBlankLines text = text ↔ ∀ line ∈ (text.splitOn '\n').dropLast, line ≠ [] := by
  have hnewline : ∀ line ∈ text.splitOn '\n', '\n' ∉ line := fun _ => not_mem_of_mem_splitOn
  have htext : _ = text := intercalate_splitOn '\n'
  obtain ⟨init, last, hlines⟩ :=
    (eq_nil_or_concat' (text.splitOn '\n')).resolve_left (splitOn_ne_nil '\n' text)
  rw [hlines] at hnewline htext
  have hkept : init.filter (· ≠ []) = init ↔ ∀ line ∈ init, line ≠ [] := by
    rw [filter_eq_self]
    simp only [decide_eq_true_eq]
  simp only [withoutBlankLines, hlines, dropLast_concat, List.getLast?_concat,
    toList_some]
  rw [← hkept]
  constructor
  · intro h
    -- The lines that are left are the lines of the text.
    have hmem : ∀ line ∈ init.filter (· ≠ []) ++ [last], '\n' ∉ line := fun line hline =>
      hnewline line ((filter_sublist.append_right [last]).subset hline)
    have hsplit := splitOn_intercalate '\n' hmem (by simp)
    rw [h, hlines] at hsplit
    exact (append_cancel_right hsplit).symm
  · intro h
    rw [h, htext]

/-! ## What is read -/

theorem joinLines_char (hn : c ≠ '\n') (hr : c ≠ '\r') (cs : List Char) (i f : Bool) :
    joinLines (c :: cs) i f = String.utf8EncodeChar c ++ joinLines cs false false := by
  rw [joinLines, if_neg (not_or.mpr ⟨hn, hr⟩)]

theorem joinLines_lineEnd (hc : c = '\n' ∨ c = '\r') (cs : List Char) :
    joinLines (c :: cs) true false = joinLines cs true false ∧
      joinLines (c :: cs) false false = 10 :: joinLines cs true false := by
  constructor <;> rw [joinLines, if_pos hc] <;> rfl

/-- The front of a text is like the end of a line: a line end counts for nothing there. -/
theorem joinLines_front (cs : List Char) : joinLines cs false true = joinLines cs true false := by
  cases cs <;> rfl

/-- What is read for `cs` is `text` without its blank lines, at the start of a line and in the
middle of one. -/
structure ReadsAs (cs text : List Char) : Prop where
  atStart : joinLines cs true false = ofChars (withoutBlankLines text)
  within : ∀ c, c ≠ '\n' → String.utf8EncodeChar c ++ joinLines cs false false =
    ofChars (withoutBlankLines (c :: text))

namespace ReadsAs

theorem nil : ReadsAs [] [] where
  atStart := rfl
  within c hc := by rw [withoutBlankLines_singleton hc]; rfl

theorem char (hn : c ≠ '\n') (hr : c ≠ '\r') (h : ReadsAs cs text) :
    ReadsAs (c :: cs) (c :: text) where
  atStart := (joinLines_char hn hr cs true false).trans (h.within c hn)
  within d hd := by
    rw [joinLines_char hn hr, h.within c hn, withoutBlankLines_cons_cons hd hn]
    rfl

theorem lineEnd (hc : c = '\n' ∨ c = '\r') (h : ReadsAs cs text) :
    ReadsAs (c :: cs) ('\n' :: text) where
  atStart := by rw [(joinLines_lineEnd hc cs).1, h.atStart, withoutBlankLines_newline]
  within d hd := by
    rw [(joinLines_lineEnd hc cs).2, h.atStart, withoutBlankLines_cons_newline hd]
    rfl

theorem pair (hc : c = '\n' ∨ c = '\r') (hd : d = '\n' ∨ d = '\r') (h : ReadsAs cs text) :
    ReadsAs (c :: d :: cs) ('\n' :: text) where
  atStart := by
    rw [(joinLines_lineEnd hc _).1, (joinLines_lineEnd hd cs).1, h.atStart,
      withoutBlankLines_newline]
  within x hx := by
    rw [(joinLines_lineEnd hc _).2, (joinLines_lineEnd hd cs).1, h.atStart,
      withoutBlankLines_cons_newline hx]
    rfl

theorem cons (h : ReadsAs cs text) : ReadsAs (c :: cs) ((if c = '\r' then '\n' else c) :: text) := by
  by_cases hr : c = '\r'
  · rw [if_pos hr]
    exact h.lineEnd (.inr hr)
  · rw [if_neg hr]
    by_cases hn : c = '\n'
    · rw [hn]
      exact h.lineEnd (.inl rfl)
    · exact h.char hn hr

end ReadsAs

theorem readsAs_unified (cs : List Char) : ReadsAs cs (unified cs) := by
  fun_induction unified cs with
  | case1 => exact .nil
  | case2 c => exact ReadsAs.nil.cons
  | case3 c d cs hpair ih =>
    rcases hpair with ⟨hc, hd⟩ | ⟨hc, hd⟩
    · exact ih.pair (.inr hc) (.inl hd)
    · exact ih.pair (.inl hc) (.inr hd)
  | case4 c d cs _ ih => exact ih.cons

theorem joinLines_eq (text : List Char) :
    joinLines text false true = ofChars (withoutBlankLines (meant text)) := by
  rw [joinLines_front, (readsAs_unified text).atStart, meant]
  split
  · next h =>
    obtain ⟨cs, hcs⟩ : ∃ cs, unified text = '\n' :: cs := by
      cases hunified : unified text with
      | nil => rw [hunified] at h; cases h
      | cons c cs => rw [hunified] at h; cases h; exact ⟨cs, rfl⟩
    rw [hcs, withoutBlankLines_newline, tail_cons]
  · rfl

/-- A text without carriage returns has its line ends written as line feeds. -/
theorem unified_of_not_mem (h : '\r' ∉ text) : unified text = text := by
  fun_induction unified text with
  | case1 => rfl
  | case2 c =>
    have hc : c ≠ '\r' := fun hc => h (hc ▸ .head _)
    rw [if_neg hc]
  | case3 c d cs hpair _ =>
    rcases hpair with ⟨rfl, -⟩ | ⟨-, rfl⟩
    · exact absurd (.head _) h
    · exact absurd (.tail _ (.head _)) h
  | case4 c d cs _ ih =>
    have hc : c ≠ '\r' := fun hc => h (hc ▸ .head _)
    rw [if_neg hc, ih fun hmem => h (.tail _ hmem)]

theorem meant_eq_self (hreturn : '\r' ∉ text) (hfront : text.head? ≠ some '\n') :
    meant text = text := by
  rw [meant, unified_of_not_mem hreturn, if_neg hfront]

end

/-! ## Evaluation -/

/-- A literal in long brackets is one token wherever it stands, if and only if the text in it does
not close it early. It evaluates to the text that is meant without its blank lines, in a syntax tree
and as a text of its own, so that blank lines are lost. The text that is meant is the text itself if
there is no carriage return in it and no line feed at its front. -/
theorem long_brackets_lose_blank_lines (level : Nat) (text : List Char) (n scope : Nat) (s : Store) :
    ((∀ rest, Terminal.quoted.read? (longBracket level text ++ rest) =
        some (longBracket level text).length) ↔ Fits level text) ∧
    (Fits level text →
      (∀ place line, (withFuel (n + 1)).expr scope
          (.mk place (.string { text := String.ofList (longBracket level text), line })) s =
        .ok (.one (.str (Bytes.ofChars (withoutBlankLines (meant text))))) s) ∧
      Chunk.evaluate (withFuel (n + 1)) scope (String.ofList (longBracket level text)) s =
        .ok (.many [.one (.str (Bytes.ofChars (withoutBlankLines (meant text))))]) s) ∧
    (Bytes.ofChars (withoutBlankLines (meant text)) = Bytes.ofChars (meant text) ↔
      ∀ line ∈ ((meant text).splitOn '\n').dropLast, line ≠ []) ∧
    ('\r' ∉ text → text.head? ≠ some '\n' → meant text = text) := by
  have hvalue := value_longBracket level text
  rw [joinLines_eq] at hvalue
  refine ⟨read?_longBracket_iff, fun h => ⟨fun place line => ?_, ?_⟩, ?_, meant_eq_self⟩
  · exact expr_string n scope s place hvalue
  · have hread := read?_longBracket_iff.mpr h []
    rw [append_nil] at hread
    exact evaluate_of_value n scope s hread hvalue
  · rw [ofChars_injective.eq_iff]
    exact withoutBlankLines_eq_self_iff

/-- A line end at the front, a blank line, and a closing bracket of another level. -/
def spacedLines : List Char := ['\r', '\n', 'a', '\r', '\n', '\r', '\n', ']', ']', 'b']

theorem fits_spacedLines : Fits 1 spacedLines := by
  rw [fits_iff]
  decide

theorem spacedLines_evaluate :
    Fits 1 spacedLines ∧ meant spacedLines = ['a', '\n', '\n', ']', ']', 'b'] ∧
    Chunk.evaluate (withFuel 1) 0 (String.ofList (longBracket 1 spacedLines)) {} =
      .ok (.many [.one (.str (Bytes.ofChars ['a', '\n', ']', ']', 'b']))]) {} := by
  obtain ⟨-, hevaluate, -, -⟩ := long_brackets_lose_blank_lines 1 spacedLines 0 0 {}
  exact ⟨fits_spacedLines, by decide, (hevaluate fits_spacedLines).2⟩

end LuaInterpreter.Literal
