import LuaInterpreter.Eval.Call
import LuaInterpreter.Proofs.Expression.LoneToken
import LuaInterpreter.Proofs.Run

/-!
# Quoted literals

What stands between the quotes of a literal is a sequence of pieces: characters that stand for
themselves, and escapes. A literal evaluates to the bytes of its pieces, one after the other. There
is one exception: the byte of a decimal escape is written when its end has been seen, which is never
the case at the end of the literal.
-/

namespace LuaInterpreter.Literal

open Run List Scan Chunk

open Evaluator (withFuel)

/-! ## Pieces -/

inductive Quote where
  | single
  | double

def Quote.char : Quote → Char
  | .single => '\''
  | .double => '"'

/-- The digits in the order of their values, up to those of hexadecimal numbers. -/
def digits : List Char :=
  ['0', '1', '2', '3', '4', '5', '6', '7', '8', '9', 'a', 'b', 'c', 'd', 'e', 'f']

def whiteSpace : List Char := [' ', '\t', '\n', '\x0b', '\x0c', '\r']

/-- What the escapes of one letter or sign stand for. -/
def escapes : List (Char × UInt8) :=
  [('a', 7), ('b', 8), ('f', 12), ('n', 10), ('r', 13), ('t', 9), ('v', 11), ('\\', 92), ('"', 34),
    ('\'', 39)]

def numeral (base : Nat) (cs : List Char) : Nat :=
  cs.foldl (fun n c => base * n + digits.idxOf c.toLower) 0

/-- A part of what stands between quotes. -/
inductive Piece where
  | plain (c : Char)
  /-- A backslash and a letter or sign. -/
  | letter (c : Char)
  /-- A backslash, `x` and two digits. -/
  | hex (high low : Char)
  /-- A backslash and up to three digits. -/
  | decimal (ds : List Char)
  /-- A backslash, `z` and the white space that it takes away. -/
  | skip (blanks : List Char)

namespace Piece

def text : Piece → List Char
  | .plain c => [c]
  | .letter c => ['\\', c]
  | .hex high low => ['\\', 'x', high, low]
  | .decimal ds => '\\' :: ds
  | .skip blanks => '\\' :: 'z' :: blanks

/-- What the piece adds to the value of the literal. -/
def bytes : Piece → Bytes
  | .plain c => String.utf8EncodeChar c
  | .letter c => (escapes.lookup c).toList
  | .hex high low => [(numeral 16 [high, low]).toUInt8]
  | .decimal ds => [(numeral 10 ds).toUInt8]
  | .skip _ => []

/-- A piece that can stand between the quotes. -/
def IsValid (quote : Quote) : Piece → Prop
  | .plain c => c ≠ '\\' ∧ c ≠ quote.char
  | .letter c => (escapes.lookup c).isSome = true
  | .hex high low => ∀ c ∈ [high, low], c ∈ digits ∨ c ∈ digits.map Char.toUpper
  | .decimal ds => ds ≠ [] ∧ ds.length ≤ 3 ∧ (∀ c ∈ ds, c ∈ digits.take 10) ∧ numeral 10 ds ≤ 255
  | .skip blanks => ∀ c ∈ blanks, c ∈ whiteSpace

/-- What follows does not belong to the piece. -/
def StopsAt (rest : List Char) : Piece → Prop
  | .decimal ds => ds.length = 3 ∨ ∀ c ∈ rest.head?, c ∉ digits.take 10
  | .skip _ => ∀ c ∈ rest.head?, c ∉ whiteSpace
  | _ => True

def isDecimal : Piece → Bool
  | .decimal _ => true
  | _ => false

theorem text_ne_nil (p : Piece) : p.text ≠ [] := by
  cases p <;> nofun

end Piece

/-- Pieces that can stand one after the other between quotes: none belongs to the one before it. -/
structure WellFormed (quote : Quote) (ps : List Piece) : Prop where
  valid : ∀ p ∈ ps, p.IsValid quote
  adjacent : ps.IsChain fun p next => p.StopsAt next.text

def body (ps : List Piece) : List Char := ps.flatMap Piece.text

def literal (quote : Quote) (ps : List Piece) : List Char :=
  quote.char :: body ps ++ [quote.char]

/-! ## One token -/

section

variable {quote : Quote} {p : Piece} {ps : List Piece} {cs : List Char} {c : Char}

theorem quotedLength_cons (hbackslash : c ≠ '\\') (hquote : c ≠ quote.char) (rest : List Char) :
    quotedLength quote.char (c :: rest) =
      (quotedLength quote.char rest).map (· + 1) := by
  rw [quotedLength, if_neg hquote, if_neg hbackslash]
  exact fun _ _ hc _ => hbackslash hc

theorem quotedLength_append (h : ∀ c ∈ cs, c ≠ '\\' ∧ c ≠ quote.char) (rest : List Char) :
    quotedLength quote.char (cs ++ rest) =
      (quotedLength quote.char rest).map (· + cs.length) := by
  induction cs with
  | nil => simp
  | cons c cs ih =>
    obtain ⟨hbackslash, hquote⟩ := h c (.head _)
    rw [cons_append, quotedLength_cons hbackslash hquote, ih fun c hc => h c (.tail _ hc),
      Option.map_map]
    rfl

theorem quotedLength_escape (hc : c ≠ '\n') (h : ∀ c ∈ cs, c ≠ '\\' ∧ c ≠ quote.char)
    (rest : List Char) : quotedLength quote.char ('\\' :: c :: cs ++ rest) =
      (quotedLength quote.char rest).map (· + (cs.length + 2)) := by
  rw [cons_append, cons_append, quotedLength, if_neg hc, quotedLength_append h,
    Option.map_map]
  rfl

theorem ne_of_mem (quote : Quote)
    (hc : c ∈ digits ∨ c ∈ digits.map Char.toUpper ∨ c ∈ whiteSpace) :
    c ≠ '\\' ∧ c ≠ quote.char := by
  have hall : (digits ++ digits.map Char.toUpper ++ whiteSpace).all
      (fun c => c != '\\' && c != quote.char) = true := by
    cases quote <;> decide
  have hne := all_eq_true.mp hall c (by simpa [or_assoc] using hc)
  simpa using hne

theorem Piece.quotedLength_text (hp : p.IsValid quote) (rest : List Char) :
    quotedLength quote.char (p.text ++ rest) =
      (quotedLength quote.char rest).map (· + p.text.length) := by
  cases p with
  | plain c => exact quotedLength_cons hp.1 hp.2 rest
  | letter c =>
    have hnone : ∀ d ∈ ([] : List Char), d ≠ '\\' ∧ d ≠ quote.char :=
      fun _ hd => absurd hd not_mem_nil
    refine quotedLength_escape ?_ hnone rest
    rintro rfl
    cases hp
  | hex high low =>
    refine quotedLength_escape (by decide) (fun c hc => ?_) rest
    rcases hp c hc with hlower | hupper
    · exact ne_of_mem quote (.inl hlower)
    · exact ne_of_mem quote (.inr (.inl hupper))
  | decimal ds =>
    obtain ⟨hne, -, hdigits, -⟩ := hp
    obtain ⟨d, ds, rfl⟩ := exists_cons_of_ne_nil hne
    refine quotedLength_escape ?_ (fun c hc => ?_) rest
    · rintro rfl
      exact absurd (hdigits _ (.head _)) (by decide)
    · exact ne_of_mem quote (.inl (mem_of_mem_take (hdigits c (.tail _ hc))))
  | skip blanks =>
    exact quotedLength_escape (by decide) (fun c hc => ne_of_mem quote (.inr (.inr (hp c hc)))) rest

theorem quotedLength_body (h : ∀ p ∈ ps, p.IsValid quote) (rest : List Char) :
    quotedLength quote.char (body ps ++ rest) =
      (quotedLength quote.char rest).map (· + (body ps).length) := by
  induction ps with
  | nil => simp [body]
  | cons p ps ih =>
    have hbody : body (p :: ps) = p.text ++ body ps := rfl
    rw [hbody, append_assoc, Piece.quotedLength_text (h p (.head _)),
      ih fun p hp => h p (.tail _ hp), Option.map_map, length_append]
    congr 1
    funext n
    show n + _ + _ = n + (_ + _)
    omega

/-- A literal is read as one token up to its closing quote, whatever follows. -/
theorem read?_literal (h : ∀ p ∈ ps, p.IsValid quote) (rest : List Char) :
    Terminal.quoted.read? (literal quote ps ++ rest) = some (literal quote ps).length := by
  have hclose : quotedLength quote.char (quote.char :: rest) = some 1 := by
    cases quote <;> rfl
  have hbody : quotedLength quote.char (body ps ++ quote.char :: rest) =
      some (1 + (body ps).length) := by
    rw [quotedLength_body h, hclose, Option.map_some]
  have hlength : (literal quote ps).length = 1 + (body ps).length + 1 := by
    rw [literal, length_append, length_cons, length_singleton]
    omega
  have htext : literal quote ps ++ rest = quote.char :: (body ps ++ quote.char :: rest) := by
    simp [literal]
  rw [htext, hlength]
  cases quote <;> exact congrArg (Option.map (· + 1)) hbody

end

/-! ## Decoding -/

namespace Piece

/-- What a piece leaves open: whether it goes on with the next character. -/
def mode : Piece → Mode
  | .decimal ds => .decimal ds
  | .skip _ => .blanks
  | _ => .plain

/-- What a piece adds at once. -/
def early : Piece → Bytes
  | .decimal _ => []
  | p => p.bytes

/-- What a piece adds when something else follows. -/
def late : Piece → Bytes
  | .decimal ds => bytes (.decimal ds)
  | _ => []

theorem early_append_late (p : Piece) : p.early ++ p.late = p.bytes := by
  cases p with
  | decimal ds => rfl
  | _ => exact append_nil _

end Piece

section

variable {quote : Quote} {mode mode' : Mode} {before : Bytes} {c : Char} {p : Piece}
  {ps : List Piece}

theorem isDigit_iff : c.isDigit = true ↔ c ∈ digits.take 10 := by
  simp only [digits, take_succ_cons, take_zero, mem_cons, not_mem_nil, or_false,
    ← Char.toNat_inj, Char.isDigit, Bool.and_eq_true, decide_eq_true_eq, UInt32.le_iff_toNat_le,
    ge_iff_le]
  simp
  omega

theorem isBlank_iff : isBlank c = true ↔ c ∈ whiteSpace := by
  simp only [whiteSpace, isBlank, mem_cons, not_mem_nil, or_false, ← Char.toNat_inj,
    Bool.or_eq_true, beq_iff_eq, Bool.and_eq_true, decide_eq_true_eq, Char.le_def,
    UInt32.le_iff_toNat_le]
  simp
  omega

theorem continue?_backslash (mode : Mode) : mode.continue? '\\' = none := by
  cases mode <;> rfl

section

variable (hfinish : finish mode = .ok before)
include hfinish

theorem decode_char (h : mode.continue? c = none) (hc : c ≠ '\\') (cs : List Char) :
    decode mode (c :: cs) = (decode .plain cs).map (before ++ String.utf8EncodeChar c ++ ·) := by
  rw [decode, h, hfinish]
  simp only [bind, Except.bind, ne_eq, hc, not_false_eq_true, ↓reduceIte]
  cases decode .plain cs <;> rfl

theorem decode_letter {byte : UInt8} (hc : simpleEscape? c = some byte) (cs : List Char) :
    decode mode ('\\' :: c :: cs) = (decode .plain cs).map (before ++ [byte] ++ ·) := by
  rw [decode, continue?_backslash, hfinish]
  simp only [bind, Except.bind, ne_eq, not_true_eq_false, ↓reduceIte, hc, append_assoc]
  cases decode .plain cs <;> rfl

variable {a b : Char} {ds : List Char}

theorem decode_hex {bytes : Bytes} (hbytes : hexBytes a b = .ok bytes) (cs : List Char) :
    decode mode ('\\' :: 'x' :: a :: b :: cs) = (decode .plain cs).map (before ++ bytes ++ ·) := by
  have hx : simpleEscape? 'x' = none := rfl
  rw [decode, continue?_backslash, hfinish]
  simp only [bind, Except.bind, ne_eq, not_true_eq_false, ↓reduceIte, hx, hbytes]
  cases decode .plain cs <;> rfl

theorem decode_digit (hc : c ∈ digits.take 10) (cs : List Char) :
    decode mode ('\\' :: c :: cs) = (decode (.decimal [c]) cs).map (before ++ ·) := by
  have hnone : simpleEscape? c = none ∧ c ≠ 'z' ∧ c.isDigit = true := by
    have hall : (digits.take 10).all (fun c =>
        (simpleEscape? c).isNone && c != 'z' && c.isDigit) = true := by decide
    simpa [and_assoc] using all_eq_true.mp hall c hc
  obtain ⟨hescape, hz, hdigit⟩ := hnone
  rw [decode, continue?_backslash, hfinish]
  simp only [bind, Except.bind, ne_eq, not_true_eq_false, ↓reduceIte, hescape, hz, hdigit]
  cases decode (.decimal [c]) cs <;> rfl

theorem decode_skip (cs : List Char) :
    decode mode ('\\' :: 'z' :: cs) = (decode .blanks cs).map (before ++ ·) := by
  have hz : simpleEscape? 'z' = none := rfl
  rw [decode, continue?_backslash, hfinish]
  simp only [bind, Except.bind, ne_eq, not_true_eq_false, ↓reduceIte, hz]
  cases decode .blanks cs <;> rfl

end

/-- A decimal escape takes in up to three digits. -/
theorem decode_more_digits {more : List Char} (hmore : ∀ c ∈ more, c ∈ digits.take 10)
    (hlength : ds.length + more.length ≤ 3) (cs : List Char) :
    decode (.decimal ds) (more ++ cs) = decode (.decimal (ds ++ more)) cs := by
  induction more generalizing ds with
  | nil => rw [nil_append, append_nil]
  | cons c more ih =>
    rw [length_cons] at hlength
    have hcontinue : Mode.continue? (.decimal ds) c = some (.decimal (ds ++ [c])) := by
      rw [Mode.continue?, isDigit_iff.mpr (hmore c (.head _)), Bool.true_and,
        decide_eq_true (by omega), if_pos rfl]
    rw [cons_append, decode_of_continue hcontinue, ih fun c hc => hmore c (.tail _ hc),
      append_assoc, singleton_append]
    rw [length_append, length_singleton]
    omega

theorem decode_more_blanks {blanks : List Char} (h : ∀ c ∈ blanks, c ∈ whiteSpace)
    (cs : List Char) : decode .blanks (blanks ++ cs) = decode .blanks cs := by
  induction blanks with
  | nil => rfl
  | cons c blanks ih =>
    have hcontinue : Mode.continue? .blanks c = some .blanks := by
      rw [Mode.continue?, isBlank_iff.mpr (h c (.head _)), if_pos rfl]
    rw [cons_append, decode_of_continue hcontinue, ih fun c hc => h c (.tail _ hc)]

theorem hexBytes_of_digits (h : ∀ c ∈ [a, b], c ∈ digits ∨ c ∈ digits.map Char.toUpper) :
    hexBytes a b = .ok [(numeral 16 [a, b]).toUInt8] := by
  have hvalue {c : Char} (hc : c ∈ digits ∨ c ∈ digits.map Char.toUpper) :
      c.toNat < 128 ∧ isBlank c = false ∧ hexValue? c = some (digits.idxOf c.toLower) := by
    have hall : (digits ++ digits.map Char.toUpper).all (fun c => decide (c.toNat < 128) &&
        !isBlank c && hexValue? c == some (digits.idxOf c.toLower)) = true := by decide
    simpa [and_assoc] using all_eq_true.mp hall c (by simpa using hc)
  obtain ⟨ha, hablank, havalue⟩ := hvalue (h a (.head _))
  obtain ⟨hb, -, hbvalue⟩ := hvalue (h b (.tail _ (.head _)))
  rw [hexBytes, if_neg (Nat.not_le_of_lt ha), if_neg (Nat.not_le_of_lt hb), hablank, havalue, hbvalue]
  simp [numeral, Nat.mul_comm]

theorem finish_decimal (h : ∀ c ∈ ds, c ∈ digits.take 10) (hle : numeral 10 ds ≤ 255) :
    finish (.decimal ds) = .ok [(numeral 10 ds).toUInt8] := by
  have hvalue : ds.foldl (fun n c => n * 10 + (c.toNat - '0'.toNat)) 0 = numeral 10 ds := by
    refine foldl_ext _ _ _ fun n c hc => ?_
    have hall : (digits.take 10).all (fun c =>
        c.toNat - '0'.toNat == digits.idxOf c.toLower) = true := by decide
    rw [Nat.mul_comm, eq_of_beq (all_eq_true.mp hall c (h c hc))]
  rw [finish, decimalByte, hvalue, if_pos (Nat.lt_succ_of_le hle)]
  rfl

theorem Piece.finish_mode (hp : p.IsValid quote) : finish p.mode = .ok p.late := by
  cases p with
  | decimal ds => exact finish_decimal hp.2.2.1 hp.2.2.2
  | _ => rfl

theorem Piece.continue?_mode {rest : List Char} (h : p.StopsAt rest) :
    ∀ c ∈ rest.head?, p.mode.continue? c = none := by
  intro c hc
  cases p with
  | decimal ds =>
    rw [mode, Mode.continue?, if_neg]
    rw [Bool.and_eq_true, decide_eq_true_eq]
    rintro ⟨hdigit, hlt⟩
    rcases h with hlength | hnone
    · omega
    · exact hnone c hc (isDigit_iff.mp hdigit)
  | skip blanks =>
    rw [mode, Mode.continue?, if_neg]
    exact fun hblank => h c hc (isBlank_iff.mp hblank)
  | _ => rfl

/-- What one piece adds, after whatever was left open before it. -/
theorem decode_piece (hp : p.IsValid quote) (hfinish : finish mode = .ok before)
    (hmode : ∀ c ∈ p.text.head?, mode.continue? c = none) (rest : List Char) :
    decode mode (p.text ++ rest) = (decode p.mode rest).map (before ++ p.early ++ ·) := by
  cases p with
  | plain c => exact decode_char hfinish (hmode c rfl) hp.1 rest
  | letter c =>
    obtain ⟨byte, hbyte⟩ := Option.isSome_iff_exists.mp hp
    have hescape : simpleEscape? c = some byte := by
      have hall : escapes.all (fun e => simpleEscape? e.1 == some e.2) = true := by decide
      obtain ⟨l, l', hmem, -⟩ := lookup_eq_some_iff.mp hbyte
      exact eq_of_beq (all_eq_true.mp hall (c, byte) (hmem ▸ mem_append_right l (.head l')))
    have hearly : (Piece.letter c).early = [byte] := by
      rw [Piece.early, Piece.bytes, hbyte, Option.toList_some]
      nofun
    rw [hearly]
    exact decode_letter hfinish hescape rest
  | hex high low => exact decode_hex hfinish (hexBytes_of_digits hp) rest
  | decimal ds =>
    obtain ⟨hne, hlength, hdigits, -⟩ := hp
    obtain ⟨d, ds, rfl⟩ := exists_cons_of_ne_nil hne
    show decode mode ('\\' :: d :: (ds ++ rest)) = _
    rw [decode_digit hfinish (hdigits d (.head _)),
      decode_more_digits (fun c hc => hdigits c (.tail _ hc)) (by simpa [Nat.add_comm] using hlength)]
    simp [Piece.early, Piece.mode]
  | skip blanks =>
    show decode mode ('\\' :: 'z' :: (blanks ++ rest)) = _
    rw [decode_skip hfinish, decode_more_blanks hp]
    simp [Piece.early, Piece.bytes, Piece.mode]

/-- The pieces that count: all but a decimal escape at the very end. -/
def settled : List Piece → List Piece
  | [] => []
  | [p] => if p.isDecimal then [] else [p]
  | p :: next :: ps => p :: settled (next :: ps)

theorem settled_of_last (h : ∀ p ∈ ps.getLast?, p.isDecimal = false) : settled ps = ps := by
  induction ps with
  | nil => rfl
  | cons p ps ih =>
    cases ps with
    | nil => rw [settled, h p rfl]; rfl
    | cons next ps => rw [settled, ih fun p hp => h p (by simpa using hp)]

theorem settled_concat (ps : List Piece) (hp : p.isDecimal = true) : settled (ps ++ [p]) = ps := by
  induction ps with
  | nil => rw [nil_append, settled, hp]; rfl
  | cons p' ps ih =>
    cases ps with
    | nil => rw [cons_append, nil_append, settled, settled, hp]; rfl
    | cons next ps => rw [cons_append, cons_append, settled, ← cons_append, ih]

theorem early_eq (p : Piece) : p.early = (settled [p]).flatMap Piece.bytes := by
  cases p with
  | decimal ds => rfl
  | _ => exact (append_nil _).symm

/-- What the pieces of a literal give, after what was left open before them. -/
theorem decode_body (h : WellFormed quote ps) (hfinish : finish mode = .ok before)
    (hmode : ∀ c ∈ (body ps).head?, mode.continue? c = none) (hne : ps ≠ []) :
    decode mode (body ps) = .ok (before ++ (settled ps).flatMap Piece.bytes) := by
  induction ps generalizing mode before with
  | nil => exact absurd rfl hne
  | cons p ps ih =>
    have hp := h.valid p (.head _)
    have hbody : body (p :: ps) = p.text ++ body ps := rfl
    have hhead : p.text.head? = (body (p :: ps)).head? := by
      rw [hbody, List.head?_append_of_ne_nil _ p.text_ne_nil]
    rw [hbody, decode_piece hp hfinish (hhead ▸ hmode)]
    cases ps with
    | nil =>
      rw [body, flatMap_nil, decode, early_eq p]
      rw [Except.map, append_nil]
    | cons next ps =>
      have hchain := isChain_cons_cons.mp h.adjacent
      have hrest : WellFormed quote (next :: ps) := ⟨fun p hp => h.valid p (.tail _ hp), hchain.2⟩
      have hstops : ∀ c ∈ (body (next :: ps)).head?, p.mode.continue? c = none := by
        have hhead : (body (next :: ps)).head? = next.text.head? :=
          List.head?_append_of_ne_nil _ next.text_ne_nil
        rw [hhead]
        exact Piece.continue?_mode hchain.1
      rw [ih hrest (Piece.finish_mode hp) hstops (cons_ne_nil _ _), Except.map, settled,
        flatMap_cons, ← p.early_append_late]
      simp only [append_assoc]

theorem value_literal (h : WellFormed quote ps) :
    value (String.ofList (literal quote ps)) = .ok ((settled ps).flatMap Piece.bytes) := by
  have hquoted : value (String.ofList (literal quote ps)) = quoted (literal quote ps) := by
    rw [value, String.toList_ofList]
    cases quote <;> rfl
  have hdrop : ((literal quote ps).drop 1).dropLast = body ps := dropLast_concat
  rw [hquoted, quoted, hdrop]
  cases ps with
  | nil => rfl
  | cons p ps =>
    have hplain : finish .plain = .ok [] := rfl
    exact decode_body h hplain (fun _ _ => rfl) (cons_ne_nil p ps)

end

/-! ## Evaluation -/

section

variable {quote : Quote} {ps : List Piece} {bs : Bytes}

variable (n scope : Nat) (s : Store)

theorem expr_string (place : Place) {l : Lexeme} (h : value l.text = .ok bs) :
    (withFuel (n + 1)).expr scope (.mk place (.string l)) s = .ok (.one (.str bs)) s := by
  have hform : Eval.form (withFuel n) (Eval.innerValue (withFuel n)) scope place (.string l) s =
      .ok (.one (.str bs)) s := by
    rw [Eval.form, h]
    rfl
  exact traced_eq_ok_iff.mpr hform

theorem evaluate_of_value {text : List Char} (htext : Terminal.quoted.read? text = some text.length)
    (hvalue : value (String.ofList text) = .ok bs) :
    evaluate (withFuel (n + 1)) scope (String.ofList text) s =
      .ok (.many [.one (.str bs)]) s := by
  have hexpr : protect ((withFuel (n + 1)).expr scope
      (.stamp "<eval>" (.mk { line := 1 } (.string (lexeme text))))) s =
      .ok (.one (.str bs)) s :=
    handle_of_ok (expr_string n scope s _ hvalue)
  rw [evaluate, readExpr_of_quoted htext, accept, pure_bind, bind_of_ok hexpr]
  rfl

theorem evaluate_literal (h : WellFormed quote ps) :
    evaluate (withFuel (n + 1)) scope (String.ofList (literal quote ps)) s =
      .ok (.many [.one (.str ((settled ps).flatMap Piece.bytes))]) s := by
  have hread := read?_literal h.valid []
  rw [append_nil] at hread
  exact evaluate_of_value n scope s hread (value_literal h)

end

/-! ## Writing bytes -/

def digit (n : Nat) : Char := digits.getD n '0'

/-- A byte as a hexadecimal escape. -/
def hexEscape (b : UInt8) : Piece := .hex (digit (b.toNat / 16)) (digit (b.toNat % 16))

/-- A byte as a decimal escape of three digits. -/
def decimalEscape (b : UInt8) : Piece :=
  .decimal [digit (b.toNat / 100), digit (b.toNat / 10 % 10), digit (b.toNat % 10)]

theorem digit_spec {n : Nat} (h : n < 16) :
    digit n ∈ digits ∧ digits.idxOf (digit n).toLower = n ∧ (n < 10 → digit n ∈ digits.take 10) := by
  have hall : (List.range 16).all (fun n => digits.contains (digit n) &&
      digits.idxOf (digit n).toLower == n && (10 ≤ n || (digits.take 10).contains (digit n))) =
      true := by decide
  have hn := all_eq_true.mp hall n (mem_range.mpr h)
  simp only [Bool.and_eq_true, Bool.or_eq_true, contains_iff_mem, beq_iff_eq,
    decide_eq_true_eq, and_assoc] at hn
  exact ⟨hn.1, hn.2.1, fun hlt => hn.2.2.resolve_left (by omega)⟩

variable {f : UInt8 → Piece} (quote : Quote) (b : UInt8)

theorem hexEscape_spec : (hexEscape b).IsValid quote ∧ (hexEscape b).bytes = [b] := by
  have hlt := b.toNat_lt
  obtain ⟨hhigh, hhighValue, -⟩ := digit_spec (n := b.toNat / 16) (by omega)
  obtain ⟨hlow, hlowValue, -⟩ := digit_spec (n := b.toNat % 16) (by omega)
  constructor
  · intro c hc
    simp only [mem_cons, not_mem_nil, or_false] at hc
    rcases hc with rfl | rfl
    · exact .inl hhigh
    · exact .inl hlow
  · have hvalue : numeral 16 [digit (b.toNat / 16), digit (b.toNat % 16)] = b.toNat := by
      simp only [numeral, foldl_cons, foldl_nil, hhighValue, hlowValue]
      omega
    rw [hexEscape, Piece.bytes, hvalue, Nat.toUInt8_eq, UInt8.ofNat_toNat]

theorem decimalEscape_spec : (decimalEscape b).IsValid quote ∧ (decimalEscape b).bytes = [b] := by
  have hlt := b.toNat_lt
  obtain ⟨-, hhundreds, hhundredsMem⟩ := digit_spec (n := b.toNat / 100) (by omega)
  obtain ⟨-, htens, htensMem⟩ := digit_spec (n := b.toNat / 10 % 10) (by omega)
  obtain ⟨-, hunits, hunitsMem⟩ := digit_spec (n := b.toNat % 10) (by omega)
  have hvalue : numeral 10 [digit (b.toNat / 100), digit (b.toNat / 10 % 10),
      digit (b.toNat % 10)] = b.toNat := by
    simp only [numeral, foldl_cons, foldl_nil, hhundreds, htens, hunits]
    omega
  constructor
  · refine ⟨cons_ne_nil _ _, Nat.le_refl 3, fun c hc => ?_, ?_⟩
    · simp only [mem_cons, not_mem_nil, or_false] at hc
      rcases hc with rfl | rfl | rfl
      · exact hhundredsMem (by omega)
      · exact htensMem (by omega)
      · exact hunitsMem (by omega)
    · omega
  · rw [decimalEscape, Piece.bytes, hvalue, Nat.toUInt8_eq, UInt8.ofNat_toNat]

theorem WellFormed.map_append {quote : Quote} {ps : List Piece} (hvalid : ∀ b, (f b).IsValid quote)
    (hstops : ∀ b rest, (f b).StopsAt rest) (h : WellFormed quote ps) (bs : Bytes) :
    WellFormed quote (bs.map f ++ ps) := by
  induction bs with
  | nil => exact h
  | cons b bs ih =>
    refine ⟨forall_mem_cons.mpr ⟨hvalid b, ih.valid⟩, ?_⟩
    exact isChain_cons.mpr ⟨fun next _ => hstops b next.text, ih.adjacent⟩

theorem wellFormed_map {quote : Quote} (hvalid : ∀ b, (f b).IsValid quote)
    (hstops : ∀ b rest, (f b).StopsAt rest) (bs : Bytes) : WellFormed quote (bs.map f) := by
  have hnil : WellFormed quote [] := ⟨fun _ hp => absurd hp not_mem_nil, .nil⟩
  simpa using hnil.map_append hvalid hstops bs

theorem flatMap_bytes (h : ∀ b, (f b).bytes = [b]) (bs : Bytes) :
    (bs.map f).flatMap Piece.bytes = bs := by
  rw [flatMap_map]
  simp only [h, flatMap_singleton']

/-- A literal whose last piece is not a decimal escape is one token wherever it stands, and evaluates
to the bytes of its pieces, in a syntax tree and as a text of its own. So bytes that are written as
hexadecimal escapes are read back. -/
theorem literal_evaluates_to_bytes (quote : Quote) (ps : List Piece) (h : WellFormed quote ps)
    (hlast : ∀ p ∈ ps.getLast?, p.isDecimal = false) (n scope : Nat) (s : Store) :
    (∀ rest, Terminal.quoted.read? (literal quote ps ++ rest) = some (literal quote ps).length) ∧
    (∀ place line, (withFuel (n + 1)).expr scope
        (.mk place (.string { text := String.ofList (literal quote ps), line })) s =
      .ok (.one (.str (ps.flatMap Piece.bytes))) s) ∧
    Chunk.evaluate (withFuel (n + 1)) scope (String.ofList (literal quote ps)) s =
      .ok (.many [.one (.str (ps.flatMap Piece.bytes))]) s ∧
    ∀ bs : Bytes,
      Chunk.evaluate (withFuel (n + 1)) scope (String.ofList (literal quote (bs.map hexEscape))) s =
        .ok (.many [.one (.str bs)]) s := by
  have hsettled := settled_of_last hlast
  have hvalue := value_literal h
  have hevaluate := evaluate_literal n scope s h
  rw [hsettled] at hvalue hevaluate
  refine ⟨read?_literal h.valid, fun place line => expr_string n scope s place hvalue, hevaluate,
    fun bs => ?_⟩
  have hbs := wellFormed_map (fun b => (hexEscape_spec quote b).1) (fun _ _ => trivial) bs
  have hnone : ∀ p ∈ (bs.map hexEscape).getLast?, p.isDecimal = false := by
    intro p hp
    obtain ⟨b, -, rfl⟩ := mem_map.mp (mem_of_getLast? hp)
    rfl
  rw [evaluate_literal n scope s hbs, settled_of_last hnone,
    flatMap_bytes fun b => (hexEscape_spec quote b).2]

/-- A piece of every kind. -/
def mixedPieces : List Piece :=
  [.plain 'é', .letter 'n', .hex '4' 'F', .decimal ['6', '5'], .skip [' ', '\n'], .plain 'x']

theorem wellFormed_mixedPieces : WellFormed .double mixedPieces := by
  constructor
  · simp [mixedPieces, Piece.IsValid, escapes, digits, whiteSpace, numeral, Quote.char]
  · simp [mixedPieces, Piece.StopsAt, Piece.text, digits, whiteSpace]

theorem mixedPieces_evaluate :
    literal .double mixedPieces = "\"é\\n\\x4F\\65\\z \nx\"".toList ∧
    Chunk.evaluate (withFuel 1) 0 (String.ofList (literal .double mixedPieces)) {} =
      .ok (.many [.one (.str [195, 169, 10, 79, 65, 120])]) {} := by
  obtain ⟨-, -, hevaluate, -⟩ := literal_evaluates_to_bytes .double mixedPieces
    wellFormed_mixedPieces (by simp [mixedPieces, Piece.isDecimal]) 0 0 {}
  exact ⟨by decide, hevaluate⟩

/-- A literal that writes bytes as decimal escapes of three digits evaluates to all of them but the
last, so it gives them back only if there are none. An escape behind them that stands for nothing is
enough to get them all. -/
theorem decimal_escapes_lose_last_byte (quote : Quote) (bs : Bytes) (n scope : Nat) (s : Store) :
    Chunk.evaluate (withFuel (n + 1)) scope
        (String.ofList (literal quote (bs.map decimalEscape))) s =
      .ok (.many [.one (.str bs.dropLast)]) s ∧
    (bs.dropLast = bs ↔ bs = []) ∧
    Chunk.evaluate (withFuel (n + 1)) scope
        (String.ofList (literal quote (bs.map decimalEscape ++ [.skip []]))) s =
      .ok (.many [.one (.str bs)]) s := by
  have hvalid (b : UInt8) := (decimalEscape_spec quote b).1
  have hstops (b : UInt8) (rest : List Char) : (decimalEscape b).StopsAt rest := .inl rfl
  have hbytes (b : UInt8) := (decimalEscape_spec quote b).2
  refine ⟨?_, ?_, ?_⟩
  · rw [evaluate_literal n scope s (wellFormed_map hvalid hstops bs)]
    rcases eq_nil_or_concat' bs with rfl | ⟨bs, b, rfl⟩
    · rfl
    · rw [map_append, map_singleton, settled_concat _ rfl, flatMap_bytes hbytes,
        dropLast_concat]
  · constructor
    · intro h
      by_contra hne
      have hlt := length_pos_of_ne_nil hne
      have hlength := congrArg List.length h
      rw [length_dropLast] at hlength
      omega
    · rintro rfl
      rfl
  · have hskip : WellFormed quote [.skip []] :=
      ⟨forall_mem_singleton.mpr fun _ hc => absurd hc not_mem_nil, .singleton _⟩
    have hlast : ∀ p ∈ (bs.map decimalEscape ++ [Piece.skip []]).getLast?,
        p.isDecimal = false := by
      rw [List.getLast?_append, List.getLast?_singleton, Option.some_or]
      rintro _ ⟨⟩
      rfl
    rw [evaluate_literal n scope s (hskip.map_append hvalid hstops bs), settled_of_last hlast,
      flatMap_append, flatMap_bytes hbytes, flatMap_singleton, Piece.bytes, append_nil]

theorem escaped_letter_evaluates_to_nothing :
    String.ofList (literal .single ([65].map decimalEscape)) = "'\\065'" ∧
    Chunk.evaluate (withFuel 1) 0 (String.ofList (literal .single ([65].map decimalEscape))) {} =
      .ok (.many [.one (.str [])]) {} :=
  ⟨by decide, (decimal_escapes_lose_last_byte .single [65] 0 0 {}).1⟩

end LuaInterpreter.Literal
