import Mathlib.Data.List.Nodup
import LuaInterpreter.Proofs.Expression.Spelling

/-!
# Reading tokens

What each terminal of the grammar reads where a given token stands. A word of the grammar is read
whole or not at all where an operand is due; the words of shorter operators are also read at the
front of longer ones.
-/

namespace LuaInterpreter

open Scan List Terminal

namespace Formula

/-! ## Words -/

/-- The tokens that an operand can begin with, other than names and numerals. -/
def operandTokens : List Token :=
  [.atom .litNil, .atom .litTrue, .atom .litFalse, .lparen, .unary .negate, .unary .not,
    .unary .length, .unary .bitNot]

def operandWords : List String := ["nil", "true", "false", "(", "-", "not", "#", "~"]

theorem map_chars_operandTokens : operandTokens.map Token.chars = operandWords.map String.toList :=
  rfl

theorem eq_of_chars {t u : Token} (ht : t ∈ operandTokens) (hu : u ∈ operandTokens)
    (h : t.chars = u.chars) : t = u := by
  refine inj_on_of_nodup_map ?_ ht hu h
  decide

/-- Whether the word is neither a proper part of an operand's first token nor the beginning of a
name or a numeral. -/
def isApart (w : String) : Bool :=
  w.toList.head?.all (fun c => !c.isDigit && (!isNameStart c || reservedWords.contains w)) &&
    operandWords.all fun v => !w.toList.isPrefixOf v.toList || w == v

end Formula

variable (r : Production) (op : BinaryOp)

theorem Production.all_isApart :
    r.symbols.all (fun symbol => match symbol with
    | .terminal (.word w) => w == "0" || Formula.isApart w
    | _ => true) = true := by
  cases r <;> decide

namespace Formula

variable {text cs : List Char} {p q k n : Nat} {t : Token} {ts us : List Token} {w : String}

/-- A word of the grammar has no blank, so it is the beginning of a token. -/
theorem read_word (hw : (Terminal.word w).InGrammar)
    (hread : (Terminal.word w).read? (t.chars ++ trail ts) = some n) :
    n = w.length ∧ ∃ rest, t.chars = w.toList ++ rest := by
  obtain ⟨rfl, rest, happend⟩ := read?_word hread
  refine ⟨rfl, ?_⟩
  rcases append_eq_append_iff.mp happend with ⟨cs, hcs, htrail⟩ | ⟨cs, hcs, -⟩
  · cases cs with
    | nil => exact ⟨[], by rw [hcs, append_nil, append_nil]⟩
    | cons c cs =>
      have hc : c = ' ' := (plain_trail ts).2 c (htrail ▸ rfl)
      have hdense := all_eq_true.mp hw.isDense c (hcs ▸ mem_append_right _ (.head _))
      rw [hc] at hdense
      cases hdense
  · exact ⟨cs, hcs⟩

theorem mem_operandTokens {rest : List Char} (hw : isApart w = true) (hne : w.toList ≠ [])
    (ht : t.isOperand = true) (h : t.chars = w.toList ++ rest) : t ∈ operandTokens := by
  obtain ⟨c, cs, hcs⟩ := exists_cons_of_ne_nil hne
  have hhead := (Bool.and_eq_true_iff.mp hw).1
  rw [hcs, List.head?_cons, Option.all_some, Bool.and_eq_true] at hhead
  rcases t with ⟨_ | _ | _ | x | x⟩ | _ | _ | op | op
  iterate 3 simp [operandTokens]
  · -- a numeral begins with a digit
    obtain ⟨d, ds, hds⟩ := exists_cons_of_ne_nil x.whole.ne_nil
    have hd := x.whole.isDigit d (hds ▸ .head _)
    rw [Token.chars, Atom.chars, DecimalNumeral.chars, hds, hcs] at h
    obtain ⟨rfl, -⟩ := List.cons.inj h
    rw [hd] at hhead
    cases hhead.1
  · -- a name begins with a letter, and not with a reserved word
    have hstart := x.isNameStart
    have hfree := x.free w
    rw [Token.chars, Atom.chars, Identifier.chars] at h
    rw [h] at hfree
    rw [hcs] at h
    obtain ⟨rfl, -⟩ := List.cons.inj h
    rw [hstart, Bool.not_true, Bool.false_or, contains_iff_mem] at hhead
    exact absurd (prefix_append _ _) (hfree hhead.2)
  · simp [operandTokens]
  · cases ht
  · cases op <;> simp [operandTokens]
  · cases ht

theorem read_word_operand (hw : (Terminal.word w).InGrammar) (hzero : w ≠ "0")
    (ht : t.isOperand = true) (hread : (Terminal.word w).read? (t.chars ++ trail ts) = some n) :
    w ∈ operandWords ∧ t ∈ operandTokens ∧ t.chars = w.toList ∧ n = t.chars.length := by
  obtain ⟨hn, rest, hrest⟩ := read_word hw hread
  have hapart : isApart w = true := by
    obtain ⟨r, hr⟩ := hw
    have hall := all_eq_true.mp r.all_isApart _ hr
    rw [Bool.or_eq_true, beq_iff_eq] at hall
    exact hall.resolve_left hzero
  have hne : w.toList ≠ [] := by
    have hpos := hw.read?_pos hread
    rw [hn, ← String.length_toList] at hpos
    exact ne_nil_of_length_pos hpos
  have hmem := mem_operandTokens hapart hne ht hrest
  have hword : t.chars ∈ operandWords.map String.toList :=
    map_chars_operandTokens ▸ mem_map_of_mem hmem
  obtain ⟨v, hv, hvchars⟩ := mem_map.mp hword
  have hcase := all_eq_true.mp (Bool.and_eq_true_iff.mp hapart).2 v hv
  rw [Bool.or_eq_true, Bool.not_eq_true', beq_iff_eq] at hcase
  rcases hcase with hprefix | rfl
  · rw [hvchars, hrest, isPrefixOf_iff_prefix.mpr (prefix_append _ _)] at hprefix
    cases hprefix
  · exact ⟨hv, hmem, hvchars.symm, by rw [hn, ← hvchars, String.length_toList]⟩

def WordRead (text : List Char) (w : String) (p q : Nat) : Prop :=
  ∃ k n, Gap text p k ∧ (Terminal.word w).read? (text.drop k) = some n ∧ q = k + n

theorem WordRead.operand (htext : Plain text) (h : WordRead text w p q)
    (hw : (Terminal.word w).InGrammar) (hzero : w ≠ "0") (hat : At text p ts)
    (hdue : Due .operand ts) : ∃ t us, ts = t :: us ∧ w ∈ operandWords ∧ t ∈ operandTokens ∧
      t.chars = w.toList ∧ After text q us := by
  obtain ⟨k, n, hgap, hread, rfl⟩ := h
  obtain ⟨t, us, rfl, hdrop⟩ := hat.read htext hgap hw hread
  rw [hdrop] at hread
  obtain ⟨hmem, ht, hchars, rfl⟩ := read_word_operand hw hzero hdue.isOperand hread
  exact ⟨t, us, rfl, hmem, ht, hchars, .of_drop hdrop⟩

/-! ## Names -/

variable {c : Char}

theorem isNameStart_of_isDigit (h : c.isDigit = true) : isNameStart c = false := by
  rw [Bool.eq_false_iff]
  intro hstart
  delta isNameStart Char.isAlpha Char.isUpper Char.isLower at hstart
  simp only [Char.isDigit, Bool.or_eq_true, Bool.and_eq_true, decide_eq_true_eq, beq_iff_eq,
    UInt32.le_iff_toNat_le] at h hstart
  rcases hstart with (hstart | hstart) | rfl
  iterate 2 exact absurd (Nat.le_trans hstart.1 h.2) (by decide)
  exact absurd h (by decide)

theorem trail_head_not_name (ts : List Token) : ∀ c ∈ (trail ts).head?, isNameChar c = false := by
  intro c hc
  rw [(plain_trail ts).2 c hc]
  rfl

theorem read_name_of_isNameChar (ht : ∀ c ∈ t.chars, isNameChar c = true)
    (hread : Terminal.name.read? (t.chars ++ trail ts) = some n) : n = t.chars.length := by
  obtain ⟨c, cs, hcs⟩ := exists_cons_of_ne_nil t.chars_ne_nil
  rw [hcs, cons_append] at hread
  simp only [Terminal.read?] at hread
  split at hread
  · rw [spanLength_append (fun c hc => ht c (hcs ▸ .tail _ hc)) (trail_head_not_name ts)] at hread
    rw [hcs, length_cons]
    exact (Option.some.inj hread).symm
  · cases hread

/-- What a reading pays if it stops where an operand is due. -/
def Mode.penalty : Mode → Nat
  | .operand => 1
  | .operator => 0

/-- Where an operand is due, a name is a whole token. If it is the operator `not`, an operand is
still due. -/
theorem read_name_operand (ht : t.isOperand = true)
    (hread : Terminal.name.read? (t.chars ++ trail ts) = some n) :
    n = t.chars.length ∧ ∃ m, t.next? (.operand, 0) = some (m, 0) ∧ t.names + m.penalty ≤ 1 := by
  rcases t with ⟨_ | _ | _ | x | x⟩ | _ | _ | op | op
  iterate 3 exact ⟨read_name_of_isNameChar (all_eq_true.mp (by decide)) hread, _, rfl, by decide⟩
  · -- a numeral begins with a digit
    obtain ⟨d, ds, hds⟩ := exists_cons_of_ne_nil x.whole.ne_nil
    have hd := x.whole.isDigit d (hds ▸ .head _)
    rw [Token.chars, Atom.chars, DecimalNumeral.chars, hds] at hread
    cases (admits_of_read? hread).symm.trans (isNameStart_of_isDigit hd)
  · refine ⟨read_name_of_isNameChar (fun c hc => ?_) hread, _, rfl, Nat.le_refl 1⟩
    rcases mem_cons.mp hc with rfl | hc
    · exact isNameChar_of_isNameStart x.isNameStart
    · exact x.isNameChar c hc
  · cases admits_of_read? hread
  · cases ht
  · cases op with
    | not => exact ⟨read_name_of_isNameChar (all_eq_true.mp (by decide)) hread, _, rfl, by decide⟩
    | _ => cases admits_of_read? hread
  · cases ht

end Formula

/-! ## Operators -/

def BinaryOp.rule : BinaryOp → Production
  | .or => .exprOr
  | .and => .exprAnd
  | .lt | .le | .gt | .ge | .eq | .ne => .exprCompare
  | .bitOr => .exprBitOr
  | .bitXor => .exprBitXor
  | .bitAnd => .exprBitAnd
  | .shiftLeft | .shiftRight => .exprShift
  | .concat => .exprConcat
  | .add | .subtract => .exprSum
  | .multiply | .divide | .floorDivide | .modulo => .exprProduct
  | .power => .exprPower

/-- The production of the operator, if it is one of several. -/
def BinaryOp.choice? : BinaryOp → Option Production
  | .lt => some .compareLt
  | .le => some .compareLe
  | .gt => some .compareGt
  | .ge => some .compareGe
  | .eq => some .compareEq
  | .ne => some .compareNe
  | .shiftLeft => some .shiftLeft
  | .shiftRight => some .shiftRight
  | .add => some .sumAdd
  | .subtract => some .sumSubtract
  | .multiply => some .productMultiply
  | .divide => some .productDivide
  | .floorDivide => some .productFloorDivide
  | .modulo => some .productModulo
  | .or | .and | .bitOr | .bitXor | .bitAnd | .concat | .power => none

def BinaryOp.link (op : BinaryOp) : Symbol :=
  match op.choice? with
  | some r => .category r.category
  | none => .terminal (.word op.symbol)

theorem BinaryOp.symbols_rule : op.rule.symbols = [.category .expr, op.link, .category .expr] := by
  cases op <;> rfl

theorem BinaryOp.inGrammar : (Terminal.word op.symbol).InGrammar :=
  ⟨op.choice?.getD op.rule, by cases op <;> decide⟩

theorem BinaryOp.mem_all : op ∈ BinaryOp.all := by
  cases op <;> decide

instance {P : BinaryOp → Prop} [DecidablePred P] : Decidable (∀ op, P op) :=
  decidable_of_iff (∀ op ∈ BinaryOp.all, P op) ⟨fun h op => h op op.mem_all, fun h op _ => h op⟩

namespace Formula

/-- The second characters of operators. No expression begins with them. -/
def isSecond (c : Char) : Bool := c == '=' || c == '<' || c == '>' || c == '/'

variable {op : BinaryOp} {m : Mode} {c : Char}

/-- An operator is the beginning of a longer one only if that goes on with such a character. -/
theorem symbol_prefix {op' : BinaryOp} {rest : List Char}
    (h : op'.symbol.toList = op.symbol.toList ++ rest) :
    op = op' ∧ rest = [] ∨ ∃ c cs, rest = c :: cs ∧ isSecond c = true := by
  have hall : ∀ op op' : BinaryOp, op.symbol.toList.isPrefixOf op'.symbol.toList = true →
      op = op' ∨ (op'.symbol.toList.drop op.symbol.length).head?.any isSecond = true := by decide
  have hcase := hall op op' (h ▸ isPrefixOf_iff_prefix.mpr (prefix_append _ _))
  rw [h, ← String.length_toList, drop_left] at hcase
  rcases hcase with rfl | hsecond
  · exact .inl ⟨rfl, self_eq_append_right.mp h⟩
  · cases rest with
    | nil => cases hsecond
    | cons c cs => exact .inr ⟨c, cs, rfl, hsecond⟩

/-- An operator ends inside of a longer one. -/
def InOperator (cs : List Char) : Prop := ∃ c rest, cs = c :: rest ∧ isSecond c = true

theorem Due.next {m' : Mode} (h : Due m (t :: ts)) (hnext : t.next? (m, 0) = some (m', 0)) :
    Due m' ts :=
  @Due.of_append [t] ts m m' h (by rw [run, hnext, Option.bind_some, run_nil])

section

variable (htext : Plain text)

include htext

/-- Where an operator is due, it is read as it stands, or the beginning of it is read. -/
theorem WordRead.operator (h : WordRead text op.symbol p q)
    (hat : At text p ts) (hdue : Due .operator ts) :
    (∃ us, ts = .binary op :: us ∧ After text q us) ∨ InOperator (text.drop q) := by
  obtain ⟨k, n, hgap, hread, rfl⟩ := h
  obtain ⟨t, us, rfl, hdrop⟩ := hat.read htext hgap op.inGrammar hread
  rw [hdrop] at hread
  obtain ⟨rfl, rest, hrest⟩ := read_word op.inGrammar hread
  rcases hdue.operator with ⟨rfl, -⟩ | ⟨⟨op', rfl⟩, -⟩
  · have hnot : op.symbol.toList.isPrefixOf [')'] = false := by cases op <;> decide
    rw [show [')'] = op.symbol.toList ++ rest from hrest,
      isPrefixOf_iff_prefix.mpr (prefix_append _ _)] at hnot
    cases hnot
  · rcases symbol_prefix hrest with ⟨rfl, rfl⟩ | ⟨c, cs, rfl, hc⟩
    · refine .inl ⟨us, rfl, ?_⟩
      exact .of_drop hdrop
    · refine .inr ⟨c, cs ++ trail us, ?_, hc⟩
      rw [← drop_drop, hdrop, hrest, ← String.length_toList, append_assoc, drop_left,
        cons_append]

/-- Where an operand is due, only the unary operators can be read as binary ones. -/
theorem WordRead.exists_unary (h : WordRead text op.symbol p q)
    (hat : At text p ts) (hdue : Due .operand ts) :
    ∃ u us, ts = .unary u :: us ∧ After text q us := by
  obtain ⟨t, us, rfl, hmem, ht, hchars, hafter⟩ :=
    h.operand htext op.inGrammar (by cases op <;> decide) hat hdue
  have hsymbol : op.symbol = UnaryOp.negate.symbol ∨ op.symbol = UnaryOp.bitNot.symbol := by
    revert hmem
    cases op <;> decide
  obtain ⟨u, hu, hsymbol⟩ : ∃ u : UnaryOp, .unary u ∈ operandTokens ∧ op.symbol = u.symbol :=
    hsymbol.elim (⟨_, by simp [operandTokens], ·⟩) (⟨_, by simp [operandTokens], ·⟩)
  obtain rfl := eq_of_chars ht hu (hchars.trans (congrArg String.toList hsymbol))
  exact ⟨u, us, rfl, hafter⟩

/-- Whether no token that stands where an operator is due begins with the word. -/
def isNoOperator (w : String) : Bool :=
  !w.toList.isPrefixOf [')'] && BinaryOp.all.all fun op => !w.toList.isPrefixOf op.symbol.toList

theorem WordRead.not_operator (hw : (Terminal.word w).InGrammar)
    (hno : isNoOperator w = true) (hat : At text p ts) (hdue : Due .operator ts) :
    ¬WordRead text w p q := by
  rintro ⟨k, n, hgap, hread, rfl⟩
  obtain ⟨t, us, rfl, hdrop⟩ := hat.read htext hgap hw hread
  rw [hdrop] at hread
  obtain ⟨-, rest, hrest⟩ := read_word hw hread
  have hprefix : w.toList.isPrefixOf t.chars = true := by
    rw [hrest]
    exact isPrefixOf_iff_prefix.mpr (prefix_append _ _)
  obtain ⟨hparen, hall⟩ := Bool.and_eq_true_iff.mp hno
  rcases hdue.operator with ⟨rfl, -⟩ | ⟨⟨op, rfl⟩, -⟩
  · rw [show w.toList.isPrefixOf [')'] = true from hprefix] at hparen
    cases hparen
  · have hop := all_eq_true.mp hall op op.mem_all
    rw [show w.toList.isPrefixOf op.symbol.toList = true from hprefix] at hop
    cases hop

theorem WordRead.foreign (hw : (Terminal.word w).InGrammar) (hzero : w ≠ "0")
    (hoperand : w ∉ operandWords) (hoperator : isNoOperator w = true) (hat : At text p ts)
    (hdue : Due m ts) : ¬WordRead text w p q := by
  cases m with
  | operand =>
    intro h
    obtain ⟨t, us, -, hmem, -⟩ := h.operand htext hw hzero hat hdue
    exact hoperand hmem
  | operator => exact not_operator htext hw hoperator hat hdue

theorem WordRead.lparen (h : WordRead text "(" p q) (hat : At text p ts)
    (hdue : Due .operand ts) : ∃ us, ts = .lparen :: us ∧ After text q us := by
  obtain ⟨t, us, rfl, -, ht, hchars, hafter⟩ :=
    h.operand htext ⟨.prefixParen, by decide⟩ (by decide) hat hdue
  obtain rfl : t = .lparen := eq_of_chars ht (by simp [operandTokens]) hchars
  exact ⟨us, rfl, hafter⟩

theorem WordRead.rparen {m : Mode} (h : WordRead text ")" p q)
    (hat : At text p ts) (hdue : Due m ts) :
    m = .operator ∧ ∃ us, ts = .rparen :: us ∧ After text q us := by
  have hw : (Terminal.word ")").InGrammar := ⟨.prefixParen, by decide⟩
  cases m with
  | operand =>
    obtain ⟨t, us, -, hmem, -⟩ := h.operand htext hw (by decide) hat hdue
    exact absurd hmem (by decide)
  | operator =>
    obtain ⟨k, n, hgap, hread, rfl⟩ := h
    obtain ⟨t, us, rfl, hdrop⟩ := hat.read htext hgap hw hread
    rw [hdrop] at hread
    obtain ⟨rfl, rest, hrest⟩ := read_word hw hread
    rcases hdue.operator with ⟨rfl, -⟩ | ⟨⟨op, rfl⟩, -⟩
    · exact ⟨rfl, us, rfl, .of_drop hdrop⟩
    · have hnot : (")".toList).isPrefixOf op.symbol.toList = false := by cases op <;> decide
      rw [show op.symbol.toList = ")".toList ++ rest from hrest,
        isPrefixOf_iff_prefix.mpr (prefix_append _ _)] at hnot
      cases hnot

/-! ## Positions from which nothing goes on -/

theorem gap_eq (h : text.drop p = c :: cs) (hc : isBlank c = false)
    (hgap : Gap text p k) : k = p := by
  rcases htext.spaced.gap_cases hgap with rfl | ⟨rfl, hskip⟩
  · rfl
  · rw [(htext.drop p).skips_of_not_blank (by simpa [h] using hc)] at hskip
    cases hskip

end

theorem read_word_head (hw : w ≠ "") (hread : (Terminal.word w).read? (c :: cs) = some n) :
    ∃ rest, w.toList = c :: rest ∧ rest <+: cs := by
  obtain ⟨-, rest, happend⟩ := read?_word hread
  cases hword : w.toList with
  | nil => exact absurd (String.toList_eq_nil_iff.mp hword) hw
  | cons d ds =>
    rw [hword, cons_append] at happend
    obtain ⟨rfl, rfl⟩ := List.cons.inj happend
    exact ⟨ds, rfl, prefix_append _ _⟩

/-- A numeral ends before its fraction or its exponent. -/
def InNumeral (cs : List Char) : Prop :=
  ∃ c rest, cs = c :: rest ∧ (c = 'e' ∨ c = 'E' ∨ c = '.' ∧ rest.head? ≠ some '.')

/-- Whether the word cannot go on with a numeral. -/
def isNoNumeral (w : String) : Bool :=
  match w.toList with
  | [] => false
  | c :: rest => c != 'e' && c != 'E' && (c != '.' || rest.head? == some '.')

theorem InNumeral.not_wordRead (htext : Plain text) (h : InNumeral (text.drop p))
    (hw : isNoNumeral w = true) : ¬WordRead text w p q := by
  rintro ⟨k, n, hgap, hread, -⟩
  obtain ⟨c, cs, hcs, hc⟩ := h
  have hblank : isBlank c = false := by
    rcases hc with rfl | rfl | ⟨rfl, -⟩ <;> rfl
  obtain rfl := gap_eq htext hcs hblank hgap
  have hne : w ≠ "" := by
    rintro rfl
    cases hw
  rw [hcs] at hread
  obtain ⟨rest, hword, hrest⟩ := read_word_head hne hread
  simp only [isNoNumeral, hword, Bool.and_eq_true, bne_iff_ne, ne_eq, Bool.or_eq_true,
    beq_iff_eq] at hw
  rcases hc with rfl | rfl | ⟨rfl, hsecond⟩
  · exact hw.1.1 rfl
  · exact hw.1.2 rfl
  · obtain ⟨ds, rfl⟩ := hrest
    rcases hw.2 with hdot | hdot
    · exact hdot rfl
    · rw [List.head?_append, hdot] at hsecond
      exact hsecond rfl

end Formula

def Begins (text : List Char) (t : Terminal) (p : Nat) : Prop :=
  ∃ k n, Gap text p k ∧ t.read? (text.drop k) = some n

def expressionFirsts : List Terminal :=
  [.name, .word "(", .word "nil", .word "false", .word "true", .word "0", .digits, .quoted,
    .word "...", .word "function", .word "\x7b", .word "-", .word "not", .word "#", .word "~"]

/-- The terminals with which a category begins, where they matter. -/
def Category.firsts : Category → Option (List Terminal)
  | .variable | .prefixExpr | .call => some [.name, .word "("]
  | .string => some [.quoted]
  | .table => some [.word "\x7b"]
  | .args => some [.word "(", .word "\x7b", .quoted]
  | .exprTail => some [.word ","]
  | .sign => some [.word "+", .word "-"]
  | .unaryOp => some [.word "-", .word "not", .word "#", .word "~"]
  | .hexNumeral => some [.word "0"]
  | .decimalNumeral => some [.digits]
  | .numeral => some [.word "0", .digits]
  | .expr | .entry | .exprs => some expressionFirsts
  | _ => none

/-- Whether the first symbol of a production agrees with the table. -/
def Production.firstsAgree (r : Production) : Bool :=
  match r.category.firsts with
  | none => true
  | some ts =>
    match r.symbols with
    | .terminal t :: _ => ts.contains t
    | .category c :: _ => c.firsts.any (·.all ts.contains)
    | [] => false

theorem Production.firstsAgree_eq_true : r.firstsAgree = true := by
  cases r <;> decide

def Begun (text : List Char) (c : Category) (p : Nat) : Prop :=
  ∀ ts, c.firsts = some ts → ∃ t ∈ ts, Begins text t p

theorem Begun.of_steps {text : List Char} {Q : Category → Nat → Nat → Int → Prop} {r : Production}
    {p q : Nat} {w : Int} (hQ : ∀ c p q w, Q c p q w → Begun text c p)
    (h : Steps text Q r.symbols p q w) : Begun text r.category p := by
  intro ts hts
  have hagree := r.firstsAgree_eq_true
  rw [Production.firstsAgree, hts] at hagree
  cases hsymbols : r.symbols with
  | nil =>
    rw [hsymbols] at hagree
    cases hagree
  | cons symbol symbols =>
    rw [hsymbols] at hagree h
    cases symbol with
    | terminal t =>
      obtain ⟨k, n, -, hgap, hread, -⟩ := h
      exact ⟨t, contains_iff_mem.mp hagree, k, n, hgap, hread⟩
    | category c =>
      obtain ⟨m, u, v, hc, -⟩ := h
      dsimp only at hagree
      cases hus : c.firsts with
      | none =>
        rw [hus] at hagree
        cases hagree
      | some us =>
        rw [hus, Option.any_some] at hagree
        obtain ⟨t, ht, hbegins⟩ := hQ c p m u hc us hus
        exact ⟨t, contains_iff_mem.mp (all_eq_true.mp hagree t ht), hbegins⟩

namespace Formula

theorem InOperator.not_begun {text : List Char} {p : Nat} (htext : Plain text)
    (h : InOperator (text.drop p)) : ¬Begun text .expr p := by
  intro hbegun
  obtain ⟨c, cs, hcs, hc⟩ := h
  obtain ⟨t, ht, k, n, hgap, hread⟩ := hbegun _ rfl
  obtain rfl := gap_eq htext hcs (isBlank_of_class (by decide) hc) hgap
  rw [hcs] at hread
  have hall : (expressionFirsts.all fun t => ['=', '<', '>', '/'].all (!t.admits ·)) = true := by
    decide
  have hmem : c ∈ ['=', '<', '>', '/'] := by
    simpa [isSecond, or_assoc] using hc
  have hadmits := all_eq_true.mp (all_eq_true.mp hall t ht) c hmem
  rw [admits_of_read? hread] at hadmits
  cases hadmits

end Formula

end LuaInterpreter
