import LuaInterpreter.Proofs.Expression.Numerals

/-!
# Readings of formulas

All that the grammar can make of the tokens of a formula. Since there is no division into tokens
before the grammar is applied, an operator can be read as a name, and words can be read at the front
of longer ones. A name in the wrong place costs weight, and from the middle of a token no reading
goes on.
-/

namespace LuaInterpreter

open Scan List Terminal

namespace Formula

variable {text : List Char} {p q k n : Nat} {w v : Int} {m m' : Mode} {t : Token}
  {ts us mid : List Token}

/-! ## What can be read -/

/-- The tokens `mid` are read up to `q`. A reading that stops where an operand is due has taken an
operator for a name. -/
structure Reading (text : List Char) (ts : List Token) (q : Nat) (w : Int) (m : Mode)
    (mid us : List Token) : Prop where
  split : ts = mid ++ us
  after : After text q us
  runs : run mid (.operand, 0) = some (m, 0)
  weight : w + m.penalty ≤ -(names mid : Int)

theorem Reading.due (h : Reading text ts q w m mid us) (hdue : Due .operand ts) : Due m us :=
  (h.split ▸ hdue).of_append h.runs

/-- What a category can read where it occurs in a formula. -/
def Spec (text : List Char) (c : Category) (p q : Nat) (w : Int) : Prop :=
  match c with
  | .expr | .entry | .exprs => ∀ ts, At text p ts → Due .operand ts →
    (∃ m mid us, Reading text ts q w m mid us) ∨ InNumeral (text.drop q)
  | .prefixExpr => ∀ ts, At text p ts → Due .operand ts → ∃ m mid us, Reading text ts q w m mid us
  | .variable => ∀ ts, At text p ts → Due .operand ts → ∃ m t us, Reading text ts q w m [t] us
  | .call => ∀ ts, At text p ts → Due .operand ts →
    ∃ mid us, Reading text ts q (w + 1) .operator mid us
  | .args => ∀ ts m, At text p ts → Due m ts → m = .operand ∧
    ∃ mid us, ts = .lparen :: (mid ++ .rparen :: us) ∧ After text q us ∧
      run mid (.operand, 0) = some (.operator, 0) ∧ w ≤ -(names mid : Int)
  | .numeral | .decimalNumeral => ∀ ts, At text p ts → Due .operand ts →
    ∃ n us, ts = .atom (.numeral n) :: us ∧ w = 0 ∧ (After text q us ∨ InNumeral (text.drop q))
  | .hexNumeral => ∀ ts, At text p ts → ¬Due .operand ts
  | .compareOp | .shiftOp | .sumOp | .productOp => w = 0 ∧
    ∃ op : BinaryOp, op.link = .category c ∧ WordRead text op.symbol p q
  | .unaryOp => w = 0 ∧ ∃ op : UnaryOp, WordRead text op.symbol p q
  | .sign => w = 0 ∧ ∃ s : Sign, WordRead text s.word p q
  | _ => True

/-- What is known of a category that has been read. -/
def Known (text : List Char) (c : Category) (p q : Nat) (w : Int) : Prop :=
  Begun text c p ∧ Spec text c p q w

/-! ## One step -/

variable {s : String} {symbols : List Symbol} {op : BinaryOp} {r : Production}

variable {Q : Category → Nat → Nat → Int → Prop} {c : Category}

theorem steps_word (h : Steps text Q (.terminal (.word s) :: symbols) p q w) :
    ∃ p', WordRead text s p p' ∧ Steps text Q symbols p' q w := by
  obtain ⟨k, n, v, hgap, hread, hsteps, rfl⟩ := h
  rw [show (word s).weight = 0 from rfl, Int.zero_add]
  exact ⟨k + n, ⟨k, n, hgap, hread, rfl⟩, hsteps⟩

theorem steps_lone (h : Steps text Q [.terminal (.word s)] p q w) :
    w = 0 ∧ WordRead text s p q := by
  obtain ⟨p', hword, rfl, rfl⟩ := steps_word h
  exact ⟨rfl, hword⟩

section

variable (htext : Plain text)
include htext

theorem not_begins_quoted : ¬Begins text .quoted p := by
  rintro ⟨k, n, -, hread⟩
  cases hcs : text.drop k with
  | nil =>
    rw [hcs] at hread
    cases hread
  | cons c cs =>
    have hplain := htext.drop k
    rw [hcs] at hread hplain
    have hc := hplain.char c (.head _)
    have hadmits := admits_of_read? hread
    simp only [admits, Bool.or_eq_true, beq_iff_eq, or_assoc] at hadmits
    rcases hadmits with rfl | rfl | rfl <;> exact absurd hc (by decide)

omit htext in
theorem wordRead_of_begins (h : Begins text (.word s) p) : ∃ q, WordRead text s p q := by
  obtain ⟨k, n, hgap, hread⟩ := h
  exact ⟨k + n, k, n, hgap, hread, rfl⟩

theorem not_begun_table (hat : At text p ts) (hdue : Due m ts) : ¬Begun text .table p := by
  intro h
  obtain ⟨x, hx, hbegins⟩ := h _ rfl
  obtain rfl := mem_singleton.mp hx
  obtain ⟨q, hword⟩ := wordRead_of_begins hbegins
  exact WordRead.foreign htext ⟨.tableSome, by decide⟩ (by decide) (by decide) (by decide) hat hdue
    hword

theorem not_begun_string : ¬Begun text .string p := by
  intro h
  obtain ⟨x, hx, hbegins⟩ := h _ rfl
  obtain rfl := mem_singleton.mp hx
  exact not_begins_quoted htext hbegins

/-! ## Variables, calls and parentheses -/

theorem spec_variableName (h : Steps text (Known text) Production.variableName.symbols p q w) :
    Spec text .variable p q w := by
  intro ts hat hdue
  obtain ⟨k, n, v, hgap, hread, ⟨rfl, rfl⟩, rfl⟩ := h
  obtain ⟨t, us, rfl, hdrop⟩ := hat.read htext hgap ⟨.variableName, by decide⟩ hread
  rw [hdrop] at hread
  obtain ⟨rfl, m, hnext, hnames⟩ := read_name_operand hdue.isOperand hread
  refine ⟨m, t, us, rfl, .of_drop hdrop, ?_, ?_⟩
  · rw [run, hnext]
    rfl
  · rw [show name.weight = -1 from rfl, names_cons, names_nil]
    omega

theorem not_steps_foreign (hs : (word s).InGrammar) (hzero : s ≠ "0")
    (hoperand : s ∉ operandWords) (hoperator : isNoOperator s = true) (hat : At text p ts)
    (hdue : Due .operand ts) :
    ¬Steps text (Known text) (.category .prefixExpr :: .terminal (.word s) :: symbols) p q w := by
  rintro ⟨p', u, v, ⟨-, hspec⟩, hsteps, rfl⟩
  obtain ⟨m, mid, us, hreading⟩ := hspec ts hat hdue
  obtain ⟨p'', hword, -⟩ := steps_word hsteps
  exact WordRead.foreign htext hs hzero hoperand hoperator hreading.after.at (hreading.due hdue) hword

/-- No field follows: a point is the first one of the operator `..`, and no name stands behind. -/
theorem spec_variableField (h : Steps text (Known text) Production.variableField.symbols p q w) :
    Spec text .variable p q w := by
  intro ts hat hdue
  obtain ⟨p', u, v, ⟨-, hspec⟩, hsteps, rfl⟩ := h
  obtain ⟨m, mid, us, hreading⟩ := hspec ts hat hdue
  obtain ⟨p'', hword, k', n', v', hgap', hread', -⟩ := steps_word hsteps
  have hw : (word ".").InGrammar := ⟨.variableField, by decide⟩
  have hdue := hreading.due hdue
  cases m with
  | operand =>
    obtain ⟨t, us, -, hmem, -⟩ := hword.operand htext hw (by decide) hreading.after.at hdue
    exact absurd hmem (by decide)
  | operator =>
    obtain ⟨k, n, hgap, hread, rfl⟩ := hword
    obtain ⟨t, us, rfl, hdrop⟩ := hreading.after.at.read htext hgap hw hread
    rw [hdrop] at hread
    obtain ⟨rfl, rest, hrest⟩ := read_word hw hread
    obtain ⟨cs, hdrop⟩ : ∃ cs, text.drop (k + ".".length) = '.' :: cs := by
      rw [← drop_drop, hdrop, hrest]
      rcases hdue.operator with ⟨rfl, -⟩ | ⟨⟨op, rfl⟩, -⟩
      · cases hrest
      · cases op <;> cases hrest
        exact ⟨_, rfl⟩
    obtain rfl := gap_eq htext hdrop rfl hgap'
    rw [hdrop] at hread'
    cases admits_of_read? hread'

end

theorem run_parens (h : run mid (.operand, 0) = some (.operator, 0)) (d : Nat) :
    run (.lparen :: (mid ++ [.rparen])) (.operand, d) = some (.operator, d) := by
  rw [run, Token.next?, Option.bind_some, run_append_of_eq_some (run_deep h (d + 1))]
  rfl

/-- Only an operator that was taken for a name is called. -/
theorem spec_callRegular (h : Steps text (Known text) Production.callRegular.symbols p q w) :
    Spec text .call p q w := by
  intro ts hat hdue
  obtain ⟨p', u, v, ⟨-, hspec⟩, ⟨p'', u', v', ⟨-, hspec'⟩, ⟨rfl, rfl⟩, rfl⟩, rfl⟩ := h
  obtain ⟨m, mid, us, hreading⟩ := hspec ts hat hdue
  obtain ⟨rfl, mid', us', hus, hafter, hrun, hweight⟩ :=
    hspec' us m hreading.after.at (hreading.due hdue)
  refine ⟨mid ++ (.lparen :: (mid' ++ [.rparen])), us', ?_, hafter, ?_, ?_⟩
  · rw [hreading.split, hus]
    simp
  · rw [run_append_of_eq_some hreading.runs, run_parens hrun]
  · have hweight' := hreading.weight
    simp only [names_append, names_cons, names_nil, Token.names, Mode.penalty] at hweight' ⊢
    omega

/-- A parenthesis is opened only where an operand is due, and one is due behind it. -/
theorem WordRead.opens (htext : Plain text) (h : WordRead text "(" p q) (hat : At text p ts)
    (hdue : Due m ts) :
    m = .operand ∧ ∃ us, ts = .lparen :: us ∧ After text q us ∧ Due .operand us := by
  cases m with
  | operator =>
    exact absurd h (WordRead.not_operator htext ⟨.prefixParen, by decide⟩ (by decide) hat hdue)
  | operand =>
    obtain ⟨us, rfl, hafter⟩ := h.lparen htext hat hdue
    obtain ⟨d, m', d', hnext, hdue⟩ := hdue.of_cons
    cases hnext
    exact ⟨rfl, us, rfl, hafter, hdue⟩

theorem closed_of_steps {c : Category} (htext : Plain text)
    (hc : ∀ p q w, Spec text c p q w → ∀ ts, At text p ts → Due .operand ts →
      (∃ m mid us, Reading text ts q w m mid us) ∨ InNumeral (text.drop q))
    (h : Steps text (Known text) [.category c, .terminal (.word ")")] p q w) (hat : At text p ts)
    (hdue : Due .operand ts) : ∃ mid us, ts = mid ++ .rparen :: us ∧ After text q us ∧
      run mid (.operand, 0) = some (.operator, 0) ∧ w ≤ -(names mid : Int) := by
  obtain ⟨p', u, v, ⟨-, hspec⟩, hsteps, rfl⟩ := h
  obtain ⟨rfl, hword⟩ := steps_lone hsteps
  rcases hc _ _ _ hspec ts hat hdue with ⟨m, mid, us, hreading⟩ | hdead
  · obtain ⟨rfl, us', rfl, hafter⟩ := hword.rparen htext hreading.after.at (hreading.due hdue)
    have hweight := hreading.weight
    exact ⟨mid, us', hreading.split, hafter, hreading.runs, by omega⟩
  · exact absurd hword (hdead.not_wordRead htext (by decide))

theorem spec_argsSome (htext : Plain text)
    (h : Steps text (Known text) Production.argsSome.symbols p q w) : Spec text .args p q w := by
  intro ts m hat hdue
  obtain ⟨p', hword, hsteps⟩ := steps_word h
  obtain ⟨rfl, us, rfl, hafter, hdue⟩ := hword.opens htext hat hdue
  obtain ⟨mid, us', rfl, hclosed⟩ := closed_of_steps htext (fun _ _ _ => id) hsteps hafter.at hdue
  exact ⟨rfl, mid, us', rfl, hclosed⟩

theorem spec_argsNone (htext : Plain text)
    (h : Steps text (Known text) Production.argsNone.symbols p q w) : Spec text .args p q w := by
  intro ts m hat hdue
  obtain ⟨p', hword, hsteps⟩ := steps_word h
  obtain ⟨p'', hword', -⟩ := steps_word hsteps
  obtain ⟨-, us, -, hafter, hdue⟩ := hword.opens htext hat hdue
  cases (hword'.rparen htext hafter.at hdue).1

theorem spec_prefixParen (htext : Plain text)
    (h : Steps text (Known text) Production.prefixParen.symbols p q w) :
    Spec text .prefixExpr p q w := by
  intro ts hat hdue
  obtain ⟨p', hword, hsteps⟩ := steps_word h
  obtain ⟨-, us, rfl, hafter, hdue⟩ := hword.opens htext hat hdue
  obtain ⟨mid, us', rfl, hafter', hrun, hweight⟩ :=
    closed_of_steps htext (fun _ _ _ => id) hsteps hafter.at hdue
  refine ⟨.operator, .lparen :: (mid ++ [.rparen]), us', by simp, hafter', run_parens hrun 0, ?_⟩
  simp only [names_append, names_cons, names_nil, Token.names, Mode.penalty]
  omega

/-! ## Operations -/

theorem rule_eq_of_link {op' : BinaryOp} (h : op'.link = op.link) : op'.rule = op.rule := by
  revert op op'
  decide

theorem link_read (h : Steps text (Known text) [op.link] p q w) :
    w = 0 ∧ ∃ op' : BinaryOp, op'.rule = op.rule ∧ WordRead text op'.symbol p q := by
  cases hchoice : op.choice? with
  | none =>
    have hlink : op.link = .terminal (.word op.symbol) := by rw [BinaryOp.link, hchoice]
    rw [hlink] at h
    exact (steps_lone h).imp_right (⟨op, rfl, ·⟩)
  | some r =>
    have hlink : op.link = .category r.category := by rw [BinaryOp.link, hchoice]
    rw [hlink] at h
    obtain ⟨p', u, v, ⟨-, hspec⟩, ⟨rfl, rfl⟩, rfl⟩ := h
    have hspec : u = 0 ∧ ∃ op' : BinaryOp, op'.link = .category r.category ∧
        WordRead text op'.symbol p q := by
      cases op <;> cases hchoice <;> exact hspec
    obtain ⟨rfl, op', hlink', hword⟩ := hspec
    exact ⟨rfl, op', rule_eq_of_link (hlink'.trans hlink.symm), hword⟩

theorem spec_choice (op : BinaryOp) (hchoice : op.choice? = some r)
    (h : Steps text (Known text) r.symbols p q w) : Spec text r.category p q w := by
  have hsymbols : r.symbols = [.terminal (.word op.symbol)] := by
    cases op <;> cases hchoice <;> rfl
  have hlink : op.link = .category r.category := by rw [BinaryOp.link, hchoice]
  rw [hsymbols] at h
  obtain ⟨rfl, hword⟩ := steps_lone h
  have hspec : (0 : Int) = 0 ∧ ∃ op : BinaryOp, op.link = .category r.category ∧
      WordRead text op.symbol p q := ⟨rfl, op, hlink, hword⟩
  cases op <;> cases hchoice <;> exact hspec

/-- The first operand and the operator are read: the tokens `mid`, and a token `t`, which is an
operator of the same production unless an operator was taken for a name before it. -/
structure Linked (text : List Char) (r : Production) (ts : List Token) (q : Nat) (w : Int) (m : Mode)
    (mid : List Token) (t : Token) (us : List Token) : Prop where
  split : ts = mid ++ t :: us
  after : After text q us
  runs : run mid (.operand, 0) = some (m, 0)
  next : t.next? (m, 0) = some (.operand, 0)
  weight : w + m.penalty ≤ -(names mid : Int)
  binary : m = .operator → ∃ op : BinaryOp, t = .binary op ∧ op.rule = r

theorem Linked.names_eq (h : Linked text r ts q w m mid t us) : t.names = 0 := by
  have hnext := h.next
  cases t with
  | atom a => cases m <;> cases hnext
  | _ => rfl

theorem Linked.due (h : Linked text r ts q w m mid t us) (hdue : Due .operand ts) :
    Due .operand us := by
  rw [h.split] at hdue
  exact (hdue.of_append h.runs).next h.next

theorem linked_of_steps (htext : Plain text)
    (h : Steps text (Known text) [.category .expr, op.link] p q w) (hat : At text p ts)
    (hdue : Due .operand ts) :
    (∃ m mid t us, Linked text op.rule ts q w m mid t us) ∨ InOperator (text.drop q) := by
  obtain ⟨p', u, v, ⟨-, hspec⟩, hlink, rfl⟩ := h
  obtain ⟨rfl, op', hrule, hword⟩ := link_read hlink
  rcases hspec ts hat hdue with ⟨m, mid, us, hreading⟩ | hdead
  · have hweight : u + 0 + m.penalty ≤ -(names mid : Int) := by
      rw [Int.add_zero]
      exact hreading.weight
    cases m with
    | operand =>
      obtain ⟨op, us', rfl, hafter⟩ :=
        hword.exists_unary htext hreading.after.at (hreading.due hdue)
      exact .inl ⟨_, mid, _, us', hreading.split, hafter, hreading.runs, rfl, hweight, nofun⟩
    | operator =>
      rcases hword.operator htext hreading.after.at (hreading.due hdue) with ⟨us', rfl, hafter⟩ | hin
      · exact .inl ⟨_, mid, _, us', hreading.split, hafter, hreading.runs, rfl, hweight,
          fun _ => ⟨op', rfl, hrule⟩⟩
      · exact .inr hin
  · exact absurd hword (hdead.not_wordRead htext (by cases op' <;> decide))

theorem Reading.of_rest {ts' : List Token} (hsplit : ts = mid ++ ts')
    (hrun : run mid (.operand, 0) = some (.operand, 0)) (hweight : v ≤ -(names mid : Int))
    {mid' : List Token} (h : Reading text ts' q w m mid' us) :
    Reading text ts q (v + w) m (mid ++ mid') us where
  split := by rw [hsplit, h.split, append_assoc]
  after := h.after
  runs := by rw [run_append_of_eq_some hrun, h.runs]
  weight := by
    have hweight' := h.weight
    rw [names_append]
    omega

theorem spec_binary (op : BinaryOp) (htext : Plain text)
    (h : Steps text (Known text) op.rule.symbols p q w) : Spec text .expr p q w := by
  intro ts hat hdue
  rw [op.symbols_rule] at h
  obtain ⟨p', u, v, hlink, ⟨q', v', _, ⟨hbegun, hspec⟩, ⟨rfl, rfl⟩, rfl⟩, rfl⟩ :=
    @Steps.of_append text _ [.category .expr, op.link] [.category .expr] p q w h
  rcases linked_of_steps htext hlink hat hdue with ⟨m, mid, t, us, hlinked⟩ | hin
  · rcases hspec us hlinked.after.at (hlinked.due hdue) with ⟨m', mid', us', hreading⟩ | hdead
    · refine .inl ⟨m', mid ++ [t] ++ mid', us', ?_⟩
      rw [Int.add_zero]
      refine hreading.of_rest ?_ ?_ ?_
      · rw [hlinked.split, append_assoc, singleton_append]
      · rw [run_append_of_eq_some hlinked.runs, run, hlinked.next]
        rfl
      · have hweight := hlinked.weight
        have hnames := hlinked.names_eq
        rw [names_append, names_cons, names_nil]
        omega
    · exact .inr hdead
  · exact absurd hbegun (hin.not_begun htext)

theorem unary_inGrammar (op : UnaryOp) : (word op.symbol).InGrammar := by
  cases op
  · exact ⟨.unaryNegate, by decide⟩
  · exact ⟨.unaryNot, by decide⟩
  · exact ⟨.unaryLength, by decide⟩
  · exact ⟨.unaryBitNot, by decide⟩

theorem WordRead.unary {op : UnaryOp} (htext : Plain text) (h : WordRead text op.symbol p q)
    (hat : At text p ts) (hdue : Due .operand ts) :
    ∃ us, ts = .unary op :: us ∧ After text q us := by
  obtain ⟨t, us, rfl, -, ht, hchars, hafter⟩ :=
    h.operand htext (unary_inGrammar op) (by cases op <;> decide) hat hdue
  obtain rfl : t = .unary op := eq_of_chars ht (by cases op <;> simp [operandTokens]) hchars
  exact ⟨us, rfl, hafter⟩

theorem spec_exprUnary (htext : Plain text)
    (h : Steps text (Known text) Production.exprUnary.symbols p q w) : Spec text .expr p q w := by
  intro ts hat hdue
  obtain ⟨p', u, v, ⟨-, rfl, op, hword⟩, ⟨q', v', _, ⟨-, hspec⟩, ⟨rfl, rfl⟩, rfl⟩, rfl⟩ := h
  obtain ⟨us, rfl, hafter⟩ := hword.unary htext hat hdue
  rcases hspec us hafter.at (hdue.next rfl) with ⟨m, mid, us', hreading⟩ | hdead
  · have hfirst : .unary op :: us = [.unary op] ++ us := rfl
    rw [Int.add_zero]
    exact .inl ⟨m, [.unary op] ++ mid, us', hreading.of_rest hfirst rfl (Int.le_refl 0)⟩
  · exact .inr hdead

/-! ## Constants -/

theorem constant_steps {a : Atom} {s : String} (htext : Plain text)
    (hs : (word s).InGrammar) (ha : .atom a ∈ operandTokens) (hchars : a.chars = s.toList)
    (hzero : s ≠ "0") (h : Steps text (Known text) [.terminal (.word s)] p q w) (hat : At text p ts)
    (hdue : Due .operand ts) : ∃ us, Reading text ts q w .operator [.atom a] us := by
  obtain ⟨rfl, hword⟩ := steps_lone h
  obtain ⟨t, us, rfl, -, ht, hchars', hafter⟩ := hword.operand htext hs hzero hat hdue
  obtain rfl : t = .atom a := eq_of_chars ht ha (hchars'.trans hchars.symm)
  have hnames : (Token.atom a).names = 0 := by
    cases a with
    | name x => simp [operandTokens] at ha
    | _ => rfl
  exact ⟨us, rfl, hafter, rfl, by simp [hnames, Mode.penalty]⟩

theorem sign_of_known (h : Known text .sign p q w) : w = 0 ∧ ∃ s : Sign, WordRead text s.word p q :=
  h.2

theorem spec_decimal (htext : Plain text) (hr : r.category = .decimalNumeral)
    (h : Steps text (Known text) r.symbols p q w) : Spec text .decimalNumeral p q w := by
  intro ts hat hdue
  obtain ⟨n, us, hts, hw, hend⟩ :=
    decimal_steps htext (fun _ _ _ => sign_of_known) hr h hat hdue
  exact ⟨n, us, hts, hw, hend.imp_left And.right⟩

theorem spec_hex (htext : Plain text) (hr : r.category = .hexNumeral)
    (h : Steps text (Known text) r.symbols p q w) : Spec text .hexNumeral p q w := by
  intro ts hat hdue
  obtain ⟨rest, hrest⟩ : ∃ rest,
      r.symbols = .terminal (.word "0") :: .terminal (.either 'x' 'X') :: rest := by
    cases r <;> first | exact ⟨_, rfl⟩ | cases hr
  rw [hrest] at h
  exact not_hex_steps htext hat hdue h

/-! ## All categories -/

/-- Strings, tables, functions and variable arguments are no parts of a formula. -/
theorem not_foreign_steps (hr : r ∈ [.exprString, .exprVararg, .exprFunction, .exprTable])
    (htext : Plain text) (hat : At text p ts) (hdue : Due m ts) :
    ¬Steps text (Known text) r.symbols p q w := by
  intro h
  simp only [mem_cons, not_mem_nil, or_false] at hr
  rcases hr with rfl | rfl | rfl | rfl
  · obtain ⟨p', u, v, ⟨hbegun, -⟩, -⟩ := h
    exact not_begun_string htext hbegun
  · obtain ⟨p', hword, -⟩ := steps_word h
    exact WordRead.foreign htext ⟨.exprVararg, by decide⟩ (by decide) (by decide) (by decide) hat
      hdue hword
  · obtain ⟨p', hword, -⟩ := steps_word h
    exact WordRead.foreign htext ⟨.exprFunction, by decide⟩ (by decide) (by decide) (by decide) hat
      hdue hword
  · obtain ⟨p', u, v, ⟨hbegun, -⟩, -⟩ := h
    exact not_begun_table htext hat hdue hbegun

theorem steps_unit (h : Steps text (Known text) [.category c] p q w) : Known text c p q w := by
  obtain ⟨p', u, v, hknown, ⟨rfl, rfl⟩, rfl⟩ := h
  rwa [Int.add_zero]

theorem Reading.of_call (h : Reading text ts q (w + 1) m mid us) : Reading text ts q w m mid us where
  split := h.split
  after := h.after
  runs := h.runs
  weight := by
    have hweight := h.weight
    omega

variable (htext : Plain text)
include htext

theorem spec_exprsMore (h : Steps text (Known text) Production.exprsMore.symbols p q w) :
    Spec text .exprs p q w := by
  intro ts hat hdue
  obtain ⟨p', u, v, ⟨-, hspec⟩, ⟨q', u', v', ⟨hbegun, -⟩, -⟩, -⟩ := h
  obtain ⟨x, hx, hbegins⟩ := hbegun _ rfl
  obtain rfl := mem_singleton.mp hx
  obtain ⟨p'', hword⟩ := wordRead_of_begins hbegins
  rcases hspec ts hat hdue with ⟨m, mid, us, hreading⟩ | hdead
  · exact absurd hword (WordRead.foreign htext ⟨.exprTailOne, by decide⟩ (by decide) (by decide)
      (by decide) hreading.after.at (hreading.due hdue))
  · exact absurd hword (hdead.not_wordRead htext (by decide))

theorem spec_of_steps (r : Production) (h : Steps text (Known text) r.symbols p q w) :
    Spec text r.category p q w := by
  cases r
  case variableName => exact spec_variableName htext h
  case variableIndex =>
    exact fun ts hat hdue => absurd h (not_steps_foreign htext ⟨.variableIndex, by decide⟩ (by decide)
      (by decide) (by decide) hat hdue)
  case variableField => exact spec_variableField htext h
  case callRegular => exact spec_callRegular h
  case callMethod =>
    exact fun ts hat hdue => absurd h (not_steps_foreign htext ⟨.callMethod, by decide⟩ (by decide)
      (by decide) (by decide) hat hdue)
  case argsSome => exact spec_argsSome htext h
  case argsNone => exact spec_argsNone htext h
  case argsTable => exact fun ts m hat hdue => absurd (steps_unit h).1 (not_begun_table htext hat hdue)
  case argsString => exact absurd (steps_unit h).1 (not_begun_string htext)
  case prefixVariable =>
    intro ts hat hdue
    obtain ⟨m, t, us, hreading⟩ := (steps_unit h).2 ts hat hdue
    exact ⟨m, [t], us, hreading⟩
  case prefixCall =>
    intro ts hat hdue
    obtain ⟨mid, us, hreading⟩ := (steps_unit h).2 ts hat hdue
    exact ⟨.operator, mid, us, hreading.of_call⟩
  case prefixParen => exact spec_prefixParen htext h
  case exprsMore => exact spec_exprsMore htext h
  case exprsOne => exact (steps_unit h).2
  case entryVariable =>
    intro ts hat hdue
    obtain ⟨m, t, us, hreading⟩ := (steps_unit h).2 ts hat hdue
    exact .inl ⟨m, [t], us, hreading⟩
  case entryCall =>
    intro ts hat hdue
    obtain ⟨mid, us, hreading⟩ := (steps_unit h).2 ts hat hdue
    exact .inl ⟨.operator, mid, us, hreading.of_call⟩
  case entryExpr => exact (steps_unit h).2
  case exprNil =>
    exact fun ts hat hdue => .inl ⟨_, [.atom .litNil], constant_steps htext ⟨.exprNil, by decide⟩
      (by simp [operandTokens]) rfl (by decide) h hat hdue⟩
  case exprFalse =>
    exact fun ts hat hdue => .inl ⟨_, [.atom .litFalse], constant_steps htext ⟨.exprFalse, by decide⟩
      (by simp [operandTokens]) rfl (by decide) h hat hdue⟩
  case exprTrue =>
    exact fun ts hat hdue => .inl ⟨_, [.atom .litTrue], constant_steps htext ⟨.exprTrue, by decide⟩
      (by simp [operandTokens]) rfl (by decide) h hat hdue⟩
  case exprNumeral =>
    intro ts hat hdue
    obtain ⟨n, us, rfl, rfl, hafter | hdead⟩ := (steps_unit h).2 ts hat hdue
    · exact .inl ⟨.operator, [.atom (.numeral n)], us, rfl, hafter, rfl, Int.le_refl 0⟩
    · exact .inr hdead
  case exprString | exprVararg | exprFunction | exprTable =>
    exact fun ts hat hdue => absurd h (not_foreign_steps (by decide) htext hat hdue)
  case exprOr => exact spec_binary .or htext h
  case exprAnd => exact spec_binary .and htext h
  case exprCompare => exact spec_binary .lt htext h
  case exprBitOr => exact spec_binary .bitOr htext h
  case exprBitXor => exact spec_binary .bitXor htext h
  case exprBitAnd => exact spec_binary .bitAnd htext h
  case exprShift => exact spec_binary .shiftLeft htext h
  case exprConcat => exact spec_binary .concat htext h
  case exprSum => exact spec_binary .add htext h
  case exprProduct => exact spec_binary .multiply htext h
  case exprUnary => exact spec_exprUnary htext h
  case exprPower => exact spec_binary .power htext h
  case exprPrefix =>
    intro ts hat hdue
    exact .inl ((steps_unit h).2 ts hat hdue)
  case numeralHex => exact fun ts hat hdue => absurd hdue ((steps_unit h).2 ts hat)
  case numeralDecimal => exact (steps_unit h).2
  case hexFractionSigned | hexFractionExponent | hexFraction | hexSigned | hexExponent | hexPlain =>
    exact spec_hex htext rfl h
  case decimalFractionSigned | decimalFractionExponent | decimalFraction | decimalSigned |
      decimalExponent | decimalPlain => exact spec_decimal htext rfl h
  case compareLt => exact spec_choice .lt rfl h
  case compareLe => exact spec_choice .le rfl h
  case compareGt => exact spec_choice .gt rfl h
  case compareGe => exact spec_choice .ge rfl h
  case compareEq => exact spec_choice .eq rfl h
  case compareNe => exact spec_choice .ne rfl h
  case shiftRight => exact spec_choice .shiftRight rfl h
  case shiftLeft => exact spec_choice .shiftLeft rfl h
  case sumAdd => exact spec_choice .add rfl h
  case sumSubtract => exact spec_choice .subtract rfl h
  case productMultiply => exact spec_choice .multiply rfl h
  case productDivide => exact spec_choice .divide rfl h
  case productFloorDivide => exact spec_choice .floorDivide rfl h
  case productModulo => exact spec_choice .modulo rfl h
  case unaryNegate => exact (steps_lone h).imp_right (⟨.negate, ·⟩)
  case unaryNot => exact (steps_lone h).imp_right (⟨.not, ·⟩)
  case unaryLength => exact (steps_lone h).imp_right (⟨.length, ·⟩)
  case unaryBitNot => exact (steps_lone h).imp_right (⟨.bitNot, ·⟩)
  case signPlus => exact (steps_lone h).imp_right (⟨.plus, ·⟩)
  case signMinus => exact (steps_lone h).imp_right (⟨.minus, ·⟩)
  all_goals exact trivial

/-- Every derivation in a formula keeps to what is known of its categories. -/
theorem known_of_derives (h : Derives text symbols p q w) : Steps text (Known text) symbols p q w :=
  h.steps fun r _ _ _ hsteps => ⟨.of_steps (fun _ _ _ _ hknown => hknown.1) hsteps,
    spec_of_steps htext r hsteps⟩

theorem known_of_production (hr : r.category = c) (h : Derives text r.symbols p q w) :
    Known text c p q w := by
  subst hr
  have hunit : Derives text [.category r.category] p q (w + 0) := .category h (.nil q)
  rw [Int.add_zero] at hunit
  exact steps_unit (known_of_derives htext hunit)

end Formula

end LuaInterpreter
