import LuaInterpreter.Proofs.Expression.FormulaTree

/-!
# The prevailing readings of formulas

Where a tight formula stands, the reading that follows the formula is preferred to all others.
-/

namespace LuaInterpreter

open Scan List BinaryOp

namespace Formula

variable {text : List Char} {p q s j k b : Nat} {w : Int} {t : Token} {ts us : List Token}
  {children : List Tree} {n : DecimalNumeral}

/-! ## The productions of words -/

variable {v : String}

theorem derives_word (h : Derives text [.terminal (.word v)] p q w) :
    w = 0 ∧ WordRead text v p q := by
  cases h with
  | terminal hgap hread hnil =>
    cases hnil
    exact ⟨rfl, _, _, hgap, hread, rfl⟩

theorem WordRead.of_gap (hgap : Gap text p k) (h : WordRead text v k q) : WordRead text v p q := by
  obtain ⟨k', n, hgap', hread, rfl⟩ := h
  exact ⟨k', n, hgap.trans hgap', hread, rfl⟩

theorem best_of_eq {r : Production}
    (h : ∀ x v, x.category = r.category → Derives text x.symbols s j v → x = r ∧ v ≤ w) :
    Best text r s j w := by
  intro x v hx hderives
  obtain ⟨rfl, hle⟩ := h x v hx hderives
  exact ⟨by omega, id⟩

end Formula

theorem UnaryOp.symbols_rule (op : UnaryOp) : op.rule.symbols = [.terminal (.word op.symbol)] := by
  cases op <;> rfl

theorem UnaryOp.category_rule (op : UnaryOp) : op.rule.category = .unaryOp := by
  cases op <;> rfl

variable {op : BinaryOp} {x r : Production}

theorem UnaryOp.exists_rule (h : x.category = .unaryOp) : ∃ op : UnaryOp, x = op.rule := by
  cases x <;> first
    | exact ⟨.negate, rfl⟩ | exact ⟨.not, rfl⟩ | exact ⟨.length, rfl⟩ | exact ⟨.bitNot, rfl⟩
    | cases h

theorem BinaryOp.symbols_choice (h : op.choice? = some r) :
    r.symbols = [.terminal (.word op.symbol)] := by
  cases op <;> cases h <;> rfl

theorem BinaryOp.consumes_choice (h : op.choice? = some r) : r.category.consumes = true := by
  cases op <;> cases h <;> rfl

theorem BinaryOp.exists_choice (h : op.choice? = some r) (hx : x.category = r.category) :
    ∃ op' : BinaryOp, op'.choice? = some x := by
  have hall : (BinaryOp.all.all fun op => op.choice?.all fun r => r.category.productions.all fun x =>
      BinaryOp.all.any fun op' => op'.choice? == some x) = true := by decide
  have hcase := all_eq_true.mp hall op op.mem_all
  rw [h, Option.all_some] at hcase
  have hany := all_eq_true.mp hcase x (hx ▸ x.mem_productions)
  obtain ⟨op', -, hop'⟩ := any_eq_true.mp hany
  exact ⟨op', eq_of_beq hop'⟩

namespace Formula

variable {e : Formula}

/-! ## Readings of atoms -/

/-- The reading that follows the formula is preferred, wherever the formula stands. -/
def Prevails (text : List Char) (e : Formula) : Prop :=
  ∀ s j us, Span text e.tokens s j us →
    Preferred .expr text e.rule e.rule.symbols.length s j (-(names e.tokens : Int)) e.trees

section

variable (htext : Plain text)
include htext

theorem prevails_of_word {a : Atom} {v : String} (hsymbols : a.rule.symbols = [.terminal (.word v)])
    (hchars : a.chars = v.toList) (htrees : a.trees = [wordLeaf v])
    (hnames : (Token.atom a).names = 0) : Prevails text (.atom a) := by
  intro s j us h
  have hin : (Terminal.word v).InGrammar := ⟨a.rule, by rw [hsymbols]; exact .head _⟩
  have hrigid : Rigid text a.rule.symbols s j 0 a.trees := by
    rw [hsymbols, htrees]
    exact rigid_word htext hin h.before hchars h.after
  have hweight : -(names (Formula.atom a).tokens : Int) = 0 := by
    rw [tokens, names_cons, hnames]
    rfl
  rw [hweight]
  exact hrigid.preferred htext.spaced

theorem best_decimal (h : Span text [.atom (.numeral n)] s j us) : Best text n.rule s j 0 := by
  refine best_of_eq fun x v hx hderives => ?_
  rw [n.category_rule] at hx
  obtain ⟨n', us', htokens, rfl, hend⟩ := decimal_steps htext (fun _ _ _ => sign_of_known) hx
    (known_of_derives htext hderives) h.before h.due_operand
  cases htokens
  rcases hend with ⟨hrule, -⟩ | hdead
  · exact ⟨hrule, Int.le_refl 0⟩
  · exact absurd hdead h.after.not_inNumeral

theorem best_numeralDecimal (h : Span text [.atom (.numeral n)] s j us) :
    Best text .numeralDecimal s j 0 := by
  refine best_of_eq fun x v hx hderives => ?_
  obtain ⟨-, -, -, rfl, -⟩ := (known_of_production htext hx hderives).2 _ h.before h.due_operand
  have hcases : x = .numeralDecimal ∨ x = .numeralHex := by
    revert hx
    cases x <;> decide
  rcases hcases with rfl | rfl
  · exact ⟨rfl, Int.le_refl 0⟩
  · have hhex := (steps_unit (known_of_derives htext hderives)).2
    exact absurd h.due_operand (hhex _ h.before)

theorem prevails_numeral (n : DecimalNumeral) : Prevails text (.atom (.numeral n)) := by
  intro s j us h
  have hdecimal (k : Nat) (hk : Gap text s k) :
      Preferred .expr text .numeralDecimal 1 k j 0 [.node n.rule n.trees] := by
    have hspan := h.of_gap htext hk
    refine .first_category (by rw [n.category_rule]; rfl) (by rw [n.category_rule]; rfl)
      (.inr (.inl rfl)) (fun k' hk' => ?_) fun k' hk' => best_decimal htext (hspan.of_gap htext hk')
    exact (rigid_numeral htext (hspan.of_gap htext hk').before h.after).preferred htext.spaced
  exact .first_category rfl rfl (.inr (.inl rfl)) hdecimal
    fun k hk => best_numeralDecimal htext (h.of_gap htext hk)

variable {x : Identifier} {op : BinaryOp}

theorem best_variableName (h : Span text [.atom (.name x)] s j us) :
    Best text .variableName s j (-1) := by
  intro y v hy hderives
  obtain ⟨m, t, us', hreading⟩ := (known_of_production htext hy hderives).2 _ h.before h.due_operand
  have hle : v ≤ -1 := (h.reading hreading).2.2
  have hrank : Production.variableName.rank ≤ y.rank := by
    revert hy
    cases y <;> decide
  exact ⟨by omega, fun _ => ⟨_, rfl⟩⟩

theorem best_prefixVariable (h : Span text [.atom (.name x)] s j us) :
    Best text .prefixVariable s j (-1) := by
  intro y v hy hderives
  obtain ⟨m, mid, us', hreading⟩ :=
    (known_of_production htext hy hderives).2 _ h.before h.due_operand
  have hle : v ≤ -1 := (h.reading hreading).2.2
  have hrank : Production.prefixVariable.rank ≤ y.rank := by
    revert hy
    cases y <;> decide
  refine ⟨by omega, fun hends => ?_⟩
  have hcases : y = .prefixVariable ∨ y = .prefixCall ∨ y = .prefixParen := by
    revert hy
    cases y <;> decide
  rcases hcases with rfl | rfl | rfl
  · exact hends
  · exact absurd hends (not_endsInTerminal rfl)
  · obtain ⟨p', hword, -⟩ := steps_word (known_of_derives htext hderives)
    obtain ⟨us'', htokens, -⟩ := hword.lparen htext h.before h.due_operand
    cases htokens

theorem prevails_name (x : Identifier) : Prevails text (.atom (.name x)) := by
  intro s j us h
  have hname (k : Nat) (hk : Gap text s k) :
      Rigid text Production.variableName.symbols k j (-1) [leafOf .name x.chars] := by
    obtain ⟨k', hgap, hdrop⟩ := (h.of_gap htext hk).before.exists_gap htext
    obtain rfl := h.after.eq (.of_drop hdrop)
    exact rigid_token htext ⟨.variableName, by decide⟩ hgap hdrop (read_name_self x us) (.nil _)
  have hvariable (k : Nat) (hk : Gap text s k) : Preferred .expr text .prefixVariable 1 k j (-1)
      [.node .variableName [leafOf .name x.chars]] :=
    .first_category rfl rfl (.inr (.inl rfl))
      (fun k' hk' => (hname k' (hk.trans hk')).preferred htext.spaced)
      fun k' hk' => best_variableName htext (h.of_gap htext (hk.trans hk'))
  exact .first_category rfl rfl (.inr (.inl rfl)) hvariable
    fun k hk => best_prefixVariable htext (h.of_gap htext hk)

end

/-! ## Readings of operations -/

/-- A formula goes on with a reading, if no other expression ends with it that weighs as much. -/
theorem Prevails.category {r : Production} {d b : Nat} (htext : Plain text) (he : e.Tight)
    (hprevails : Prevails text e) (h : Span text e.tokens b j us)
    (hpreferred : Preferred .expr text r d s b w children)
    (hsymbol : r.symbols[d]? = some (.category .expr))
    (hsplit : ∀ q v k (x : Production) v', Derives text (r.symbols.take d) s q v → Gap text q k →
      x.category = .expr → Derives text x.symbols k j v' →
      w + -(names e.tokens : Int) ≤ v + v' → q = b) :
    Preferred .expr text r (d + 1) s j (w + -(names e.tokens : Int))
      (children ++ [.node e.rule e.trees]) := by
  rw [← e.category_rule] at hsymbol
  refine hpreferred.category hsymbol (by rw [e.category_rule]; rfl) (.inl e.category_rule)
    (fun k hk => hprevails k j us (h.of_gap htext hk)) (fun k hk => (h.of_gap htext hk).best htext he)
    fun q v k x v' hderives hgap hx => hsplit q v k x v' hderives hgap (hx.trans e.category_rule)

theorem tokens_ne_nil (e : Formula) : e.tokens ≠ [] := by
  intro hnil
  have hrun := run_tokens e 0
  rw [hnil] at hrun
  cases hrun

theorem At.exists_after (h : At text p (ts ++ us)) (hts : ts ≠ []) : ∃ b, After text b us := by
  obtain ⟨t, ts, rfl⟩ := exists_cons_of_ne_nil hts
  rcases h with h | h
  · rw [cons_append, spell_cons, trail_append, ← append_assoc] at h
    exact ⟨_, .of_append h (append_ne_nil_of_left_ne_nil t.chars_ne_nil _)⟩
  · rw [trail_append] at h
    exact ⟨_, .of_append h (cons_ne_nil _ _)⟩

variable (htext : Plain text)
include htext

theorem best_unary {op : UnaryOp} (hat : At text s (.unary op :: ts))
    (hdue : Due .operand (.unary op :: ts)) : Best text op.rule s j 0 := by
  refine best_of_eq fun x v hx hderives => ?_
  obtain ⟨op', rfl⟩ := UnaryOp.exists_rule (hx.trans op.category_rule)
  rw [op'.symbols_rule] at hderives
  obtain ⟨rfl, hword⟩ := derives_word hderives
  obtain ⟨us, htokens, -⟩ := hword.unary htext hat hdue
  cases htokens
  exact ⟨rfl, Int.le_refl 0⟩

theorem Prevails.unary {op : UnaryOp} (he : e.Tight) (hprevails : Prevails text e) :
    Prevails text (.unary op e) := by
  intro s j us h
  have hdue : Due .operand (.unary op :: (e.tokens ++ us)) := h.due_operand
  have hat : At text s (.unary op :: (e.tokens ++ us)) := h.before
  obtain ⟨b, hb⟩ := @At.exists_after _ _ [_] _ hat (cons_ne_nil _ _)
  have hspan : Span text e.tokens b j us := ⟨hb.at, h.after, h.due, run_tokens e 0⟩
  have hfirst : Preferred .expr text .exprUnary 1 s b 0 [op.tree] := by
    refine .first_category (by rw [op.category_rule]; rfl) (by rw [op.category_rule]; rfl)
      (.inr (.inr fun x hx => ?_)) (fun k hk => ?_)
      fun k hk => best_unary htext (hat.of_gap htext hk) hdue
    · obtain ⟨op', rfl⟩ := UnaryOp.exists_rule (hx.trans op.category_rule)
      exact ⟨_, by rw [op'.symbols_rule]; rfl⟩
    · refine Rigid.preferred htext.spaced ?_
      rw [op.symbols_rule]
      exact rigid_word htext (unary_inGrammar op) (hat.of_gap htext hk) rfl hb
  have hpreferred := hprevails.category htext he hspan hfirst rfl
    fun q v _ _ _ hderives _ _ _ _ => by
      -- the operator is a whole token
      obtain ⟨-, -, op', hword⟩ := steps_unit (known_of_derives htext hderives)
      obtain ⟨us', htokens, hafter⟩ := hword.unary htext hat hdue
      cases htokens
      exact hafter.eq hb
  rw [Int.zero_add] at hpreferred
  have hnames : names (Formula.unary op e).tokens = names e.tokens := Nat.zero_add _
  rw [hnames]
  exact hpreferred

omit htext in
theorem names_paren (e : Formula) : names (Formula.paren e).tokens = names e.tokens := by
  rw [tokens, names_cons, names_append]
  exact Nat.zero_add _

theorem best_prefixParen (h : Span text (Formula.paren e).tokens s j us) :
    Best text .prefixParen s j (-(names e.tokens : Int)) := by
  intro y v hy hderives
  obtain ⟨m, mid, us', hreading⟩ :=
    (known_of_production htext hy hderives).2 _ h.before h.due_operand
  have hle := (h.reading hreading).2.2
  rw [names_paren] at hle
  have hcases : y = .prefixVariable ∨ y = .prefixCall ∨ y = .prefixParen := by
    revert hy
    cases y <;> decide
  rcases hcases with rfl | rfl | rfl
  · -- a variable is a single token
    have hvariable := (steps_unit (known_of_derives htext hderives)).2
    obtain ⟨m', t, us'', hreading'⟩ := hvariable _ h.before h.due_operand
    have hsingle := (h.reading hreading').1
    simp [tokens] at hsingle
  · -- a call has a name more
    have hcall := (steps_unit (known_of_derives htext hderives)).2
    obtain ⟨mid', us'', hreading'⟩ := hcall _ h.before h.due_operand
    have hlt := (h.reading hreading').2.2
    rw [names_paren] at hlt
    exact ⟨.inl (by omega), fun hends => absurd hends (not_endsInTerminal rfl)⟩
  · exact ⟨by omega, id⟩

/-- Between parentheses stands one expression, which ends before the closing one. -/
theorem closing_begin {mid : List Token} (hat : At text s (.lparen :: (mid ++ .rparen :: us)))
    (hdue : Due .operand (.lparen :: (mid ++ .rparen :: us))) (hb : After text b (.rparen :: us))
    (hj : After text j us) (hderives : Derives text [.terminal (.word "("), .category .expr] s q w)
    (hword : WordRead text ")" q j) : q = b := by
  obtain ⟨p', hopen, hsteps⟩ := steps_word (known_of_derives htext hderives)
  obtain ⟨us', htokens, hafter⟩ := hopen.lparen htext hat hdue
  cases htokens
  obtain ⟨d, m', d', hnext, hdue⟩ := hdue.of_cons
  cases hnext
  rcases (steps_unit hsteps).2 _ hafter.at hdue with ⟨m, mid', us', hreading⟩ | hdead
  · obtain ⟨-, us'', rfl, hafter'⟩ := hword.rparen htext hreading.after.at (hreading.due hdue)
    have hsplit := hreading.split
    rw [append_cons, append_cons mid'] at hsplit
    obtain ⟨-, rfl⟩ := hj.split hafter' hsplit
    exact hreading.after.eq hb
  · exact absurd hword (hdead.not_wordRead htext (by decide))

theorem Prevails.paren (he : e.Tight) (hprevails : Prevails text e) : Prevails text (.paren e) := by
  intro s j us h
  have htokens : (Formula.paren e).tokens ++ us = .lparen :: (e.tokens ++ .rparen :: us) := by
    rw [tokens, cons_append, append_assoc, singleton_append]
  have hdue := h.due_operand
  rw [htokens] at hdue
  obtain ⟨d, hd⟩ := h.due
  have hdue' : Due .operator (.rparen :: us) := ⟨d + 1, hd⟩
  -- inside of the parentheses
  have hinner (k : Nat) (hk : Gap text s k) : Preferred .expr text .prefixParen 3 k j
      (-(names e.tokens : Int)) [wordLeaf "(", .node e.rule e.trees, wordLeaf ")"] := by
    have hat := (h.of_gap htext hk).before
    rw [htokens] at hat
    obtain ⟨b, hb⟩ := @At.exists_after _ _ [_] _ hat (cons_ne_nil _ _)
    obtain ⟨b', hb'⟩ := hb.at.exists_after e.tokens_ne_nil
    have hspan : Span text e.tokens b b' (.rparen :: us) := ⟨hb.at, hb', hdue', run_tokens e 0⟩
    have hopen : Preferred .expr text .prefixParen 1 k b 0 [wordLeaf "("] :=
      preferred_word htext (.zero _ k) rfl hat rfl hb fun q u hderives _ => by
        cases hderives
        rfl
    have hmiddle := hprevails.category htext he hspan hopen rfl
      fun q v _ _ _ hderives _ _ _ _ => by
        obtain ⟨-, hword⟩ := derives_word hderives
        obtain ⟨us', heq, hafter⟩ := hword.lparen htext hat hdue
        cases heq
        exact hafter.eq hb
    rw [Int.zero_add] at hmiddle
    exact preferred_word htext hmiddle rfl hb'.at rfl h.after fun q u hderives hword =>
      closing_begin htext hat hdue hb' h.after hderives hword
  rw [names_paren]
  exact .first_category rfl rfl (.inr (.inl rfl)) hinner
    fun k hk => best_prefixParen htext (h.of_gap htext hk)

/-! ## Binary operations -/

theorem preferred_link (h : Preferred .expr text op.rule 1 s b w children)
    (hat : At text s (ts ++ .binary op :: us)) (hdue : Due .operand (ts ++ .binary op :: us))
    (hdue' : Due .operator (.binary op :: us)) (hb : After text b (.binary op :: us))
    (hj : After text j us) : Preferred .expr text op.rule 2 s j w (children ++ [op.tree]) := by
  have hleft {q : Nat} {v : Int} (hderives : Derives text (op.rule.symbols.take 1) s q v) :
      Derives text [.category .expr] s q v := by
    rwa [op.symbols_rule] at hderives
  cases hchoice : op.choice? with
  | none =>
    have hsymbol : op.rule.symbols[1]? = some (.terminal (.word op.symbol)) := by
      rw [op.symbols_rule, BinaryOp.link, hchoice]
      rfl
    rw [BinaryOp.tree, hchoice]
    exact preferred_word htext h hsymbol hb.at rfl hj fun q u hderives hword =>
      operand_end htext hat hdue hb hj (hleft hderives) hword
  | some r =>
    have hsymbol : op.rule.symbols[1]? = some (.category r.category) := by
      rw [op.symbols_rule, BinaryOp.link, hchoice]
      rfl
    have hchild (k : Nat) (hk : Gap text b k) :
        Preferred .expr text r r.symbols.length k j 0 [wordLeaf op.symbol] := by
      refine Rigid.preferred htext.spaced ?_
      rw [symbols_choice hchoice]
      exact rigid_word htext op.inGrammar (hb.at.of_gap htext hk) rfl hj
    have hread {x : Production} {k : Nat} {v : Int} (hx : x.category = r.category)
        (hderives : Derives text x.symbols k j v) :
        ∃ op' : BinaryOp, op'.choice? = some x ∧ v = 0 ∧ WordRead text op'.symbol k j := by
      obtain ⟨op', hop'⟩ := exists_choice hchoice hx
      rw [symbols_choice hop'] at hderives
      exact ⟨op', hop', derives_word hderives⟩
    have hbest (k : Nat) (hk : Gap text b k) : Best text r k j 0 := by
      refine best_of_eq fun x v hx hderives => ?_
      obtain ⟨op', hop', rfl, hword⟩ := hread hx hderives
      rcases hword.operator htext (hb.at.of_gap htext hk) hdue' with ⟨us', htokens, -⟩ | hin
      · cases htokens
        exact ⟨Option.some.inj (hop'.symm.trans hchoice), Int.le_refl 0⟩
      · exact absurd hin hj.not_inOperator
    have hends (x : Production) (hx : x.category = r.category) : x.EndsInTerminal := by
      obtain ⟨op', hop'⟩ := exists_choice hchoice hx
      exact ⟨_, by rw [symbols_choice hop']; rfl⟩
    have hpreferred := h.category hsymbol (consumes_choice hchoice) (.inr (.inr hends))
      hchild hbest fun q v k x v' hderives hgap hx hderives' _ => by
        obtain ⟨op', -, -, hword⟩ := hread hx hderives'
        exact operand_end htext hat hdue hb hj (hleft hderives) (hword.of_gap hgap)
    rwa [Int.add_zero, ← show op.tree = .node r [wordLeaf op.symbol] by rw [BinaryOp.tree, hchoice]]
      at hpreferred

theorem Prevails.binary {l r : Formula} (he : (Formula.binary op l r).Tight) (hl : Prevails text l)
    (hr : Prevails text r) : Prevails text (.binary op l r) := by
  intro s j us h
  have htokens : (Formula.binary op l r).tokens ++ us = l.tokens ++ .binary op :: (r.tokens ++ us) := by
    rw [tokens, append_assoc, cons_append]
  have hat := h.before
  have hdue := h.due_operand
  rw [htokens] at hat hdue
  have hdue' : Due .operator (.binary op :: (r.tokens ++ us)) := hdue.of_append (run_tokens l 0)
  obtain ⟨b, hb⟩ := hat.exists_after l.tokens_ne_nil
  obtain ⟨b', hb'⟩ := @At.exists_after _ _ [_] _ hb.at (cons_ne_nil _ _)
  have hspanl : Span text l.tokens s b (.binary op :: (r.tokens ++ us)) :=
    ⟨hat, hb, hdue', run_tokens l 0⟩
  have hspanr : Span text r.tokens b' j us := ⟨hb'.at, h.after, h.due, run_tokens r 0⟩
  have hsymbol : op.rule.symbols[0]? = some (.category .expr) := by
    rw [op.symbols_rule]
    rfl
  have hsymbol' : op.rule.symbols[2]? = some (.category .expr) := by
    rw [op.symbols_rule]
    rfl
  have hfirst := hl.category htext he.1 hspanl (.zero op.rule s) hsymbol
    fun q v _ _ _ hderives _ _ _ _ => by
      cases hderives
      rfl
  have hlink := preferred_link htext hfirst hat hdue hdue' hb hb'
  have hlast := hr.category htext he.2.1 hspanr hlink hsymbol'
    fun q v k x v' hderives hgap hx hderives' hweight => by
      rw [op.symbols_rule] at hderives
      rw [Int.zero_add] at hweight
      exact h.right_begin htext he hb' hderives hgap hx hderives' hweight
  have hnames : -(names (Formula.binary op l r).tokens : Int) =
      0 + -(names l.tokens : Int) + -(names r.tokens : Int) := by
    have hzero : (Token.binary op).names = 0 := rfl
    rw [tokens, names_append, names_cons, hzero]
    omega
  have hlength : op.rule.symbols.length = 3 := by rw [op.symbols_rule]; rfl
  rw [hnames]
  exact hlength ▸ hlast

theorem Tight.prevails (he : e.Tight) : Prevails text e := by
  induction e with
  | atom a =>
    cases a with
    | litNil | litTrue | litFalse => exact prevails_of_word htext rfl rfl rfl rfl
    | numeral n => exact prevails_numeral htext n
    | name x => exact prevails_name htext x
  | paren e ih => exact (ih he).paren htext he
  | unary op e ih => exact (ih he.1).unary htext he.1
  | binary op l r ihl ihr => exact .binary htext he (ihl he.1) (ihr he.2.1)

end Formula

end LuaInterpreter
