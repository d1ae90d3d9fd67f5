import LuaInterpreter.Proofs.Expression.Alternatives

/-!
# The derivation trees of formulas

The tree that follows a formula, and the readings of its single tokens, which have no alternatives.
-/

namespace LuaInterpreter

open Scan List Terminal Exponent

/-! ## Trees -/

def leafOf (t : Terminal) (cs : List Char) : Tree := .leaf t (String.ofList cs) 1

def wordLeaf (w : String) : Tree := leafOf (.word w) w.toList

def Sign.rule : Sign → Production
  | .plus => .signPlus
  | .minus => .signMinus

def Sign.tree (s : Sign) : Tree := .node s.rule [wordLeaf s.word]

def Exponent.trees (x : Exponent) : List Tree :=
  leafOf (.either 'e' 'E') [x.mark] ::
    (x.sign.toList.map Sign.tree ++ [leafOf .digits x.digits.chars])

namespace DecimalNumeral

def fractionTrees (n : DecimalNumeral) : List Tree :=
  match n.fraction with
  | none => []
  | some f => [wordLeaf ".", leafOf .digits f.chars]

def exponentTrees (n : DecimalNumeral) : List Tree :=
  match n.exponent with
  | none => []
  | some x => x.trees

def trees (n : DecimalNumeral) : List Tree :=
  leafOf .digits n.whole.chars :: (n.fractionTrees ++ n.exponentTrees)

end DecimalNumeral

def UnaryOp.rule : UnaryOp → Production
  | .negate => .unaryNegate
  | .not => .unaryNot
  | .length => .unaryLength
  | .bitNot => .unaryBitNot

def UnaryOp.tree (op : UnaryOp) : Tree := .node op.rule [wordLeaf op.symbol]

def BinaryOp.tree (op : BinaryOp) : Tree :=
  match op.choice? with
  | none => wordLeaf op.symbol
  | some r => .node r [wordLeaf op.symbol]

def Atom.trees : Atom → List Tree
  | .litNil => [wordLeaf "nil"]
  | .litTrue => [wordLeaf "true"]
  | .litFalse => [wordLeaf "false"]
  | .numeral n => [.node .numeralDecimal [.node n.rule n.trees]]
  | .name x => [.node .prefixVariable [.node .variableName [leafOf .name x.chars]]]

namespace Formula

def trees : Formula → List Tree
  | .atom a => a.trees
  | .paren e => [.node .prefixParen [wordLeaf "(", .node e.rule e.trees, wordLeaf ")"]]
  | .unary op e => [op.tree, .node e.rule e.trees]
  | .binary op l r => [.node l.rule l.trees, op.tree, .node r.rule r.trees]

variable {text cs rest : List Char} {p q s j k n : Nat} {w : Int} {t : Token} {ts us : List Token}
  {symbols : List Symbol} {children : List Tree}

/-! ## Single tokens -/

theorem lineAt_eq_one (htext : Plain text) (p : Nat) : lineAt text p = 1 := by
  rw [lineAt, count_eq_zero.mpr]
  intro hmem
  have hchar := htext.char '\n' (mem_of_mem_take hmem)
  exact absurd hchar (by decide)

theorem leaf_eq (htext : Plain text) (x : Terminal) (hdrop : text.drop k = cs ++ rest) :
    Tree.leaf x (String.ofList ((text.drop k).take cs.length)) (lineAt text k) = leafOf x cs := by
  rw [lineAt_eq_one htext, hdrop, take_left, leafOf]

theorem rigid_token {x : Terminal} (htext : Plain text) (hx : x.InGrammar) (hgap : Gap text p k)
    (hdrop : text.drop k = cs ++ rest) (hread : x.read? (cs ++ rest) = some cs.length)
    (hrest : Rigid text symbols (k + cs.length) q w children) :
    Rigid text (.terminal x :: symbols) p q (x.weight + w) (leafOf x cs :: children) := by
  rw [← hdrop] at hread
  rw [← leaf_eq htext x hdrop]
  exact .terminal hx hgap hread hrest

theorem read_word_self (w : String) (rest : List Char) :
    (word w).read? (w.toList ++ rest) = some w.toList.length := by
  rw [read?, after?_eq_some_iff.mpr rfl, Option.map_some, String.length_toList]

variable {v : String} (x : Identifier)

theorem rigid_word (htext : Plain text) (hv : (word v).InGrammar)
    (hat : At text p (t :: ts)) (hchars : t.chars = v.toList) (hafter : After text j ts) :
    Rigid text [.terminal (.word v)] p j 0 [wordLeaf v] := by
  obtain ⟨k, hgap, hdrop⟩ := hat.exists_gap htext
  obtain rfl := hafter.eq (.of_drop hdrop)
  rw [hchars] at hdrop ⊢
  exact rigid_token htext hv hgap hdrop (read_word_self v _) (.nil _)

/-- A token that is a word of the grammar goes on with a reading, if nothing else ends with it. -/
theorem preferred_word {start : Category} {r : Production} {d b : Nat} (htext : Plain text)
    (h : Preferred start text r d s b w children)
    (hsymbol : r.symbols[d]? = some (.terminal (.word v))) (hat : At text b (t :: ts))
    (hchars : t.chars = v.toList) (hafter : After text j ts)
    (hsplit : ∀ q u, Derives text (r.symbols.take d) s q u → WordRead text v q j → q = b) :
    Preferred start text r (d + 1) s j w (children ++ [wordLeaf v]) := by
  obtain ⟨k, hgap, hdrop⟩ := hat.exists_gap htext
  obtain rfl := hafter.eq (.of_drop hdrop)
  rw [hchars] at hdrop hsplit ⊢
  have hread := read_word_self v (trail ts)
  rw [← hdrop] at hread
  have hpreferred := h.terminal hsymbol hgap hread fun q u k' n' hderives hgap' hread' hend _ =>
    hsplit q u hderives ⟨k', n', hgap', hread', hend.symm⟩
  rwa [leaf_eq htext _ hdrop, show (word v).weight = 0 from rfl, Int.add_zero]
    at hpreferred

theorem not_isFinalReserved (us : List Token) : isFinalReserved (x.chars ++ trail us) = false := by
  rw [Bool.eq_false_iff]
  intro hfinal
  obtain ⟨v, hv, heq⟩ := any_eq_true.mp hfinal
  rw [Bool.or_eq_true, beq_iff_eq, beq_iff_eq] at heq
  rcases heq with heq | heq
  · have hall : (reservedWords.all fun w => w.toList.all isNameChar) = true := by decide
    have hname := all_eq_true.mp (all_eq_true.mp hall v hv)
    cases us with
    | nil =>
      rw [trail_nil, append_nil] at heq
      exact x.free v hv (heq ▸ prefix_refl _)
    | cons t us =>
      -- a blank follows the name
      have hspace := hname ' ' (heq ▸ mem_append_right _ (.head _))
      cases hspace
  · have hmem : '\n' ∈ x.chars ++ trail us := heq ▸ mem_append_right _ (.head _)
    have hplain := Token.plain_append (.atom (.name x)) (plain_trail us).1 (plain_trail us).2
    exact absurd (hplain.char '\n' hmem) (by decide)

theorem read_name_self (us : List Token) :
    name.read? (x.chars ++ trail us) = some x.chars.length := by
  have hfinal := not_isFinalReserved x us
  rw [Identifier.chars, cons_append] at hfinal ⊢
  simp only [read?, x.isNameStart, hfinal,
    spanLength_append x.isNameChar (trail_head_not_name us)]
  rfl

/-! ## Numerals -/

end Formula

namespace DecimalNumeral

def fractionSymbols (n : DecimalNumeral) : List Symbol :=
  match n.fraction with
  | none => []
  | some _ => [.terminal (.word "."), .terminal .digits]

def exponentSymbols (n : DecimalNumeral) : List Symbol :=
  match n.exponent with
  | none => []
  | some x => .terminal (.either 'e' 'E') ::
    (x.sign.toList.map (fun _ => .category .sign) ++ [.terminal .digits])

variable (n : DecimalNumeral)

theorem symbols_rule :
    n.rule.symbols = .terminal .digits :: (n.fractionSymbols ++ n.exponentSymbols) := by
  rcases n with ⟨whole, _ | fraction, _ | ⟨capital, _ | sign, digits⟩⟩ <;> rfl

theorem category_rule : n.rule.category = .decimalNumeral := by
  rcases n with ⟨whole, _ | fraction, _ | ⟨capital, _ | sign, digits⟩⟩ <;> rfl

end DecimalNumeral

variable (x : Sign)

theorem Sign.symbols_rule : x.rule.symbols = [.terminal (.word x.word)] := by
  cases x <;> rfl

theorem Sign.category_rule : x.rule.category = .sign := by
  cases x <;> rfl

namespace Formula

variable {ds : Digits} {n : DecimalNumeral} {x : Exponent}

variable (htext : Plain text)
include htext

theorem rigid_digits (hgap : Gap text p k) (hdrop : text.drop k = ds.chars ++ cs)
    (hcs : ∀ c ∈ cs.head?, c.isDigit = false)
    (hrest : Rigid text symbols (k + ds.chars.length) q w children) :
    Rigid text (.terminal .digits :: symbols) p q w (leafOf .digits ds.chars :: children) := by
  have hread : digits.read? (ds.chars ++ cs) = some ds.chars.length := by
    rw [read?, spanLength_append ds.isDigit hcs, read?.positive,
      if_neg (Nat.ne_of_gt (length_pos_of_ne_nil ds.ne_nil))]
  have hrigid := rigid_token htext ⟨.decimalPlain, by decide⟩ hgap hdrop hread hrest
  rwa [show digits.weight = 0 from rfl, Int.zero_add] at hrigid

theorem rigid_sign {y : Sign} (hdrop : text.drop p = y.char :: cs)
    (hrest : Rigid text symbols (p + 1) q w children) :
    Rigid text (.category .sign :: symbols) p q w (y.tree :: children) := by
  have hgap_eq (k : Nat) (hk : Gap text p k) : k = p := gap_eq htext hdrop (by cases y <;> rfl) hk
  have hword : text.drop p = y.word.toList ++ cs := by
    rw [hdrop]
    cases y <;> rfl
  have hchild (k : Nat) (hk : Gap text p k) :
      Rigid text y.rule.symbols k (p + 1) 0 [wordLeaf y.word] := by
    obtain rfl := hgap_eq k hk
    rw [y.symbols_rule]
    have hrigid := rigid_token htext ⟨y.rule, by cases y <;> decide⟩ hk hword (read_word_self _ cs)
      (.nil _)
    rwa [show y.word.toList.length = 1 by cases y <;> rfl] at hrigid
  have honly (k : Nat) (x : Production) (q : Nat) (v : Int) (hk : Gap text p k)
      (hx : x.category = y.rule.category) (hderives : Derives text x.symbols k q v) : x = y.rule := by
    obtain ⟨z, rfl⟩ : ∃ z : Sign, x = z.rule := by
      rw [y.category_rule] at hx
      cases x <;> first | exact ⟨.plus, rfl⟩ | exact ⟨.minus, rfl⟩ | cases hx
    rw [z.symbols_rule] at hderives
    cases hderives with
    | terminal hgap hread _ =>
      rw [hgap_eq _ (hk.trans hgap), hdrop] at hread
      have hadmits := admits_of_read? hread
      cases y <;> cases z <;> first | rfl | cases hadmits
  have hends (x : Production) (hx : x.category = y.rule.category) : x.EndsInTerminal := by
    rw [y.category_rule] at hx
    cases x <;> first | exact ⟨_, rfl⟩ | cases hx
  have hrigid := Rigid.category (by cases y <;> rfl) hends hchild honly hrest
  rwa [y.category_rule, Int.zero_add] at hrigid

theorem rigid_exponent (hp : p ≤ text.length) (hdrop : text.drop p = n.exponentChars ++ trail us) :
    ∃ j, After text j us ∧ Rigid text n.exponentSymbols p j 0 n.exponentTrees := by
  unfold DecimalNumeral.exponentSymbols DecimalNumeral.exponentTrees
  rw [DecimalNumeral.exponentChars] at hdrop
  cases hx : n.exponent with
  | none =>
    rw [hx] at hdrop
    exact ⟨p, ⟨hdrop, hp⟩, .nil p⟩
  | some x =>
    rw [hx] at hdrop
    dsimp only at hdrop ⊢
    have hmark : text.drop p = [x.mark] ++ (x.signChars ++ (x.digits.chars ++ trail us)) := by
      rw [hdrop, cons_append, append_assoc, singleton_append]
    have hread : (either 'e' 'E').read?
        ([x.mark] ++ (x.signChars ++ (x.digits.chars ++ trail us))) = some 1 := by
      rw [singleton_append, read?, mark]
      cases x.capital <;> rfl
    have hrest : text.drop (p + 1) = x.signChars ++ (x.digits.chars ++ trail us) := by
      rw [drop_add_one_eq_tail_drop, hmark]
      rfl
    have hin : (either 'e' 'E').InGrammar := ⟨.decimalExponent, by decide⟩
    cases hsign : x.sign with
    | none =>
      rw [signChars, hsign] at hrest
      refine ⟨p + 1 + x.digits.chars.length, .of_append hrest x.digits.ne_nil, ?_⟩
      rw [Exponent.trees, hsign]
      exact rigid_token htext hin (.refl p) hmark hread
        (rigid_digits htext (.refl _) hrest (Due.trail_head us) (.nil _))
    | some y =>
      rw [signChars, hsign] at hrest
      have hdigits : text.drop (p + 1 + 1) = x.digits.chars ++ trail us := by
        rw [drop_add_one_eq_tail_drop, hrest]
        rfl
      refine ⟨p + 1 + 1 + x.digits.chars.length, .of_append hdigits x.digits.ne_nil, ?_⟩
      rw [Exponent.trees, hsign]
      exact rigid_token htext hin (.refl p) hmark hread
        (rigid_sign htext hrest (rigid_digits htext (.refl _) hdigits (Due.trail_head us) (.nil _)))

theorem rigid_fraction (hp : p ≤ text.length)
    (hdrop : text.drop p = n.fractionChars ++ (n.exponentChars ++ trail us)) :
    ∃ j, After text j us ∧ Rigid text (n.fractionSymbols ++ n.exponentSymbols) p j 0
      (n.fractionTrees ++ n.exponentTrees) := by
  unfold DecimalNumeral.fractionSymbols DecimalNumeral.fractionTrees
  rw [DecimalNumeral.fractionChars] at hdrop
  cases hf : n.fraction with
  | none =>
    rw [hf] at hdrop
    exact rigid_exponent htext hp hdrop
  | some f =>
    rw [hf] at hdrop
    have hpoint : text.drop p = ".".toList ++ (f.chars ++ (n.exponentChars ++ trail us)) := hdrop
    have hrest : text.drop (p + 1) = f.chars ++ (n.exponentChars ++ trail us) := by
      rw [drop_add_one_eq_tail_drop, hdrop]
      rfl
    obtain ⟨hend, hle⟩ := drop_past hrest f.ne_nil
    obtain ⟨j, hafter, hrigid⟩ := rigid_exponent htext hle hend
    exact ⟨j, hafter, rigid_token htext ⟨.decimalFraction, by decide⟩ (.refl p) hpoint
      (read_word_self _ _) (rigid_digits htext (.refl _) hrest (exponent_head n us) hrigid)⟩

theorem rigid_numeral (hat : At text p (.atom (.numeral n) :: us)) (hafter : After text j us) :
    Rigid text n.rule.symbols p j 0 n.trees := by
  obtain ⟨k, hgap, hdrop⟩ := hat.exists_gap htext
  have hdrop : text.drop k = n.whole.chars ++ (n.fractionChars ++ (n.exponentChars ++ trail us)) := by
    rw [hdrop, Token.chars, Atom.chars, DecimalNumeral.chars, append_assoc, append_assoc]
  obtain ⟨hrest, hle⟩ := drop_past hdrop n.whole.ne_nil
  obtain ⟨j', hafter', hrigid⟩ := rigid_fraction htext hle hrest
  obtain rfl := hafter.eq hafter'
  rw [n.symbols_rule]
  exact rigid_digits htext hgap hdrop (fraction_head n us) hrigid

end Formula

end LuaInterpreter
