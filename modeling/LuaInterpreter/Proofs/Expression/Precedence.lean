import LuaInterpreter.Proofs.Chart.Unfolding
import LuaInterpreter.Proofs.Expression.Prevailing

/-!
# Operator precedence

A formula that is written without missing parentheses is read back as it was, so the operators bind
as tight as their levels say.
-/

namespace LuaInterpreter

open Build List Tree

/-! ## Building -/

/-- The tree gives the piece, and its first token stands on the first line. -/
def Builds (t : Tree) (piece : Piece) : Prop := build t = .ok (piece, some 1)

variable {t : Tree} {ts : List Tree} (x : Identifier) (op : BinaryOp)

theorem buildAll_of_forall₂ {pieces : List Piece} (h : List.Forall₂ Builds (t :: ts) pieces) :
    buildAll (t :: ts) = .ok (pieces, some 1) := by
  induction ts generalizing t pieces with
  | nil =>
    obtain ⟨piece, _, hpiece, hnil, rfl⟩ := forall₂_cons_left_iff.mp h
    cases hnil
    rw [buildAll, hpiece]
    rfl
  | cons u us ih =>
    obtain ⟨piece, rest, hpiece, hrest, rfl⟩ := forall₂_cons_left_iff.mp h
    rw [buildAll, hpiece, ih hrest]
    rfl

theorem builds_node (r : Production) {parts : List Piece} {piece : Piece}
    (hrepeat : r ≠ .statRepeat) (hlines : keepsLines r = false)
    (hparts : List.Forall₂ Builds (t :: ts) parts)
    (hassemble : (assemble r parts).map (Piece.atLine 1) = some piece) :
    Builds (.node r (t :: ts)) piece := by
  obtain ⟨piece, hpiece, rfl⟩ := Option.map_eq_some_iff.mp hassemble
  rw [Builds, build, buildAll_of_forall₂ hparts]
  simp only [bind, Except.bind, nodePiece, if_neg hrepeat, hpiece, hlines]
  rfl

theorem builds_leaf {t : Terminal} (ht : t ≠ .name) (cs : List Char) :
    Builds (leafOf t cs) (.token (lexeme cs)) := by
  rw [Builds, leafOf, build, leafPiece, if_neg ht]
  rfl

theorem builds_wordLeaf (w : String) : Builds (wordLeaf w) (.token (lexeme w.toList)) :=
  @builds_leaf (.word w) nofun _

theorem Identifier.not_reserved : String.ofList x.chars ∉ reservedWords := by
  intro hmem
  have hfree := x.free _ hmem
  rw [String.toList_ofList] at hfree
  exact hfree (prefix_refl _)

theorem builds_name {cs : List Char} (h : String.ofList cs ∉ reservedWords) :
    Builds (leafOf .name cs)
      (.name { place := { line := 1 }, lexeme := { text := String.ofList cs } }) := by
  rw [Builds, leafOf, build, leafPiece, if_pos rfl, if_neg h]
  rfl

theorem Sign.builds (y : Sign) : Builds y.tree (.token (lexeme [y.char])) := by
  cases y with
  | plus => exact builds_node _ nofun rfl (.cons (builds_wordLeaf "+") .nil) rfl
  | minus => exact builds_node _ nofun rfl (.cons (builds_wordLeaf "-") .nil) rfl

theorem DecimalNumeral.builds (n : DecimalNumeral) :
    Builds (.node n.rule n.trees) (.numeral n.toNumeral) := by
  have hdigits (ds : Digits) := @builds_leaf .digits nofun ds.chars
  have hmark (x : Exponent) := @builds_leaf (.either 'e' 'E') nofun [x.mark]
  have hpoint := builds_wordLeaf "."
  rcases n with ⟨whole, _ | f, _ | ⟨capital, _ | y, ds⟩⟩
  · exact builds_node _ nofun rfl (.cons (hdigits whole) .nil) rfl
  · exact builds_node _ nofun rfl (.cons (hdigits whole) (.cons (hmark _) (.cons (hdigits ds) .nil))) rfl
  · exact builds_node _ nofun rfl (.cons (hdigits whole) (.cons (hmark _) (.cons y.builds
      (.cons (hdigits ds) .nil)))) rfl
  · exact builds_node _ nofun rfl (.cons (hdigits whole) (.cons hpoint (.cons (hdigits f) .nil))) rfl
  · exact builds_node _ nofun rfl (.cons (hdigits whole) (.cons hpoint (.cons (hdigits f) (.cons (hmark _)
      (.cons (hdigits ds) .nil))))) rfl
  · exact builds_node _ nofun rfl (.cons (hdigits whole) (.cons hpoint (.cons (hdigits f) (.cons (hmark _)
      (.cons y.builds (.cons (hdigits ds) .nil)))))) rfl

theorem UnaryOp.builds (op : UnaryOp) : Builds op.tree (.token (lexeme op.symbol.toList)) := by
  have hword := builds_wordLeaf op.symbol
  cases op <;> exact builds_node _ nofun rfl (.cons hword .nil) rfl

theorem BinaryOp.builds : Builds op.tree (.token (lexeme op.symbol.toList)) := by
  have hword := builds_wordLeaf op.symbol
  cases hchoice : op.choice? with
  | none => rwa [BinaryOp.tree, hchoice]
  | some r =>
    cases op <;> cases hchoice <;> exact builds_node _ (by decide) rfl (.cons hword .nil) rfl

theorem UnaryOp.assemble_rule (op : UnaryOp) (e : Expr) :
    assemble .exprUnary [.token (lexeme op.symbol.toList), .expr e] =
      some (.expr (.mk {} (.unary op e))) := by
  cases op <;> rfl

theorem BinaryOp.assemble_rule (l r : Expr) :
    assemble op.rule [.expr l, .token (lexeme op.symbol.toList), .expr r] =
      some (.expr (.mk {} (.binary op l r))) := by
  cases op <;> rfl

namespace Formula

theorem builds_atom (a : Atom) : Builds (.node a.rule a.trees) (.expr (.mk { line := 1 } a.toForm)) := by
  cases a with
  | litNil | litTrue => exact builds_node _ nofun rfl (.cons (builds_wordLeaf _) .nil) rfl
  | litFalse => exact builds_node _ nofun rfl (.cons (builds_wordLeaf _) .nil) rfl
  | numeral n =>
    have hnumeral : Builds (.node .numeralDecimal [.node n.rule n.trees]) (.numeral n.toNumeral) :=
      builds_node _ nofun rfl (.cons n.builds .nil) rfl
    exact builds_node _ nofun rfl (.cons hnumeral .nil) rfl
  | name x =>
    have hvariable : Builds (.node .variableName [leafOf .name x.chars])
        (.expr (.mk { line := 1 } (Atom.name x).toForm)) :=
      builds_node _ nofun rfl (.cons (builds_name x.not_reserved) .nil) rfl
    have hprefix : Builds (.node .prefixVariable [.node .variableName [leafOf .name x.chars]])
        (.expr (.mk { line := 1 } (Atom.name x).toForm)) :=
      builds_node _ nofun rfl (.cons hvariable .nil) rfl
    exact builds_node _ nofun rfl (.cons hprefix .nil) rfl

variable (e : Formula)

theorem builds : Builds (.node e.rule e.trees) (.expr e.toExpr) := by
  induction e with
  | atom a => exact builds_atom a
  | paren e ih =>
    have hparen : Builds (.node .prefixParen [wordLeaf "(", .node e.rule e.trees, wordLeaf ")"])
        (.expr (Formula.paren e).toExpr) :=
      builds_node _ nofun rfl (.cons (builds_wordLeaf "(") (.cons ih (.cons (builds_wordLeaf ")") .nil)))
        rfl
    exact builds_node _ nofun rfl (.cons hparen .nil) rfl
  | unary op e ih =>
    refine builds_node .exprUnary nofun rfl (.cons op.builds (.cons ih .nil)) ?_
    rw [op.assemble_rule]
    rfl
  | binary op l r ihl ihr =>
    refine builds_node op.rule (by cases op <;> nofun) (by cases op <;> rfl)
      (.cons ihl (.cons op.builds (.cons ihr .nil))) ?_
    rw [op.assemble_rule]
    rfl

/-! ## Reading -/

theorem sizeAll_numeral_le (n : DecimalNumeral) : sizeAll n.trees ≤ 7 := by
  rcases n with ⟨whole, _ | f, _ | ⟨capital, _ | y, ds⟩⟩ <;>
    simp [DecimalNumeral.trees, DecimalNumeral.fractionTrees, DecimalNumeral.exponentTrees,
      Exponent.trees, Sign.tree, wordLeaf, leafOf, sizeAll, size]

theorem sizeAll_trees_le : sizeAll e.trees ≤ 9 * e.tokens.length := by
  induction e with
  | atom a =>
    cases a with
    | litNil | litTrue | litFalse => decide
    | numeral n =>
      have hle := sizeAll_numeral_le n
      simp only [trees, Atom.trees, tokens, sizeAll, size, length_singleton]
      omega
    | name x => simp [trees, Atom.trees, tokens, leafOf, sizeAll, size]
  | paren e ih =>
    simp only [trees, tokens, sizeAll, size, wordLeaf, leafOf, length_cons,
      length_append, length_nil]
    omega
  | unary op e ih =>
    simp only [trees, tokens, sizeAll, size, UnaryOp.tree, wordLeaf, leafOf,
      length_cons]
    omega
  | binary op l r ihl ihr =>
    have hle : op.tree.size ≤ 2 := by cases op <;> decide
    simp only [trees, tokens, sizeAll, size, length_cons, length_append]
    omega

theorem length_tokens_le (ts : List Token) : ts.length ≤ (spell ts).length := by
  have htrail (us : List Token) : us.length ≤ (trail us).length := by
    induction us with
    | nil => exact Nat.le_refl 0
    | cons t us ih =>
      rw [trail_cons, length_cons, length_cons, length_append]
      omega
  cases ts with
  | nil => exact Nat.zero_le _
  | cons t ts =>
    have hle := htrail ts
    have hpos := length_pos_of_ne_nil t.chars_ne_nil
    rw [spell_cons, length_cons, length_append]
    omega

theorem readText_spell {e : Formula} (he : e.Tight) :
    readText .expr (spell e.tokens) = .ok (.node e.rule e.trees) := by
  have htext := plain_spell e.tokens
  have hspan : Span (spell e.tokens) e.tokens 0 (spell e.tokens).length [] := by
    refine ⟨.inl ?_, ⟨drop_length, Nat.le_refl _⟩, ⟨0, rfl⟩, run_tokens e 0⟩
    rw [append_nil, drop_zero]
  have hsize : 2 * sizeAll e.trees + 1 ≤ dottedRules * ((spell e.tokens).length + 1) := by
    have htrees := sizeAll_trees_le e
    have hlength := length_tokens_le e.tokens
    rw [dottedRules]
    omega
  have hread := readText_of_preferred htext.spaced (by rw [e.category_rule]; rfl)
    (by rw [e.category_rule]; exact he.prevails htext _ _ _ hspan) (hspan.best htext he) hsize
  rwa [e.category_rule] at hread

/-- Writing a formula in which every operand binds tighter than its operator, with a blank between
any two tokens, and reading it as an expression gives the syntax tree of the formula. -/
theorem readExpr_write (e : Formula) (he : e.Tight) : readExpr e.write = .ok e.toExpr := by
  have hbuilds : build (.node e.rule e.trees) = .ok (.expr e.toExpr, some 1) := e.builds
  rw [readExpr, write, String.toList_ofList, readPiece, readText_spell he]
  dsimp only
  rw [hbuilds]
  rfl

/-- A comparison of a negation with a concatenation. -/
def comparison : Formula :=
  let x : Identifier := ⟨'x', [], by decide, nofun, by decide⟩
  let y : Identifier := ⟨'y', [], by decide, nofun, by decide⟩
  let one : Digits := ⟨['1'], nofun, all_eq_true.mp (by decide)⟩
  let two : Digits := ⟨['2'], nofun, all_eq_true.mp (by decide)⟩
  let ten : Digits := ⟨['1', '0'], nofun, all_eq_true.mp (by decide)⟩
  .binary .eq
    (.unary .not (.unary .negate
      (.binary .power (.atom (.name x)) (.atom (.numeral ⟨two, none, none⟩)))))
    (.binary .concat (.atom (.numeral ⟨one, some two, some ⟨true, some .minus, ten⟩⟩))
      (.paren (.binary .or (.atom (.name y)) (.atom .litNil))))

theorem readExpr_write_comparison :
    comparison.Tight ∧ comparison.write = "not - x ^ 2 == 1.2E-10 .. ( y or nil )" ∧
      readExpr "not - x ^ 2 == 1.2E-10 .. ( y or nil )" = .ok comparison.toExpr := by
  have htight : comparison.Tight := by
    simp [comparison, Tight, level, BinaryOp.level, UnaryOp.level]
  have hwrite : comparison.write = "not - x ^ 2 == 1.2E-10 .. ( y or nil )" := by decide
  exact ⟨htight, hwrite, hwrite ▸ readExpr_write comparison htight⟩

end Formula

end LuaInterpreter
