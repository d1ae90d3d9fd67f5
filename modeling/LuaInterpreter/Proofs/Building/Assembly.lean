import Mathlib.Data.List.Forall2
import LuaInterpreter.Syntax.Reader

/-!
# Assembling pieces

What a production makes of its parts, seen from outside: if the parts are pieces of its symbols,
there is a piece of its category, and that piece has the statements of the parts, in their order,
after one of its own if the production makes one. This is where grammar and syntax trees meet, one
production at a time.
-/

namespace LuaInterpreter

open List

/-! ## The statements of a syntax tree -/

inductive StatKind where
  | empty | assign | call | label | break | goto | do | while | repeat | if | for | forIn |
  function | localFunction | local | return
deriving DecidableEq

def StatForm.statement? : StatForm → Option StatKind
  | .empty => some .empty
  | .assign .. => some .assign
  | .expr _ => some .call
  | .label _ => some .label
  | .break => some .break
  | .goto _ => some .goto
  | .do _ => some .do
  | .while .. => some .while
  | .repeat .. => some .repeat
  | .if .. => some .if
  | .for .. => some .for
  | .forIn .. => some .forIn
  | .function .. => some .function
  | .localFunction .. => some .localFunction
  | .local .. => some .local
  | .return _ => some .return
  | .block _ | .alien _ => none

mutual

/-- The statements in an expression, each with its line, in the order in which they begin. -/
def Expr.statements : Expr → List (StatKind × Int)
  | .mk _ f => f.statements

def ExprForm.statements : ExprForm → List (StatKind × Int)
  | .paren e | .unary _ e => e.statements
  | .index b k | .binary _ b k => b.statements ++ k.statements
  | .table fs => Field.statementsAll fs
  | .function b => b.statements
  | .call f args | .method f _ args => f.statements ++ Expr.statementsAll args
  | .block b => b.statements
  | _ => []

def Expr.statementsAll : List Expr → List (StatKind × Int)
  | [] => []
  | e :: es => e.statements ++ Expr.statementsAll es

def Field.statements : Field → List (StatKind × Int)
  | .keyed _ k v => k.statements ++ v.statements
  | .positional _ v => v.statements
  | .alien _ => []

def Field.statementsAll : List Field → List (StatKind × Int)
  | [] => []
  | f :: fs => f.statements ++ Field.statementsAll fs

def FieldKey.statements : FieldKey → List (StatKind × Int)
  | .expr e => e.statements
  | _ => []

def FuncBody.statements : FuncBody → List (StatKind × Int)
  | .mk _ _ _ b => b.statements

def Block.statements : Block → List (StatKind × Int)
  | .mk _ ss none => Stat.statementsAll ss
  | .mk _ ss (some r) => Stat.statementsAll ss ++ r.statements

def Stat.statements : Stat → List (StatKind × Int)
  | .mk p f => (f.statement?.map fun k => (k, p.line)).toList ++ f.statements

def Stat.statementsAll : List Stat → List (StatKind × Int)
  | [] => []
  | s :: ss => s.statements ++ Stat.statementsAll ss

def StatForm.statements : StatForm → List (StatKind × Int)
  | .assign ts vs => Expr.statementsAll ts ++ Expr.statementsAll vs
  | .expr e => e.statements
  | .do b | .block b => b.statements
  | .while c b => c.statements ++ b.statements
  | .repeat b c => b.statements ++ c.statements
  | .if bs none => Stat.branchStatements bs
  | .if bs (some b) => Stat.branchStatements bs ++ b.statements
  | .for _ a z none b => a.statements ++ z.statements ++ b.statements
  | .for _ a z (some s) b => a.statements ++ z.statements ++ s.statements ++ b.statements
  | .forIn _ es b => Expr.statementsAll es ++ b.statements
  | .function _ b | .localFunction _ b => b.statements
  | .local _ (some es) | .return (some es) => Expr.statementsAll es
  | _ => []

def Stat.branchStatements : List (Expr × Block) → List (StatKind × Int)
  | [] => []
  | (e, b) :: bs => e.statements ++ b.statements ++ Stat.branchStatements bs

end

@[simp]
theorem Expr.statementsAll_eq (es : List Expr) :
    Expr.statementsAll es = es.flatMap Expr.statements := by
  induction es with
  | nil => rfl
  | cons e es ih => rw [Expr.statementsAll, ih, flatMap_cons]

@[simp]
theorem Field.statementsAll_eq (fs : List Field) :
    Field.statementsAll fs = fs.flatMap Field.statements := by
  induction fs with
  | nil => rfl
  | cons f fs ih => rw [Field.statementsAll, ih, flatMap_cons]

@[simp]
theorem Stat.statementsAll_eq (ss : List Stat) :
    Stat.statementsAll ss = ss.flatMap Stat.statements := by
  induction ss with
  | nil => rfl
  | cons s ss ih => rw [Stat.statementsAll, ih, flatMap_cons]

@[simp]
theorem Stat.branchStatements_eq (bs : List (Expr × Block)) :
    Stat.branchStatements bs = bs.flatMap fun b => b.1.statements ++ b.2.statements := by
  induction bs with
  | nil => rfl
  | cons b bs ih => rw [Stat.branchStatements, ih, flatMap_cons]

@[simp]
theorem Expr.statements_atLine (e : Expr) (line : Int) :
    (e.atLine line).statements = e.statements := by
  cases e
  rfl

@[simp]
theorem Field.statements_atLine (f : Field) (line : Int) :
    (f.atLine line).statements = f.statements := by
  cases f <;> rfl

@[simp]
theorem Block.statements_atLine (b : Block) (line : Int) :
    (b.atLine line).statements = b.statements := by
  rcases b with ⟨p, ss, _ | r⟩ <;> rfl

@[simp]
theorem FuncBody.statements_atLine (b : FuncBody) (line : Int) :
    (b.atLine line).statements = b.statements := by
  cases b
  rfl

theorem Stat.statements_eq (s : Stat) :
    s.statements =
      (s.form.statement?.map fun kind => (kind, s.place.line)).toList ++ s.form.statements := by
  cases s
  rfl

theorem Stat.statements_atLine (s : Stat) (line : Int) :
    (s.atLine line).statements =
      (s.form.statement?.map fun kind => (kind, line)).toList ++ s.form.statements := by
  rcases s with ⟨p, f⟩
  cases f with
  | expr e => exact congrArg _ (e.statements_atLine line)
  | _ => rfl

theorem Stat.place_atLine (s : Stat) (line : Int) : (s.atLine line).place.line = line := by
  rcases s with ⟨p, f⟩
  cases f <;> rfl

/-- The kind of statement that a production makes. A label and a conditional have a category of
their own, whose productions make them. -/
def Production.statement? : Production → Option StatKind
  | .statEmpty => some .empty
  | .statAssign => some .assign
  | .statCall => some .call
  | .label => some .label
  | .statBreak => some .break
  | .statGoto => some .goto
  | .statDo => some .do
  | .statWhile => some .while
  | .statRepeat => some .repeat
  | .ifElseifsElse | .ifElseifs | .ifElse | .ifOnly => some .if
  | .statForStep | .statFor => some .for
  | .statForIn => some .forIn
  | .statFunction => some .function
  | .statLocalFunction => some .localFunction
  | .statLocalAssign | .statLocal => some .local
  | .returnValuesEnd | .returnValues | .returnEnd | .returnBare => some .return
  | _ => none

/-! ## Pieces of symbols -/

inductive Build.Role where
  | word (w : String)
  | token | binaryOp | unaryOp | name | attrib | names | attribName | attribNames | funcName |
  params | funcBody | numeral | expr | exprs | field | fields | separator | block | stat | stats |
  branch | branches | chunk
deriving DecidableEq

def Category.role : Category → Build.Role
  | .chunk => .chunk
  | .block | .otherwise => .block
  | .stats => .stats
  | .stat | .conditional | .ret | .label => .stat
  | .elseifs => .branches
  | .elseif => .branch
  | .attribNames | .attribNameTail => .attribNames
  | .attribName => .attribName
  | .attrib => .attrib
  | .funcName => .funcName
  | .funcNameTail | .names | .nameTail => .names
  | .variables | .variableTail | .exprs | .exprTail | .args => .exprs
  | .variable | .entry | .expr | .prefixExpr | .call | .table | .string => .expr
  | .funcBody => .funcBody
  | .params => .params
  | .fields | .fieldTail => .fields
  | .field => .field
  | .separator => .separator
  | .compareOp | .shiftOp | .sumOp | .productOp => .binaryOp
  | .unaryOp => .unaryOp
  | .numeral | .hexNumeral | .decimalNumeral => .numeral
  | .sign => .token

def Symbol.role : Symbol → Build.Role
  | .terminal .name => .name
  | .terminal (.word w) => .word w
  | .terminal _ => .token
  | .category c => c.role

namespace Build

/-- The pieces that have a role. The tokens of words and of operators are known by their text. -/
inductive Piece.Has : Role → Piece → Prop
  | word {w : String} (l : Lexeme) : l.text = w → Has (.word w) (.token l)
  | token (l : Lexeme) : Has .token (.token l)
  | binaryOp (l : Lexeme) (op : BinaryOp) :
      BinaryOp.ofSymbol? l.text = some op → Has .binaryOp (.token l)
  | unaryOp (l : Lexeme) (op : UnaryOp) :
      UnaryOp.ofSymbol? l.text = some op → Has .unaryOp (.token l)
  | name (n : Name) : Has .name (.name n)
  | attrib (n : Option Name) : Has .attrib (.attrib n)
  | names (ns : List Name) : Has .names (.names ns)
  | attribName (n : AttribName) : Has .attribName (.attribName n)
  | attribNames (ns : List AttribName) : Has .attribNames (.attribNames ns)
  | funcName (n : FuncName) : Has .funcName (.funcName n)
  | params (ns : List Name) (v : Bool) : Has .params (.params ns v)
  | funcBody (b : FuncBody) : Has .funcBody (.funcBody b)
  | numeral (n : Numeral) : Has .numeral (.numeral n)
  | expr (e : Expr) : Has .expr (.expr e)
  | exprs (es : List Expr) : Has .exprs (.exprs es)
  | field (f : Field) : Has .field (.field f)
  | fields (fs : List Field) : Has .fields (.fields fs)
  | separator : Has .separator .separator
  | block (b : Block) : Has .block (.block b)
  | stat (s : Stat) : Has .stat (.stat s)
  | stats (ss : List Stat) : Has .stats (.stats ss)
  | branch (b : Expr × Block) : Has .branch (.branch b)
  | branches (bs : List (Expr × Block)) : Has .branches (.branches bs)
  | chunk (c : Chunk) : Has .chunk (.chunk c)

abbrev HaveAll (symbols : List Symbol) (parts : List Piece) : Prop :=
  List.Forall₂ Piece.Has (symbols.map Symbol.role) parts

def Piece.statements : Piece → List (StatKind × Int)
  | .funcBody b => b.statements
  | .expr e => e.statements
  | .exprs es => Expr.statementsAll es
  | .field f => f.statements
  | .fields fs => Field.statementsAll fs
  | .block b => b.statements
  | .stat s => s.statements
  | .stats ss => Stat.statementsAll ss
  | .branch (e, b) => e.statements ++ b.statements
  | .branches bs => Stat.branchStatements bs
  | .chunk c => c.block.statements
  | _ => []

/-- What a production makes of its parts: a statement of its own kind around those of the parts;
if it has no kind, its only part, or something with the statements of its parts. -/
def Piece.Makes (piece : Piece) (parts : List Piece) : Option StatKind → Prop
  | some kind => ∃ s, piece = .stat s ∧ s.form.statement? = some kind ∧
      s.form.statements = parts.flatMap Piece.statements
  | none => parts = [piece] ∨
      (∀ s, piece ≠ .stat s) ∧ piece.statements = parts.flatMap Piece.statements

theorem Piece.Makes.statements_eq {piece : Piece} {parts : List Piece}
    (h : piece.Makes parts none) : piece.statements = parts.flatMap Piece.statements := by
  rcases h with rfl | ⟨-, h⟩
  · exact (flatMap_singleton ..).symm
  · exact h

/-! ## Assembling -/

section Assemble

attribute [local simp] Piece.statements Expr.statements ExprForm.statements Field.statements
  FieldKey.statements FuncBody.statements Block.statements StatForm.statements

/-- Whatever pieces of its symbols a production gets, it makes a piece of its category. -/
theorem assemble_eq_some {r : Production} {parts : List Piece} (h : HaveAll r.symbols parts) :
    ∃ piece, assemble r parts = some piece ∧ piece.Has r.category.role ∧
      piece.Makes parts r.statement? := by
  cases r with
  -- These look the operator up that one of their parts spells.
  | exprCompare | exprShift | exprSum | exprProduct =>
    rcases h with _ | ⟨ha, _ | ⟨hl, _ | ⟨hb, ⟨⟩⟩⟩⟩
    cases ha with | expr a
    cases hl with | binaryOp l op hop
    cases hb with | expr b
    refine ⟨.expr (.mk {} (.binary op a b)), ?_, .expr _, ?_⟩
    · exact (congrArg (Option.bind · _) hop).trans rfl
    · exact .inr ⟨nofun, by simp⟩
  | exprUnary =>
    rcases h with _ | ⟨hl, _ | ⟨ha, ⟨⟩⟩⟩
    cases hl with | unaryOp l op hop
    cases ha with | expr a
    refine ⟨.expr (.mk {} (.unary op a)), ?_, .expr _, ?_⟩
    · exact (congrArg (Option.bind · _) hop).trans rfl
    · exact .inr ⟨nofun, by simp⟩
  -- These pass a token on, whose text has to be that of an operator.
  | compareLt | compareLe | compareGt | compareGe | compareEq | compareNe | shiftRight | shiftLeft
  | sumAdd | sumSubtract | productMultiply | productDivide | productFloorDivide | productModulo =>
    rcases h with _ | ⟨hl, ⟨⟩⟩
    cases hl with | word l hw
    exact ⟨.token l, rfl, .binaryOp l _ ((congrArg _ hw).trans rfl), .inl rfl⟩
  | unaryNegate | unaryNot | unaryLength | unaryBitNot =>
    rcases h with _ | ⟨hl, ⟨⟩⟩
    cases hl with | word l hw
    exact ⟨.token l, rfl, .unaryOp l _ ((congrArg _ hw).trans rfl), .inl rfl⟩
  -- The rest is decided by the kinds of the parts, and these by the symbols.
  | _ =>
    repeat (rcases h with _ | ⟨hp, h⟩; cases hp)
    cases h
    refine ⟨_, rfl, by constructor, ?_⟩
    first
      | exact .inl rfl
      | exact .inr ⟨nofun, by simp⟩
      | exact ⟨_, rfl, rfl, by simp [Stat.form]⟩

end Assemble

end Build

end LuaInterpreter
