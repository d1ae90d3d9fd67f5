/-!
# Syntax trees

Trees may also be made by hand: `alien` is a construct that stands where its kind has no meaning.
-/

namespace LuaInterpreter

/-- Where a construct stands: the name of its chunk and the line of its first token; a construct
that has no token of its own is at line `-1`. -/
structure Place where
  file : String := "<?>"
  line : Int := -1
deriving Repr, DecidableEq, Inhabited

structure Lexeme where
  text : String
  line : Int := -1
deriving Repr, DecidableEq, Inhabited

structure Name where
  place : Place := {}
  lexeme : Lexeme
deriving Repr, DecidableEq, Inhabited

def Name.text (n : Name) : String := n.lexeme.text

/-- A number as it is written. The parts are kept apart because blanks may stand between them. -/
inductive Numeral where
  | decimal (digits : Lexeme) (fraction exponentSign exponent : Option Lexeme)
  | hex (digits : Lexeme) (fraction exponentSign exponent : Option Lexeme)
deriving Repr, DecidableEq

inductive UnaryOp where
  | negate | not | length | bitNot
deriving Repr, DecidableEq

inductive BinaryOp where
  | or | and
  | lt | le | gt | ge | eq | ne
  | bitOr | bitXor | bitAnd | shiftLeft | shiftRight
  | concat
  | add | subtract | multiply | divide | floorDivide | modulo
  | power
deriving Repr, DecidableEq

def UnaryOp.symbol : UnaryOp → String
  | .negate => "-" | .not => "not" | .length => "#" | .bitNot => "~"

def BinaryOp.symbol : BinaryOp → String
  | .or => "or" | .and => "and"
  | .lt => "<" | .le => "<=" | .gt => ">" | .ge => ">=" | .eq => "==" | .ne => "~="
  | .bitOr => "|" | .bitXor => "~" | .bitAnd => "&"
  | .shiftLeft => "<<" | .shiftRight => ">>"
  | .concat => ".."
  | .add => "+" | .subtract => "-" | .multiply => "*" | .divide => "/"
  | .floorDivide => "//" | .modulo => "%"
  | .power => "^"

def UnaryOp.all : List UnaryOp := [.negate, .not, .length, .bitNot]

/-- All binary operators, from the loosest to the tightest. -/
def BinaryOp.all : List BinaryOp :=
  [.or, .and, .lt, .le, .gt, .ge, .eq, .ne, .bitOr, .bitXor, .bitAnd, .shiftLeft, .shiftRight,
    .concat, .add, .subtract, .multiply, .divide, .floorDivide, .modulo, .power]

def UnaryOp.ofSymbol? (s : String) : Option UnaryOp := UnaryOp.all.find? (·.symbol == s)

def BinaryOp.ofSymbol? (s : String) : Option BinaryOp := BinaryOp.all.find? (·.symbol == s)

/-- The name of a defined function: `a.b.c`, or `a.b:c` for a method. -/
structure FuncName where
  place : Place := {}
  names : List Name
  method : Bool
deriving Repr, DecidableEq

structure AttribName where
  place : Place := {}
  name : Name
  attrib : Option Name := none
deriving Repr, DecidableEq

mutual

inductive Expr where
  | mk (place : Place) (form : ExprForm)

inductive ExprForm where
  | litNil
  | litTrue
  | litFalse
  | numeral (n : Numeral)
  | string (text : Lexeme)
  /-- The name after a dot, already a string value: `a.b` is `a["b"]`. -/
  | fieldName (value : List UInt8)
  | vararg
  | paren (inner : Expr)
  | variable (name : Name)
  | index (base key : Expr)
  | table (fields : List Field)
  | function (body : FuncBody)
  | call (callee : Expr) (args : List Expr)
  | method (object : Expr) (name : Name) (args : List Expr)
  | unary (op : UnaryOp) (operand : Expr)
  | binary (op : BinaryOp) (left right : Expr)
  /-- A block standing as an expression: its value is what it returns. -/
  | block (body : Block)
  /-- A construct of another kind where an expression should stand. -/
  | alien (kind : String)

inductive Field where
  | keyed (place : Place) (key : FieldKey) (value : Expr)
  | positional (place : Place) (value : Expr)
  | alien (kind : String)

inductive FieldKey where
  | name (n : Name)
  | expr (e : Expr)
  | alien (kind : String)

inductive FuncBody where
  | mk (place : Place) (params : List Name) (vararg : Bool) (body : Block)

inductive Block where
  | mk (place : Place) (stats : List Stat) (ret : Option Stat)

inductive Stat where
  | mk (place : Place) (form : StatForm)

inductive StatForm where
  | empty
  | assign (targets values : List Expr)
  | expr (e : Expr)
  | label (name : Name)
  | break
  | goto (name : Name)
  | do (body : Block)
  | while (cond : Expr) (body : Block)
  | repeat (body : Block) (cond : Expr)
  | if (branches : List (Expr × Block)) (otherwise : Option Block)
  | for (name : Name) (start stop : Expr) (step : Option Expr) (body : Block)
  | forIn (names : List Name) (exprs : List Expr) (body : Block)
  | function (name : FuncName) (body : FuncBody)
  | localFunction (name : Name) (body : FuncBody)
  | local (names : List AttribName) (exprs : Option (List Expr))
  | return (values : Option (List Expr))
  | block (body : Block)
  /-- A construct of another kind where a statement should stand. -/
  | alien (kind : String)

end

structure Chunk where
  place : Place := {}
  block : Block

instance : Inhabited Expr := ⟨.mk {} .litNil⟩
instance : Inhabited Block := ⟨.mk {} [] none⟩
instance : Inhabited Stat := ⟨.mk {} .empty⟩
instance : Inhabited FuncBody := ⟨.mk {} [] false default⟩
instance : Inhabited Field := ⟨.alien ""⟩

def Expr.place : Expr → Place | .mk p _ => p
def Expr.form : Expr → ExprForm | .mk _ f => f
def Stat.place : Stat → Place | .mk p _ => p
def Stat.form : Stat → StatForm | .mk _ f => f
def Block.place : Block → Place | .mk p _ _ => p
def Block.stats : Block → List Stat | .mk _ ss _ => ss
def Block.ret : Block → Option Stat | .mk _ _ r => r
def FuncBody.place : FuncBody → Place | .mk p _ _ _ => p
def FuncBody.params : FuncBody → List Name | .mk _ ps _ _ => ps
def FuncBody.vararg : FuncBody → Bool | .mk _ _ v _ => v
def FuncBody.body : FuncBody → Block | .mk _ _ _ b => b

/-! ## The names of constructs -/

/-- The kind of an expression, as error traces name it. -/
def Expr.kind (e : Expr) : String :=
  match e.form with
  | .litNil => "LiteralNil"
  | .litTrue => "LiteralTrue"
  | .litFalse => "LiteralFalse"
  | .numeral (.decimal ..) => "NumeralDec"
  | .numeral (.hex ..) => "NumeralHex"
  | .string _ => "LiteralString"
  | .fieldName _ => "ParsedLiteralLuaStringExpr"
  | .vararg => "VarArgExpr"
  | .paren _ => "ParenExpression"
  | .variable _ => "VarName"
  | .index .. => "VarIndex"
  | .table _ => "TableConstructor"
  | .function _ => "FuncDef"
  | .call .. => "FuncCallRegular"
  | .method .. => "FuncCallMethod"
  | .unary .. => "UnaryOperation"
  | .binary .. => "BinaryOperation"
  | .block _ => "Block"
  | .alien kind => kind

def Stat.kind (s : Stat) : String :=
  match s.form with
  | .empty => "EmptyStatement"
  | .assign .. => "Assignment"
  | .expr e => e.kind
  | .label _ => "Label"
  | .break => "Break"
  | .goto _ => "Goto"
  | .do _ => "Do"
  | .while .. => "While"
  | .repeat .. => "Repeat"
  | .if .. => "If"
  | .for .. => "For"
  | .forIn .. => "ForIn"
  | .function .. => "FunctionStatement"
  | .localFunction .. => "LocalFunctionStatement"
  | .local .. => "LocalAssignment"
  | .return _ => "ReturnStatement"
  | .block _ => "Block"
  | .alien kind => kind

def Expr.isCall (e : Expr) : Bool :=
  match e.form with
  | .call .. | .method .. => true
  | _ => false

/-! ## Lines -/

def Place.atLine (p : Place) (line : Int) : Place := { p with line }

def Expr.atLine (line : Int) : Expr → Expr | .mk p f => .mk (p.atLine line) f
def Stat.atLine (line : Int) : Stat → Stat
  | .mk p (.expr e) => .mk (p.atLine line) (.expr (e.atLine line))
  | .mk p f => .mk (p.atLine line) f
def Block.atLine (line : Int) : Block → Block | .mk p ss r => .mk (p.atLine line) ss r
def FuncBody.atLine (line : Int) : FuncBody → FuncBody | .mk p ps v b => .mk (p.atLine line) ps v b
def Name.atLine (line : Int) (n : Name) : Name := { n with place := n.place.atLine line }
def FuncName.atLine (line : Int) (n : FuncName) : FuncName := { n with place := n.place.atLine line }
def AttribName.atLine (line : Int) (n : AttribName) : AttribName :=
  { n with place := n.place.atLine line }
def Field.atLine (line : Int) : Field → Field
  | .keyed p k v => .keyed (p.atLine line) k v
  | .positional p v => .positional (p.atLine line) v
  | .alien kind => .alien kind

/-! ## Naming the chunk

The name of the chunk reaches a construct through the constructs around it, with two exceptions:
the conditions and bodies of an `if`, and the values of table fields, stay unnamed. -/

def Place.named (file : String) (p : Place) : Place := { p with file }
def Name.stamp (file : String) (n : Name) : Name := { n with place := n.place.named file }

def AttribName.stamp (file : String) (a : AttribName) : AttribName :=
  { place := a.place.named file, name := a.name.stamp file,
    attrib := a.attrib.map (Name.stamp file) }

mutual

def Expr.stamp (file : String) : Expr → Expr
  | .mk p f => .mk (p.named file) (f.stamp file)

def ExprForm.stamp (file : String) : ExprForm → ExprForm
  | .paren e => .paren (e.stamp file)
  | .variable n => .variable (n.stamp file)
  | .index b k => .index (b.stamp file) (k.stamp file)
  | .table fs => .table (Field.stampAll file fs)
  | .function b => .function (b.stamp file)
  | .call f args => .call (f.stamp file) (Expr.stampAll file args)
  | .method o n args => .method (o.stamp file) (n.stamp file) (Expr.stampAll file args)
  | .unary op e => .unary op (e.stamp file)
  | .binary op l r => .binary op (l.stamp file) (r.stamp file)
  | .block b => .block (b.stamp file)
  | .litNil => .litNil
  | .litTrue => .litTrue
  | .litFalse => .litFalse
  | .numeral n => .numeral n
  | .string t => .string t
  | .fieldName v => .fieldName v
  | .vararg => .vararg
  | .alien kind => .alien kind

def Expr.stampAll (file : String) : List Expr → List Expr
  | [] => []
  | e :: es => e.stamp file :: Expr.stampAll file es

def Field.stamp (file : String) : Field → Field
  | .keyed p k v => .keyed (p.named file) (k.stamp file) v
  | .positional p v => .positional (p.named file) v
  | .alien kind => .alien kind

def Field.stampAll (file : String) : List Field → List Field
  | [] => []
  | f :: fs => f.stamp file :: Field.stampAll file fs

def FieldKey.stamp (file : String) : FieldKey → FieldKey
  | .name n => .name (n.stamp file)
  | .expr e => .expr (e.stamp file)
  | .alien kind => .alien kind

def FuncBody.stamp (file : String) : FuncBody → FuncBody
  | .mk p ps v b => .mk (p.named file) (ps.map (Name.stamp file)) v (b.stamp file)

def Block.stamp (file : String) : Block → Block
  | .mk p ss none => .mk (p.named file) (Stat.stampAll file ss) none
  | .mk p ss (some r) => .mk (p.named file) (Stat.stampAll file ss) (some (r.stamp file))

def Stat.stamp (file : String) : Stat → Stat
  | .mk p f => .mk (p.named file) (f.stamp file)

def Stat.stampAll (file : String) : List Stat → List Stat
  | [] => []
  | s :: ss => s.stamp file :: Stat.stampAll file ss

def StatForm.stamp (file : String) : StatForm → StatForm
  | .empty => .empty
  | .assign ts vs => .assign (Expr.stampAll file ts) (Expr.stampAll file vs)
  | .expr e => .expr (e.stamp file)
  | .label n => .label (n.stamp file)
  | .break => .break
  | .goto n => .goto (n.stamp file)
  | .do b => .do (b.stamp file)
  | .while c b => .while (c.stamp file) (b.stamp file)
  | .repeat b c => .repeat (b.stamp file) (c.stamp file)
  | .if bs none => .if bs none
  | .if bs (some b) => .if bs (some (b.stamp file))
  | .for n a z none b => .for (n.stamp file) (a.stamp file) (z.stamp file) none (b.stamp file)
  | .for n a z (some s) b =>
    .for (n.stamp file) (a.stamp file) (z.stamp file) (some (s.stamp file)) (b.stamp file)
  | .forIn ns es b => .forIn (ns.map (Name.stamp file)) (Expr.stampAll file es) (b.stamp file)
  | .function n b =>
    .function { n with place := n.place.named file, names := n.names.map (Name.stamp file) }
      (b.stamp file)
  | .localFunction n b => .localFunction (n.stamp file) (b.stamp file)
  | .local ns none => .local (ns.map (AttribName.stamp file)) none
  | .local ns (some es) =>
    .local (ns.map (AttribName.stamp file)) (some (Expr.stampAll file es))
  | .return none => .return none
  | .return (some es) => .return (some (Expr.stampAll file es))
  | .block b => .block (b.stamp file)
  | .alien kind => .alien kind

end

def Chunk.stamp (file : String) (c : Chunk) : Chunk :=
  { place := c.place.named file, block := c.block.stamp file }

end LuaInterpreter
