import LuaInterpreter.Syntax.Ast
import LuaInterpreter.Syntax.Chart

/-!
# From text to syntax trees

A derivation tree is turned into a syntax tree, unless a reserved word was read as a name or there
is a `repeat` loop, for which no syntax tree is made.
-/

namespace LuaInterpreter

inductive SyntaxError where
  | unreadable (u : Unreadable) (text : List Char)
  | reserved (word : String)
  | unsupported (what : String)
deriving Repr, DecidableEq

/-! ## Building -/

namespace Build

inductive Piece where
  | token (l : Lexeme)
  | name (n : Name)
  | attrib (n : Option Name)
  | names (ns : List Name)
  | attribName (n : AttribName)
  | attribNames (ns : List AttribName)
  | funcName (n : FuncName)
  | params (ns : List Name) (vararg : Bool)
  | funcBody (b : FuncBody)
  | numeral (n : Numeral)
  | expr (e : Expr)
  | exprs (es : List Expr)
  | field (f : Field)
  | fields (fs : List Field)
  | separator
  | block (b : Block)
  | stat (s : Stat)
  | stats (ss : List Stat)
  | branch (b : Expr × Block)
  | branches (bs : List (Expr × Block))
  | chunk (c : Chunk)

/-- Puts a piece at a line; a list puts each of its elements there. -/
def Piece.atLine (line : Int) : Piece → Piece
  | .token l => .token { l with line }
  | .name n => .name (n.atLine line)
  | .attrib n => .attrib (n.map (Name.atLine line))
  | .names ns => .names (ns.map (Name.atLine line))
  | .attribName n => .attribName (n.atLine line)
  | .attribNames ns => .attribNames (ns.map (AttribName.atLine line))
  | .funcName n => .funcName (n.atLine line)
  | .params ns v => .params ns v
  | .funcBody b => .funcBody (b.atLine line)
  | .numeral n => .numeral n
  | .expr e => .expr (e.atLine line)
  | .exprs es => .exprs (es.map (Expr.atLine line))
  | .field f => .field (f.atLine line)
  | .fields fs => .fields (fs.map (Field.atLine line))
  | .separator => .separator
  | .block b => .block (b.atLine line)
  | .stat s => .stat (s.atLine line)
  | .stats ss => .stats ss
  | .branch (e, b) => .branch (e.atLine line, b.atLine line)
  | .branches bs => .branches bs
  | .chunk c => .chunk { c with place := c.place.atLine line }

/-- A production that only passes something on, or that adds to the tail of a list, leaves the
lines of its parts alone. -/
def keepsLines : Production → Bool
  | .statsOne | .statsMore | .elseifsOne | .elseifsMore | .otherwise
  | .attribNameTailOne | .attribNameTailMore | .funcNameTailOne | .funcNameTailMore
  | .variableTailOne | .variableTailMore | .nameTailOne | .nameTailMore
  | .exprTailOne | .exprTailMore | .fieldTailOne | .fieldTailMore => true
  | _ => false

private def expr (f : ExprForm) : Option Piece := some (.expr (.mk {} f))
private def stat (f : StatForm) : Option Piece := some (.stat (.mk {} f))

private def binary (op : BinaryOp) : List Piece → Option Piece
  | [.expr l, .token _, .expr r] => expr (.binary op l r)
  | _ => none

private def binaryOf : List Piece → Option Piece
  | [.expr l, .token op, .expr r] => do
    let op ← BinaryOp.ofSymbol? op.text
    expr (.binary op l r)
  | _ => none

/-- The bytes of a name; names are made of letters, digits and underscores only. -/
def nameBytes (s : String) : List UInt8 := s.toList.map fun c => c.toNat.toUInt8

private def funcName (names : List Name) (method : Option Name) : Option Piece :=
  some (.funcName { names := names ++ method.toList, method := method.isSome })

/-- What a production makes of its parts; `none` if they are not of the kinds it has. -/
def assemble : Production → List Piece → Option Piece
  | .chunk, [.block b] => some (.chunk { block := b })
  | .blockStatsReturn, [.stats ss, .stat r] => some (.block (.mk {} ss (some r)))
  | .blockStats, [.stats ss] => some (.block (.mk {} ss none))
  | .blockReturn, [.stat r] => some (.block (.mk {} [] (some r)))
  | .blockEmpty, _ => some (.block (.mk {} [] none))
  | .statsOne, [.stat s] => some (.stats [s])
  | .statsMore, [.stats ss, .stat s] => some (.stats (ss ++ [s]))
  | .statEmpty, _ => stat .empty
  | .statAssign, [.exprs ts, _, .exprs vs] => stat (.assign ts vs)
  | .statCall, [.expr e] => some (.stat (.mk e.place (.expr e)))
  | .statLabel, [.stat s] | .statIf, [.stat s] => some (.stat s)
  | .statBreak, _ => stat .break
  | .statGoto, [_, .name n] => stat (.goto n)
  | .statDo, [_, .block b, _] => stat (.do b)
  | .statWhile, [_, .expr c, _, .block b, _] => stat (.while c b)
  | .statRepeat, [_, .block b, _, .expr c] => stat (.repeat b c)
  | .statForStep, [_, .name n, _, .expr a, _, .expr z, _, .expr s, _, .block b, _] =>
    stat (.for n a z (some s) b)
  | .statFor, [_, .name n, _, .expr a, _, .expr z, _, .block b, _] => stat (.for n a z none b)
  | .statForIn, [_, .names ns, _, .exprs es, _, .block b, _] => stat (.forIn ns es b)
  | .statFunction, [_, .funcName n, .funcBody b] => stat (.function n b)
  | .statLocalFunction, [_, _, .name n, .funcBody b] => stat (.localFunction n b)
  | .statLocalAssign, [_, .attribNames ns, _, .exprs es] => stat (.local ns (some es))
  | .statLocal, [_, .attribNames ns] => stat (.local ns none)
  | .ifElseifsElse, [_, .expr c, _, .block b, .branches bs, .block e, _] =>
    stat (.if ((c, b) :: bs) (some e))
  | .ifElseifs, [_, .expr c, _, .block b, .branches bs, _] => stat (.if ((c, b) :: bs) none)
  | .ifElse, [_, .expr c, _, .block b, .block e, _] => stat (.if [(c, b)] (some e))
  | .ifOnly, [_, .expr c, _, .block b, _] => stat (.if [(c, b)] none)
  | .elseifsOne, [.branch b] => some (.branches [b])
  | .elseifsMore, [.branches bs, .branch b] => some (.branches (bs ++ [b]))
  | .elseif, [_, .expr c, _, .block b] => some (.branch (c, b))
  | .otherwise, [_, .block b] => some (.block b)
  | .attribNamesMore, [.attribName n, .attribNames ns] => some (.attribNames (n :: ns))
  | .attribNamesOne, [.attribName n] => some (.attribNames [n])
  | .attribNameTailOne, [_, .attribName n] => some (.attribNames [n])
  | .attribNameTailMore, [.attribNames ns, _, .attribName n] => some (.attribNames (ns ++ [n]))
  | .attribName, [.name n, .attrib a] => some (.attribName { name := n, attrib := a })
  | .attribSome, [_, .name n, _] => some (.attrib (some n))
  | .attribNone, _ => some (.attrib none)
  | .returnValuesEnd, [_, .exprs es, _] => stat (.return (some es))
  | .returnValues, [_, .exprs es] => stat (.return (some es))
  | .returnEnd, _ | .returnBare, _ => stat (.return none)
  | .label, [_, .name n, _] => stat (.label n)
  | .funcNameTailMethod, [.name n, .names ns, _, .name m] => funcName (n :: ns) (some m)
  | .funcNameTail, [.name n, .names ns] => funcName (n :: ns) none
  | .funcNameMethod, [.name n, _, .name m] => funcName [n] (some m)
  | .funcNameOne, [.name n] => funcName [n] none
  | .funcNameTailOne, [_, .name n] | .nameTailOne, [_, .name n] => some (.names [n])
  | .funcNameTailMore, [.names ns, _, .name n] | .nameTailMore, [.names ns, _, .name n] =>
    some (.names (ns ++ [n]))
  | .variablesMore, [.expr e, .exprs es] | .exprsMore, [.expr e, .exprs es] =>
    some (.exprs (e :: es))
  | .variablesOne, [.expr e] | .exprsOne, [.expr e] => some (.exprs [e])
  | .variableTailOne, [_, .expr e] | .exprTailOne, [_, .expr e] => some (.exprs [e])
  | .variableTailMore, [.exprs es, _, .expr e] | .exprTailMore, [.exprs es, _, .expr e] =>
    some (.exprs (es ++ [e]))
  | .variableName, [.name n] => expr (.variable n)
  | .variableIndex, [.expr b, _, .expr k, _] => expr (.index b k)
  | .variableField, [.expr b, _, .name n] =>
    expr (.index b (.mk {} (.fieldName (nameBytes n.text))))
  | .namesMore, [.name n, .names ns] => some (.names (n :: ns))
  | .namesOne, [.name n] => some (.names [n])
  | .entryVariable, [.expr e] | .entryCall, [.expr e] | .entryExpr, [.expr e]
  | .exprPrefix, [.expr e] | .prefixVariable, [.expr e] | .prefixCall, [.expr e]
  | .exprString, [.expr e] | .exprTable, [.expr e] => some (.expr e)
  | .exprNil, _ => expr .litNil
  | .exprFalse, _ => expr .litFalse
  | .exprTrue, _ => expr .litTrue
  | .exprNumeral, [.numeral n] => expr (.numeral n)
  | .exprVararg, _ => expr .vararg
  | .exprFunction, [_, .funcBody b] => expr (.function b)
  | .exprOr, parts => binary .or parts
  | .exprAnd, parts => binary .and parts
  | .exprBitOr, parts => binary .bitOr parts
  | .exprBitXor, parts => binary .bitXor parts
  | .exprBitAnd, parts => binary .bitAnd parts
  | .exprConcat, parts => binary .concat parts
  | .exprPower, parts => binary .power parts
  | .exprCompare, parts | .exprShift, parts | .exprSum, parts | .exprProduct, parts =>
    binaryOf parts
  | .exprUnary, [.token op, .expr e] => do
    let op ← UnaryOp.ofSymbol? op.text
    expr (.unary op e)
  | .prefixParen, [_, .expr e, _] => expr (.paren e)
  | .callRegular, [.expr f, .exprs args] => expr (.call f args)
  | .callMethod, [.expr o, _, .name n, .exprs args] => expr (.method o n args)
  | .argsSome, [_, .exprs es, _] => some (.exprs es)
  | .argsNone, _ => some (.exprs [])
  | .argsTable, [.expr e] | .argsString, [.expr e] => some (.exprs [e])
  | .funcBodyParams, [_, .params ns v, _, .block b, _] => some (.funcBody (.mk {} ns v b))
  | .funcBodyBare, [_, _, .block b, _] => some (.funcBody (.mk {} [] false b))
  | .paramsNames, [.names ns] => some (.params ns false)
  | .paramsNamesVararg, [.names ns, _, _] => some (.params ns true)
  | .paramsVararg, _ => some (.params [] true)
  | .tableSome, [_, .fields fs, _] => expr (.table fs)
  | .tableEmpty, _ => expr (.table [])
  | .fieldsMoreEnd, [.field f, .fields fs, _] => some (.fields (f :: fs))
  | .fieldsMore, [.field f, .fields fs] => some (.fields (f :: fs))
  | .fieldsOneEnd, [.field f, _] => some (.fields [f])
  | .fieldsOne, [.field f] => some (.fields [f])
  | .fieldTailOne, [_, .field f] => some (.fields [f])
  | .fieldTailMore, [.fields fs, _, .field f] => some (.fields (fs ++ [f]))
  | .fieldIndexed, [_, .expr k, _, _, .expr v] => some (.field (.keyed {} (.expr k) v))
  | .fieldNamed, [.name n, _, .expr v] => some (.field (.keyed {} (.name n) v))
  | .fieldPositional, [.expr v] => some (.field (.positional {} v))
  | .separatorComma, _ | .separatorSemicolon, _ => some .separator
  | .compareLt, [.token l] | .compareLe, [.token l] | .compareGt, [.token l]
  | .compareGe, [.token l] | .compareEq, [.token l] | .compareNe, [.token l]
  | .shiftRight, [.token l] | .shiftLeft, [.token l] | .sumAdd, [.token l]
  | .sumSubtract, [.token l] | .productMultiply, [.token l] | .productDivide, [.token l]
  | .productFloorDivide, [.token l] | .productModulo, [.token l] | .unaryNegate, [.token l]
  | .unaryNot, [.token l] | .unaryLength, [.token l] | .unaryBitNot, [.token l]
  | .signPlus, [.token l] | .signMinus, [.token l] => some (.token l)
  | .string, [.token l] => expr (.string l)
  | .numeralHex, [.numeral n] | .numeralDecimal, [.numeral n] => some (.numeral n)
  | .hexFractionSigned, [_, _, .token d, _, .token f, _, .token s, .token e] =>
    some (.numeral (.hex d (some f) (some s) (some e)))
  | .hexFractionExponent, [_, _, .token d, _, .token f, _, .token e] =>
    some (.numeral (.hex d (some f) none (some e)))
  | .hexFraction, [_, _, .token d, _, .token f] => some (.numeral (.hex d (some f) none none))
  | .hexSigned, [_, _, .token d, _, .token s, .token e] =>
    some (.numeral (.hex d none (some s) (some e)))
  | .hexExponent, [_, _, .token d, _, .token e] => some (.numeral (.hex d none none (some e)))
  | .hexPlain, [_, _, .token d] => some (.numeral (.hex d none none none))
  | .decimalFractionSigned, [.token d, _, .token f, _, .token s, .token e] =>
    some (.numeral (.decimal d (some f) (some s) (some e)))
  | .decimalFractionExponent, [.token d, _, .token f, _, .token e] =>
    some (.numeral (.decimal d (some f) none (some e)))
  | .decimalFraction, [.token d, _, .token f] => some (.numeral (.decimal d (some f) none none))
  | .decimalSigned, [.token d, _, .token s, .token e] =>
    some (.numeral (.decimal d none (some s) (some e)))
  | .decimalExponent, [.token d, _, .token e] => some (.numeral (.decimal d none none (some e)))
  | .decimalPlain, [.token d] => some (.numeral (.decimal d none none none))
  | _, _ => none

/-- What a piece of text gives: a name, which may not be a reserved word, or itself. -/
def leafPiece (terminal : Terminal) (text : String) (line : Nat) : Except SyntaxError Piece :=
  if terminal = .name then
    if text ∈ reservedWords then .error (.reserved text)
    else .ok (.name { place := { line := line }, lexeme := { text } })
  else .ok (.token { text, line := line })

/-- What a production gives, at the line of its first token if it has one. -/
def nodePiece (rule : Production) (line : Option Nat) (parts : List Piece) :
    Except SyntaxError Piece :=
  if rule = .statRepeat then .error (.unsupported "stat_repeat")
  else
    match assemble rule parts with
    | none => .error (.unsupported "malformed tree")
    | some piece =>
      match line with
      | some line => .ok (if keepsLines rule then piece else piece.atLine line)
      | none => .ok piece

mutual

def build : Tree → Except SyntaxError (Piece × Option Nat)
  | .leaf terminal text line => do
    let piece ← leafPiece terminal text line
    return (piece, some line)
  | .node rule children => do
    let (parts, line) ← buildAll children
    let piece ← nodePiece rule line parts
    return (piece, line)

def buildAll : List Tree → Except SyntaxError (List Piece × Option Nat)
  | [] => return ([], none)
  | t :: ts => do
    let (piece, line) ← build t
    let (pieces, line') ← buildAll ts
    return (piece :: pieces, line <|> line')

end

end Build

/-! ## Reading -/

def readPiece (start : Category) (text : List Char) : Except SyntaxError Build.Piece :=
  match readText start text with
  | .error u => .error (.unreadable u text)
  | .ok tree => (Build.build tree).map (·.1)

def readChunk (text : String) : Except SyntaxError Chunk := do
  match ← readPiece .chunk text.toList with
  | .chunk c => return c
  | _ => .error (.unsupported "malformed tree")

def readExpr (text : String) : Except SyntaxError Expr := do
  match ← readPiece .expr text.toList with
  | .expr e => return e
  | _ => .error (.unsupported "malformed tree")

def readNumeral (text : String) : Except SyntaxError Numeral := do
  match ← readPiece .numeral text.toList with
  | .numeral n => return n
  | _ => .error (.unsupported "malformed tree")

end LuaInterpreter
