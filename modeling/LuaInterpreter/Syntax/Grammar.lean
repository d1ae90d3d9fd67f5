import LuaInterpreter.Syntax.Terminal

/-!
# The grammar of chunks

Of two productions that read the same text, the one listed first is preferred. So the order of the
operators among the productions of `expr` is the table of precedences.
-/

namespace LuaInterpreter

/-- The nonterminal symbols. Lists of two or more elements have a category for their tail. -/
inductive Category where
  | chunk | block | stats | stat | conditional | elseifs | elseif | otherwise | attribNames |
  attribNameTail | attribName | attrib | ret | label | funcName | funcNameTail | variables |
  variableTail | variable | names | nameTail | exprs | exprTail | entry | expr | prefixExpr | call |
  args | funcBody | params | table | fields | fieldTail | field | separator | compareOp | shiftOp |
  sumOp | productOp | unaryOp | string | numeral | sign | hexNumeral | decimalNumeral
deriving Repr, DecidableEq

inductive Symbol where
  | terminal (t : Terminal)
  | category (c : Category)
deriving Repr, DecidableEq

/-- The productions. Those of one category stand together, in order of preference. -/
inductive Production where
  | chunk
  | blockStatsReturn | blockStats | blockReturn | blockEmpty
  | statsOne | statsMore
  | statEmpty | statAssign | statCall | statLabel | statBreak | statGoto | statDo | statWhile |
  statRepeat | statIf | statForStep | statFor | statForIn | statFunction | statLocalFunction |
  statLocalAssign | statLocal
  | ifElseifsElse | ifElseifs | ifElse | ifOnly
  | elseifsOne | elseifsMore
  | elseif
  | otherwise
  | attribNamesMore | attribNamesOne
  | attribNameTailOne | attribNameTailMore
  | attribName
  | attribSome | attribNone
  | returnValuesEnd | returnValues | returnEnd | returnBare
  | label
  | funcNameTailMethod | funcNameTail | funcNameMethod | funcNameOne
  | funcNameTailOne | funcNameTailMore
  | variablesMore | variablesOne
  | variableTailOne | variableTailMore
  | variableName | variableIndex | variableField
  | namesMore | namesOne
  | nameTailOne | nameTailMore
  | exprsMore | exprsOne
  | exprTailOne | exprTailMore
  | entryVariable | entryCall | entryExpr
  | exprNil | exprFalse | exprTrue | exprNumeral | exprString | exprVararg | exprFunction |
  exprTable | exprOr | exprAnd | exprCompare | exprBitOr | exprBitXor | exprBitAnd | exprShift |
  exprConcat | exprSum | exprProduct | exprUnary | exprPower | exprPrefix
  | prefixVariable | prefixCall | prefixParen
  | callRegular | callMethod
  | argsSome | argsNone | argsTable | argsString
  | funcBodyParams | funcBodyBare
  | paramsNames | paramsNamesVararg | paramsVararg
  | tableSome | tableEmpty
  | fieldsMoreEnd | fieldsMore | fieldsOneEnd | fieldsOne
  | fieldTailOne | fieldTailMore
  | fieldIndexed | fieldNamed | fieldPositional
  | separatorComma | separatorSemicolon
  | compareLt | compareLe | compareGt | compareGe | compareEq | compareNe
  | shiftRight | shiftLeft
  | sumAdd | sumSubtract
  | productMultiply | productDivide | productFloorDivide | productModulo
  | unaryNegate | unaryNot | unaryLength | unaryBitNot
  | string
  | numeralHex | numeralDecimal
  | signPlus | signMinus
  | hexFractionSigned | hexFractionExponent | hexFraction | hexSigned | hexExponent | hexPlain
  | decimalFractionSigned | decimalFractionExponent | decimalFraction | decimalSigned |
  decimalExponent | decimalPlain
deriving Repr, DecidableEq

namespace Production

def category : Production → Category
  | .chunk => .chunk
  | .blockStatsReturn | .blockStats | .blockReturn | .blockEmpty => .block
  | .statsOne | .statsMore => .stats
  | .statEmpty | .statAssign | .statCall | .statLabel | .statBreak | .statGoto | .statDo |
  .statWhile | .statRepeat | .statIf | .statForStep | .statFor | .statForIn | .statFunction |
  .statLocalFunction | .statLocalAssign | .statLocal => .stat
  | .ifElseifsElse | .ifElseifs | .ifElse | .ifOnly => .conditional
  | .elseifsOne | .elseifsMore => .elseifs
  | .elseif => .elseif
  | .otherwise => .otherwise
  | .attribNamesMore | .attribNamesOne => .attribNames
  | .attribNameTailOne | .attribNameTailMore => .attribNameTail
  | .attribName => .attribName
  | .attribSome | .attribNone => .attrib
  | .returnValuesEnd | .returnValues | .returnEnd | .returnBare => .ret
  | .label => .label
  | .funcNameTailMethod | .funcNameTail | .funcNameMethod | .funcNameOne => .funcName
  | .funcNameTailOne | .funcNameTailMore => .funcNameTail
  | .variablesMore | .variablesOne => .variables
  | .variableTailOne | .variableTailMore => .variableTail
  | .variableName | .variableIndex | .variableField => .variable
  | .namesMore | .namesOne => .names
  | .nameTailOne | .nameTailMore => .nameTail
  | .exprsMore | .exprsOne => .exprs
  | .exprTailOne | .exprTailMore => .exprTail
  | .entryVariable | .entryCall | .entryExpr => .entry
  | .exprNil | .exprFalse | .exprTrue | .exprNumeral | .exprString | .exprVararg | .exprFunction |
  .exprTable | .exprOr | .exprAnd | .exprCompare | .exprBitOr | .exprBitXor | .exprBitAnd |
  .exprShift | .exprConcat | .exprSum | .exprProduct | .exprUnary | .exprPower | .exprPrefix =>
  .expr
  | .prefixVariable | .prefixCall | .prefixParen => .prefixExpr
  | .callRegular | .callMethod => .call
  | .argsSome | .argsNone | .argsTable | .argsString => .args
  | .funcBodyParams | .funcBodyBare => .funcBody
  | .paramsNames | .paramsNamesVararg | .paramsVararg => .params
  | .tableSome | .tableEmpty => .table
  | .fieldsMoreEnd | .fieldsMore | .fieldsOneEnd | .fieldsOne => .fields
  | .fieldTailOne | .fieldTailMore => .fieldTail
  | .fieldIndexed | .fieldNamed | .fieldPositional => .field
  | .separatorComma | .separatorSemicolon => .separator
  | .compareLt | .compareLe | .compareGt | .compareGe | .compareEq | .compareNe => .compareOp
  | .shiftRight | .shiftLeft => .shiftOp
  | .sumAdd | .sumSubtract => .sumOp
  | .productMultiply | .productDivide | .productFloorDivide | .productModulo => .productOp
  | .unaryNegate | .unaryNot | .unaryLength | .unaryBitNot => .unaryOp
  | .string => .string
  | .numeralHex | .numeralDecimal => .numeral
  | .signPlus | .signMinus => .sign
  | .hexFractionSigned | .hexFractionExponent | .hexFraction | .hexSigned | .hexExponent | .hexPlain
  => .hexNumeral
  | .decimalFractionSigned | .decimalFractionExponent | .decimalFraction | .decimalSigned |
  .decimalExponent | .decimalPlain => .decimalNumeral

private abbrev word (s : String) : Symbol := .terminal (.word s)
private abbrev either (a b : Char) : Symbol := .terminal (.either a b)
private abbrev name : Symbol := .terminal .name
private abbrev digits : Symbol := .terminal .digits
private abbrev hexDigits : Symbol := .terminal .hexDigits
private abbrev part (c : Category) : Symbol := .category c

def symbols : Production → List Symbol
  | .chunk => [part .block]
  | .blockStatsReturn => [part .stats, part .ret]
  | .blockStats => [part .stats]
  | .blockReturn => [part .ret]
  | .blockEmpty => []
  | .statsOne => [part .stat]
  | .statsMore => [part .stats, part .stat]
  | .statEmpty => [word ";"]
  | .statAssign => [part .variables, word "=", part .exprs]
  | .statCall => [part .call]
  | .statLabel => [part .label]
  | .statBreak => [word "break"]
  | .statGoto => [word "goto", name]
  | .statDo => [word "do", part .block, word "end"]
  | .statWhile => [word "while", part .expr, word "do", part .block, word "end"]
  | .statRepeat => [word "repeat", part .block, word "until", part .expr]
  | .statIf => [part .conditional]
  | .statForStep =>
    [word "for", name, word "=", part .expr, word ",", part .expr, word ",", part .expr, word "do",
      part .block, word "end"]
  | .statFor =>
    [word "for", name, word "=", part .expr, word ",", part .expr, word "do", part .block,
      word "end"]
  | .statForIn =>
    [word "for", part .names, word "in", part .exprs, word "do", part .block, word "end"]
  | .statFunction => [word "function", part .funcName, part .funcBody]
  | .statLocalFunction => [word "local", word "function", name, part .funcBody]
  | .statLocalAssign => [word "local", part .attribNames, word "=", part .exprs]
  | .statLocal => [word "local", part .attribNames]
  | .ifElseifsElse =>
    [word "if", part .expr, word "then", part .block, part .elseifs, part .otherwise, word "end"]
  | .ifElseifs => [word "if", part .expr, word "then", part .block, part .elseifs, word "end"]
  | .ifElse => [word "if", part .expr, word "then", part .block, part .otherwise, word "end"]
  | .ifOnly => [word "if", part .expr, word "then", part .block, word "end"]
  | .elseifsOne => [part .elseif]
  | .elseifsMore => [part .elseifs, part .elseif]
  | .elseif => [word "elseif", part .expr, word "then", part .block]
  | .otherwise => [word "else", part .block]
  | .attribNamesMore => [part .attribName, part .attribNameTail]
  | .attribNamesOne => [part .attribName]
  | .attribNameTailOne => [word ",", part .attribName]
  | .attribNameTailMore => [part .attribNameTail, word ",", part .attribName]
  | .attribName => [name, part .attrib]
  | .attribSome => [word "<", name, word ">"]
  | .attribNone => []
  | .returnValuesEnd => [word "return", part .exprs, word ";"]
  | .returnValues => [word "return", part .exprs]
  | .returnEnd => [word "return", word ";"]
  | .returnBare => [word "return"]
  | .label => [word "::", name, word "::"]
  | .funcNameTailMethod => [name, part .funcNameTail, word ":", name]
  | .funcNameTail => [name, part .funcNameTail]
  | .funcNameMethod => [name, word ":", name]
  | .funcNameOne => [name]
  | .funcNameTailOne => [word ".", name]
  | .funcNameTailMore => [part .funcNameTail, word ".", name]
  | .variablesMore => [part .variable, part .variableTail]
  | .variablesOne => [part .variable]
  | .variableTailOne => [word ",", part .variable]
  | .variableTailMore => [part .variableTail, word ",", part .variable]
  | .variableName => [name]
  | .variableIndex => [part .prefixExpr, word "[", part .expr, word "]"]
  | .variableField => [part .prefixExpr, word ".", name]
  | .namesMore => [name, part .nameTail]
  | .namesOne => [name]
  | .nameTailOne => [word ",", name]
  | .nameTailMore => [part .nameTail, word ",", name]
  | .exprsMore => [part .entry, part .exprTail]
  | .exprsOne => [part .entry]
  | .exprTailOne => [word ",", part .entry]
  | .exprTailMore => [part .exprTail, word ",", part .entry]
  | .entryVariable => [part .variable]
  | .entryCall => [part .call]
  | .entryExpr => [part .expr]
  | .exprNil => [word "nil"]
  | .exprFalse => [word "false"]
  | .exprTrue => [word "true"]
  | .exprNumeral => [part .numeral]
  | .exprString => [part .string]
  | .exprVararg => [word "..."]
  | .exprFunction => [word "function", part .funcBody]
  | .exprTable => [part .table]
  | .exprOr => [part .expr, word "or", part .expr]
  | .exprAnd => [part .expr, word "and", part .expr]
  | .exprCompare => [part .expr, part .compareOp, part .expr]
  | .exprBitOr => [part .expr, word "|", part .expr]
  | .exprBitXor => [part .expr, word "~", part .expr]
  | .exprBitAnd => [part .expr, word "&", part .expr]
  | .exprShift => [part .expr, part .shiftOp, part .expr]
  | .exprConcat => [part .expr, word "..", part .expr]
  | .exprSum => [part .expr, part .sumOp, part .expr]
  | .exprProduct => [part .expr, part .productOp, part .expr]
  | .exprUnary => [part .unaryOp, part .expr]
  | .exprPower => [part .expr, word "^", part .expr]
  | .exprPrefix => [part .prefixExpr]
  | .prefixVariable => [part .variable]
  | .prefixCall => [part .call]
  | .prefixParen => [word "(", part .expr, word ")"]
  | .callRegular => [part .prefixExpr, part .args]
  | .callMethod => [part .prefixExpr, word ":", name, part .args]
  | .argsSome => [word "(", part .exprs, word ")"]
  | .argsNone => [word "(", word ")"]
  | .argsTable => [part .table]
  | .argsString => [part .string]
  | .funcBodyParams => [word "(", part .params, word ")", part .block, word "end"]
  | .funcBodyBare => [word "(", word ")", part .block, word "end"]
  | .paramsNames => [part .names]
  | .paramsNamesVararg => [part .names, word ",", word "..."]
  | .paramsVararg => [word "..."]
  | .tableSome => [word "\x7b", part .fields, word "\x7d"]
  | .tableEmpty => [word "\x7b", word "\x7d"]
  | .fieldsMoreEnd => [part .field, part .fieldTail, part .separator]
  | .fieldsMore => [part .field, part .fieldTail]
  | .fieldsOneEnd => [part .field, part .separator]
  | .fieldsOne => [part .field]
  | .fieldTailOne => [part .separator, part .field]
  | .fieldTailMore => [part .fieldTail, part .separator, part .field]
  | .fieldIndexed => [word "[", part .expr, word "]", word "=", part .expr]
  | .fieldNamed => [name, word "=", part .expr]
  | .fieldPositional => [part .expr]
  | .separatorComma => [word ","]
  | .separatorSemicolon => [word ";"]
  | .compareLt => [word "<"]
  | .compareLe => [word "<="]
  | .compareGt => [word ">"]
  | .compareGe => [word ">="]
  | .compareEq => [word "=="]
  | .compareNe => [word "~="]
  | .shiftRight => [word ">>"]
  | .shiftLeft => [word "<<"]
  | .sumAdd => [word "+"]
  | .sumSubtract => [word "-"]
  | .productMultiply => [word "*"]
  | .productDivide => [word "/"]
  | .productFloorDivide => [word "//"]
  | .productModulo => [word "%"]
  | .unaryNegate => [word "-"]
  | .unaryNot => [word "not"]
  | .unaryLength => [word "#"]
  | .unaryBitNot => [word "~"]
  | .string => [.terminal .quoted]
  | .numeralHex => [part .hexNumeral]
  | .numeralDecimal => [part .decimalNumeral]
  | .signPlus => [word "+"]
  | .signMinus => [word "-"]
  | .hexFractionSigned =>
    [word "0", either 'x' 'X', hexDigits, word ".", hexDigits, either 'p' 'P', part .sign,
      hexDigits]
  | .hexFractionExponent =>
    [word "0", either 'x' 'X', hexDigits, word ".", hexDigits, either 'p' 'P', hexDigits]
  | .hexFraction => [word "0", either 'x' 'X', hexDigits, word ".", hexDigits]
  | .hexSigned => [word "0", either 'x' 'X', hexDigits, either 'p' 'P', part .sign, hexDigits]
  | .hexExponent => [word "0", either 'x' 'X', hexDigits, either 'p' 'P', hexDigits]
  | .hexPlain => [word "0", either 'x' 'X', hexDigits]
  | .decimalFractionSigned => [digits, word ".", digits, either 'e' 'E', part .sign, digits]
  | .decimalFractionExponent => [digits, word ".", digits, either 'e' 'E', digits]
  | .decimalFraction => [digits, word ".", digits]
  | .decimalSigned => [digits, either 'e' 'E', part .sign, digits]
  | .decimalExponent => [digits, either 'e' 'E', digits]
  | .decimalPlain => [digits]

/-- The place of a production in the grammar: a smaller rank is preferred. -/
def rank (p : Production) : Nat := p.ctorIdx

end Production

def Category.productions : Category → List Production
  | .chunk => [.chunk]
  | .block => [.blockStatsReturn, .blockStats, .blockReturn, .blockEmpty]
  | .stats => [.statsOne, .statsMore]
  | .stat =>
    [.statEmpty, .statAssign, .statCall, .statLabel, .statBreak, .statGoto, .statDo, .statWhile,
      .statRepeat, .statIf, .statForStep, .statFor, .statForIn, .statFunction, .statLocalFunction,
      .statLocalAssign, .statLocal]
  | .conditional => [.ifElseifsElse, .ifElseifs, .ifElse, .ifOnly]
  | .elseifs => [.elseifsOne, .elseifsMore]
  | .elseif => [.elseif]
  | .otherwise => [.otherwise]
  | .attribNames => [.attribNamesMore, .attribNamesOne]
  | .attribNameTail => [.attribNameTailOne, .attribNameTailMore]
  | .attribName => [.attribName]
  | .attrib => [.attribSome, .attribNone]
  | .ret => [.returnValuesEnd, .returnValues, .returnEnd, .returnBare]
  | .label => [.label]
  | .funcName => [.funcNameTailMethod, .funcNameTail, .funcNameMethod, .funcNameOne]
  | .funcNameTail => [.funcNameTailOne, .funcNameTailMore]
  | .variables => [.variablesMore, .variablesOne]
  | .variableTail => [.variableTailOne, .variableTailMore]
  | .variable => [.variableName, .variableIndex, .variableField]
  | .names => [.namesMore, .namesOne]
  | .nameTail => [.nameTailOne, .nameTailMore]
  | .exprs => [.exprsMore, .exprsOne]
  | .exprTail => [.exprTailOne, .exprTailMore]
  | .entry => [.entryVariable, .entryCall, .entryExpr]
  | .expr =>
    [.exprNil, .exprFalse, .exprTrue, .exprNumeral, .exprString, .exprVararg, .exprFunction,
      .exprTable, .exprOr, .exprAnd, .exprCompare, .exprBitOr, .exprBitXor, .exprBitAnd, .exprShift,
      .exprConcat, .exprSum, .exprProduct, .exprUnary, .exprPower, .exprPrefix]
  | .prefixExpr => [.prefixVariable, .prefixCall, .prefixParen]
  | .call => [.callRegular, .callMethod]
  | .args => [.argsSome, .argsNone, .argsTable, .argsString]
  | .funcBody => [.funcBodyParams, .funcBodyBare]
  | .params => [.paramsNames, .paramsNamesVararg, .paramsVararg]
  | .table => [.tableSome, .tableEmpty]
  | .fields => [.fieldsMoreEnd, .fieldsMore, .fieldsOneEnd, .fieldsOne]
  | .fieldTail => [.fieldTailOne, .fieldTailMore]
  | .field => [.fieldIndexed, .fieldNamed, .fieldPositional]
  | .separator => [.separatorComma, .separatorSemicolon]
  | .compareOp => [.compareLt, .compareLe, .compareGt, .compareGe, .compareEq, .compareNe]
  | .shiftOp => [.shiftRight, .shiftLeft]
  | .sumOp => [.sumAdd, .sumSubtract]
  | .productOp => [.productMultiply, .productDivide, .productFloorDivide, .productModulo]
  | .unaryOp => [.unaryNegate, .unaryNot, .unaryLength, .unaryBitNot]
  | .string => [.string]
  | .numeral => [.numeralHex, .numeralDecimal]
  | .sign => [.signPlus, .signMinus]
  | .hexNumeral =>
    [.hexFractionSigned, .hexFractionExponent, .hexFraction, .hexSigned, .hexExponent, .hexPlain]
  | .decimalNumeral =>
    [.decimalFractionSigned, .decimalFractionExponent, .decimalFraction, .decimalSigned,
      .decimalExponent, .decimalPlain]

theorem Production.mem_productions (p : Production) : p ∈ p.category.productions := by
  cases p <;> decide

end LuaInterpreter
