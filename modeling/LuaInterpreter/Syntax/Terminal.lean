/-!
# Terminals

The text is not divided into tokens first, so a keyword may be read off the front of a longer word.
-/

namespace LuaInterpreter

inductive Terminal where
  | word (text : String)
  | either (a b : Char)
  | name
  | quoted
  | digits
  | hexDigits
deriving Repr, DecidableEq

def reservedWords : List String :=
  ["and", "break", "do", "else", "elseif", "end", "false", "for", "function", "goto", "if", "in",
    "local", "nil", "not", "or", "repeat", "return", "then", "true", "until", "while"]

namespace Scan

def isNameStart (c : Char) : Bool := c.isAlpha || c == '_'

def isNameChar (c : Char) : Bool := c.isAlphanum || c == '_'

def isHexDigit (c : Char) : Bool :=
  c.isDigit || ('a' ≤ c && c ≤ 'f') || ('A' ≤ c && c ≤ 'F')

def isBlank (c : Char) : Bool :=
  c == ' ' || c == '\t' || c == '\x0c' || c == '\r' || c == '\n'

/-- The length of the longest front of `cs` whose characters satisfy `p`. -/
def spanLength (p : Char → Bool) : List Char → Nat
  | [] => 0
  | c :: cs => if p c then spanLength p cs + 1 else 0

def after? : List Char → List Char → Option (List Char)
  | [], cs => some cs
  | _ :: _, [] => none
  | p :: ps, c :: cs => if p = c then after? ps cs else none

/-- A reserved word is the last thing of the text, but for one line end. -/
def isFinalReserved (cs : List Char) : Bool :=
  reservedWords.any fun w => w.toList == cs || w.toList ++ ['\n'] == cs

/-- The length of a quoted text up to its closing quote, given the text after the opening one. A
backslash takes the next character with it, which may not be a line end. -/
def quotedLength (quote : Char) : List Char → Option Nat
  | [] => none
  | '\\' :: c :: cs => if c = '\n' then none else (quotedLength quote cs).map (· + 2)
  | c :: cs =>
    if c = quote then some 1 else if c = '\\' then none else (quotedLength quote cs).map (· + 1)

/-- The length up to and including the first occurrence of `close`. -/
def lengthThrough (close : List Char) : List Char → Option Nat
  | [] => if close = [] then some 0 else none
  | c :: cs =>
    match after? close (c :: cs) with
    | some _ => some close.length
    | none => (lengthThrough close cs).map (· + 1)

/-- The length of a long bracket: `[`, some `=`, `[`, any text, `]`, as many `=`, `]`. -/
def longBracketLength : List Char → Option Nat
  | '[' :: cs =>
    let level := spanLength (· == '=') cs
    match cs.drop level with
    | '[' :: body =>
      (lengthThrough (']' :: List.replicate level '=' ++ [']']) body).map (· + level + 2)
    | _ => none
  | _ => none

end Scan

open Scan

def Terminal.read? (t : Terminal) (cs : List Char) : Option Nat :=
  match t with
  | .word text => (after? text.toList cs).map fun _ => text.length
  | .either a b =>
    match cs with
    | c :: _ => if c = a ∨ c = b then some 1 else none
    | [] => none
  | .name =>
    match cs with
    | c :: rest =>
      if isNameStart c && !isFinalReserved cs then some (spanLength isNameChar rest + 1) else none
    | [] => none
  | .quoted =>
    match cs with
    | '"' :: rest => (quotedLength '"' rest).map (· + 1)
    | '\'' :: rest => (quotedLength '\'' rest).map (· + 1)
    | '[' :: _ => longBracketLength cs
    | _ => none
  | .digits => positive (spanLength Char.isDigit cs)
  | .hexDigits => positive (spanLength isHexDigit cs)
where
  positive (n : Nat) : Option Nat := if n = 0 then none else some n

/-- The lengths of what may be skipped at the front of `cs`: a run of blanks, a comment to the end
of its line (the line end included), a comment in long brackets. -/
def skips (cs : List Char) : List Nat :=
  let blanks := spanLength isBlank cs
  let blankSkip := if blanks = 0 then [] else [blanks]
  let commentSkips :=
    match cs with
    | '-' :: '-' :: rest =>
      let line := spanLength (· != '\n') rest
      let short := if line < rest.length then [line + 3] else []
      let long := (longBracketLength rest).map (· + 2)
      short ++ long.toList
    | _ => []
  blankSkip ++ commentSkips

/-- A reading is the worse the more names it has: among the readings of one text, those with
fewer names are preferred. -/
def Terminal.weight : Terminal → Int
  | .name => -1
  | _ => 0

def Terminal.label : Terminal → String
  | .word text => if text.toList.all isNameChar then text.toUpper else wordLabel text
  | .either a _ => a.toUpper.toString
  | .name => "NAME"
  | .quoted => "STRING"
  | .digits => "DIGITS"
  | .hexDigits => "HEXDIGITS"
where
  wordLabel : String → String
    | ";" => "SEMICOLON" | "=" => "EQUAL" | "," => "COMMA" | "." => "DOT" | ":" => "COLON"
    | "::" => "DOUBLE_COLON" | "(" => "LPAR" | ")" => "RPAR" | "[" => "LSQB" | "]" => "RSQB"
    | "\x7b" => "LBRACE" | "\x7d" => "RBRACE" | "<" => "LESSTHAN" | ">" => "MORETHAN"
    | "..." => "ELLIPSIS" | ".." => "CONCAT" | "|" => "VBAR" | "~" => "TILDE"
    | "&" => "AMPERSAND" | "^" => "CIRCUMFLEX" | "+" => "PLUS" | "-" => "MINUS" | "*" => "STAR"
    | "/" => "SLASH" | "//" => "DOUBLE_SLASH" | "%" => "PERCENT" | "#" => "HASH"
    | "<=" => "LE" | ">=" => "GE" | "==" => "EQ" | "~=" => "NE" | "<<" => "SHL" | ">>" => "SHR"
    | _ => "SIGN"

end LuaInterpreter
