import LuaInterpreter.Fault

/-!
# The value of a string literal

Between quotes a backslash introduces an escape; between long brackets all characters but line ends
stand for themselves.
-/

namespace LuaInterpreter.Literal

/-! ## Between quotes -/

/-- What a character of a quoted literal may still belong to. -/
inductive Mode where
  | plain
  | blanks
  | decimal (digits : List Char)
deriving Repr, DecidableEq

def decimalByte (digits : List Char) : Except Fault UInt8 :=
  let n := digits.foldl (fun n c => n * 10 + (c.toNat - '0'.toNat)) 0
  if n < 256 then .ok n.toUInt8 else .error .byteOutOfRange

/-- Ends whatever precedes a character that does not continue it. -/
def finish : Mode → Except Fault Bytes
  | .decimal ds => do return [← decimalByte ds]
  | _ => .ok []

def simpleEscape? (c : Char) : Option UInt8 :=
  match c with
  | 'a' => some 7
  | 'b' => some 8
  | 't' => some 9
  | 'n' => some 10
  | 'v' => some 11
  | 'f' => some 12
  | 'r' => some 13
  | '\\' => some 92
  | '"' => some 34
  | '\'' => some 39
  | '\n' => some 10
  | _ => none

def hexValue? (c : Char) : Option Nat := (digitValue c).filter (· < 16)
where
  digitValue (c : Char) : Option Nat :=
    if '0' ≤ c && c ≤ '9' then some (c.toNat - '0'.toNat)
    else if 'a' ≤ c && c ≤ 'f' then some (c.toNat - 'a'.toNat + 10)
    else if 'A' ≤ c && c ≤ 'F' then some (c.toNat - 'A'.toNat + 10)
    else none

def isBlank (c : Char) : Bool := c == ' ' || ('\t' ≤ c && c ≤ '\r')

/-- The bytes of a hexadecimal escape: one, or none if both characters are blank. -/
def hexBytes (a b : Char) : Except Fault Bytes :=
  if 128 ≤ a.toNat then .error (.malformedHex 0)
  else if 128 ≤ b.toNat then .error (.malformedHex 1)
  else if isBlank a then
    if isBlank b then .ok []
    else if (hexValue? b).isSome then .error (.malformedHex 2) else .error (.malformedHex 1)
  else match hexValue? a, hexValue? b with
    | some x, some y => .ok [(x * 16 + y).toUInt8]
    | some _, none => .error (.malformedHex 1)
    | none, _ => .error (.malformedHex 0)

/-- Why an escape by code point is refused: no such escape can be read to its end. -/
def codePointFault : List Char → Fault
  | [] => .exhausted
  | c :: cs =>
    if c ≠ '\x7b' then .unsupported
    else if cs.contains '\x7d' then .malformedInteger 16 "\x7d" else .exhausted

/-- What a mode becomes if the character `c` continues it: blanks go on, and a decimal escape takes
up to three digits. -/
def Mode.continue? (mode : Mode) (c : Char) : Option Mode :=
  match mode with
  | .plain => none
  | .blanks => if isBlank c then some .blanks else none
  | .decimal ds => if c.isDigit && ds.length < 3 then some (.decimal (ds ++ [c])) else none

/-- Decodes what stands between quotes. A decimal escape that nothing follows gives nothing. -/
def decode : Mode → List Char → Except Fault Bytes
  | _, [] => .ok []
  | mode, c :: cs =>
    match mode.continue? c with
    | some mode => decode mode cs
    | none => do
      let before ← finish mode
      if c ≠ '\\' then return before ++ String.utf8EncodeChar c ++ (← decode .plain cs)
      else match cs with
        | [] => return before ++ [92]
        | e :: rest =>
          match simpleEscape? e with
          | some byte => return before ++ byte :: (← decode .plain rest)
          | none =>
            if e = 'z' then return before ++ (← decode .blanks rest)
            else if e.isDigit then return before ++ (← decode (.decimal [e]) rest)
            else if e = 'x' then
              match rest with
              | a :: b :: rest =>
                let byte ← hexBytes a b
                return before ++ byte ++ (← decode .plain rest)
              | _ => .error .unsupported
            else if e = 'u' then .error (codePointFault rest)
            else .error .unsupported
termination_by structural _ cs => cs

theorem decode_of_continue {mode mode' : Mode} {c : Char} (h : mode.continue? c = some mode')
    (cs : List Char) : decode mode (c :: cs) = decode mode' cs := by
  rw [decode, h]

def quoted (text : List Char) : Except Fault Bytes := decode .plain (text.drop 1).dropLast

/-! ## Between long brackets -/

/-- Decodes what stands between long brackets. A run of line ends gives one line feed, and one at
the very front gives nothing. `inLineEnds` tells whether a line end has just been read, `atFront`
whether nothing has. -/
def joinLines : List Char → (inLineEnds atFront : Bool) → Bytes
  | [], _, _ => []
  | c :: cs, inLineEnds, atFront =>
    if c = '\n' ∨ c = '\r' then
      if atFront || inLineEnds then joinLines cs true false else 10 :: joinLines cs true false
    else String.utf8EncodeChar c ++ joinLines cs false false

def bracketed (text : List Char) : Except Fault Bytes :=
  let level := ((text.drop 1).takeWhile (· == '=')).length
  if text.length ≤ level + 1 then .error .textIndexOutOfRange
  else
    let width := level + 2
    .ok (joinLines ((text.drop width).take (text.length - 2 * width)) false true)

def value (text : String) : Except Fault Bytes :=
  match text.toList with
  | [] => .error .textIndexOutOfRange
  | '[' :: cs => bracketed ('[' :: cs)
  | cs => quoted cs

end LuaInterpreter.Literal
