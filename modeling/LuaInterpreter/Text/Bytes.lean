/-!
# Byte strings

Strings of the language are byte strings. Text enters and leaves them through UTF-8 or, for names
and most messages, ASCII.
-/

namespace LuaInterpreter

abbrev Bytes := List UInt8

/-- Bytes that are not the encoding of a text: the first offending stretch, from `start` up to but
not including `stop`, its first byte, and the reason. -/
structure Undecodable where
  codec : String
  byte : UInt8
  start : Nat
  stop : Nat
  reason : String
deriving Repr, DecidableEq

/-- Characters that a codec cannot write: the first offending stretch, from `start` up to but not
including `stop`, and its first character. -/
structure Unencodable where
  char : Char
  start : Nat
  stop : Nat
deriving Repr, DecidableEq

namespace Bytes

/-! ## UTF-8 -/

def ofChars (cs : List Char) : Bytes := cs.flatMap String.utf8EncodeChar

def encodeUtf8 (s : String) : Bytes := ofChars s.toList

def isContinuation (b : UInt8) : Bool := 0x80 ≤ b && b < 0xC0

def payload (b : UInt8) : Nat := b.toNat % 64

/-- Whether `b` may follow the first byte `a` of a longer character: overlong forms, surrogates and
what lies beyond the last character are excluded by the second byte. -/
def maySecond (a b : UInt8) : Bool :=
  isContinuation b &&
    (if a == 0xE0 then 0xA0 ≤ b
     else if a == 0xED then b < 0xA0
     else if a == 0xF0 then 0x90 ≤ b
     else if a == 0xF4 then b < 0x90
     else true)

/-- The outcome of reading one character: the character and the bytes it takes, or the number of
offending bytes and the reason. -/
inductive Decoded where
  | char (c : Char) (size : Nat)
  | bad (size : Nat) (reason : String)

def invalidStart : String := "invalid start byte"
def invalidContinuation : String := "invalid continuation byte"
def unexpectedEnd : String := "unexpected end of data"

def decodeOne (a : UInt8) (rest : Bytes) : Decoded :=
  if a < 0x80 then .char (Char.ofNat a.toNat) 1
  else if a < 0xC2 then .bad 1 invalidStart
  else if a < 0xE0 then
    match rest with
    | [] => .bad 1 unexpectedEnd
    | b :: _ =>
      if isContinuation b then .char (Char.ofNat ((a.toNat % 32) * 64 + payload b)) 2
      else .bad 1 invalidContinuation
  else if a < 0xF0 then
    match rest with
    | [] => .bad 1 unexpectedEnd
    | b :: rest =>
      if !maySecond a b then .bad 1 invalidContinuation
      else match rest with
        | [] => .bad 2 unexpectedEnd
        | c :: _ =>
          if isContinuation c then
            .char (Char.ofNat (((a.toNat % 16) * 64 + payload b) * 64 + payload c)) 3
          else .bad 2 invalidContinuation
  else if a < 0xF5 then
    match rest with
    | [] => .bad 1 unexpectedEnd
    | b :: rest =>
      if !maySecond a b then .bad 1 invalidContinuation
      else match rest with
        | [] => .bad 2 unexpectedEnd
        | c :: rest =>
          if !isContinuation c then .bad 2 invalidContinuation
          else match rest with
            | [] => .bad 3 unexpectedEnd
            | d :: _ =>
              if isContinuation d then
                .char (Char.ofNat
                  ((((a.toNat % 8) * 64 + payload b) * 64 + payload c) * 64 + payload d)) 4
              else .bad 3 invalidContinuation
  else .bad 1 invalidStart

/-- Decodes the bytes from `position` on; the first `skip` of them belong to a character already
read. -/
def decodeFrom : Bytes → (position skip : Nat) → Except Undecodable (List Char)
  | [], _, _ => .ok []
  | _ :: rest, position, skip + 1 => decodeFrom rest (position + 1) skip
  | a :: rest, position, 0 =>
    match decodeOne a rest with
    | .char c size => (decodeFrom rest (position + 1) (size - 1)).map (c :: ·)
    | .bad size reason =>
      .error { codec := "utf-8", byte := a, start := position, stop := position + size, reason }

def decodeChars? (bs : Bytes) : Except Undecodable (List Char) := decodeFrom bs 0 0

def decodeUtf8? (bs : Bytes) : Except Undecodable String := (decodeChars? bs).map String.ofList

/-! ## ASCII -/

def isAsciiChar (c : Char) : Bool := c.toNat < 128

def encodeAscii? (s : String) : Except Unencodable Bytes :=
  let cs := s.toList
  match cs.findIdx? (!isAsciiChar ·) with
  | none => .ok (cs.map fun c => c.toNat.toUInt8)
  | some start =>
    let run := (cs.drop start).takeWhile (!isAsciiChar ·)
    .error { char := run.headD 'a', start, stop := start + run.length }

def ofAscii (s : String) : Bytes := s.toList.map fun c => c.toNat.toUInt8

def decodeAscii? (bs : Bytes) : Except Undecodable String :=
  match bs.findIdx? (128 ≤ ·) with
  | none => .ok (String.ofList (bs.map fun b => Char.ofNat b.toNat))
  | some start =>
    .error { codec := "ascii", byte := bs.getD start 0, start, stop := start + 1
             reason := "ordinal not in range(128)" }

/-! ## White space -/

/-- Space, tab, line feed, vertical tab, form feed and carriage return. -/
def isBlank (b : UInt8) : Bool := b == 32 || (9 ≤ b && b ≤ 13)

def strip (bs : Bytes) : Bytes :=
  ((bs.dropWhile isBlank).reverse.dropWhile isBlank).reverse

end Bytes

/-! ## Messages -/

private def hexDigit (n : Nat) : Char := (Nat.toDigits 16 n).headD '0'

def hexByte (n : Nat) : String := String.ofList [hexDigit (n / 16 % 16), hexDigit (n % 16)]

private def stretch (start stop : Nat) : String :=
  toString start ++ "-" ++ toString (stop - 1)

def Undecodable.message (u : Undecodable) : String :=
  if u.stop = u.start + 1 then
    "'" ++ u.codec ++ "' codec can't decode byte 0x" ++ hexByte u.byte.toNat ++ " in position "
      ++ toString u.start ++ ": " ++ u.reason
  else
    "'" ++ u.codec ++ "' codec can't decode bytes in position " ++ stretch u.start u.stop ++ ": "
      ++ u.reason

/-- A character as an escape sequence of two, four or eight hexadecimal digits. -/
def escapedChar (c : Char) : String :=
  let n := c.toNat
  if n < 256 then "\\x" ++ hexByte n
  else if n < 65536 then "\\u" ++ hexByte (n / 256) ++ hexByte (n % 256)
  else "\\U" ++ hexByte (n / 16777216) ++ hexByte (n / 65536 % 256) ++ hexByte (n / 256 % 256)
    ++ hexByte (n % 256)

def Unencodable.message (u : Unencodable) : String :=
  if u.stop = u.start + 1 then
    "'ascii' codec can't encode character '" ++ escapedChar u.char ++ "' in position "
      ++ toString u.start ++ ": ordinal not in range(128)"
  else
    "'ascii' codec can't encode characters in position " ++ stretch u.start u.stop
      ++ ": ordinal not in range(128)"

end LuaInterpreter
