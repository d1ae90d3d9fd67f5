import LuaInterpreter.Number.Shortest
import LuaInterpreter.Fault

/-!
# Numbers as text

Floats are written with the fewest digits that read back. Single underscores may stand between
digits that are read.
-/

namespace LuaInterpreter

namespace NumberText

def digitsOf (n : Nat) : List Char := Nat.toDigits 10 n

def exponentText (e : Int) : List Char :=
  let ds := digitsOf e.natAbs
  (if e < 0 then '-' else '+') :: (if ds.length < 2 then '0' :: ds else ds)

/-- A decimal: positional for moderate exponents of the leading digit, else scientific. -/
def decimalText (d : Decimal) : List Char :=
  let ds := digitsOf d.digits
  let lead : Int := d.exponent + ds.length - 1
  if -4 ≤ lead ∧ lead < 16 then
    if 0 ≤ d.exponent then ds ++ List.replicate d.exponent.toNat '0' ++ ['.', '0']
    else if 0 ≤ lead then
      ds.take (lead.toNat + 1) ++ ['.'] ++ ds.drop (lead.toNat + 1)
    else ['0', '.'] ++ List.replicate (-lead - 1).toNat '0' ++ ds
  else
    match ds with
    | [] => []
    | [c] => c :: 'e' :: exponentText lead
    | c :: rest => c :: '.' :: rest ++ 'e' :: exponentText lead

end NumberText

open NumberText

def floatText (x : Float) : String :=
  match Binary.ofFloat? x with
  | none => if x.isNaN then "nan" else if x < 0 then "-inf" else "inf"
  | some b =>
    let sign := if b.negative then "-" else ""
    if b.m = 0 then sign ++ "0.0" else sign ++ String.ofList (decimalText (Decimal.shortest b))

def integerText (i : Int) : String :=
  if i < 0 then "-" ++ String.ofList (digitsOf i.natAbs) else String.ofList (digitsOf i.natAbs)

/-- What is written for an integer; one of more than 4300 digits is refused. -/
def writeInteger (i : Int) : Except Fault String :=
  if 4300 < (digitsOf i.natAbs).length then .error .tooLongToWrite else .ok (integerText i)

/-! ## Reading -/

/-- White space around a number. -/
def isSpaceChar (c : Char) : Bool := c == ' ' || ('\t' ≤ c && c ≤ '\r')

def stripChars (cs : List Char) : List Char :=
  ((cs.dropWhile isSpaceChar).reverse.dropWhile isSpaceChar).reverse

def digitValue? (c : Char) : Option Nat :=
  if '0' ≤ c && c ≤ '9' then some (c.toNat - '0'.toNat)
  else if 'a' ≤ c && c ≤ 'z' then some (c.toNat - 'a'.toNat + 10)
  else if 'A' ≤ c && c ≤ 'Z' then some (c.toNat - 'A'.toNat + 10)
  else none

/-- Reads digits of a base up to the end; an underscore may stand between two digits, `afterDigit`
telling whether one has just been read. -/
def readDigits (base : Nat) : List Char → (acc : Nat) → (afterDigit : Bool) → Option Nat
  | [], acc, afterDigit => if afterDigit then some acc else none
  | c :: cs, acc, afterDigit =>
    if c = '_' then if afterDigit then readDigits base cs acc false else none
    else match digitValue? c with
      | some d => if d < base then readDigits base cs (acc * base + d) true else none
      | none => none

def splitSign : List Char → Bool × List Char
  | '-' :: cs => (true, cs)
  | '+' :: cs => (false, cs)
  | cs => (false, cs)

/-- The base may be announced before the digits of a hexadecimal number. -/
def dropHexMark : List Char → List Char
  | '0' :: x :: cs => if x = 'x' ∨ x = 'X' then cs else '0' :: x :: cs
  | cs => cs

def readInteger (base : Nat) (text : String) : Except Fault Int :=
  let (negative, cs) := splitSign (stripChars text.toList)
  let cs := if base = 16 then dropHexMark cs else cs
  match readDigits base cs 0 false with
  | some n =>
    let count := (cs.filter (· != '_')).length
    if base = 10 ∧ 4300 < count then .error (.tooManyDigits count)
    else .ok (if negative then -(n : Int) else n)
  | none => .error (.malformedInteger base text)

/-- The float nearest to `± digits * 10 ^ exponent`. Exponents far beyond the range are cut off
first. -/
def floatOfDecimal (negative : Bool) (digits : Nat) (exponent : Int) : Float :=
  let lead : Int := exponent + (digitsOf digits).length
  if digits = 0 ∨ lead < -400 then Binary.assemble negative 0 0
  else if 400 < lead then Binary.infinity negative
  else Binary.ofRatio negative (digits * Nat.pow 10 exponent.toNat)
    (Nat.pow 10 (-exponent).toNat)

def readFloat (text : String) : Except Fault Float :=
  let (negative, cs) := splitSign (stripChars text.toList)
  let isMark := fun c => c == 'e' || c == 'E'
  let mantissa := cs.takeWhile (!isMark ·)
  let exponent? : Option Int :=
    match cs.dropWhile (!isMark ·) with
    | [] => some 0
    | _ :: rest =>
      let (negative, ds) := splitSign rest
      (readDigits 10 ds 0 false).map fun n => if negative then -(n : Int) else n
  let whole := mantissa.takeWhile (· != '.')
  let fraction := (mantissa.dropWhile (· != '.')).drop 1
  let part := fun (ds : List Char) => if ds.isEmpty then some 0 else readDigits 10 ds 0 false
  match exponent?, part whole, part fraction with
  | some e, some w, some f =>
    if whole.isEmpty && fraction.isEmpty then .error (.malformedFloat text)
    else
      let places := (fraction.filter (· != '_')).length
      .ok (floatOfDecimal negative (w * Nat.pow 10 places + f) (e - places))
  | _, _, _ => .error (.malformedFloat text)

end LuaInterpreter
