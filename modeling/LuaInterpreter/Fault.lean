import LuaInterpreter.Syntax.Message
import LuaInterpreter.Text.Quoted

/-!
# Faults

What can go wrong beneath the language. A fault is not an error value of a program, but most places
turn it into one whose message is the fault's.
-/

namespace LuaInterpreter

inductive Fault where
  -- Numbers
  | integerDivisionByZero
  | integerModuloByZero
  | floatDivisionByZero
  | floatModuloByZero
  | zeroToNegativePower
  | powerOverflow
  | complexPowerOverflow
  | integerTooLargeForFloat
  | quotientTooLargeForFloat
  | notAnInteger
  | notAFloat
  | nanToInteger
  | infinityToInteger
  | malformedInteger (base : Nat) (text : String)
  | malformedFloat (text : String)
  | tooManyDigits (count : Nat)
  | tooLongToWrite
  -- Text
  | undecodable (u : Undecodable)
  | unencodable (u : Unencodable)
  | malformedHex (position : Nat)
  | byteOutOfRange
  | textIndexOutOfRange
  | unorderedStrings
  -- Values
  | noAttribute (kind member : String)
  | unhashable (kind : String)
  | notIterable (kind : String)
  | notSpreadable (kind : String)
  | notIndexNumber (kind : String)
  | unorderedKinds (operator left right : String)
  | unexpectedKind (kind : String)
  | missingArguments (function : String) (names : List String)
  | tooManyArguments (function : String) (least most given : Nat)
  | misplacedConstruct (role description : String)
  | notLocal (description : String)
  | notGlobal (description : String)
  | unknownKey (key : String)
  | nameNotText
  -- Control
  | unsupported
  | assertion
  | exhausted
  | exhaustedWithin
  | syntaxError (e : SyntaxError)
  -- Files
  | system (code : Nat) (path : Option String)
  | closedFile (what : String)
  | wrongMode (what : String)
  | textExpected
  | endOfInput
  | nulInName
  -- Dates
  | outOfRange (what : String)
  | timestampTooLarge
  | timestampNotANumber
  | numberTooLarge
  -- Foreign functions and values
  | unconvertible (description : String)
  | unknownValue (description : String)
  | signature (message : String)
  | foreign (kind message : String)
deriving Repr, DecidableEq

namespace Fault

def systemMessage : Nat → String
  | 1 => "Operation not permitted"
  | 2 => "No such file or directory"
  | 9 => "Bad file descriptor"
  | 13 => "Permission denied"
  | 16 => "Device or resource busy"
  | 17 => "File exists"
  | 20 => "Not a directory"
  | 21 => "Is a directory"
  | 22 => "Invalid argument"
  | 29 => "Illegal seek"
  | 32 => "Broken pipe"
  | 36 => "File name too long"
  | 39 => "Directory not empty"
  | 75 => "Value too large for defined data type"
  | _ => "Unknown error"

def systemKind : Nat → String
  | 1 | 13 => "PermissionError"
  | 2 => "FileNotFoundError"
  | 17 => "FileExistsError"
  | 20 => "NotADirectoryError"
  | 21 => "IsADirectoryError"
  | 32 => "BrokenPipeError"
  | _ => "OSError"

def kind : Fault → String
  | integerDivisionByZero | integerModuloByZero | floatDivisionByZero | floatModuloByZero
  | zeroToNegativePower => "ZeroDivisionError"
  | powerOverflow | complexPowerOverflow | integerTooLargeForFloat | quotientTooLargeForFloat
  | infinityToInteger | timestampTooLarge | numberTooLarge => "OverflowError"
  | notAnInteger | notAFloat | nanToInteger | malformedInteger .. | malformedFloat _
  | tooManyDigits _ | tooLongToWrite | malformedHex _ | byteOutOfRange | misplacedConstruct ..
  | closedFile _ | outOfRange _ | timestampNotANumber | nulInName | signature _ => "ValueError"
  | undecodable _ => "UnicodeDecodeError"
  | unencodable _ => "UnicodeEncodeError"
  | textIndexOutOfRange => "IndexError"
  | noAttribute .. => "AttributeError"
  | unorderedStrings | unhashable _ | notIterable _ | notSpreadable _ | notIndexNumber _
  | unorderedKinds .. | unexpectedKind _ | missingArguments .. | tooManyArguments .. | notLocal _
  | notGlobal _ | nameNotText | textExpected | unconvertible _ | unknownValue _ => "TypeError"
  | unknownKey _ => "KeyError"
  | unsupported => "NotImplementedError"
  | assertion => "AssertionError"
  | exhausted => "StopIteration"
  | exhaustedWithin => "RuntimeError"
  | syntaxError e => e.kind
  | system code _ => systemKind code
  | wrongMode _ => "UnsupportedOperation"
  | endOfInput => "EOFError"
  | foreign k _ => k

/-- Quoted names in a row: `'a'`, `'a' and 'b'`, `'a', 'b', and 'c'`. -/
def enumerate : List String → String
  | [] => ""
  | [a] => "'" ++ a ++ "'"
  | [a, b] => "'" ++ a ++ "' and '" ++ b ++ "'"
  | names =>
    let quoted := names.map fun n => "'" ++ n ++ "'"
    ", ".intercalate quoted.dropLast ++ ", and " ++ quoted.getLastD ""

/-- How many arguments a function takes, when it was given another number. -/
def tooManyMessage (function : String) (least most given : Nat) : String :=
  let takes :=
    if least = most then
      toString most ++ " positional argument" ++ (if most = 1 then "" else "s")
    else
      "from " ++ toString least ++ " to " ++ toString most ++ " positional arguments"
  function ++ "() takes " ++ takes ++ " but " ++ toString given ++ " "
    ++ (if given = 1 then "was" else "were") ++ " given"

def message : Fault → String
  | integerDivisionByZero => "integer division or modulo by zero"
  | integerModuloByZero => "integer modulo by zero"
  | floatDivisionByZero => "float floor division by zero"
  | floatModuloByZero => "float modulo"
  | zeroToNegativePower => "0.0 cannot be raised to a negative power"
  | powerOverflow => "(34, 'Numerical result out of range')"
  | complexPowerOverflow => "complex exponentiation"
  | integerTooLargeForFloat => "int too large to convert to float"
  | quotientTooLargeForFloat => "integer division result too large for a float"
  | notAnInteger => "Value is not an integer"
  | notAFloat => "Value is not a float"
  | nanToInteger => "cannot convert float NaN to integer"
  | infinityToInteger => "cannot convert float infinity to integer"
  | malformedInteger base text =>
    "invalid literal for int() with base " ++ toString base ++ ": " ++ Quoted.text text
  | malformedFloat text => "could not convert string to float: " ++ Quoted.text text
  | tooManyDigits count =>
    "Exceeds the limit (4300 digits) for integer string conversion: value has "
      ++ toString count ++ " digits; use sys.set_int_max_str_digits() to increase the limit"
  | tooLongToWrite =>
    "Exceeds the limit (4300 digits) for integer string conversion; "
      ++ "use sys.set_int_max_str_digits() to increase the limit"
  | undecodable u => u.message
  | unencodable u => u.message
  | malformedHex position =>
    "non-hexadecimal number found in fromhex() arg at position " ++ toString position
  | byteOutOfRange => "bytes must be in range(0, 256)"
  | textIndexOutOfRange => "string index out of range"
  | unorderedStrings => "strcoll() argument 1 must be str, not bytes"
  | noAttribute k member => "'" ++ k ++ "' object has no attribute '" ++ member ++ "'"
  | unhashable k => "unhashable type: '" ++ k ++ "'"
  | notIterable k => "'" ++ k ++ "' object is not iterable"
  | notSpreadable k => "Value after * must be an iterable, not " ++ k
  | notIndexNumber k => "'" ++ k ++ "' object cannot be interpreted as an integer"
  | unorderedKinds operator left right =>
    "'" ++ operator ++ "' not supported between instances of '" ++ left ++ "' and '" ++ right ++ "'"
  | unexpectedKind k => "Unexpected type: <class '" ++ k ++ "'>"
  | missingArguments function names =>
    function ++ "() missing " ++ toString names.length ++ " required positional argument"
      ++ (if names.length = 1 then "" else "s") ++ ": " ++ enumerate names
  | tooManyArguments function least most given => tooManyMessage function least most given
  | misplacedConstruct role description => "type(" ++ role ++ ")=<class '" ++ description ++ "'>"
  | notLocal description => "Expected Variable, got <class '" ++ description ++ "'>"
  | notGlobal description => "invalid key type <class '" ++ description ++ "'>"
  | unknownKey key => Quoted.text key
  | nameNotText => "__name__ must be set to a string object"
  | unsupported | assertion | exhausted => ""
  | exhaustedWithin => "generator raised StopIteration"
  | syntaxError e => e.message
  | system code path =>
    "[Errno " ++ toString code ++ "] " ++ systemMessage code
      ++ (match path with | some p => ": " ++ p | none => "")
  | closedFile what => what
  | wrongMode what => what
  | textExpected => "string argument expected, got 'bytes'"
  | endOfInput => "EOF when reading a line"
  | nulInName => "embedded null byte"
  | outOfRange what => what
  | timestampTooLarge => "timestamp out of range for platform time_t"
  | timestampNotANumber => "Invalid value NaN (not a number)"
  | numberTooLarge => "signed integer is greater than maximum"
  | unconvertible description => "can't convert " ++ description ++ " to LuaValue"
  | unknownValue description => "unknown LuaValue " ++ description
  | signature m => m
  | foreign _ m => m

end Fault

end LuaInterpreter
