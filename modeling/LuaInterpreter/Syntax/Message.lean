import LuaInterpreter.Syntax.Reader

/-!
# Messages for unreadable texts

A message shows the line of the error with a mark under the place, and the terminals that could
have stood there.
-/

namespace LuaInterpreter

namespace SyntaxError

/-- How many characters before and after the place of an error are shown. -/
def contextSpan : Nat := 40

/-- The width of a text in which each tab reaches to the next multiple of eight. -/
def widthWithTabs (cs : List Char) : Nat :=
  cs.foldl (fun w c => if c = '\t' then (w / 8 + 1) * 8 else w + 1) 0

def context (text : List Char) (offset : Nat) : String :=
  let before := (text.take offset).drop (offset - contextSpan)
  let before := (before.reverse.takeWhile (· != '\n')).reverse
  let after := ((text.drop offset).take contextSpan).takeWhile (· != '\n')
  String.ofList (before ++ after ++ ['\n'] ++ List.replicate (widthWithTabs before) ' ')
    ++ "^\n"

def expectedOneOf (ts : List Terminal) : String :=
  "Expected one of: \n\t* " ++ "\n\t* ".intercalate (ts.map Terminal.label) ++ "\n"

def reservedMessage (word : String) : String :=
  "'" ++ word ++ "' is a reserved keyword and cannot be used as a name"

def kind : SyntaxError → String
  | .unreadable (.stuck _) _ => "UnexpectedCharacters"
  | .unreadable (.unfinished _) _ => "UnexpectedEOF"
  | .reserved _ => "VisitError"
  | .unsupported _ => "NotImplementedError"

def message : SyntaxError → String
  | .unreadable (.stuck s) text =>
    "No terminal matches '" ++ String.ofList ((text.drop s.offset).take 1)
      ++ "' in the current parser context, at line " ++ toString s.line ++ " col "
      ++ toString s.column ++ "\n\n" ++ context text s.offset
      ++ (if s.expected.isEmpty then "" else expectedOneOf s.expected)
  | .unreadable (.unfinished expected) _ => "Unexpected end-of-input. " ++ expectedOneOf expected
  | .reserved word => "Error trying to process rule \"NAME\":\n\n" ++ reservedMessage word
  | .unsupported what => "Unimplemented transformer for " ++ what

end SyntaxError

end LuaInterpreter
