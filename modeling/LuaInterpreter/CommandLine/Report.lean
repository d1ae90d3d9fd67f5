import LuaInterpreter.Library.Basic

/-!
# Reports

How the command line shows errors and results.
-/

namespace LuaInterpreter

def LuaError.describe (e : LuaError) : Run String := do
  let level ← Run.ofExcept (writeInteger e.level)
  return "<error level " ++ level ++ ": " ++ (← Run.text e.message) ++ ">"

def traceEntry (what : String) (file : Option String) (line : Option Int) : String :=
  match file, line with
  | some f, some l => f ++ ":" ++ integerText l ++ ": " ++ what
  | some f, none => f ++ ": " ++ what
  | none, some l => integerText l ++ ": " ++ what
  | none, none => what

namespace Report

open Run

def diverted {α : Type} (action : Run α) : Run α := do
  world (World.divert true)
  let result ← tryCatch action fun signal => do
    world (World.divert false)
    throw signal
  world (World.divert false)
  return result

/-- Writes the message of an error: what its `__tostring` gives if it has that, else its text. -/
def message (k : Evaluator) (scope : Nat) (message : Value) : Run Unit := do
  let custom ← match message with
    | .str _ => pure false
    | v => hasMetavalue v "__tostring"
  if custom then diverted (BasicLibrary.print k scope [message])
  else world (World.printError ("error:\t" ++ (← text message)))

/-- The first line of the account of the interpreter's own calls that verbose sessions add; there is
none if the error is not being handled. -/
def ownTrace (handling : Bool) : String :=
  if handling then "Traceback (most recent call last):\n" else "NoneType: None\n"

/-- Reports an error, and answers it with the trace that was shown. The heading of the trace goes to
standard output, all else to standard error. -/
def error (k : Evaluator) (scope : Nat) (e : LuaError) (handling : Bool) : Run LuaError := do
  message k scope e.message
  match e.cause with
  | some f => world (World.printError ("caused by: " ++ f.kind))
  | none => pure ()
  let e := if e.trace.isEmpty then e.push (traceEntry "no traceback available" (some "<Python>") none)
    else e
  world (World.printLine "traceback: (most recent call first)")
  for entry in e.trace do
    world (World.printError ("\t" ++ entry))
  if ((← get).sessionOf scope).verbose then world (World.printError (ownTrace handling))
  return e

def display (results : List Results) : Run (Option String) := do
  match results with
  | [] => return none
  | _ =>
    let parts ← results.mapM fun r => do
      match r with
      | .one v => text v
      | .many _ => ofExcept ((← get).describeResults r)
    return some (", ".intercalate parts)

def endsLine (c : Char) : Bool :=
  ('\n' ≤ c && c ≤ '\r') || ('\x1c' ≤ c && c ≤ '\x1e') || c == '\u0085' || c == '\u2028'
    || c == '\u2029'

/-- The lines of a text; `current` holds the line read so far, backwards. -/
def linesFrom (current : List Char) : List Char → List String
  | [] => if current.isEmpty then [] else [String.ofList current.reverse]
  | '\r' :: '\n' :: cs => String.ofList current.reverse :: linesFrom [] cs
  | c :: cs =>
    if endsLine c then String.ofList current.reverse :: linesFrom [] cs
    else linesFrom (c :: current) cs

/-- Shows the line of a text that could not be read, under a prompt of some width, with a mark under
the place. -/
def syntaxError (text : String) (place : Stuck) (prompt : String) : Run Unit := do
  let margin := "".pushn ' ' prompt.length
  match (linesFrom [] text.toList)[place.line - 1]? with
  | none => fault (.foreign "IndexError" "list index out of range")
  | some line =>
    world (World.printLine (margin ++ line))
    world (World.printLine (margin ++ "".pushn ' ' (place.column - 1) ++ "^"))
    world (World.printLine ("error: unexpected input, line " ++ toString place.line ++ ", column "
      ++ toString place.column))

end Report

end LuaInterpreter
