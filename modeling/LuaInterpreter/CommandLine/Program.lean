import LuaInterpreter.CommandLine.Options
import LuaInterpreter.CommandLine.Report
import LuaInterpreter.Eval.Call

/-!
# The command line

The program runs the file that the environment names, libraries, a statement, a script and the
prompt, in this order. The first error ends it. At the prompt, lines are collected until they can be
read. An interruption drops what has been collected, or ends the program if there is nothing.
-/

namespace LuaInterpreter.Prompt

open Run

inductive Outcome where
  | results (r : Results)
  | incomplete
  | reported

def isUnreadable : Fault → Bool
  | .syntaxError (.unreadable ..) => true
  | _ => false

/-- Runs an action on a text, goes on if the text cannot be read, and reports errors. -/
def orElse (k : Evaluator) (scope : Nat) (action : Run Results) (unreadable : Run Outcome) :
    Run Outcome :=
  (do return .results (← action) : Run Outcome).handle
    (fun e => do
      let _ ← Report.error k scope e true
      return .reported)
    (fun f => if isUnreadable f then unreadable else fault f)

def run (k : Evaluator) (scope : Nat) (text : String) : Run Outcome :=
  orElse k scope (Chunk.execute k scope text "<exec>") <|
    orElse k scope (Chunk.evaluate k scope text) (return .incomplete)

def showResults (r : Results) : Run Unit := do
  match ← Report.display (← itemsOf r) with
  | some line => world (World.printLine line)
  | none => pure ()

def step (k : Evaluator) (scope : Nat) (first more : String) (collected : String) :
    Run (Sum String Unit) := do
  match ← world (World.promptLine (if collected = "" then first else more)) with
  | .ended => return .inr ()
  | .interrupted =>
    if collected = "" then throw .interrupt
    world (World.printLine "")
    return .inl ""
  | .line cs =>
    let collected := collected ++ String.ofList cs
    match ← run k scope collected with
    | .incomplete => return .inl collected
    | .reported => return .inl ""
    | .results r =>
      showResults r
      return .inl ""

def interact (k : Evaluator) (scope : Nat) : Run Unit := do
  let environment := (← get).world.environment
  let first := (environment.lookup "_PROMPT").getD "> "
  let more := (environment.lookup "_PROMPT2").getD ">> "
  loop k.fuel (step k scope first more) ""

end LuaInterpreter.Prompt

namespace LuaInterpreter.CommandLine

open Run

def banner : String := versionText ++ " Copyright (c) 2024 Emre Özcan"

/-- The variables of the environment that can name a file to run first; the first that is set
counts. -/
def initialVariables : List String :=
  ["MEHTAP_INIT_0_0_0", "MEHTAP_INIT", "LUA_INIT_5_4", "LUA_INIT"]

def argumentString (s : String) : Run Value :=
  match Bytes.encodeAscii? s with
  | .ok bs => return .str bs
  | .error u => fault (.unencodable u)

def argumentTable (arguments : List String) : Run Table := do
  let values ← arguments.mapM argumentString
  return { entries := values.zipIdx.map fun (v, i) => (.int (i + 1), v) }

def failure {α : Type} : Run α := throw (.exit (.int 1))

/-- Runs an action; an error of it is reported and ends the program. -/
def guarded (k : Evaluator) (scope : Nat) (action : Run Unit) : Run Unit :=
  action.handle
    (fun e => do
      let _ ← Report.error k scope e true
      failure)
    fault

def librarySpec (spec : String) : Except Fault (String × String) :=
  match spec.splitOn "=" with
  | [name] => .ok (name, name)
  | [name, library] => .ok (name, library)
  | _ => .error (.signature "too many values to unpack (expected 2)")

def loadLibrary (k : Evaluator) (scope : Nat) (spec : String) : Run Unit := do
  let (name, library) ← ofExcept (librarySpec spec)
  let _ ← Chunk.execute k scope (name ++ " = require('" ++ library ++ "')") "<exec>"

def runScript (k : Evaluator) (scope : Nat) (script : String) : Run Unit := do
  if script = "-" then
    let cs ← world World.readText
    let _ ← Chunk.execute k scope (String.ofList cs) "<exec>"
  else
    let _ ← Chunk.executeFile k scope script

def present : Option String → Option String
  | some "" => none
  | s => s

def runPrograms (k : Evaluator) (scope : Nat) (o : Options) : Run Unit := do
  for spec in o.libraries do
    loadLibrary k scope spec
  match present o.statement with
  | some text =>
    let _ ← Chunk.execute k scope text "<exec>"
  | none => pure ()
  match present o.script with
  | some script => runScript k scope script
  | none => pure ()

/-- Makes the arguments known: as a global table, and to a script also as its `...`. -/
def passArguments (session : Session) (command : List String) (o : Options) : Run Unit := do
  match present o.script with
  | some script =>
    let table ← argumentTable (script :: o.arguments)
    let values ← o.arguments.mapM argumentString
    setVarargs session.root (some values)
    setGlobal session (Bytes.ofAscii "arg") (← newTable table)
  | none => setGlobal session (Bytes.ofAscii "arg") (← newTable (← argumentTable command))

def runInitial (k : Evaluator) (scope : Nat) : Run Unit := do
  let environment := (← get).world.environment
  match initialVariables.findSome? fun name => environment.lookup name with
  | some path =>
    guarded k scope do
      let _ ← Chunk.executeFile k scope path
  | none => pure ()

def runOptions (k : Evaluator) (command : List String) (o : Options) : Run Unit := do
  let id ← newSession
  modifySession id fun session => { session with verbose := o.verbose }
  let session := (← get).session id
  passArguments session command o
  if !o.ignoreEnvironment then runInitial k session.root
  if o.showVersion then world (World.printLine banner)
  else
    if o.warnings then modifySession id fun session => { session with warnings := true }
    guarded k session.root (runPrograms k session.root o)
    if o.interactive || ((present o.script).isNone && (present o.statement).isNone) then
      world (World.printLine banner)
      Prompt.interact k session.root

/-- Runs a command line: the name of the program and its arguments. An interruption is reported and
ends the program with a failure, and so does an error that is not reported. -/
def run (k : Evaluator) (name : String) (arguments : List String) : Run Unit :=
  match Options.ofArguments arguments with
  | .error .help => throw (.exit (.int 0))
  | .error _ => throw (.exit (.int 2))
  | .ok o =>
    tryCatch (runOptions k (name :: arguments) o) fun
      | .interrupt => do
        world (World.printLine "KeyboardInterrupt")
        failure
      | .error _ => failure
      | signal => throw signal

end LuaInterpreter.CommandLine
