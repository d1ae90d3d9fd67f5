import LuaInterpreter.World.Stream

/-!
# Commands

A small shell with a few commands, lists of commands joined by `;`, `&&` and `||`, quoting, and
redirection of output.
-/

namespace LuaInterpreter

namespace Shell

/-! ## Words -/

inductive Token where
  | word (cs : List Char)
  | semicolon
  | andThen
  | orElse
  | toFile (descriptor : Nat) (append : Bool)
  | toOutput (descriptor target : Nat)
deriving Repr, DecidableEq

inductive Quotes where
  | outside | single | double
deriving Repr, DecidableEq

def ownNumber : List Char := ['4', '2', '4', '2']

def finished : Option (List Char) → List Token
  | none => []
  | some w => [.word w]

/-- The output that a redirection is about: standard output unless a number stands before it. -/
def redirected : Option (List Char) → Nat × List Token
  | some ['1'] => (1, [])
  | some ['2'] => (2, [])
  | w => (1, finished w)

/-- Divides a command line into words and operators. `w` is the word read so far. -/
def tokens : Quotes → (w : Option (List Char)) → List Char → List Token
  | _, w, [] => finished w
  | .single, w, c :: cs =>
    if c = '\'' then tokens .outside w cs else tokens .single (some (w.getD [] ++ [c])) cs
  | q, w, '\\' :: c :: cs => tokens q (some (w.getD [] ++ [c])) cs
  | q, w, '$' :: '$' :: cs => tokens q (some (w.getD [] ++ ownNumber)) cs
  | .double, w, c :: cs =>
    if c = '"' then tokens .outside w cs else tokens .double (some (w.getD [] ++ [c])) cs
  | .outside, w, '\'' :: cs => tokens .single (some (w.getD [])) cs
  | .outside, w, '"' :: cs => tokens .double (some (w.getD [])) cs
  | .outside, w, '&' :: '&' :: cs => finished w ++ .andThen :: tokens .outside none cs
  | .outside, w, '|' :: '|' :: cs => finished w ++ .orElse :: tokens .outside none cs
  | .outside, w, '>' :: '&' :: '1' :: cs =>
    (redirected w).2 ++ .toOutput (redirected w).1 1 :: tokens .outside none cs
  | .outside, w, '>' :: '&' :: '2' :: cs =>
    (redirected w).2 ++ .toOutput (redirected w).1 2 :: tokens .outside none cs
  | .outside, w, '>' :: '>' :: cs =>
    (redirected w).2 ++ .toFile (redirected w).1 true :: tokens .outside none cs
  | .outside, w, '>' :: cs =>
    (redirected w).2 ++ .toFile (redirected w).1 false :: tokens .outside none cs
  | .outside, w, c :: cs =>
    if c = ' ' ∨ c = '\t' then finished w ++ tokens .outside none cs
    else if c = ';' ∨ c = '\n' then finished w ++ .semicolon :: tokens .outside none cs
    else tokens .outside (some (w.getD [] ++ [c])) cs

/-! ## Commands -/

inductive Sink where
  | output | errors
  | file (content : Nat)
deriving Repr, DecidableEq

structure State where
  disk : Disk
  output : Bytes := []
  errors : Bytes := []
  status : Int := 0
  ended : Bool := false

def State.put (s : State) (sink : Sink) (bs : Bytes) : State :=
  match sink with
  | .output => { s with output := s.output ++ bs }
  | .errors => { s with errors := s.errors ++ bs }
  | .file i => { s with disk := s.disk.setContent i (s.disk.content i ++ bs) }

structure Command where
  words : List String := []
  output : Sink := .output
  errors : Sink := .errors

def Command.sink (c : Command) (descriptor : Nat) : Sink :=
  if descriptor = 2 then c.errors else c.output

def Command.redirect (c : Command) (descriptor : Nat) (sink : Sink) : Command :=
  if descriptor = 2 then { c with errors := sink } else { c with output := sink }

def encode (s : String) : Bytes := Bytes.encodeUtf8 s

def complain (s : State) (c : Command) (text : String) (status : Int) : State :=
  { s.put c.errors (encode (text ++ "\n")) with status }

def signalNumber (name : String) : Nat :=
  match name with
  | "KILL" | "SIGKILL" => 9
  | "INT" | "SIGINT" => 2
  | "HUP" | "SIGHUP" => 1
  | "TERM" | "SIGTERM" => 15
  | name => name.toNat?.getD 15

def catFiles (c : Command) : State → List String → State
  | s, [] => s
  | s, name :: names =>
    match s.disk.openRead (encode name) with
    | .ok i => catFiles c (s.put c.output (s.disk.content i)) names
    | .error code =>
      catFiles c (complain s c ("cat: " ++ name ++ ": " ++ Fault.systemMessage code) 1) names

def runCommand (s : State) (c : Command) : State :=
  match c.words with
  | [] => { s with status := 0 }
  | "echo" :: "-n" :: args => { s.put c.output (encode (" ".intercalate args)) with status := 0 }
  | "echo" :: args => { s.put c.output (encode (" ".intercalate args ++ "\n")) with status := 0 }
  | "cat" :: names => catFiles c { s with status := 0 } names
  | "true" :: _ | ":" :: _ => { s with status := 0 }
  | "false" :: _ => { s with status := 1 }
  | "exit" :: args =>
    let status : Int := match args with
      | [] => s.status
      | n :: _ => ((n.toNat?.getD 2) % 256 : Nat)
    { s with status, ended := true }
  | ["kill", number] =>
    if number.toList = ownNumber then { s with status := -15, ended := true }
    else complain s c ("/bin/sh: 1: kill: No such process\n") 1
  | ["kill", signal, number] =>
    if number.toList = ownNumber then
      { s with status := -(signalNumber (signal.drop 1).toString : Int), ended := true }
    else complain s c ("/bin/sh: 1: kill: No such process\n") 1
  | name :: _ => complain s c ("/bin/sh: 1: " ++ name ++ ": not found") 127

/-- Runs the command before an operator, if the operators before it let it run. -/
def finish (s : State) (runs : Bool) (c : Command) : State :=
  if s.ended || !runs || c.words.isEmpty then s else runCommand s c

/-- Runs the tokens of a command line. `runs` says whether the current command is to be run. -/
def runTokens : State → (runs : Bool) → Command → List Token → State
  | s, runs, c, [] => finish s runs c
  | s, runs, c, .word w :: ts => runTokens s runs { c with words := c.words ++ [String.ofList w] } ts
  | s, runs, c, .semicolon :: ts => runTokens (finish s runs c) true {} ts
  | s, runs, c, .andThen :: ts =>
    let s := finish s runs c
    runTokens s (s.status == 0) {} ts
  | s, runs, c, .orElse :: ts =>
    let s := finish s runs c
    runTokens s (s.status != 0) {} ts
  | s, runs, c, .toOutput d target :: ts => runTokens s runs (c.redirect d (c.sink target)) ts
  | s, runs, c, .toFile d append :: .word w :: ts =>
    match s.disk.openWrite (encode (String.ofList w)) (!append) with
    | .ok (i, disk) => runTokens { s with disk } runs (c.redirect d (.file i)) ts
    | .error _ =>
      runTokens (complain s c ("/bin/sh: 1: cannot create " ++ String.ofList w) 2) false c ts
  | s, runs, c, .toFile _ _ :: ts => runTokens s runs c ts

end Shell

structure Shell.Outcome where
  status : Int
  output : Bytes
  errors : Bytes
deriving Repr

def World.shell (command : String) : World.Action Shell.Outcome := fun w =>
  let s := Shell.runTokens { disk := w.disk } true {} (Shell.tokens .outside none command.toList)
  .ok ({ status := s.status, output := s.output, errors := s.errors }, { w with disk := s.disk })

/-- Writes bytes to standard output past what the interpreter holds back. -/
def World.writeThrough (bs : Bytes) : World.Action Unit := fun w =>
  let s := w.stream standardOutput
  let content := overwrite (w.disk.content s.content) s.position bs
  .ok ((), { w with disk := w.disk.setContent s.content content }.setStream standardOutput
    { s with position := s.position + bs.length })

end LuaInterpreter
