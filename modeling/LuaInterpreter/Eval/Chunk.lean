import LuaInterpreter.Eval.Statement

/-!
# Programs

A text that cannot be read is a fault; a fault while it runs becomes an error whose message is that
of the fault.
-/

namespace LuaInterpreter

def LuaError.ofFault (f : Fault) : LuaError := { message := .text f.message, cause := some f }

namespace Chunk

open Run

def protect {α : Type} (action : Run α) : Run α :=
  action.handle (fun e => throw (.error e)) fun f => throw (.error (.ofFault f))

/-- What was read. A reserved word in place of a name is an error, all other trouble a fault. -/
def accept {α : Type} : Except SyntaxError α → Run α
  | .ok a => return a
  | .error (.reserved word) =>
    throw (.error { message := .text (SyntaxError.reservedMessage word),
                    cause := some (.syntaxError (.reserved word)) })
  | .error e => fault (.syntaxError e)

def execute (k : Evaluator) (scope : Nat) (text name : String) : Run Results := do
  let chunk ← accept (readChunk text)
  protect (Eval.blockValue k scope (chunk.stamp name).block)

def evaluate (k : Evaluator) (scope : Nat) (text : String) : Run Results := do
  let e ← accept (readExpr text)
  match ← protect (k.expr scope (e.stamp "<eval>")) with
  | .one (.foreign f) => return .one (.foreign f)
  | .one v => return .many [.one v]
  | r => return r

/-- The text of a file's bytes, with all line ends turned into line feeds. -/
def sourceText (bs : Bytes) : Except Fault String := do
  return String.ofList (unifyLineEnds (← World.decode bs))

/-- Whether the end of a file is reached by reading its first character or, if that is `#`, its first
line. -/
def endsEarly (start : List Char) : Bool :=
  match start with
  | [] => true
  | c :: rest => c == '#' && !rest.any fun c => c == '\n' || c == '\r'

/-- The fault that is found at the start of the file already. A character that is cut off shows only
where the end of the file is reached. -/
def earlyFault? (bs : Bytes) : Option Fault :=
  match Bytes.decodeChars? (bs.take World.bufferSize) with
  | .ok _ => none
  | .error u =>
    let early := match Bytes.decodeChars? (bs.take u.start) with
      | .ok start => bs.length ≤ World.bufferSize && endsEarly start
      | .error _ => false
    if u.reason ≠ Bytes.unexpectedEnd || early then some (.undecodable u) else none

def executeFile (k : Evaluator) (scope : Nat) (path : String) : Run Results := do
  let bs ← world (World.fileContent (Bytes.encodeUtf8 path) (Quoted.text path))
  match earlyFault? bs with
  | some f => fault f
  | none =>
    let name := (path.splitOn "/").getLastD ""
    (do execute k scope (← ofExcept (sourceText bs)) name : Run Results).handle
      (fun e => throw (.error (e.push ({ file := name, line := 0 : Place }.entry "main chunk"))))
      (fun f => throw (.error (.ofFault f)))

end Chunk

end LuaInterpreter
