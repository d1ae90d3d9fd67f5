import LuaInterpreter.World.Stream

/-!
# Text on the standard streams

Reading a line of text takes more than the line from standard input; what is left over is out of
reach of reading bytes.
-/

namespace LuaInterpreter

/-- Turns each line end (carriage return, line feed, or the one followed by the other) into a line
feed. -/
def unifyLineEnds : List Char → List Char
  | [] => []
  | '\r' :: '\n' :: cs => '\n' :: unifyLineEnds cs
  | '\r' :: cs => '\n' :: unifyLineEnds cs
  | c :: cs => c :: unifyLineEnds cs

namespace World

def decode (bs : Bytes) : Except Fault (List Char) :=
  (Bytes.decodeChars? bs).mapError .undecodable

def putError (text : String) : Action Unit :=
  modify fun w => { w with errors := w.errors ++ Bytes.encodeUtf8 text }

/-- Writes text to standard output, or to standard error while printing is diverted. -/
def print (text : String) : Action Unit := fun w =>
  if w.diverted then (putError text).run w
  else if (w.stream standardOutput).closed then
    .error (.closedFile "I/O operation on closed file.")
  else .ok ((), w.put standardOutput (Bytes.encodeUtf8 text))

def printLine (text : String) : Action Unit := print (text ++ "\n")

def divert (on : Bool) : Action Unit := modify fun w => { w with diverted := on }

def printError (text : String) : Action Unit := putError (text ++ "\n")

/-- Takes a part of standard input over into the lookahead, if that is empty. Answers whether
anything can be read. -/
def fillLookahead : Action Bool := do
  let w ← get
  if !w.lookahead.isEmpty then return true
  else
    let s := w.stream standardInput
    if s.closed then throw (.closedFile "I/O operation on closed file.")
    let bs ← take standardInput bufferSize
    let cs ← decode bs
    modify fun w => { w with lookahead := if s.isText then cs else unifyLineEnds cs }
    return !cs.isEmpty

def readText : Action (List Char) := do
  let w ← get
  let s := w.stream standardInput
  if s.closed then throw (.closedFile "I/O operation on closed file.")
  let before := w.lookahead
  let bs ← take standardInput (w.ahead standardInput).length
  let cs ← decode bs
  modify fun w => { w with lookahead := [] }
  return before ++ (if s.isText then cs else unifyLineEnds cs)

/-- Reads a line of text, without its end; the fuel bounds how often the lookahead is filled. -/
def readTextLine : Nat → Action (List Char)
  | 0 => return []
  | fuel + 1 => do
    if ← fillLookahead then
      let w ← get
      let line := w.lookahead.takeWhile (· != '\n')
      match w.lookahead.dropWhile (· != '\n') with
      | [] =>
        modify fun w => { w with lookahead := [] }
        return line ++ (← readTextLine fuel)
      | _ :: rest =>
        modify fun w => { w with lookahead := rest }
        return line
    else return []

inductive Line where
  | line (cs : List Char)
  | interrupted
  | ended
deriving Repr, DecidableEq

def promptLine (prompt : String) : Action Line := do
  print prompt
  let w ← get
  set { w with prompts := w.prompts + 1 }
  if w.interrupts.contains w.prompts then return .interrupted
  if ← fillLookahead then
    return .line (← readTextLine ((w.ahead standardInput).length + 2))
  else return .ended

end World

end LuaInterpreter
