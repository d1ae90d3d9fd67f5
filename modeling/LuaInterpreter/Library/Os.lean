import LuaInterpreter.Library.Time
import LuaInterpreter.World.Shell

/-!
# The operating system library

Dates and times, files by name, commands, the environment and the end of the program.
-/

namespace LuaInterpreter.OsLibrary

open Run

/-! ## Time -/

/-- The moment of an optional time; by default the current one. -/
def momentOf (time : Value) : Run Moment := do
  match time with
  | .nil => Run.ofExcept (Moment.ofTimestamp (.float (← get).world.now))
  | .num n => Run.ofExcept (Moment.ofTimestamp n)
  | _ =>
    error ("bad argument #2 to 'date' (expected number, got " ++ (← typeName time) ++ ")")

/-- The format of a date. A leading `!` changes nothing, as all times are universal. -/
def formatOf (format : Value) : Run String := do
  match format with
  | .nil => return "%c"
  | .str bs =>
    let text ← Argument.decode bs
    match text.toList with
    | '!' :: cs => return String.ofList cs
    | _ => return text
  | _ =>
    error ("bad argument #1 to 'date' (expected string, got " ++ (← typeName format) ++ ")")

/-- The table of a moment, with the day of the week from Sunday and the day of the year. -/
def dateTable (m : Moment) : Table :=
  ((TimeFields.ofMoment m true).toTable.put (.ascii "wday")
    (.int ((m.date.weekday + 1) % 7 + 1 : Nat))).put (.ascii "yday") (.int m.date.dayOfYear)

def date (format time : Value) : Run Value := do
  let m ← momentOf time
  let pattern ← formatOf format
  if pattern = "*t" then newTable (dateTable m) else return .text (m.format pattern)

def time (k : Evaluator) (table : Value) : Run Value := do
  match table with
  | .nil => return .float (← get).world.now
  | _ =>
    let fields ← TimeFields.ofTable k table
    return .float (← Run.ofExcept fields.toMoment).timestamp

def instant (which : String) : Value → Run Number
  | .num n => return n
  | v => Argument.wrongType which "difftime" "number" v

/-- The difference of two times; integers are not wrapped. -/
def difftime (later earlier : Value) : Run Value := do
  let a ← instant "#1 (t2)" later
  let b ← instant "#2 (t1)" earlier
  match a, b with
  | .int i, .int j => return .int (i - j)
  | _, _ => return .num (← Run.ofExcept (a.subtract b))

/-! ## Commands -/

/-- How a command ended: whether it succeeded, and its status or signal. -/
def ending (status : Int) (how : Value) : List Value :=
  [if status = 0 then .bool true else .nil, how, .int status.natAbs]

def endingWord (status : Int) : String := if 0 ≤ status then "exit" else "signal"

def execute (command : Value) : Run (List Value) := do
  let bs ← Argument.string "'command' must be a string" command
  let text ← Argument.decode bs
  let outcome ← world (World.shell text)
  world (World.writeThrough outcome.output)
  world (modify fun w => { w with errors := w.errors ++ outcome.errors })
  return ending outcome.status (.ascii (endingWord outcome.status))

def exitCode : Option Value → Run Foreign
  | none => return .int 0
  | some (.num n) => return TimeFields.ofNumber n
  | some (.bool b) => return .int (if b then 0 else 1)
  | some _ => error "'code' must be a number or a boolean"

/-- Ends the program: in order if `close` is true, else on the spot. -/
def exit (code close : Option Value) : Run Results := do
  let code ← exitCode code
  match close with
  | some (.bool true) => throw (.exit code)
  | _ =>
    match code with
    | .int i =>
      if i < -2147483648 || 2147483647 < i then
        fault (.foreign "OverflowError" "Python int too large to convert to C int")
      else throw (.kill i)
    | f => fault (.notIndexNumber f.kind)

/-! ## Environment and locale -/

def getenv (name : Value) : Run Value := do
  let bs ← Argument.string "'varname' must be a string" name
  let text ← Argument.decode bs
  match (← get).world.environment.lookup text with
  | none => return .nil
  | some value => Run.ofExcept (asciiMessage value)

def localeCategories : List String := ["all", "collate", "ctype", "monetary", "numeric", "time"]

/-- Sets the locale. Only the standard one is there, under two names. -/
def setlocale (locale : Value) (category : Option Value) : Run (List Value) := do
  match category with
  | none => pure ()
  | some c =>
    let name ← Argument.decode (← Argument.content c)
    if !localeCategories.contains name then fault (.unknownKey name)
  if locale.isNil then return [.nil, .nil]
  let name ← Argument.decode (← Argument.string "'locale' must be a string" locale)
  return [if name = "" || name = "C" || name = "POSIX" then .ascii "C" else .nil]

/-! ## Files by name -/

/-- What is told of an operation that the system refuses. -/
def refused (code : Nat) : List Value :=
  [.nil, .text (Fault.systemMessage code), .int code]

def changeDisk (change : Disk → Except Nat Disk) : Run (List Value) := do
  let s ← get
  match change s.world.disk with
  | .ok disk =>
    set { s with world := { s.world with disk } }
    return [.bool true]
  | .error code => return refused code

def remove (name : Value) : Run (List Value) := do
  let bs ← Argument.string "'filename' must be a string" name
  Run.ofExcept (World.requireName bs)
  changeDisk fun d => d.remove bs

def rename (old new : Value) : Run (List Value) := do
  let old ← Argument.string "'oldname' must be a string" old
  let new ← Argument.string "'newname' must be a string" new
  Run.ofExcept (World.requireName old)
  Run.ofExcept (World.requireName new)
  changeDisk fun d => d.rename old new

def tmpname : Run Value := do
  let n := (← get).world.disk.contents.size
  let name := Bytes.ofAscii ("/tmp/tmp" ++ toString (10000000 + n))
  let _ ← changeDisk fun d => do return (← d.openWrite name true).2
  return .str name

/-! ## All functions -/

def run (k : Evaluator) (b : Builtin) (args : List Value) : Run Results := do
  match b, args with
  | .osClock, _ => return .ofList [.float (← get).world.processorTime]
  | .osDate, args => return .ofList [← date (args.getD 0 .nil) (args.getD 1 .nil)]
  | .osDifftime, later :: earlier :: _ => return .ofList [← difftime later earlier]
  | .osExecute, [] => return .ofList [.bool true]
  | .osExecute, command :: _ => return .ofList (← execute command)
  | .osExit, args => exit args[0]? args[1]?
  | .osGetenv, name :: _ => return .ofList [← getenv name]
  | .osRemove, name :: _ => return .ofList (← remove name)
  | .osRename, old :: new :: _ => return .ofList (← rename old new)
  | .osSetlocale, locale :: rest => return .ofList (← setlocale locale rest.head?)
  | .osTime, args => return .ofList [← time k (args.headD .nil)]
  | .osTmpname, _ => return .ofList [← tmpname]
  | _, _ => return .many []

end LuaInterpreter.OsLibrary
