import LuaInterpreter.Library.Basic
import LuaInterpreter.Library.Os

/-!
# The input and output library

Files are opened by name, and read and written by their methods. A session has a default input and a
default output.
-/

namespace LuaInterpreter.IoLibrary

open Run

/-! ## Streams of files -/

/-- The stream of a file; files that were opened to feed a process have none. -/
def streamOf (v : Value) (operation : String) : Run Nat := do
  match v with
  | .file id =>
    match ((← get).file id).stream with
    | some stream => return stream
    | none => fault (.noAttribute "NoneType" operation)
  | _ => fault (.noAttribute v.kind "io")

def requireStream (stream : Option Nat) (operation : String) : Run Nat :=
  match stream with
  | some id => return id
  | none => fault (.noAttribute "NoneType" operation)

/-! ## Reading -/

/-- A string that was read; `nil` if nothing was. -/
def stringOrNil (bs : Bytes) : Value := if bs.isEmpty then .nil else .str bs

def numeralWindow : Nat := 201

def numeralValue? (k : Evaluator) (scope : Nat) (bs : Bytes) : Run (Option Value) := do
  match (Bytes.decodeAscii? bs).toOption with
  | none => return none
  | some text =>
    match readNumeral text with
    | .error _ => return none
    | .ok n =>
      (do return some (← Eval.single k scope (.mk {} (.numeral n))) : Run (Option Value)).handle
        (fun e => throw (.error e)) (fun _ => return none)

/-- Tries ever shorter beginnings of what was read. After each try the stream is moved on by what was
missing to a full window; a try of a full window fails. -/
def tryNumerals (k : Evaluator) (scope stream : Nat) (part : Bytes) : (length : Nat) → Run Value
  | 0 => do
    let _ ← world (World.seek stream (-(part.length : Int)) .current)
    return .nil
  | length + 1 => do
    let found ← numeralValue? k scope (part.take (length + 1))
    let _ ← world (World.seek stream (numeralWindow - part.length : Nat) .current)
    if length + 1 = numeralWindow then return .nil
    match found with
    | some v => return v
    | none => tryNumerals k scope stream part length

def readNumber (k : Evaluator) (scope stream : Nat) : Run Value := do
  let part ← world (World.read stream numeralWindow)
  if part.isEmpty then return .nil
  tryNumerals k scope stream part part.length

/-- Reads up to a number of bytes. To read none tells whether there are any. -/
def readCount (stream : Nat) (count : Int) : Run Value := do
  if count = 0 then
    let bs ← world (World.read stream 1)
    if bs.isEmpty then return .nil
    let _ ← world (World.seek stream (-1) .current)
    return .str []
  else return stringOrNil (← world (World.read stream count))

/-- Reads a line without its last byte, which is the line end if there is one. -/
def readLine (stream : Nat) : Run Value := do
  let bs ← world (World.readLine stream)
  return if bs.isEmpty then .nil else .str bs.dropLast

def readFormat (k : Evaluator) (scope : Nat) (file format : Value) : Run Value := do
  match format with
  | .num n =>
    let count ← Run.ofExcept n.truncate
    readCount (← streamOf file "read") count
  | _ =>
    if format.rawEq (.ascii "n") then readNumber k scope (← streamOf file "read")
    else if format.rawEq (.ascii "a") then
      return .str (← world (World.read (← streamOf file "read") (-1)))
    else if format.rawEq (.ascii "l") then readLine (← streamOf file "readline")
    else if format.rawEq (.ascii "L") then
      return stringOrNil (← world (World.readLine (← streamOf file "readline")))
    else error "invalid format (valid formats are a number, 'n', 'a', 'l', and 'L'.)"

def read (k : Evaluator) (scope : Nat) (file : Value) (formats : List Value) :
    Run (List Value) := do
  match formats with
  | [] => return [← readLine (← streamOf file "readline")]
  | formats => formats.mapM (readFormat k scope file)

/-- One step of an iteration over a file. A closing one closes the file when something is missing. -/
def iterate (k : Evaluator) (scope : Nat) (file : Value) (formats : List Value) (closing : Bool) :
    Run (List Value) := do
  let values ← read k scope file formats
  if closing && values.any Value.isNil then world (World.close (← streamOf file "close"))
  return values

def newIterator (maker : Builtin) (scope : Nat) (file : Value) (formats : List Value)
    (closing : Bool) : Run Value :=
  newFunction { params := [], variadic := false, scope := none
                code := .reader maker scope file formats closing
                name := some (.text "iterator_function"), minRequired := some 0 }

/-! ## Writing, moving and closing -/

/-- What is written for a value; only strings and numbers are. -/
def written? : Value → Option (Except Fault Bytes) := Operator.concatPart?

def writeAll (stream : Run Nat) : List Value → Run Unit
  | [] => pure ()
  | v :: vs => do
    match written? v with
    | some bs => world (World.write (← stream) (← ofExcept bs))
    | none => pure ()
    writeAll stream vs

def whence (bs : Bytes) : Run World.Whence :=
  if bs == Bytes.ofAscii "set" then return .set
  else if bs == Bytes.ofAscii "cur" then return .current
  else if bs == Bytes.ofAscii "end" then return .fromEnd
  else error "invalid whence (must be 'set', 'cur', or 'end'.)"

def seek (file : Value) (origin offset : Option Value) : Run Value := do
  let origin ← whence (← Argument.content (origin.getD (.ascii "cur")))
  let stream ← streamOf file "seek"
  let offset ← Argument.number (offset.getD (.int 0))
  let offset ← Run.ofExcept offset.truncate
  return .int (← world (World.seek stream offset origin))

/-- Closes a file. One that reads from a process also answers how that ended. -/
def close (file : Value) : Run (List Value) := do
  world (World.close (← streamOf file "close"))
  match file with
  | .file id =>
    match ((← get).file id).status with
    | some status =>
      let word := Bytes.ofAscii (OsLibrary.endingWord status)
      return OsLibrary.ending status (.foreign (.bytes word))
    | none => return []
  | _ => return []

/-! ## Opening -/

inductive Mode where
  | read | update
  | write (access : Access) (append : Bool)

def Mode.ofString? (bs : Bytes) : Option Mode :=
  let is (texts : List String) : Bool := texts.any fun t => Bytes.ofAscii t == bs
  if is ["r", "rb"] then some .read
  else if is ["w", "wb"] then some (.write .write false)
  else if is ["a", "ab"] then some (.write .write true)
  else if is ["r+", "r+b"] then some .update
  else if is ["w+", "w+b"] then some (.write .update false)
  else if is ["a+", "a+b"] then some (.write .update true)
  else none

def Mode.openStream (m : Mode) (name : Bytes) : World.Action Nat :=
  match m with
  | .read => World.openRead name
  | .update => World.openUpdate name
  | .write access append => World.openWrite name access append

/-- Opens a file. The mode is checked before the name. -/
def openFile (name : Value) (mode : Option Value) : Run Value := do
  let mode ← Argument.string "'mode' must be a string" (mode.getD (.ascii "r"))
  match Mode.ofString? mode with
  | none => error "invalid mode (must match /[rwa]+?b?/.)"
  | some mode =>
    let name ← Argument.content name
    newFile { stream := some (← world (mode.openStream name)) }

/-- Starts a command. A file to read gives what it writes; to one to write nothing can be written. -/
def popen (command : Value) (mode : Option Value) : Run Value := do
  let bs ← match command with
    | .str s => pure s
    | v => Argument.wrongType "#1" "popen" "string" v
  let mode ← match mode with
    | none => pure (Bytes.ofAscii "r")
    | some (.str s) => pure s
    | some v => Argument.wrongType "#2" "popen" "string" v
  let reading := mode == Bytes.ofAscii "r"
  if !reading && mode != Bytes.ofAscii "w" then
    error "invalid argument #2 to popen ('r' or 'w' expected)"
  let text ← Argument.decode bs
  let outcome ← world (World.shell text)
  let stream ← if reading then do pure (some (← world (World.openUnnamed outcome.output .read false)))
    else pure none
  newFile { stream, status := some outcome.status }

/-! ## Defaults of the session -/

/-- Runs an action whose faults become errors that name the function. -/
def naming {α : Type} (function : String) (action : Run α) : Run α :=
  action.handle (fun e => throw (.error e)) fun f => error (function ++ ": " ++ f.message)

def sessionNumber (scope : Nat) : Run Nat := do return ((← get).scope scope).session

/-- Sets a default stream to a named file, which is opened for reading, or to that of a file; or
answers the default as a file. -/
def defaultStream (function : String) (scope : Nat) (file : Option Value)
    (current : Session → Option Nat) (change : Option Nat → Session → Session) :
    Run (List Value) := do
  let id ← sessionNumber scope
  match file with
  | some (.str name) =>
    let stream ← naming function (world (World.openRead name))
    modifySession id (change (some stream))
    return []
  | some (.file f) =>
    let stream := ((← get).file f).stream
    modifySession id (change stream)
    return []
  | some _ => return []
  | none => return [← newFile { stream := current ((← get).session id) }]

def input (scope : Nat) (file : Option Value) : Run (List Value) :=
  defaultStream "io.input()" scope file (·.input) fun stream s => { s with input := stream }

def output (scope : Nat) (file : Option Value) : Run (List Value) :=
  defaultStream "io.output()" scope file (·.output) fun stream s => { s with output := stream }

def currentOutput (scope : Nat) (operation : String) : Run Nat := do
  requireStream ((← get).sessionOf scope).output operation

/-- The iteration over a named file or the default input, followed by a closing value. -/
def lines (scope : Nat) (name : Option Value) (formats : List Value) : Run (List Value) := do
  let (file, closing) ← match name with
    | none => do
      let stream := ((← get).sessionOf scope).input
      pure (← newFile { stream }, false)
    | some v => do
      let name ← Argument.content v
      pure (← newFile { stream := some (← world (World.openRead name)) }, true)
  return [← newIterator .ioLines scope file formats closing, .nil, .nil, file]

def runMethod (k : Evaluator) (scope : Nat) (b : Builtin) (args : List Value) : Run Results := do
  match b, args with
  | .fileClose, file :: _ => return .ofList (← close file)
  | .fileFlush, file :: _ =>
    world (World.flush (← streamOf file "flush"))
    return .many []
  | .fileLines, file :: formats =>
    let formats := if formats.isEmpty then [.ascii "l"] else formats
    return .ofList [← newIterator .fileLines scope file formats false]
  | .fileRead, file :: formats => return .ofList (← read k scope file formats)
  | .fileSeek, file :: rest => return .ofList [← seek file rest[0]? rest[1]?]
  | .fileSetvbuf, _ =>
    BasicLibrary.writeWarning ((← get).sessionOf scope) [.ascii "file:setvbuf(): ignored call"]
    return .many []
  | .fileWrite, file :: values =>
    writeAll (streamOf file "write") values
    return .ofList [file]
  | _, _ => return .many []

def run (k : Evaluator) (scope : Nat) (b : Builtin) (args : List Value) : Run Results := do
  match b, args with
  | .ioClose, [] =>
    world (World.close (← currentOutput scope "close"))
    return .many []
  | .ioClose, file :: _ =>
    world (World.close (← streamOf file "close"))
    return .many []
  | .ioFlush, _ =>
    world (World.flush (← currentOutput scope "flush"))
    return .many []
  | .ioInput, args => return .ofList (← input scope args.head?)
  | .ioLines, args => return .ofList (← lines scope args.head? (args.drop 1))
  | .ioOpen, name :: rest => return .ofList [← openFile name rest.head?]
  | .ioOutput, args => return .ofList (← output scope args.head?)
  | .ioPopen, command :: rest => return .ofList [← popen command rest.head?]
  | .ioRead, _ =>
    let stream ← requireStream ((← get).sessionOf scope).input "readline"
    return .ofList [← readLine stream]
  | .ioTmpfile, _ =>
    let stream ← world (World.openUnnamed [] .update true)
    return .ofList [← newFile { stream }]
  | .ioType, file :: _ =>
    match file with
    | .file _ =>
      let stream ← streamOf file "closed"
      let closed := ((← get).world.stream stream).closed
      return .ofList [.ascii (if closed then "closed file" else "file")]
    | _ => return .ofList [.nil]
  | .ioWrite, values =>
    let stream := ((← get).sessionOf scope).output
    writeAll (requireStream stream "write") values
    return .ofList [← newFile { stream }]
  | b, args => runMethod k scope b args

end LuaInterpreter.IoLibrary
