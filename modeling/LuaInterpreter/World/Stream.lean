import LuaInterpreter.World.Disk

/-!
# Streams

Bytes written to a stream are held back until it is flushed, closed, moved or read, or until they
are too many.
-/

namespace LuaInterpreter

inductive Access where
  | read | write | update
deriving Repr, DecidableEq

inductive StreamName where
  | path (name : Bytes)
  | label (text : String)
  | descriptor (n : Nat)
  | unnamed
deriving Repr, DecidableEq

structure Stream where
  content : Nat
  access : Access
  name : StreamName
  append : Bool := false
  seekable : Bool := true
  isText : Bool := false
  /-- Where the next byte is read, or the first of the pending bytes will be written. -/
  position : Nat := 0
  pending : Bytes := []
  closed : Bool := false
deriving Repr

structure World where
  disk : Disk := {}
  streams : Array Stream := #[]
  errors : Bytes := []
  environment : List (String × String) := []
  now : Float := 0
  processorTime : Float := 0
  /-- Characters taken from standard input together with a line and not yet used. -/
  lookahead : List Char := []
  prompts : Nat := 0
  interrupts : List Nat := []
  diverted : Bool := false
deriving Repr

namespace World

abbrev Action := StateT World (Except Fault)

def standardInput : Nat := 0
def standardOutput : Nat := 1

def bufferSize : Nat := 8192

def closedStream : Stream :=
  { content := 0, access := .read, name := .unnamed, closed := true }

def stream (w : World) (id : Nat) : Stream := w.streams.getD id closedStream

def setStream (w : World) (id : Nat) (s : Stream) : World :=
  { w with streams := w.streams.setIfInBounds id s }

def addStream (w : World) (s : Stream) : Nat × World :=
  (w.streams.size, { w with streams := w.streams.push s })

/-- Puts bytes at a position; a gap before them is filled with zeros. -/
def overwrite (content : Bytes) (position : Nat) (bs : Bytes) : Bytes :=
  content.take position ++ List.replicate (position - content.length) 0 ++ bs
    ++ content.drop (position + bs.length)

def settleStream (w : World) (id : Nat) : World :=
  let s := w.stream id
  if s.pending.isEmpty then w
  else
    let content := w.disk.content s.content
    let start := if s.append then content.length else s.position
    let w := { w with disk := w.disk.setContent s.content (overwrite content start s.pending) }
    w.setStream id { s with position := start + s.pending.length, pending := [] }

def settleAll (w : World) : World := (List.range w.streams.size).foldl settleStream w

/-! ## Reading and writing -/

/-- Refuses what the access does not allow. -/
def requireReadable (s : Stream) : Except Fault Unit :=
  if s.access = .write then .error (.wrongMode "read") else .ok ()

def requireOpen (s : Stream) (complaint : String) : Except Fault Unit :=
  if s.closed then .error (.closedFile complaint) else .ok ()

/-- The complaint about a count or distance that is no 64-bit integer. -/
def tooFar : String := "cannot fit 'int' into an index-sized integer"

def isIndex (i : Int) : Bool := -9223372036854775808 ≤ i && i ≤ 9223372036854775807

def take (id count : Nat) : Action Bytes := fun w =>
  let w := w.settleStream id
  let s := w.stream id
  let bs := ((w.disk.content s.content).drop s.position).take count
  .ok (bs, w.setStream id { s with position := s.position + bs.length })

def ahead (w : World) (id : Nat) : Bytes :=
  let w := w.settleStream id
  let s := w.stream id
  (w.disk.content s.content).drop s.position

/-- How many bytes can be asked for at most: a buffer for them has to be addressed, head included. -/
def greatestCount : Int := 9223372036854775774

/-- Reads up to `count` bytes, or all that lies ahead if it is `-1`. The count is checked before it
matters that a stream is closed, but whether a buffer can hold so many only after that. -/
def read (id : Nat) (count : Int) : Action Bytes := do
  let w ← get
  requireReadable (w.stream id)
  if !isIndex count then throw (.foreign "OverflowError" tooFar)
  if count < -1 then throw (.outOfRange "read length must be non-negative or -1")
  requireOpen (w.stream id) "read of closed file"
  if count = -1 then take id (w.ahead id).length
  else if greatestCount < count then throw (.foreign "OverflowError" "byte string is too large")
  else take id count.toNat

def lineLength (bs : Bytes) : Nat :=
  match bs with
  | [] => 0
  | b :: bs => if b = 10 then 1 else lineLength bs + 1

/-- Reads a line with its end; nothing at the end of the stream. -/
def readLine (id : Nat) : Action Bytes := do
  let w ← get
  requireReadable (w.stream id)
  requireOpen (w.stream id) "readline of closed file"
  take id (lineLength (w.ahead id))

/-- Adds bytes to what a stream holds back; if that becomes too much, it is handed on first. -/
def put (w : World) (id : Nat) (bs : Bytes) : World :=
  let s := w.stream id
  if s.pending.length + bs.length ≤ bufferSize then
    w.setStream id { s with pending := s.pending ++ bs }
  else
    let w := w.settleStream id
    let w := w.setStream id { w.stream id with pending := bs }
    if bs.length ≤ bufferSize then w else w.settleStream id

def write (id : Nat) (bs : Bytes) : Action Unit := fun w =>
  let s := w.stream id
  if s.isText then .error .textExpected
  else if s.access = .read then .error (.wrongMode "write")
  else if s.closed then .error (.closedFile "write to closed file")
  else .ok ((), w.put id bs)

inductive Whence where
  | set | current | fromEnd
deriving Repr, DecidableEq

def seek (id : Nat) (offset : Int) (whence : Whence) : Action Nat := fun w =>
  let s := w.stream id
  if s.closed then .error (.closedFile "seek of closed file")
  else if !s.seekable then .error (.wrongMode "File or stream is not seekable.")
  else if !isIndex offset then .error (.outOfRange tooFar)
  else
    let w := w.settleStream id
    let s := w.stream id
    let base : Nat := match whence with
      | .set => 0
      | .current => s.position
      | .fromEnd => (w.disk.content s.content).length
    let target : Int := base + offset
    if target < 0 then .error (.system Disk.invalid none)
    else .ok (target.toNat, w.setStream id { s with position := target.toNat })

def flush (id : Nat) : Action Unit := fun w =>
  let s := w.stream id
  if s.closed then
    .error (.closedFile
      (if s.access = .read || s.isText then "I/O operation on closed file." else "flush of closed file"))
  else if s.isText then .error (.wrongMode "fileno")
  else if !s.seekable then .error (.system Disk.invalid none)
  else .ok ((), w.settleStream id)

def close (id : Nat) : Action Unit := fun w =>
  let w := w.settleStream id
  .ok ((), w.setStream id { w.stream id with closed := true })

/-! ## Opening -/

/-- Names have no zero bytes. -/
def requireName (name : Bytes) : Except Fault Unit :=
  if name.contains 0 then .error .nulInName else .ok ()

/-- Runs an operation on a name, which is shown as `shown` if it fails. -/
def onDisk {α : Type} (name : Bytes) (shown : String) (r : Except Nat α) : Except Fault α := do
  requireName name
  r.mapError fun code => .system code (some shown)

def openRead (name : Bytes) : Action Nat := fun w => do
  let content ← onDisk name (Quoted.bytes name) (w.disk.openRead name)
  return w.addStream { content, access := .read, name := .path name }

/-- Opens a file for writing: emptied first, or with all writing at its end. -/
def openWrite (name : Bytes) (access : Access) (append : Bool) : Action Nat := fun w => do
  let (content, disk) ← onDisk name (Quoted.bytes name) (w.disk.openWrite name (!append))
  let position := if append then (disk.content content).length else 0
  return { w with disk }.addStream { content, access, name := .path name, append, position }

def openUpdate (name : Bytes) : Action Nat := fun w => do
  let content ← onDisk name (Quoted.bytes name) (w.disk.openRead name)
  return w.addStream { content, access := .update, name := .path name }

/-- Opens a content without a name: that of a temporary file, or one that comes through a pipe. -/
def openUnnamed (bs : Bytes) (access : Access) (seekable : Bool) : Action Nat := fun w =>
  let (content, disk) := w.disk.newContent bs
  .ok ({ w with disk }.addStream
    { content, access, name := .descriptor (w.streams.size + 1), seekable })

def fileContent (name : Bytes) (shown : String) : Action Bytes := fun w => do
  let content ← onDisk name shown (w.disk.openRead name)
  return (w.disk.content content, w)

end World

end LuaInterpreter
