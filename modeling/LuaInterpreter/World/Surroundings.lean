import LuaInterpreter.World.Console

/-!
# Surroundings

What a program finds when it starts, and what it leaves behind.
-/

namespace LuaInterpreter

structure Surroundings where
  /-- Names with contents; directories have none. A directory comes before what lies in it. -/
  files : List (Bytes × Option Bytes) := []
  input : Bytes := []
  environment : List (String × String) := []
  /-- The standard streams are of text and have no name. -/
  textStreams : Bool := false
  now : Float := 1700000000
  interrupts : List Nat := []
deriving Repr

namespace World

def standardStream (text : Bool) (content : Nat) (access : Access) (name : String) : Stream :=
  if text then { content, access := .update, name := .unnamed, isText := true }
  else { content, access, name := .label name }

def ofSurroundings (s : Surroundings) : World :=
  let disk := s.files.foldl (fun (d : Disk) (name, content) => d.add name content) {}
  let (input, disk) := disk.newContent s.input
  let (output, disk) := disk.newContent []
  { disk
    streams := #[standardStream s.textStreams input .read "<stdin>",
      standardStream s.textStreams output .write "<stdout>"]
    environment := s.environment
    now := s.now
    processorTime := 0.03125
    interrupts := s.interrupts }

/-- What has been written to standard output; pending bytes of all streams are handed on first. -/
def output (w : World) : Bytes :=
  let w := w.settleAll
  w.disk.content (w.stream standardOutput).content

def listing (w : World) : List (Bytes × Option Bytes) :=
  let disk := w.settleAll.disk
  disk.nodes.filterMap fun (path, node) =>
    if Path.isAbsolute path then none
    else match node with
      | .directory => some (Path.toName path, none)
      | .file content => some (Path.toName path, some (disk.content content))

end World

end LuaInterpreter
