import LuaInterpreter.CommandLine.Program
import LuaInterpreter.World.Surroundings

/-!
# The program

Runs the command line in a world made of standard input, the environment and the files it names,
and hands on what was written.
-/

namespace LuaInterpreter.Main

/-- How deep constructs may nest and how long a loop may run. -/
def fuel : Nat := 1000000000

def name : String := "mehtap"

def usedVariables : List String := CommandLine.initialVariables ++ ["_PROMPT", "_PROMPT2"]

def environment : IO (List (String × String)) :=
  usedVariables.filterMapM fun v => do return (← IO.getEnv v).map fun value => (v, value)

def readFiles (names : List String) : IO (List (Bytes × Option Bytes)) :=
  names.eraseDups.filterMapM fun (n : String) => do
    try
      let content ← IO.FS.readBinFile n
      return some (Bytes.encodeUtf8 n, some content.toList)
    catch _ => return none

def writeFiles (before after : List (Bytes × Option Bytes)) : IO Unit :=
  after.forM fun (path, content) => do
    match Bytes.decodeUtf8? path, content with
    | .ok n, some bs =>
      if before.lookup path != some content then
        IO.FS.writeBinFile n (ByteArray.mk bs.toArray)
    | _, _ => pure ()

def status : Signal → UInt32
  | .exit (.int i) => (i % 256).toNat.toUInt32
  | .exit .none => 0
  | .exit (.bool b) => if b then 1 else 0
  | .kill i => (i % 256).toNat.toUInt32
  | _ => 1

def complaint : Signal → String
  | .fault f => f.kind ++ ": " ++ f.message ++ "\n"
  | .break => "break outside a loop\n"
  | .goto label => "no label " ++ label ++ "\n"
  | .outOfFuel => "out of fuel\n"
  | _ => ""

end LuaInterpreter.Main

open LuaInterpreter LuaInterpreter.Main in
def main (arguments : List String) : IO UInt32 := do
  let input ← (← IO.getStdin).readBinToEnd
  let environment ← environment
  let before ← readFiles (arguments ++ environment.map (·.2))
  let world := World.ofSurroundings { files := before, input := input.toList, environment }
  let outcome := (CommandLine.run (Evaluator.withFuel fuel) name arguments).run (Store.initial world)
  let (code, said, store) := match outcome with
    | .ok () store => ((0 : UInt32), "", store)
    | .error signal store => (status signal, complaint signal, store)
  (← IO.getStdout).write (ByteArray.mk store.world.output.toArray)
  (← IO.getStderr).write (ByteArray.mk store.world.errors.toArray)
  (← IO.getStderr).putStr said
  writeFiles before store.world.listing
  return code
