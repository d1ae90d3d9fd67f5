import LuaInterpreter.Eval.Chunk

/-!
# Arguments of library functions

What a library function takes from its arguments, and its complaints about those without it.
-/

namespace LuaInterpreter

namespace Argument

open Run

def content : Value → Run Bytes
  | .str s => return s
  | v => fault (.noAttribute v.kind "content")

def number : Value → Run Number
  | .num n => return n
  | v => fault (.noAttribute v.kind "value")

/-- A number that counts or numbers something: it must be an integer. -/
def integer (n : Number) : Run Int := Run.ofExcept n.requireInt

def decode (bs : Bytes) : Run String :=
  Run.ofExcept ((Bytes.decodeUtf8? bs).mapError .undecodable)

def string (complaint : String) : Value → Run Bytes
  | .str s => return s
  | _ => error complaint

def wrongType {α : Type} (which function expected : String) (got : Value) : Run α := do
  error ("bad argument " ++ which ++ " to '" ++ function ++ "' (" ++ expected ++ " expected, got "
    ++ (← typeName got) ++ ")")

end Argument

end LuaInterpreter
