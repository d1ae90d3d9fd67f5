import LuaInterpreter.Value.Basic
import LuaInterpreter.Library.Builtin

/-!
# Values of the host program

The interpreter can be part of another program, its host, which has values of its own.
-/

namespace LuaInterpreter

inductive HostValue where
  /-- A plain value, or a container by its number. -/
  | plain (f : Foreign)
  | lua (v : Value)
  /-- An object that says which value of the language it stands for. -/
  | convertible (v : Value)
  /-- An object that cannot become a value of the language. -/
  | inert (description : String)
  | function (id : Nat)
  | callable (f : Value) (name : String)
deriving Repr

instance : Inhabited HostValue := ⟨.plain .none⟩

inductive HostObject where
  | list (items : List HostValue)
  | tuple (items : List HostValue)
  | dict (entries : List (HostValue × HostValue))
deriving Repr

inductive HostResult where
  | one (v : HostValue)
  | list (items : List HostValue)
  | tuple (items : List HostValue)

inductive HostOutcome where
  | returned (r : HostResult)
  | raised (f : Fault)
  | failed (message : String)
  | exited (code : Foreign)

/-- A parameter of a host function that is given by position or by name. -/
inductive HostParameter where
  | required (name : String)
  | optional (name : String)
  | rest
  | plain (name : String)
  | named (name : String)
deriving Repr, DecidableEq

def HostParameter.name : HostParameter → String
  | .required n | .optional n | .plain n | .named n => n
  | .rest => "rest"

/-- A function of the host: its name, its parameters, and what it does with its arguments. -/
structure HostFunction where
  name : String
  label : String
  parameters : List HostParameter
  behaviour : List HostValue → HostOutcome

def HostFunction.positional (f : HostFunction) : Parameters :=
  { required := f.parameters.filterMap fun
      | .required n => some n
      | .plain n => some n
      | _ => none
    optional := f.parameters.filterMap fun
      | .optional n => some n
      | _ => none
    variadic := f.parameters.contains .rest }

end LuaInterpreter
