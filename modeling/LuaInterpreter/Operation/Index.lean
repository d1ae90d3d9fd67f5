import LuaInterpreter.Operation.Metavalue

/-!
# Indexing

A table or file that has the field answers by itself; otherwise its metavalue decides: a function is
called, any other value is indexed in turn.
-/

namespace LuaInterpreter.Index

open Run

/-- Whether a value can stand for a missing field: a function, something that can be indexed, or
something with such a metavalue of its own. -/
def canDelegate (v : Value) (event : String) : Run Bool :=
  match v with
  | .func _ | .table _ | .file _ => return true
  | _ => hasMetavalue v event

/-- A way of access to a field: the metavalue that decides if the field is missing, how a complaint
names it, and what is done to a table or file that has the field. -/
structure Access (α : Type) where
  event : String
  phrase : String
  key : Value
  raw : Value → Run α

def reading (k : Value) : Access Value :=
  { event := "__index", phrase := "an '__index'", key := k, raw := fun v => rawGet v k }

def writing (k value : Value) : Access Unit :=
  { event := "__newindex", phrase := "a '__newindex'", key := k, raw := fun v => rawPut v k value }

def owns (v k : Value) : Run Bool := if isIndexable v then hasField v k else return false

/-- Accesses a field, passing at most `fuel` values; `ask` calls a function in its place. -/
def follow {α : Type} (a : Access α) (ask : (function v : Value) → Run α) :
    (fuel : Nat) → Value → Run α
  | 0, _ => throw .outOfFuel
  | fuel + 1, v => do
    match ← metavalue? v a.event with
    | none =>
      if isIndexable v then a.raw v
      else error ("attempt to index a " ++ (← typeName v) ++ " value")
    | some mv =>
      if ← owns v a.key then a.raw v
      else if ← canDelegate mv a.event then
        match mv with
        | .func _ => ask mv v
        | _ => follow a ask fuel mv
      else
        error ("metavalue for '" ++ a.event ++ "' must be a function, table, or a value with "
          ++ a.phrase ++ " metavalue")

/-- A chain without repetition passes each table at most once, and one more value at its end. -/
def chainFuel (s : Store) : Nat := s.tables.size + 2

def read (call : Caller) (v k : Value) : Run Value := do
  follow (reading k) (fun f v => return (← call f [.one v, .one k] none true).single)
    (chainFuel (← get)) v

def write (call : Caller) (v k value : Value) : Run Unit := do
  follow (writing k value) (fun f v => do let _ ← call f [.one v, .one k, .one value] none true)
    (chainFuel (← get)) v

end LuaInterpreter.Index
