import LuaInterpreter.Store.Scope
import LuaInterpreter.Store.Text

/-!
# Raw access and metavalues

Tables and files can be indexed; a metatable that is neither makes every look-up of a metavalue
fail.
-/

namespace LuaInterpreter

/-- Calls a value with arguments, from a scope if there is one. If `traced`, an error that leaves
the call has the function entered in its trace. -/
abbrev Caller := (f : Value) → (args : List Results) → (scope : Option Nat) → (traced : Bool) →
  Run Results

namespace Run

/-! ## Fields of tables and files -/

def fileMethod? (name : Bytes) : Option Builtin :=
  Builtin.fileMembers.find? fun b => Bytes.ofAscii b.profile.name == name

def fileField (key : Value) : Run Value :=
  match key with
  | .str name =>
    match fileMethod? name with
    | some b => return .func b.number
    | none => error "invalid index to a file value"
  | _ => error "invalid index to a file value"

def requireKey (k : Value) : Run Unit :=
  if k.isKey then pure () else fault (.unhashable k.kind)

def isIndexable : Value → Bool
  | .table _ | .file _ => true
  | _ => false

def atField {α : Type} (operation : String) (v k : Value) (ofTable : Nat → Run α)
    (ofFile : Run α) : Run α := do
  match v with
  | .table id =>
    requireKey k
    ofTable id
  | .file _ => ofFile
  | _ => fault (.noAttribute v.kind operation)

def rawGet (v k : Value) : Run Value :=
  atField "rawget" v k (fun id => return ((← get).table id).get k) (fileField k)

def rawPut (v k value : Value) : Run Unit :=
  atField "rawput" v k (modifyTable · fun t => t.put k value)
    (error "attempt to set index on a file value")

def hasField (v k : Value) : Run Bool :=
  atField "has" v k (fun id => return ((← get).table id).has k) <|
    match k with
    | .str name => return (fileMethod? name).isSome
    | _ => return false

def field? (v k : Value) : Run (Option Value) :=
  atField "get_with_fallback" v k (fun id => return ((← get).table id).get? k)
    (return some (← fileField k))

/-! ## Metavalues -/

/-- The metatable of a value, `nil` if it has none. -/
def metatable (v : Value) (operation : String) : Run Value := do
  match v with
  | .table id => return (((← get).table id).metatable).getD .nil
  | .foreign f => fault (.noAttribute f.kind operation)
  | _ => return .nil

def hasMetavalue (v : Value) (name : String) : Run Bool := do
  let mt ← metatable v "has_metavalue"
  if mt.isNil then return false else hasField mt (.ascii name)

def metavalue? (v : Value) (name : String) : Run (Option Value) := do
  let mt ← metatable v "get_metavalue"
  if mt.isNil then return none else field? mt (.ascii name)

def unaryMetamethod (call : Caller) (v : Value) (name : String) : Run (Option Value) := do
  match ← metavalue? v name with
  | none => return none
  | some f => return some (← call f [.one v] none true).single

def binaryMetamethod (call : Caller) (a b : Value) (name : String) : Run (Option Value) := do
  let found ← match ← metavalue? a name with
    | some f => pure (some f)
    | none => metavalue? b name
  match found with
  | none => return none
  | some f => return some (← call f [.one a, .one b] none true).single

end Run

end LuaInterpreter
