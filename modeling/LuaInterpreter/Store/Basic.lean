import LuaInterpreter.Host.Value
import LuaInterpreter.Value.Table
import LuaInterpreter.World.Console

/-!
# The store

All that running programs refer to by number. Numbers are never used again, so two things are the
same exactly if their numbers are.
-/

namespace LuaInterpreter

/-! ## Functions -/

/-- Functions of the language are named by its strings, others by text. -/
inductive FunctionName where
  | string (s : Bytes)
  | text (s : String)
deriving Repr, DecidableEq

inductive Code where
  | block (body : Block)
  | builtin (b : Builtin)
  /-- Reads from a file with the given formats, made by the function `maker`; `closing` ones close
  the file when something is missing. -/
  | reader (maker : Builtin) (scope : Nat) (file : Value) (formats : List Value) (closing : Bool)
  /-- A host function; if `converting`, arguments and results are converted. -/
  | host (id : Nat) (converting : Bool)
  /-- A function that went through the host: arguments and results of it are converted to the
  host's and back. -/
  | relay (f : Value)
  | nothing

def Code.isNative : Code → Bool
  | .block _ => false
  | _ => true

structure Function where
  params : List Bytes
  variadic : Bool
  scope : Option Nat
  code : Code
  getsScope : Bool := false
  name : Option FunctionName := none
  /-- How many parameters are shown as required. -/
  minRequired : Option Int := none
  signature : Option String := none

def Function.ofBuiltin (b : Builtin) : Function :=
  let p := b.profile
  { params := (p.parameters.required ++ p.parameters.optional).map Bytes.ofAscii
    variadic := p.parameters.variadic
    scope := none
    code := .builtin b
    getsScope := p.getsScope
    name := some (.text p.name)
    minRequired := some p.parameters.required.length
    signature := p.signature }

/-! ## Scopes, files and sessions -/

structure Variable where
  value : Value
  constant : Bool := false
  toBeClosed : Bool := false
deriving Repr

structure Scope where
  session : Nat
  parent : Option Nat
  /-- The local variables in the order of their declaration. -/
  locals : List (Bytes × Variable) := []
  /-- What `...` stands for; `none` where it stands for nothing. -/
  varargs : Option (List Value) := none
deriving Repr

/-- A file as programs see it: its stream, and how its process ended if it is a process's output. -/
structure File where
  stream : Option Nat
  status : Option Int := none
deriving Repr

structure Session where
  globals : Nat
  root : Nat
  warnings : Bool := false
  /-- Traces name every construct that an error passes. -/
  verbose : Bool := false
  input : Option Nat := some World.standardInput
  output : Option Nat := some World.standardOutput
deriving Repr

structure Store where
  tables : Array Table := #[]
  functions : Array Function := #[]
  scopes : Array Scope := #[]
  files : Array File := #[]
  objects : Array HostObject := #[]
  hostFunctions : Array HostFunction := #[]
  sessions : Array Session := #[]
  world : World := {}

/-! ## Signals -/

/-- An error of the language: any value may be its message. -/
structure LuaError where
  message : Value
  level : Int := 1
  cause : Option Fault := none
  trace : List String := []
deriving Repr

inductive Signal where
  | error (e : LuaError)
  | fault (f : Fault)
  | break
  | goto (label : String)
  | return (values : Results)
  | exit (code : Foreign)
  | kill (code : Int)
  | interrupt
  | outOfFuel

abbrev Run := EStateM Signal Store

namespace Run

def fault {α : Type} (f : Fault) : Run α := throw (.fault f)

def ofExcept {α : Type} : Except Fault α → Run α
  | .ok a => pure a
  | .error f => fault f

/-- The text that an error made of a text has as its message: it must be ASCII. -/
def asciiMessage (text : String) : Except Fault Value :=
  match Bytes.encodeAscii? text with
  | .ok bs => .ok (.str bs)
  | .error u => .error (.unencodable u)

def error {α : Type} (text : String) : Run α := do
  let message ← ofExcept (asciiMessage text)
  throw (.error { message })

def errorValue {α : Type} (message : Value) : Run α := throw (.error { message })

def world {α : Type} (action : World.Action α) : Run α := do
  let store ← get
  match action.run store.world with
  | .ok (a, w) =>
    set { store with world := w }
    return a
  | .error f => fault f

def typeName (v : Value) : Run String := ofExcept v.typeName?

def loop {σ α : Type} : Nat → (σ → Run (Sum σ α)) → σ → Run α
  | 0, _, _ => throw .outOfFuel
  | fuel + 1, step, state => do
    match ← step state with
    | .inl state => loop fuel step state
    | .inr result => return result

end Run

/-! ## Access by number -/

namespace Store

def table (s : Store) (id : Nat) : Table := s.tables.getD id {}

def function? (s : Store) (id : Nat) : Option Function := s.functions[id]?

def scope (s : Store) (id : Nat) : Scope := s.scopes.getD id { session := 0, parent := none }

def file (s : Store) (id : Nat) : File := s.files.getD id { stream := none }

def session (s : Store) (id : Nat) : Session := s.sessions.getD id { globals := 0, root := 0 }

def sessionOf (s : Store) (scope : Nat) : Session := s.session (s.scope scope).session

def items (s : Store) (id : Nat) : List HostValue :=
  match s.objects[id]? with
  | some (.list xs) | some (.tuple xs) => xs
  | some (.dict entries) => entries.map (·.1)
  | none => []

def ofItem : HostValue → Value
  | .plain f => .foreign f
  | .lua v => v
  | _ => .nil

/-- The items of anything that has items: a list, or a value of the host that can be gone through. -/
def itemsOf? (s : Store) : Results → Option (List Results)
  | .many items => some items
  | .one (.foreign (.bytes bs)) => some (bs.map fun b => .one (.foreign (.int b.toNat)))
  | .one (.foreign (.text t)) => some (t.toList.map fun c => .one (.foreign (.text c.toString)))
  | .one (.foreign (.object id)) => some ((s.items id).map fun h => .one (ofItem h))
  | .one _ => none

end Store

namespace Run

def modifyTable (id : Nat) (f : Table → Table) : Run Unit :=
  modify fun s => { s with tables := s.tables.modify id f }

def newTable (t : Table) : Run Value := do
  let s ← get
  let id := s.tables.size
  set { s with tables := s.tables.push t }
  return .table id

def newFunction (f : Function) : Run Value := do
  let s ← get
  let id := s.functions.size
  set { s with functions := s.functions.push f }
  return .func id

def newScope (sc : Scope) : Run Nat := do
  let s ← get
  let id := s.scopes.size
  set { s with scopes := s.scopes.push sc }
  return id

def pushScope (parent : Nat) : Run Nat := do
  let s ← get
  newScope { session := (s.scope parent).session, parent := some parent }

def newFile (f : File) : Run Value := do
  let s ← get
  let id := s.files.size
  set { s with files := s.files.push f }
  return .file id

def newObject (o : HostObject) : Run Foreign := do
  let s ← get
  let id := s.objects.size
  set { s with objects := s.objects.push o }
  return .object id

def newIdentity : Run Nat := do
  let id := (← get).objects.size
  let _ ← newObject (.tuple [])
  return id

def newUserdata : Run Value := do return .userdata (← newIdentity)

def newThread : Run Value := do return .thread (← newIdentity)

def setVarargs (scope : Nat) (values : Option (List Value)) : Run Unit :=
  modify fun s =>
    { s with scopes := s.scopes.modify scope fun sc => { sc with varargs := values } }

def modifySession (id : Nat) (f : Session → Session) : Run Unit :=
  modify fun s => { s with sessions := s.sessions.modify id f }

end Run

/-! ## Sessions -/

def versionText : String := "mehtap 0.0.0"

def Store.initial (world : World) : Store :=
  { functions := (Builtin.all.map Function.ofBuiltin).toArray, world }

namespace Run

def memberEntries (members : List Builtin) : List (Value × Value) :=
  members.map fun b => (.ascii b.profile.name, .func b.number)

def newLibrary (members : List Builtin) : Run Value := newTable { entries := memberEntries members }

def newSession : Run Nat := do
  let os ← newLibrary Builtin.osMembers
  let io ← newLibrary Builtin.ioMembers
  let table ← newLibrary Builtin.tableMembers
  let globals := (← get).tables.size
  let _ ← newTable
    { entries := [(.ascii "_VERSION", .ascii versionText), (.ascii "_G", .table globals)]
        ++ memberEntries Builtin.basicMembers
        ++ [(.ascii "os", os), (.ascii "io", io), (.ascii "table", table)] }
  let id := (← get).sessions.size
  let root ← newScope { session := id, parent := none, varargs := some [] }
  modify fun s => { s with sessions := s.sessions.push { globals, root } }
  return id

def newRoot : Run Nat := do
  let id ← newSession
  return ((← get).session id).root

end Run

end LuaInterpreter
