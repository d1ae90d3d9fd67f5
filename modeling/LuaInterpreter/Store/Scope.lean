import LuaInterpreter.Store.Basic

/-!
# Variables

A name stands for the variable of the nearest scope that declares it. Where none does, reading goes
to the outermost scope of the session and then to the globals, assigning to the globals at once.
-/

namespace LuaInterpreter

namespace Scope

def find? (sc : Scope) (name : Bytes) : Option Variable := sc.locals.lookup name

def setLocal (name : Bytes) (v : Variable) : List (Bytes × Variable) → List (Bytes × Variable)
  | [] => [(name, v)]
  | (n, old) :: rest => if n = name then (n, v) :: rest else (n, old) :: setLocal name v rest

end Scope

namespace Store

/-- The nearest scope, from `scope` outwards, that declares a name. The fuel bounds the number of
scopes passed; there are no more than the store has. -/
def ownerFrom (s : Store) (name : Bytes) : (fuel scope : Nat) → Option Nat
  | 0, _ => none
  | fuel + 1, scope =>
    let sc := s.scope scope
    match sc.find? name with
    | some _ => some scope
    | none =>
      match sc.parent with
      | some parent => ownerFrom s name fuel parent
      | none => none

def owner? (s : Store) (scope : Nat) (name : Bytes) : Option Nat :=
  s.ownerFrom name (s.scopes.size + 1) scope

def declares (s : Store) (scope : Nat) (name : Bytes) : Bool := (s.owner? scope name).isSome

/-- Whether a name is declared in the outermost scope or has an entry of the globals. -/
def hasGlobal (s : Store) (session : Session) (name : Bytes) : Bool :=
  s.declares session.root name || (s.table session.globals).has (.str name)

def localValue (s : Store) (scope : Nat) (name : Bytes) : Value :=
  match (s.scope scope).find? name with
  | some v => v.value
  | none => .nil

/-- The value of a global name: a local of the outermost scope, else an entry of the globals. -/
def getGlobal (s : Store) (session : Session) (name : Bytes) : Value :=
  match s.owner? session.root name with
  | some owner => s.localValue owner name
  | none => (s.table session.globals).get (.str name)

def getName (s : Store) (scope : Nat) (name : Bytes) : Value :=
  match s.owner? scope name with
  | some owner => s.localValue owner name
  | none => s.getGlobal (s.sessionOf scope) name

/-- What is found when one goes from the globals from table to table. -/
def getPath (s : Store) (session : Session) (path : List Bytes) : Value :=
  path.foldl (fun v name =>
    match v with
    | .table id => (s.table id).get (.str name)
    | _ => .nil) (.table session.globals)

end Store

namespace Run

def constantMessage : String := "attempt to change constant variable"

def setVariable (scope : Nat) (name : Bytes) (v : Variable) : Run Unit :=
  modify fun s =>
    { s with scopes := s.scopes.modify scope fun sc =>
        { sc with locals := Scope.setLocal name v sc.locals } }

/-- Declares a local variable. A constant of that name in the same scope cannot be replaced. -/
def declare (scope : Nat) (name : Bytes) (v : Variable) : Run Unit := do
  let s ← get
  match (s.scope scope).find? name with
  | some old => if old.constant then error constantMessage else setVariable scope name v
  | none => setVariable scope name v

def setGlobal (session : Session) (name : Bytes) (v : Value) : Run Unit :=
  modifyTable session.globals fun t => t.put (.str name) v

def bareValue {α : Type} (v : Value) : Run α := fault (.notLocal ("mehtap.values." ++ v.kind))

/-- Sets an entry of the globals to what a variable holds; constants and variables to be closed
cannot be global. -/
def setGlobalVariable (session : Session) (name : Bytes) (v : Variable) : Run Unit :=
  if v.constant || v.toBeClosed then fault .assertion else setGlobal session name v.value

/-- Sets an entry of the globals, from the host: only values of the language can be kept there. -/
def setGlobalItem (session : Session) (name : Bytes) : Value → Run Unit
  | .foreign f => fault (.notGlobal f.kind)
  | v => setGlobal session name v

def assign (scope : Nat) (name : Bytes) (v : Value) : Run Unit := do
  let s ← get
  match s.owner? scope name with
  | some owner =>
    match (s.scope owner).find? name with
    | some old =>
      if old.constant then error constantMessage else setVariable owner name { value := v }
    | none => setVariable owner name { value := v }
  | none => setGlobal (s.sessionOf scope) name v

end Run

end LuaInterpreter
