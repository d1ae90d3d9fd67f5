import LuaInterpreter.Operation.Index
import LuaInterpreter.Operation.Operator

/-!
# Evaluation of parts

The rule of a construct is given an `Evaluator` for its parts and for the calls it makes. A single
recursion on fuel puts the rules together.
-/

namespace LuaInterpreter

structure Evaluator where
  fuel : Nat
  expr : (scope : Nat) → Expr → Run Results
  /-- A statement gives a list of values or nothing. -/
  stat : (scope : Nat) → Stat → Run (Option Results)
  call : Caller

def Place.entry (p : Place) (what : String) : String :=
  p.file ++ ":" ++ toString p.line ++ ": " ++ what

def LuaError.push (e : LuaError) (entry : String) : LuaError := { e with trace := e.trace ++ [entry] }

namespace Run

/-- Handles errors and faults; all other signals pass. -/
def handle {α : Type} (action : Run α) (onError : LuaError → Run α) (onFault : Fault → Run α) :
    Run α :=
  tryCatch action fun
    | .error e => onError e
    | .fault f => onFault f
    | s => throw s

/-- Runs the evaluation of a construct. In a verbose session an error that leaves it has the
construct entered in its trace (unless `silent`), and a fault becomes an error first. -/
def traced {α : Type} (scope : Nat) (place : Place) (role kind : String) (silent : Bool)
    (action : Run α) : Run α := do
  if ((← get).sessionOf scope).verbose then
    action.handle
      (fun e => throw (.error (if silent then e else e.push (place.entry (role ++ kind)))))
      (fun f => do
        let message ← ofExcept (asciiMessage f.message)
        throw (.error { message, cause := some f, trace := [place.entry (role ++ kind)] }))
  else action

def nameString (n : Name) : Run Bytes :=
  match Bytes.encodeAscii? n.text with
  | .ok bs => return bs
  | .error u => fault (.unencodable u)

def itemsOr (complaint : (kind : String) → Fault) (r : Results) : Run (List Results) := do
  match (← get).itemsOf? r, r with
  | some items, _ => return items
  | none, .one v => fault (complaint v.kind)
  | none, .many items => return items

def itemsOf (r : Results) : Run (List Results) := itemsOr .notIterable r

end Run

def constructOrigin (kind : String) : String :=
  if kind = "NoneType" then kind else "mehtap.ast_nodes." ++ kind

end LuaInterpreter
