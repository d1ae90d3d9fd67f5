import LuaInterpreter.Host.Convert
import LuaInterpreter.Library.Io
import LuaInterpreter.Library.Table

/-!
# Calls

A function of the language runs its block in a new scope inside the one it was defined in; other
functions are part of the library or of the host.
-/

namespace LuaInterpreter.Eval

open Run

/-! ## Functions of the language -/

/-- The parameters bound to the arguments, and what `...` stands for. -/
structure Binding where
  locals : List (Bytes × Variable)
  varargs : Option (List Value)

/-- Binds arguments to parameters: they are cut or filled up to the number of parameters, and a
variadic function keeps the rest. -/
def bind (f : Function) (args : List Results) : Binding :=
  let n := f.params.length
  let locals (values : List Value) : List (Bytes × Variable) :=
    (f.params.zip values).foldl (fun ls (p, v) => Scope.setLocal p { value := v } ls) []
  if f.variadic then
    let values := Results.flatten args
    { locals := locals (Results.adjust ((values.take n).map .one) n)
      varargs := some (values.drop n) }
  else { locals := locals (Results.adjust args n), varargs := none }

def runFunction (k : Evaluator) (f : Function) (body : Block) (args : List Results) :
    Run Results := do
  match f.scope with
  | none => fault (.noAttribute "NoneType" "push")
  | some parent =>
    let b := bind f args
    let session := ((← get).scope parent).session
    let scope ← newScope { session, parent := some parent, locals := b.locals, varargs := b.varargs }
    blockValue k scope body

/-! ## Functions of the library -/

def runBuiltin (k : Evaluator) (scope : Nat) (b : Builtin) (args : List Value) : Run Results :=
  if Builtin.tableMembers.contains b then TableLibrary.run k b args
  else if Builtin.osMembers.contains b then OsLibrary.run k b args
  else if Builtin.ioMembers.contains b || Builtin.fileMembers.contains b then
    IoLibrary.run k scope b args
  else BasicLibrary.run k scope b args

def iteratorLabel (maker : Builtin) : String :=
  (if maker = .ioLines then "io_lines" else "_file_method_lines") ++ ".<locals>.iterator_function"

/-- The scope that a function gets: that of the caller, else its own, else one of a new session. -/
def scopeFor (f : Function) (scope : Option Nat) : Run Nat :=
  match scope <|> f.scope with
  | some sc => return sc
  | none => newRoot

def runNative (k : Evaluator) (f : Function) (args : List Value) (scope : Option Nat) :
    Run Results := do
  match f.code with
  | .builtin b =>
    let p := b.profile
    Run.ofExcept (p.parameters.check p.label p.getsScope args.length)
    let sc ← if f.getsScope then scopeFor f scope else pure 0
    runBuiltin k sc b args
  | .reader maker sc file formats closing =>
    Run.ofExcept (({} : Parameters).check (iteratorLabel maker) false args.length)
    return .ofList (← IoLibrary.iterate k sc file formats closing)
  | .host id converting =>
    let sc ← if f.getsScope then do pure (some (← scopeFor f scope)) else pure none
    Convert.callHost k id converting sc args
  | .relay g => Convert.callRelay k g args
  | .nothing =>
    Run.ofExcept (({} : Parameters).check "<lambda>" false args.length)
    return .many []
  | .block _ => return .many []

def nativeEntry (name : String) : String := "<Python>: " ++ name

/-- Calls a native function: an error has it entered in its trace, and a fault becomes an error. -/
def callNative (k : Evaluator) (id : Nat) (f : Function) (args : List Results)
    (scope : Option Nat) : Run Results :=
  (runNative k f (Results.flatten args) scope).handle
    (fun e => do
      let name ← text (.func id)
      throw (.error (e.push (nativeEntry name))))
    (fun fault => do
      let name ← text (.func id)
      throw (.error ((LuaError.ofFault fault).push (nativeEntry name))))

/-- Calls a function by its number. A fault becomes an error that names the function, but one
without a message is only replaced. -/
def callFunction (k : Evaluator) (id : Nat) (args : List Results) (scope : Option Nat)
    (traced : Bool) : Run Results := do
  match (← get).function? id with
  | none => fault .unsupported
  | some f =>
    let enter (e : LuaError) : Run LuaError := do
      if traced then return e.push (← text (.func id)) else return e
    let run : Run Results := match f.code with
      | .block body => runFunction k f body args
      | _ => callNative k id f args scope
    run.handle
      (fun e => do throw (.error (← enter e)))
      (fun f => do
        if f.message = "" then fault .assertion
        let name ← text (.func id)
        throw (.error (← enter { message := .text (name ++ ": " ++ f.message), cause := some f })))

def call (k : Evaluator) : Caller := fun f args scope traced => do
  match f with
  | .func id => callFunction k id args scope traced
  | _ =>
    match ← metavalue? f "__call" with
    | none => error ("attempt to call " ++ (← typeName f) ++ " value")
    | some (.func id) => callFunction k id (.one f :: args) scope traced
    | some g => error ("attempt to call " ++ (← typeName g) ++ " value")

end LuaInterpreter.Eval

namespace LuaInterpreter

/-- With fuel `n + 1` the rules are applied with the evaluator with fuel `n` for the parts. To run
out of fuel is an outcome of its own. -/
def Evaluator.withFuel : Nat → Evaluator
  | 0 =>
    { fuel := 0
      expr := fun _ _ => throw .outOfFuel
      stat := fun _ _ => throw .outOfFuel
      call := fun _ _ _ _ => throw .outOfFuel }
  | n + 1 =>
    { fuel := n + 1
      expr := fun scope e => Eval.expression (withFuel n) scope e
      stat := fun scope s => Eval.statement (withFuel n) scope s
      call := fun f args scope traced => Eval.call (withFuel n) f args scope traced }

end LuaInterpreter
