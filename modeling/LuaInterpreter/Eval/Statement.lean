import LuaInterpreter.Eval.Expression

/-!
# Statements

A block is run in a scope of its own, the body of a loop in one scope for all its rounds. The result
of a block is what its last statement gives.
-/

namespace LuaInterpreter.Eval

open Run

/-! ## Blocks -/

/-- Runs statements in order. `last` is what the last one so far gave; so is the result. A jump to a
label among `labels` ends the run without an error. -/
def runStats (k : Evaluator) (scope : Nat) (labels : List String) :
    (last : Option Results) → List Stat → Run (Option Results)
  | last, [] => return last
  | last, s :: rest => do
    let outcome ← tryCatch (do return Sum.inl (← k.stat scope s)) fun
      | .goto label =>
        if labels.contains label then return Sum.inr () else throw (.goto label)
      | signal => throw signal
    match outcome with
    | .inl r => runStats k scope labels r rest
    | .inr () => return last

def labelsOf (b : Block) : List String :=
  b.stats.filterMap fun s =>
    match s.form with
    | .label n => some n.text
    | _ => none

/-- Runs a block in a scope. A jump to a label of the block goes on after its last statement, with
the `return` at its end if there is one. -/
def runBlock (k : Evaluator) (scope : Nat) (b : Block) : Run Results := do
  let last ← runStats k scope (labelsOf b) none b.stats
  match b.ret with
  | some r =>
    let _ ← k.stat scope r
    pure ()
  | none => pure ()
  return last.getD (.many [])

def blockValue (k : Evaluator) (scope : Nat) (b : Block) : Run Results :=
  tryCatch (runBlock k scope b) fun
    | .return values => return values
    | signal => throw signal

def innerBlock (k : Evaluator) (scope : Nat) (b : Block) : Run Results :=
  traced scope b.place "statement " "Block" false do
    runBlock k (← pushScope scope) b

/-! ## Assignment -/

def assignTo (k : Evaluator) (scope : Nat) (target : Expr) (value : Value) : Run Unit := do
  match target.form with
  | .variable n => assign scope (← nameString n) value
  | .index b i =>
    let base ← single k scope b
    if isIndexable base then
      let key ← single k scope i
      Index.write k.call base key value
    else error ("attempt to index " ++ (← typeName base) ++ " value")
  | _ => fault (.misplacedConstruct "variable" (constructOrigin target.kind))

def assignAll (k : Evaluator) (scope : Nat) : List Expr → List Value → Run Unit
  | t :: ts, v :: vs => do
    assignTo k scope t v
    assignAll k scope ts vs
  | _, _ => pure ()

def localValues (k : Evaluator) (scope count : Nat) : List Expr → Run (List Value)
  | [] => return List.replicate count .nil
  | es => do return Results.adjust (← each k scope es) count

/-- Declares the names of a local declaration. Only one of them may be marked to be closed. -/
def declareAll (scope : Nat) : (closing : Bool) → List AttribName → List Value → Run Unit
  | closing, n :: ns, v :: vs => do
    let name ← nameString n.name
    match n.attrib with
    | none =>
      declare scope name { value := v }
      declareAll scope closing ns vs
    | some a =>
      let attrib ← nameString a
      if attrib == Bytes.ofAscii "close" then
        if closing then fault .unsupported
        declare scope name { value := v, toBeClosed := true }
        declareAll scope true ns vs
      else if attrib == Bytes.ofAscii "const" then
        declare scope name { value := v, constant := true }
        declareAll scope closing ns vs
      else error ("unknown attribute '" ++ a.text ++ "'")
  | _, _, _ => pure ()

/-! ## Loops -/

/-- Runs a loop that `break` leaves. -/
def breakable (action : Run Unit) : Run Unit :=
  tryCatch action fun
    | .break => pure ()
    | signal => throw signal

def guardedRound (k : Evaluator) (inner : Nat) (goesOn : Run Bool) (body : Block) :
    Run (Unit ⊕ Unit) := do
  if ← goesOn then
    let _ ← runBlock k inner body
    return .inl ()
  else return .inr ()

def holds (k : Evaluator) (scope : Nat) (cond : Expr) : Run Bool := do
  return (← single k scope cond).truthy

/-- A loop that checks its condition before each round; the condition is outside the scope of the
body. -/
def whileLoop (k : Evaluator) (scope : Nat) (cond : Expr) (body : Block) : Run Unit := do
  let inner ← pushScope scope
  breakable <| loop k.fuel (fun () => guardedRound k inner (holds k scope cond) body) ()

def repeatRound (k : Evaluator) (inner : Nat) (body : Block) (cond : Expr) :
    Run (Unit ⊕ Unit) := do
  let _ ← runBlock k inner body
  return if ← holds k inner cond then .inr () else .inl ()

/-- A loop that checks its condition after each round, inside the scope of the body. -/
def repeatLoop (k : Evaluator) (scope : Nat) (body : Block) (cond : Expr) : Run Unit := do
  let inner ← pushScope scope
  breakable <| loop k.fuel (fun () => repeatRound k inner body cond) ()

def requireNumber (what : String) : Value → Run Number
  | .num n => return n
  | _ => error ("the " ++ what ++ " value must be a number")

structure Progression where
  start : Number
  limit : Number
  step : Number
deriving Repr

namespace Progression

/-- The numbers as the loop uses them: integers if start and step are, else floats. -/
def ofNumbers (start limit step : Number) : Except Fault Progression :=
  match start, step with
  | .int _, .int _ => .ok { start, limit, step }
  | _, _ => do
    return { start := .float (← start.toFloat), limit := .float (← limit.toFloat),
             step := .float (← step.toFloat) }

/-- Whether the loop goes on at a value: it has not passed the limit in the direction of the
step. -/
def covers (p : Progression) (x : Number) : Bool :=
  if p.step.lt (.int 0) then p.limit.le x else x.le p.limit

end Progression

/-- A round with a number; the loop ends where the next one would leave the integers. -/
def countRound (k : Evaluator) (inner : Nat) (name : Bytes) (p : Progression) (body : Block)
    (x : Number) : Run (Number ⊕ Unit) := do
  if p.covers x then
    declare inner name { value := .num x }
    let _ ← runBlock k inner body
    let (overflow, next) ← ofExcept (x.addReporting p.step)
    return if overflow then .inr () else .inl next
  else return .inr ()

def countLoop (k : Evaluator) (scope : Nat) (name : Bytes) (p : Progression) (body : Block) :
    Run Unit := do
  if p.step.eq (.int 0) then error "step must not be zero"
  let inner ← pushScope scope
  loop k.fuel (countRound k inner name p body) p.start

def forHead (k : Evaluator) (scope : Nat) (name : Name) (start stop : Expr) (step : Option Expr) :
    Run (Bytes × Progression) := do
  let name ← nameString name
  let start ← requireNumber "initial" (← single k scope start)
  let limit ← requireNumber "limit" (← single k scope stop)
  let step ← match step with
    | some e => requireNumber "step" (← single k scope e)
    | none => pure (.int 1)
  return (name, ← ofExcept (Progression.ofNumbers start limit step))

def forLoop (k : Evaluator) (scope : Nat) (name : Name) (start stop : Expr) (step : Option Expr)
    (body : Block) : Run Unit :=
  breakable do
    let (name, p) ← forHead k scope name start stop step
    countLoop k scope name p body

def declareValues (scope : Nat) : List Bytes → List Value → Run Unit
  | n :: ns, v :: vs => do
    declare scope n { value := v }
    declareValues scope ns vs
  | _, _ => pure ()

structure Iteration where
  names : List Bytes
  iterator : Value
  state : Value
  closing : Value

def Iteration.control (it : Iteration) : Bytes := it.names.headD []

/-- Evaluates the head of a loop over an iterator, and declares its names in the scope of the
body. -/
def forInHead (k : Evaluator) (scope inner : Nat) (names : List Name) (exprs : List Expr) :
    Run Iteration := do
  let names ← names.mapM nameString
  if names.isEmpty then fault (.foreign "IndexError" "list index out of range")
  declareValues inner names (List.replicate names.length .nil)
  let head := Results.adjust (← each k scope exprs) 4
  let it : Iteration :=
    { names, iterator := head.getD 0 .nil, state := head.getD 1 .nil, closing := head.getD 3 .nil }
  declare inner it.control { value := head.getD 2 .nil }
  return it

/-- Calls the iterator with the state and the first variable and declares the values it gives;
the loop goes on if the first is not `nil`. -/
def advance (k : Evaluator) (scope inner : Nat) (it : Iteration) : Run Bool := do
  let current := (← get).getName inner it.control
  let results ← itemsOf (← k.call it.iterator [.one it.state, .one current] (some scope) true)
  let values := Results.adjust results it.names.length
  declareValues inner it.names values
  return !(values.headD .nil).isNil

/-- The loop over the values of an iterator. A closing value has no meaning yet. -/
def forInLoop (k : Evaluator) (scope : Nat) (names : List Name) (exprs : List Expr)
    (body : Block) : Run Unit :=
  breakable do
    let inner ← pushScope scope
    let it ← forInHead k scope inner names exprs
    loop k.fuel (fun () => guardedRound k inner (advance k scope inner it) body) ()
    if !it.closing.isNil then fault .unsupported

/-! ## Definitions of functions -/

/-- The value that the names of a function before the last one lead to. -/
def followNames (k : Evaluator) : Value → List Name → Run Value
  | base, [] => return base
  | base, n :: ns => do
    let next ← Index.read k.call base (.str (← nameString n))
    followNames k next ns

/-- Defines a function under a name; a method has one parameter more. -/
def defineFunction (k : Evaluator) (scope : Nat) (name : FuncName) (body : FuncBody) :
    Run Results := do
  let f ← closure scope body
  let f := if name.method then { f with params := Bytes.ofAscii "self" :: f.params } else f
  match name.names with
  | [] => fault (.foreign "IndexError" "list index out of range")
  | [n] =>
    let s ← nameString n
    let v ← newFunction { f with name := some (.string s) }
    assign scope s v
    return .many [.one v]
  | n :: ns =>
    let base ← followNames k ((← get).getName scope (← nameString n)) ns.dropLast
    let s ← nameString (ns.getLastD n)
    let v ← newFunction { f with name := some (.string s) }
    Index.write k.call base (.str s) v
    return .many [.one v]

def defineLocal (scope : Nat) (name : Name) (body : FuncBody) : Run Results := do
  let s ← nameString name
  declare scope s { value := .nil }
  let f ← closure scope body
  let v ← newFunction { f with name := some (.string s) }
  declare scope s { value := v }
  return .many [.one v]

/-! ## Returning -/

/-- The values of a returned list: lists within it give all their items, and so do the containers
of the host. -/
def flattenAll (s : Store) : Results → List Value
  | .many items => items.flatMap (flattenAll s)
  | r => lastValues s r

def branch (k : Evaluator) (scope : Nat) (otherwise : Option Block) :
    List (Expr × Block) → Run (Option Block)
  | [] => return otherwise
  | (cond, b) :: rest => do
    if (← single k scope cond).truthy then return some b else branch k scope otherwise rest

/-- What a call standing as a statement gives: a list, or a sequence of the host as it is. -/
def asList : Results → Results
  | .one (.foreign (.bytes [])) | .one (.foreign (.text "")) => .many []
  | .one (.foreign (.bytes bs)) => .one (.foreign (.bytes bs))
  | .one (.foreign (.text t)) => .one (.foreign (.text t))
  | .one (.foreign (.object id)) => .one (.foreign (.object id))
  | .one v => .many [.one v]
  | .many items => .many items

def statForm (k : Evaluator) (scope : Nat) : StatForm → Run (Option Results)
  | .empty | .label _ => return none
  | .assign targets values => do
    let values := Results.adjust (← each k scope values) targets.length
    assignAll k scope targets values
    return some (.ofList values)
  | .expr e =>
    if e.isCall then do return some (asList (← k.expr scope e))
    else fault (.noAttribute e.kind "execute")
  | .break => throw .break
  | .goto n => throw (.goto n.text)
  | .do b => do
    let _ ← innerBlock k scope b
    return none
  | .while cond body => do
    whileLoop k scope cond body
    return none
  | .repeat body cond => do
    repeatLoop k scope body cond
    return none
  | .if branches otherwise => do
    match ← branch k scope otherwise branches with
    | some b =>
      let _ ← innerBlock k scope b
      return none
    | none => return none
  | .for name start stop step body => do
    forLoop k scope name start stop step body
    return none
  | .forIn names exprs body => do
    forInLoop k scope names exprs body
    return none
  | .function name body => do return some (← defineFunction k scope name body)
  | .localFunction name body => do return some (← defineLocal scope name body)
  | .local names exprs => do
    let values ← localValues k scope names.length (exprs.getD [])
    declareAll scope false names values
    return some (.ofList values)
  | .return none => fault (.notIterable "NoneType")
  | .return (some values) => do
    let values ← consuming (each k scope values)
    throw (.return (.ofList (flattenAll (← get) (.many values))))
  | .block b => do return some (← runBlock k (← pushScope scope) b)
  | .alien kind => fault (.noAttribute kind "execute")

/-- A block standing as an expression is run in a new scope and gives what it returns. -/
def innerValue (k : Evaluator) (scope : Nat) (b : Block) : Run Results := do
  blockValue k (← pushScope scope) b

/-- Calls and blocks are statements too, and only enter traces as such. -/
def isSilent (e : Expr) : Bool :=
  match e.form with
  | .call .. | .method .. | .block _ => true
  | _ => false

def expression (k : Evaluator) (scope : Nat) (e : Expr) : Run Results :=
  match e.form with
  | .alien kind => fault (.noAttribute kind "evaluate")
  | f =>
    traced scope e.place "expression " e.kind (isSilent e) (form k (innerValue k) scope e.place f)

def statement (k : Evaluator) (scope : Nat) (s : Stat) : Run (Option Results) :=
  match s.form with
  | .alien kind => fault (.noAttribute kind "execute")
  | .expr e =>
    if e.isCall then traced scope s.place "statement " s.kind false (statForm k scope s.form)
    else fault (.noAttribute e.kind "execute")
  | f => traced scope s.place "statement " s.kind false (statForm k scope f)

end LuaInterpreter.Eval
