import LuaInterpreter.Library.Argument

/-!
# The table library

Functions on the values at the positions `1`, `2`, … of anything that can be indexed. Metamethods
take part.
-/

namespace LuaInterpreter.TableLibrary

open Run

def item (k : Evaluator) (list : Value) (i : Int) : Run Value := Index.read k.call list (.int i)

def put (k : Evaluator) (list : Value) (i : Int) (v : Value) : Run Unit :=
  Index.write k.call list (.int i) v

def span (i j : Int) : Nat := (j + 1 - i).toNat

def bound (which function : String) : Value → Run Number
  | .num n => return n
  | v => Argument.wrongType which function "number" v

/-! ## Joining -/

/-- What stands before the next value: what has been joined and a separator, or nothing yet. -/
def front (k : Evaluator) (sep : Value) : Option Value → Run Value
  | none => return .str []
  | some s => Operator.concat k.call s sep

/-- Adds the values from position `i` on to what has been joined. -/
def joinFrom (k : Evaluator) (list sep : Value) : (count : Nat) → (i : Int) → Option Value →
    Run (Option Value)
  | 0, _, joined => return joined
  | count + 1, i, joined => do
    let v ← item k list i
    match Operator.concatPart? v with
    | none =>
      error ("invalid value (" ++ (← typeName v) ++ ") at index " ++ (← ofExcept (writeInteger i))
        ++ " in table for 'concat'")
    | some _ =>
      let joined ← Operator.concat k.call (← front k sep joined) v
      joinFrom k list sep count (i + 1) (some joined)

def concat (k : Evaluator) (list sep i j : Value) : Run Value := do
  if ← Operator.lessThan k.call j i then return .str []
  let i ← bound "#2" "concat" i
  let j ← bound "#3" "concat" j
  let i ← Argument.integer i
  let j ← Argument.integer j
  return (← joinFrom k list sep (span i j) i none).getD (.foreign .none)

/-! ## Inserting, moving and removing -/

/-- Copies the value at `f` to position `t`, and so on for positions that are `step` apart. -/
def copyFrom (k : Evaluator) (source target : Value) (step : Int) : (count : Nat) → (f t : Int) →
    Run Unit
  | 0, _, _ => pure ()
  | count + 1, f, t => do
    put k target t (← item k source f)
    copyFrom k source target step count (f + step) (t + step)

/-- Inserts a value. With one argument it goes to the end of the list; with two, the first is its
position. -/
def insert (k : Evaluator) (list first second : Value) : Run Unit := do
  let length ← Operator.length k.call list false
  let (pos, value) ← if second.isNil then do
      pure (← Operator.add k.call length (.int 1), first)
    else pure (first, second)
  let n ← bound "#2" "insert" pos
  let last ← Argument.integer (← Argument.number length)
  let i ← Argument.integer n
  copyFrom k list list (-1) (span i last) last (last + 1)
  Index.write k.call list pos value

/-- Copies the values at `f` to `e` to the positions from `t` on. -/
def move (k : Evaluator) (source f e t target : Value) : Run Value := do
  let target := if target.isNil then source else target
  let f ← bound "#2" "move" f
  let e ← bound "#3" "move" e
  let t ← bound "#4" "move" t
  let f ← Argument.integer f
  let e ← Argument.integer e
  let t ← Argument.integer t
  copyFrom k source target 1 (span f e) f t
  return target

/-- Removes the value at a position, the last one by default, and closes the gap. -/
def remove (k : Evaluator) (list pos : Value) : Run Value := do
  let length ← Operator.length k.call list false
  let pos := if pos.isNil then length else pos
  let old ← Index.read k.call list pos
  Index.write k.call list pos .nil
  match pos, length with
  | .num p, .num n =>
    if (Number.int 1).le p && p.le n then
      let i ← Argument.integer p
      let last ← Argument.integer n
      copyFrom k list list 1 (span i last) (i + 1) i
      Index.write k.call list length .nil
  | _, _ => pure ()
  return old

/-! ## Sorting -/

/-- Whether the later of two neighbours has to come first. By default the greater one does. -/
def outOfOrder (k : Evaluator) (comp : Value) (later earlier : Value) : Run Bool := do
  if comp.isNil then Operator.lessThan k.call earlier later
  else
    match ← k.call comp [.one later, .one earlier] none true with
    | .many [.one (.bool b)] => return b
    | _ => return false

/-- Swaps neighbours that are out of order, from position `i` on. Answers whether there were any. -/
def pass (k : Evaluator) (list comp : Value) : (count : Nat) → (i : Int) → (swapped : Bool) →
    Run Bool
  | 0, _, swapped => return swapped
  | count + 1, i, swapped => do
    let later ← item k list (i + 1)
    let earlier ← item k list i
    if ← outOfOrder k comp later earlier then
      let later ← item k list (i + 1)
      put k list (i + 1) (← item k list i)
      put k list i later
      pass k list comp count (i + 1) true
    else pass k list comp count (i + 1) swapped

def sort (k : Evaluator) (list comp : Value) : Run Unit := do
  let n ← Argument.integer (← Argument.number (← Operator.length k.call list false))
  loop k.fuel (fun () => do
    return if ← pass k list comp (span 1 (n - 1)) 1 false then .inl () else .inr ()) ()

/-! ## Packing -/

/-- A table of the arguments, with their number. -/
def pack (args : List Value) : Run Value := do
  let d : Eval.Draft := {}
  newTable ((d.putAll args).table.put (.ascii "n") (.int args.length))

def valuesFrom (k : Evaluator) (list : Value) : (count : Nat) → (i : Int) → Run (List Value)
  | 0, _ => return []
  | count + 1, i => do
    let v ← item k list i
    return v :: (← valuesFrom k list count (i + 1))

def unpack (k : Evaluator) (list i j : Value) : Run (List Value) := do
  let i ← bound "#2" "unpack" (if i.isNil then .int 1 else i)
  let j ← if j.isNil then Operator.length k.call list false else pure j
  let j ← bound "#3" "unpack" j
  let i ← Argument.integer i
  let j ← Argument.integer j
  valuesFrom k list (span i j) i

def run (k : Evaluator) (b : Builtin) (args : List Value) : Run Results := do
  match b, args with
  | .tableConcat, list :: rest =>
    let j ← match rest[2]? with
      | some j => pure j
      | none => Operator.length k.call list false
    return .ofList [← concat k list (rest.getD 0 (.str [])) (rest.getD 1 (.int 1)) j]
  | .tableInsert, list :: rest =>
    insert k list (rest.getD 0 .nil) (rest.getD 1 .nil)
    return .many []
  | .tableMove, source :: f :: e :: t :: rest =>
    return .ofList [← move k source f e t (rest.headD .nil)]
  | .tablePack, args => return .ofList [← pack args]
  | .tableRemove, list :: rest => return .ofList [← remove k list (rest.headD .nil)]
  | .tableSort, list :: rest =>
    sort k list (rest.headD .nil)
    return .many []
  | .tableUnpack, list :: rest =>
    return .ofList (← unpack k list (rest.getD 0 .nil) (rest.getD 1 .nil))
  | _, _ => return .many []

end LuaInterpreter.TableLibrary
