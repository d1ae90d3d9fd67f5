import LuaInterpreter.Eval.Basic
import LuaInterpreter.Number.Numeral
import LuaInterpreter.Text.Literal

/-!
# Expressions

A call and `...` give a list; all other expressions give one value.
-/

namespace LuaInterpreter.Eval

open Run

def single (k : Evaluator) (scope : Nat) (e : Expr) : Run Value :=
  match e.form with
  | .alien kind => fault (.noAttribute kind "evaluate_single")
  | _ => do return (← k.expr scope e).single

def each (k : Evaluator) (scope : Nat) : List Expr → Run (List Results)
  | [] => return []
  | e :: es => do
    let r ← k.expr scope e
    return r :: (← each k scope es)

/-- What runs out inside a list that is consumed item by item is reported by the list. -/
def consuming {α : Type} (action : Run α) : Run α :=
  action.handle (fun e => throw (.error e)) fun
    | .exhausted => fault .exhaustedWithin
    | f => fault f

/-! ## Functions -/

/-- The function that parameters and a body make in a scope. -/
def closure (scope : Nat) (b : FuncBody) : Run Function :=
  traced scope b.place "expression " "FuncBody" false do
    let params ← b.params.mapM nameString
    return { params, variadic := b.vararg, scope := some scope, code := .block b.body,
             minRequired := some 0 }

/-! ## Tables -/

/-- A table under construction: what it holds so far, and the next position. -/
structure Draft where
  table : Table := {}
  next : Int := 1

namespace Draft

def putKey (d : Draft) (key value : Value) : Run Draft := do
  requireKey key
  return { d with table := d.table.put key value }

def putNext (d : Draft) (value : Value) : Draft :=
  { table := d.table.put (.int d.next) value, next := d.next + 1 }

def putAll (d : Draft) (values : List Value) : Draft := values.foldl putNext d

end Draft

def fieldKey (k : Evaluator) (scope : Nat) : FieldKey → Run Value
  | .name n => do return .str (← nameString n)
  | .expr e => single k scope e
  | .alien kind => fault (.misplacedConstruct "field.key" (constructOrigin kind))

def putField (k : Evaluator) (scope : Nat) (d : Draft) : Field → Run Draft
  | .keyed _ key value => do
    let key ← fieldKey k scope key
    let value ← single k scope value
    d.putKey key value
  | .positional _ value => do return d.putNext (← single k scope value)
  | .alien kind => fault (.misplacedConstruct "field" (constructOrigin kind))

def lastValues (s : Store) (r : Results) : List Value :=
  match s.itemsOf? r, r with
  | some items, _ => items.map (·.single)
  | none, .one v => [v]
  | none, .many items => items.map (·.single)

/-- Puts the last field: a positional one gives all its values. -/
def putLast (k : Evaluator) (scope : Nat) (d : Draft) : Field → Run Draft
  | .positional _ value => do
    let values ← k.expr scope value
    return d.putAll (lastValues (← get) values)
  | f => putField k scope d f

def putFields (k : Evaluator) (scope : Nat) : Draft → List Field → Run Draft
  | d, [] => return d
  | d, [f] => putLast k scope d f
  | d, f :: g :: fs => do
    let d ← putField k scope d f
    putFields k scope d (g :: fs)

/-! ## Calls -/

/-- Calls a function from an expression; an error has the call entered in its trace. -/
def callFrom (k : Evaluator) (scope : Nat) (place : Place) (what : String) (f : Value)
    (args : List Results) : Run Results :=
  (k.call f args (some scope) false).handle
    (fun e => do
      let name ← text f
      throw (.error (e.push (place.entry (what ++ name)))))
    fault

/-- The value of `...`: only the scope of the function itself has it. -/
def varargs (scope : Nat) : Run Results := do
  match ((← get).scope scope).varargs with
  | some vs => return .ofList vs
  | none => error "cannot use '...' outside a vararg function"

/-- `and` and `or` evaluate the second operand only if the first does not decide. -/
def binary (k : Evaluator) (scope : Nat) (op : BinaryOp) (l r : Expr) : Run Value := do
  let a ← single k scope l
  match op with
  | .and => if a.truthy then single k scope r else return a
  | .or => if a.truthy then return a else single k scope r
  | _ =>
    let b ← single k scope r
    Operator.binary k.call op a b

def form (k : Evaluator) (runBlock : Nat → Block → Run Results) (scope : Nat) (place : Place) :
    ExprForm → Run Results
  | .litNil => return .one .nil
  | .litTrue => return .one (.bool true)
  | .litFalse => return .one (.bool false)
  | .numeral n => do return .one (.num (← ofExcept n.value))
  | .string t => do return .one (.str (← ofExcept (Literal.value t.text)))
  | .fieldName bs => return .one (.str bs)
  | .vararg => varargs scope
  | .paren e => do return .one (← single k scope e)
  | .variable n => do
    let name ← nameString n
    return .one ((← get).getName scope name)
  | .index b i => do
    let base ← single k scope b
    let key ← single k scope i
    return .one (← Index.read k.call base key)
  | .table fields => do
    let d ← putFields k scope {} fields
    return .one (← newTable d.table)
  | .function body => do
    let f ← closure scope body
    return .one (← newFunction f)
  | .call callee args => do
    let f ← single k scope callee
    let args ← each k scope args
    callFrom k scope place "call of " f args
  | .method object name args => do
    let v ← single k scope object
    let f ← Index.read k.call v (.str (← nameString name))
    let args ← consuming (each k scope args)
    callFrom k scope place "method call of " f (.one v :: args)
  | .unary op e => do return .one (← Operator.unary k.call op (← single k scope e))
  | .binary op l r => do return .one (← binary k scope op l r)
  | .block b => runBlock scope b
  | .alien kind => fault (.noAttribute kind "evaluate")

end LuaInterpreter.Eval
