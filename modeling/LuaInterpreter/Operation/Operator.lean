import LuaInterpreter.Operation.Metavalue

/-!
# Operators

Operands that an operator is not made for are handed to a metamethod; without one the operation is
an error.
-/

namespace LuaInterpreter.Operator

open Run

/-! ## Comparison -/

/-- Whether equality of values of this kind can be decided by a metamethod. -/
def hasOwnEquality : Value → Bool
  | .table _ | .file _ | .userdata _ => true
  | _ => false

/-- Equality. Two tables, or two files, are compared by the metamethod `__eq` if one of them has it,
also if they are the same. -/
def equal (call : Caller) (a b : Value) (raw : Bool) : Run Bool := do
  if a.kind == b.kind && hasOwnEquality a && !raw then
    match ← binaryMetamethod call a b "__eq" with
    | some v => return v.truthy
    | none => return a.rawEq b
  else return a.rawEq b

/-- An order comparison: numbers by value, strings not at all, others by a metamethod. -/
def compare (call : Caller) (onNumbers : Number → Number → Bool) (event : String) (a b : Value) :
    Run Bool := do
  match a, b with
  | .num x, .num y => return onNumbers x y
  | .str _, .str _ => fault .unorderedStrings
  | _, _ =>
    match ← binaryMetamethod call a b event with
    | some v => return v.truthy
    | none =>
      error ("attempt to compare " ++ (← typeName a) ++ " with " ++ (← typeName b))

def lessThan (call : Caller) : Value → Value → Run Bool := compare call Number.lt "__lt"
def lessEqual (call : Caller) : Value → Value → Run Bool := compare call Number.le "__le"

/-! ## Arithmetic -/

structure Naming where
  event : String
  verb : String

def onNumbers (call : Caller) (naming : Naming) (f : Number → Number → Run Value) (a b : Value) :
    Run Value := do
  match a, b with
  | .num x, .num y => f x y
  | _, _ =>
    match ← binaryMetamethod call a b naming.event with
    | some v => return v
    | none =>
      error ("attempt to " ++ naming.verb ++ " " ++ (← typeName a) ++ " and " ++ (← typeName b)
        ++ " values")

def arithmetic (call : Caller) (naming : Naming) (f : Number → Number → Except Fault Number)
    (a b : Value) : Run Value :=
  onNumbers call naming (fun x y => do return .num (← ofExcept (f x y))) a b

def toInteger (n : Number) : Run Int :=
  match n.toInteger? with
  | some i => return i
  | none => error "number has no integer representation"

def coerceToInteger (v : Value) : Run Value := do
  match v with
  | .num n => return .int (← toInteger n)
  | _ => error ("can't coerce " ++ (← typeName v) ++ " value to an integer")

def coerceToFloat : Value → Run Value
  | .num n => do return .float (← ofExcept n.toFloat)
  | v => fault (.noAttribute v.kind "type")

def bitwise (call : Caller) (naming : Naming) (f : Int → Int → Int) (a b : Value) : Run Value :=
  onNumbers call naming (fun x y => do
    let i ← toInteger x
    let j ← toInteger y
    return .int (f i j)) a b

def add (call : Caller) : Value → Value → Run Value := arithmetic call ⟨"__add", "add"⟩ Number.add

def addReporting (a b : Value) : Run (Bool × Value) := do
  match a, b with
  | .num x, .num y =>
    let (overflow, sum) ← ofExcept (x.addReporting y)
    return (overflow, .num sum)
  | _, _ =>
    error ("attempt to add " ++ (← typeName a) ++ " and " ++ (← typeName b) ++ " values")

/-! ## Strings and lengths -/

/-- The bytes of a string, or of the text of a number, which may be refused. -/
def concatPart? : Value → Option (Except Fault Bytes)
  | .str s => some (.ok s)
  | .num n => some (n.text.map Bytes.ofAscii)
  | _ => none

def concat (call : Caller) (a b : Value) : Run Value := do
  match concatPart? a, concatPart? b with
  | some s, some t => return .str ((← ofExcept s) ++ (← ofExcept t))
  | _, _ =>
    match ← binaryMetamethod call a b "__concat" with
    | some v => return v
    | none =>
      error ("attempt to concatenate " ++ (← typeName a) ++ " and " ++ (← typeName b) ++ " values")

def length (call : Caller) (v : Value) (raw : Bool) : Run Value := do
  match v with
  | .str s => return .int s.length
  | _ =>
    let hasMethod ← hasMetavalue v "__len"
    let result ← if hasMethod && !raw then unaryMetamethod call v "__len" else pure none
    match result with
    | some n => return n
    | none =>
      match v with
      | .table id => return .int ((← get).table id).border
      | .file _ => return .int 0
      | _ => error ("attempt to get length of a " ++ (← typeName v) ++ " value")

/-! ## Unary operators -/

/-- A unary operation on a number, or the metamethod of another operand. -/
def onNumber (call : Caller) (naming : Naming) (f : Number → Run Value) (v : Value) :
    Run Value := do
  match v with
  | .num n => f n
  | _ =>
    match ← unaryMetamethod call v naming.event with
    | some r => return r
    | none => error ("attempt to " ++ naming.verb ++ " a " ++ (← typeName v) ++ " value")

def negate (call : Caller) : Value → Run Value :=
  onNumber call ⟨"__unm", "negate"⟩ fun n => return .num n.negate

def bitNot (call : Caller) : Value → Run Value :=
  onNumber call ⟨"__bnot", "bitwise not"⟩ fun n => do return .int (Number.bitNot (← toInteger n))

def unary (call : Caller) (op : UnaryOp) (v : Value) : Run Value :=
  match op with
  | .negate => negate call v
  | .not => return .bool (!v.truthy)
  | .length => length call v false
  | .bitNot => bitNot call v

/-- The value of a binary operation on evaluated operands. `and` and `or` choose one of them. -/
def binary (call : Caller) (op : BinaryOp) (a b : Value) : Run Value :=
  match op with
  | .and => return if a.truthy then b else a
  | .or => return if a.truthy then a else b
  | .lt => do return .bool (← lessThan call a b)
  | .le => do return .bool (← lessEqual call a b)
  | .gt => do return .bool (← lessThan call b a)
  | .ge => do return .bool (← lessEqual call b a)
  | .eq => do return .bool (← equal call a b false)
  | .ne => do return .bool (!(← equal call a b false))
  | .bitOr => bitwise call ⟨"__bor", "bitwise or"⟩ Number.bitOr a b
  | .bitXor => bitwise call ⟨"__bxor", "bitwise xor"⟩ Number.bitXor a b
  | .bitAnd => bitwise call ⟨"__band", "bitwise and"⟩ Number.bitAnd a b
  | .shiftLeft => bitwise call ⟨"__shl", "shift left"⟩ Number.shiftLeft a b
  | .shiftRight => bitwise call ⟨"__shr", "shift right"⟩ Number.shiftRight a b
  | .concat => concat call a b
  | .add => add call a b
  | .subtract => arithmetic call ⟨"__sub", "subtract"⟩ Number.subtract a b
  | .multiply => arithmetic call ⟨"__mul", "multiply"⟩ Number.multiply a b
  | .divide => arithmetic call ⟨"__div", "divide"⟩ Number.divide a b
  | .floorDivide => arithmetic call ⟨"__idiv", "floor divide"⟩ Number.floorDivide a b
  | .modulo => arithmetic call ⟨"__mod", "modulo"⟩ Number.modulo a b
  | .power => arithmetic call ⟨"__pow", "exponentiate"⟩ Number.power a b

end LuaInterpreter.Operator
