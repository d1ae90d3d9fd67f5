import LuaInterpreter.Number.Arith

/-!
# Values

Tables, functions and files are known by number; what they hold is in the store.
-/

namespace LuaInterpreter

inductive Foreign where
  | none
  | bool (b : Bool)
  | int (i : Int)
  | float (x : Float)
  | text (s : String)
  | bytes (bs : Bytes)
  | object (id : Nat)
deriving Repr

def Foreign.kind : Foreign → String
  | .none => "NoneType"
  | .bool _ => "bool"
  | .int _ => "int"
  | .float _ => "float"
  | .text _ => "str"
  | .bytes _ => "bytes"
  | .object _ => "tuple"

def Foreign.same : Foreign → Foreign → Bool
  | .none, .none => true
  | .bool a, .bool b => a == b
  | .int a, .int b => a == b
  | .float a, .float b => a == b
  | .text a, .text b => a == b
  | .bytes a, .bytes b => a == b
  | .object a, .object b => a == b
  | _, _ => false

inductive NumberKind where
  | integer | float
deriving Repr, DecidableEq

/-- The number that a plain value of the host makes; if a kind is given it must be of that kind. -/
def Number.ofPlain : Foreign → (kind : Option NumberKind) → Except Fault Number
  | .int _, some .float => .error .notAFloat
  | .int i, _ => .ok (.int i)
  | .bool _, some .float => .error .notAFloat
  | .bool b, _ => .ok (.int (if b then 1 else 0))
  | _, some .integer => .error .notAnInteger
  | .float x, _ => .ok (.float x)
  | _, _ => .error .notAFloat

inductive Value where
  | nil
  | bool (b : Bool)
  | num (n : Number)
  | str (s : Bytes)
  | table (id : Nat)
  | func (id : Nat)
  | file (id : Nat)
  | userdata (id : Nat)
  | thread (id : Nat)
  | foreign (f : Foreign)
deriving Repr

instance : Inhabited Value := ⟨.nil⟩

namespace Value

def int (i : Int) : Value := .num (.int i)
def float (x : Float) : Value := .num (.float x)

def ascii (s : String) : Value := .str (Bytes.ofAscii s)

def text (s : String) : Value := .str (Bytes.encodeUtf8 s)

def isNil : Value → Bool
  | .nil => true
  | _ => false

/-- Everything but `nil` and `false` counts as true. -/
def truthy : Value → Bool
  | .nil => false
  | .bool b => b
  | _ => true

def typeName? : Value → Except Fault String
  | .nil => .ok "nil"
  | .bool _ => .ok "boolean"
  | .num _ => .ok "number"
  | .str _ => .ok "string"
  | .table _ => .ok "table"
  | .func _ => .ok "function"
  | .file _ | .userdata _ => .ok "userdata"
  | .thread _ => .ok "thread"
  | .foreign f => .error (.unexpectedKind f.kind)

def kind : Value → String
  | .nil => "LuaNilType"
  | .bool _ => "LuaBool"
  | .num _ => "LuaNumber"
  | .str _ => "LuaString"
  | .table _ => "LuaTable"
  | .func _ => "LuaFunction"
  | .file _ => "LuaFile"
  | .userdata _ => "LuaUserdata"
  | .thread _ => "LuaThread"
  | .foreign f => f.kind

/-- Equality without metamethods: numbers by value, strings by content, all that is known by number
by that number. -/
def rawEq : Value → Value → Bool
  | .nil, .nil => true
  | .bool a, .bool b => a == b
  | .num a, .num b => a.eq b
  | .str a, .str b => a == b
  | .table a, .table b => a == b
  | .func a, .func b => a == b
  | .file a, .file b => a == b
  | .userdata a, .userdata b => a == b
  | .thread a, .thread b => a == b
  | .foreign a, .foreign b => a.same b
  | _, _ => false

/-- What may be a key of a table: values known by number may not. -/
def isKey : Value → Bool
  | .nil | .bool _ | .num _ | .str _ | .foreign _ => true
  | _ => false

end Value

/-! ## Lists of results -/

/-- What an expression gives: one value, or a list. -/
inductive Results where
  | one (v : Value)
  | many (items : List Results)

instance : Inhabited Results := ⟨.many []⟩

namespace Results

def ofList (vs : List Value) : Results := .many (vs.map .one)

/-- Adjusts to one value: the first, `nil` if there is none. -/
def single : Results → Value
  | .one v => v
  | .many [] => .nil
  | .many (r :: _) => r.single

/-- A list at the end of a list gives all its items to it. -/
def spread : List Results → List Results
  | [] => []
  | [.many items] => items
  | [r] => [r]
  | r :: r' :: rs => r :: spread (r' :: rs)

/-- The values of an expression list: each item adjusted to one value, except that a list at the end
gives all its items. -/
def flatten (rs : List Results) : List Value := (spread rs).map single

/-- The values of an expression list, cut or filled up with `nil` to the number needed. -/
def adjust (rs : List Results) (needed : Nat) : List Value :=
  let items := (spread rs).take needed
  items.map single ++ List.replicate (needed - items.length) .nil

end Results

end LuaInterpreter
