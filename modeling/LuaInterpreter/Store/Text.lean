import LuaInterpreter.Store.Basic

/-!
# Values as text

The text of a value, as `tostring` and error traces show it, and its description, as faults show it.
-/

namespace LuaInterpreter

/-! ## Addresses -/

/-- A number in hexadecimal, as addresses are shown. -/
def addressText (n : Nat) : String := "0x" ++ String.ofList (Nat.toDigits 16 n)

def address (range id : Nat) : Nat := 0x7f0000000000 + range * 0x1000000000 + id * 64

def functionAddress (id : Nat) : String := addressText (address 1 id)
def fileAddress (id : Nat) : String := addressText (address 2 id)
def streamAddress (id : Nat) : String := addressText (address 3 id)

/-! ## Functions -/

namespace Function

def decodeName (bs : Bytes) : Except Fault String := (Bytes.decodeUtf8? bs).mapError .undecodable

/-- The parameters from `index` on: optional ones each in a bracket that closes at the very end. -/
def paramsFrom (variadic : Bool) (minRequired : Int) : (index : Nat) → List String → String
  | index, [] => if variadic then (if index = 0 then "[...]" else "[, ...]") else ""
  | index, p :: rest =>
    let rest := paramsFrom variadic minRequired (index + 1) rest
    let separator := if index = 0 then "" else ", "
    if index < minRequired then separator ++ p ++ rest
    else "[" ++ separator ++ p ++ rest ++ "]"

def paramsText (f : Function) : Except Fault String := do
  match f.signature with
  | some s => return s
  | none =>
    let names ← f.params.mapM decodeName
    match f.minRequired with
    | some n => return "(" ++ paramsFrom f.variadic n 0 names ++ ")"
    | none =>
      let names := if f.variadic then names ++ ["..."] else names
      return "(" ++ ", ".intercalate names ++ ")"

def nameText (f : Function) : Except Fault String :=
  match f.name with
  | none => .ok ""
  | some (.text "") => .ok ""
  | some (.text s) => .ok (" " ++ s)
  | some (.string bs) => do return " " ++ (← decodeName bs)

def text (f : Function) (id : Nat) : Except Fault String := do
  let native := if f.code.isNative then "native " else ""
  let name ← f.nameText
  let params ← f.paramsText
  return native ++ "function" ++ name ++ params ++ ": " ++ functionAddress id

end Function

namespace Store

def functionText (s : Store) (id : Nat) : Except Fault String :=
  match s.function? id with
  | some f => f.text id
  | none => .ok ("function: " ++ functionAddress id)

def streamText (s : Store) (id : Nat) : Except Fault String :=
  match (s.world.stream id).name with
  | .path name => (Bytes.decodeUtf8? name).mapError .undecodable
  | .label text => .ok text
  | .descriptor n => .ok (toString n)
  | .unnamed => .ok ("<_io.StringIO object at " ++ streamAddress id ++ ">")

def fileText (s : Store) (id : Nat) : Except Fault String := do
  let name ← match (s.file id).stream with
    | some stream => s.streamText stream
    | none => pure "None"
  return "file: " ++ name ++ " (" ++ fileAddress id ++ ")"

/-! ## Values of the host -/

/-- A plain value of the host as it is described; containers are described elsewhere. -/
def describePlain : Foreign → Except Fault String
  | .none => .ok "None"
  | .bool b => .ok (if b then "True" else "False")
  | .int i => writeInteger i
  | .float x => .ok (floatText x)
  | .text t => .ok (Quoted.text t)
  | .bytes bs => .ok (Quoted.bytes bs)
  | .object _ => .ok "..."

def plainText : Foreign → Except Fault String
  | .text t => .ok t
  | f => describePlain f

/-! ## Values -/

/-- The marker of a table that has been written out before. -/
def seenMarker : String := "\x7b<...>\x7d"

def atomText (s : Store) : Value → Except Fault String
  | .nil => .ok "nil"
  | .bool b => .ok (if b then "true" else "false")
  | .num n => n.text
  | .str bs => (Bytes.decodeUtf8? bs).mapError .undecodable
  | .func id => s.functionText id
  | .file id => s.fileText id
  | .userdata _ => .ok "LuaUserdata()"
  | .thread _ => .ok "LuaThread()"
  | .foreign f => plainText f
  | .table _ => .ok seenMarker

mutual

/-- The text of a value, given the tables written so far; also the tables written then. The fuel
bounds the depth, which is less than the number of tables. -/
def textFrom (s : Store) : (fuel : Nat) → (seen : List Nat) → Value → Except Fault (String × List Nat)
  | fuel + 1, seen, .table id =>
    if seen.contains id then .ok (seenMarker, seen)
    else do
      let (pairs, seen) ← pairTexts s fuel (id :: seen) (s.table id).entries
      return ("\x7b" ++ ", ".intercalate pairs ++ "\x7d", seen)
  | _, seen, v => do return (← s.atomText v, seen)

def pairTexts (s : Store) : (fuel : Nat) → (seen : List Nat) → List (Value × Value) →
    Except Fault (List String × List Nat)
  | _, seen, [] => .ok ([], seen)
  | 0, seen, _ => .ok ([], seen)
  | fuel + 1, seen, (k, v) :: rest => do
    let (key, seen) ← textFrom s fuel seen k
    let (value, seen) ← textFrom s fuel seen v
    let (others, seen) ← pairTexts s fuel seen rest
    return (("(" ++ key ++ ")=(" ++ value ++ ")") :: others, seen)

end

/-- A bound on the depth of texts: every step goes into a table not seen before or to the next
entry. -/
def textFuel (s : Store) : Nat :=
  s.tables.foldl (fun n t => n + t.entries.length + 2) 2

def text (s : Store) (v : Value) : Except Fault String := do
  return (← s.textFrom s.textFuel [] v).1

/-! ## Descriptions -/

/-- The description of a value that is no container of the host. -/
def describeValue (s : Store) (v : Value) : Except Fault String :=
  match v with
  | .nil => .ok "LuaNil"
  | .bool b => .ok (if b then "LuaBool(true=True)" else "LuaBool(true=False)")
  | .num (.int i) => do
    return "LuaNumber(value=" ++ (← writeInteger i) ++ ", type=<LuaNumberType.INTEGER: 1>)"
  | .num (.float x) =>
    .ok ("LuaNumber(value=" ++ floatText x ++ ", type=<LuaNumberType.FLOAT: 2>)")
  | .str bs => .ok ("LuaString(content=" ++ Quoted.bytes bs ++ ")")
  | .table id => do
    let body ← s.text v
    match (s.table id).metatable with
    | none => return "<LuaTable " ++ body ++ ">"
    | some mt => return "<LuaTable " ++ body ++ " metatable=" ++ (← s.text mt) ++ ">"
  | .func id => s.functionText id
  | .file _ => .ok "LuaFile()"
  | .userdata _ => .ok "LuaUserdata()"
  | .thread _ => .ok "LuaThread()"
  | .foreign f => describePlain f

def describeItem (s : Store) : HostValue → Except Fault String
  | .plain f => describePlain f
  | .lua v | .convertible v | .callable v _ => s.describeValue v
  | .inert d => .ok ("<opaque " ++ d ++ ">")
  | .function _ => .ok "<function>"

/-- Descriptions in brackets; a tuple of one has a comma. -/
def bracket (tuple : Bool) (parts : List String) : String :=
  if tuple then
    "(" ++ ", ".intercalate parts ++ (if parts.length = 1 then ",)" else ")")
  else "[" ++ ", ".intercalate parts ++ "]"

def describeObject (s : Store) : HostObject → Except Fault String
  | .list xs => do return bracket false (← xs.mapM s.describeItem)
  | .tuple xs => do return bracket true (← xs.mapM s.describeItem)
  | .dict entries => do
    let parts ← entries.mapM fun (k, v) => do
      return (← s.describeItem k) ++ ": " ++ (← s.describeItem v)
    return "\x7b" ++ ", ".intercalate parts ++ "\x7d"

def describe (s : Store) : Value → Except Fault String
  | .foreign (.object id) =>
    match s.objects[id]? with
    | some o => s.describeObject o
    | none => .ok "None"
  | v => s.describeValue v

def describeResults (s : Store) : Results → Except Fault String
  | .one v => s.describe v
  | .many items => do return bracket false (← items.mapM fun r => s.describe r.single)

def describeVariable (s : Store) (v : Variable) : Except Fault String := do
  let sort := if v.constant then "const" else if v.toBeClosed then "close" else "var"
  return "<Variable " ++ sort ++ " " ++ (← s.text v.value) ++ ">"

def describeScope (s : Store) (scope : Nat) : Except Fault String := do
  let sc := s.scope scope
  let entries ← sc.locals.mapM fun (name, v) => do
    return "(" ++ (← Function.decodeName name) ++ ")=(" ++ (← s.describeVariable v) ++ ")"
  let locals := "<Scope locals=[" ++ ",".intercalate entries ++ "]"
  match sc.varargs.getD [] with
  | [] => return locals ++ ">"
  | vs => return locals ++ ", varargs=[" ++ ",".intercalate (← vs.mapM s.text) ++ "]>"

end Store

namespace Run

def text (v : Value) : Run String := do ofExcept ((← get).text v)

end Run

end LuaInterpreter
