import LuaInterpreter.Eval.Basic

/-!
# Conversion between the host and the language

Containers of the host become tables, and tables become dictionaries, unless their metatable says
otherwise. Cycles are kept.
-/

namespace LuaInterpreter

/-! ## Host functions as functions of the language -/

structure AdoptOptions where
  name : Option String := none
  signature : Option String := none
  rename : Option (List String) := none
  getsScope : Bool := false
  converting : Bool := false
deriving Repr

structure Shape where
  names : List String := []
  required : Nat := 0
  variadic : Bool := false
deriving Repr

/-- Takes in one parameter. Only parameters given by position can be used, the rest at the end. -/
def Shape.add (label : String) (s : Shape) (p : HostParameter) : Except Fault Shape :=
  if s.variadic then
    .error (.signature ("Function " ++ label ++ " has a parameter after a variadic parameter ("
      ++ p.name ++ ")"))
  else
    match p with
    | .required n => .ok { s with names := s.names ++ [n], required := s.required + 1 }
    | .optional n => .ok { s with names := s.names ++ [n] }
    | .rest => .ok { s with variadic := true }
    | .plain n | .named n =>
      .error (.signature ("Function " ++ label ++ " has a parameter " ++ n
        ++ "that is not positional or variadic"))

def HostFunction.shape (f : HostFunction) : Except Fault Shape :=
  f.parameters.foldlM (Shape.add f.label) {}

def AdoptOptions.paramNames (o : AdoptOptions) (s : Shape) : Except Fault (List String) :=
  match o.rename with
  | none => .ok s.names
  | some names =>
    if names.length = s.names.length then .ok names
    else .error (.signature ("Callable has " ++ toString s.names.length ++ " parameters "
      ++ (if o.getsScope then "(not counting the scope parameter,) " else "") ++ "but "
      ++ toString names.length ++ " names were supplied"))

def AdoptOptions.usedName (o : AdoptOptions) (own : String) : String :=
  let name := o.name.getD own
  if name = "" then "<native function>" else name

def HostFunction.toFunction (f : HostFunction) (id : Nat) (o : AdoptOptions) :
    Except Fault Function := do
  let shape ← f.shape
  let names ← o.paramNames shape
  let params ← names.mapM fun n => (Bytes.encodeAscii? n).mapError .unencodable
  return { params, variadic := shape.variadic, scope := none, code := .host id o.converting
           getsScope := o.getsScope, name := some (.text (o.usedName f.name))
           minRequired := some shape.required, signature := o.signature }

namespace Run

def newHostFunction (f : HostFunction) : Run Nat := do
  let id := (← get).hostFunctions.size
  modify fun s => { s with hostFunctions := s.hostFunctions.push f }
  return id

def adopt (id : Nat) (o : AdoptOptions) : Run Value := do
  match (← get).hostFunctions[id]? with
  | some f => newFunction (← ofExcept (f.toFunction id o))
  | none => fault .unsupported

def uselessAdoption : String :=
  "So, the decorator will preserve the object and will not put the LuaFunction instance in the "
    ++ "table... What's your point?"

/-- Makes a host function callable and puts it into a table under its name, if there is a table. If
the function itself is kept by the host, there must be one. -/
def adoptInto (id : Nat) (o : AdoptOptions) (table : Option Value) (keep : Bool) : Run Value := do
  if keep && table.isNone then fault (.signature uselessAdoption)
  let f ← adopt id o
  match table, (← get).hostFunctions[id]? with
  | some t, some h => rawPut t (.text (o.usedName h.name)) f
  | _, _ => pure ()
  return f

end Run

namespace Convert

open Run

/-! ## To the language -/

/-- Containers that have been converted, with their tables. -/
abbrev Memo := List (Nat × Value)

mutual

/-- Converts a value of the host. The fuel bounds the nesting. -/
def toLuaFrom : (fuel : Nat) → Memo → HostValue → Run (Value × Memo)
  | _, memo, .plain .none => return (.nil, memo)
  | _, memo, .plain (.bool b) => return (.bool b, memo)
  | _, memo, .plain (.int i) => return (.int i, memo)
  | _, memo, .plain (.float x) => return (.float x, memo)
  | _, memo, .plain (.text t) => return (.text t, memo)
  | _, memo, .plain (.bytes bs) => return (.str bs, memo)
  | _, memo, .convertible v => return (v, memo)
  | _, _, .lua v => do fault (.unconvertible (← Run.ofExcept ((← get).describe v)))
  | _, _, .inert d => fault (.unconvertible ("<opaque " ++ d ++ ">"))
  | _, memo, .function id => do return (← adopt id { converting := true }, memo)
  | _, memo, .callable f name => do
    let v ← newFunction { params := [], variadic := true, scope := none, code := .relay f
                          name := some (.text (if name = "" then "<native function>" else name))
                          minRequired := some 0 }
    return (v, memo)
  | 0, _, .plain (.object _) => throw .outOfFuel
  | fuel + 1, memo, .plain (.object id) => do
    match memo.lookup id with
    | some v => return (v, memo)
    | none =>
      let v ← newTable {}
      let memo := (id, v) :: memo
      match (← get).objects[id]? with
      | some (.dict entries) => return (v, ← fillEntries fuel v memo entries)
      | some (.list xs) | some (.tuple xs) => return (v, ← fillItems fuel v memo 1 xs)
      | none => return (v, memo)

def fillEntries : (fuel : Nat) → Value → Memo → List (HostValue × HostValue) → Run Memo
  | _, _, memo, [] => return memo
  | 0, _, _, _ => throw .outOfFuel
  | fuel + 1, table, memo, (key, value) :: rest => do
    let (k, memo) ← toLuaFrom fuel memo key
    let (v, memo) ← toLuaFrom fuel memo value
    rawPut table k v
    fillEntries fuel table memo rest

def fillItems : (fuel : Nat) → Value → Memo → Int → List HostValue → Run Memo
  | _, _, memo, _, [] => return memo
  | 0, _, _, _, _ => throw .outOfFuel
  | fuel + 1, table, memo, i, x :: rest => do
    let (v, memo) ← toLuaFrom fuel memo x
    rawPut table (.int i) v
    fillItems fuel table memo (i + 1) rest

end

def toLua (k : Evaluator) (h : HostValue) : Run Value := do
  return (← toLuaFrom k.fuel [] h).1

/-! ## To the host -/

/-- Whether two keys of a dictionary are the same: numbers and truth values by their number. -/
def sameKey : HostValue → HostValue → Bool
  | .plain a, .plain b =>
    match number? a, number? b with
    | some x, some y => x.eq y
    | none, none => a.same b
    | _, _ => false
  | _, _ => false
where
  number? : Foreign → Option Number
    | .bool b => some (.int (if b then 1 else 0))
    | .int i => some (.int i)
    | .float x => some (.float x)
    | _ => none

def putEntry (key value : HostValue) : List (HostValue × HostValue) → List (HostValue × HostValue)
  | [] => [(key, value)]
  | (k, v) :: rest =>
    if sameKey k key then (k, value) :: rest else (k, v) :: putEntry key value rest

def addEntry (id : Nat) (key value : HostValue) : Run Unit :=
  modify fun s =>
    { s with objects := s.objects.modify id fun
        | .dict entries => .dict (putEntry key value entries)
        | o => o }

/-- The name of a function as the host can use it: it must be a text. -/
def hostName : Option FunctionName → Except Fault String
  | none => .ok "<anonymous Lua function>"
  | some (.text s) => .ok s
  | some (.string _) => .error .nameNotText

abbrev HostMemo := List (Nat × HostValue)

def converter? (k : Evaluator) (mt : Value) : Run (Option Value) := do
  if mt.isNil then return none
  match ← Index.read k.call mt (.ascii "__py") with
  | .nil => return none
  | .func id => return some (.func id)
  | v => error ("metavalue __py is a " ++ (← typeName v) ++ ", not a function")

def callConverter (k : Evaluator) (f : Value) (v : Value) : Run Results := do
  let s ← get
  let scope := match f with
    | .func id => (s.function? id).bind (·.scope)
    | _ => none
  k.call f [.one v] scope true

mutual

/-- Converts a value of the language. The fuel bounds the nesting. -/
def toHostFrom (k : Evaluator) : (fuel : Nat) → HostMemo → Value → Run (HostValue × HostMemo)
  | _, memo, .nil => return (.plain .none, memo)
  | _, memo, .bool b => return (.plain (.bool b), memo)
  | _, memo, .num (.int i) => return (.plain (.int i), memo)
  | _, memo, .num (.float x) => return (.plain (.float x), memo)
  | _, memo, .str bs => return (.plain (.bytes bs), memo)
  | _, memo, .func id => do
    let name := ((← get).function? id).bind (·.name)
    return (.callable (.func id) (← Run.ofExcept (hostName name)), memo)
  | 0, _, .table _ => throw .outOfFuel
  | fuel + 1, memo, .table id => do
    match memo.lookup id with
    | some h => return (h, memo)
    | none =>
      match ← converter? k (← metatable (.table id) "get_metatable") with
      | some f =>
        match ← callConverter k f (.table id) with
        | .one v =>
          let (h, memo) ← toHostFrom k fuel memo v
          return (h, (id, h) :: memo)
        | r => fault (.unknownValue (← Run.ofExcept ((← get).describeResults r)))
      | none =>
        let entries := ((← get).table id).entries
        match ← newObject (.dict []) with
        | .object dict =>
          let h := HostValue.plain (.object dict)
          return (h, ← copyEntries k fuel dict ((id, h) :: memo) entries)
        | f => return (.plain f, memo)
  | _, _, v => do fault (.unknownValue (← Run.ofExcept ((← get).describe v)))

def copyEntries (k : Evaluator) : (fuel : Nat) → (dict : Nat) → HostMemo → List (Value × Value) →
    Run HostMemo
  | _, _, memo, [] => return memo
  | 0, _, _, _ => throw .outOfFuel
  | fuel + 1, dict, memo, (key, value) :: rest => do
    if value.isNil then copyEntries k fuel dict memo rest
    else
      let (v, memo) ← toHostFrom k fuel memo value
      let (key, memo) ← toHostFrom k fuel memo key
      addEntry dict key v
      copyEntries k fuel dict memo rest

end

def toHost (k : Evaluator) (v : Value) : Run HostValue := do
  return (← toHostFrom k k.fuel [] v).1

/-! ## Calls -/

def callCallable (k : Evaluator) (f : Value) (args : List HostValue) : Run (List HostValue) := do
  let args ← args.mapM (toLua k)
  let results ← itemsOf (← k.call f (args.map .one) none true)
  results.mapM fun r => toHost k r.single

/-- The arguments of a host function, with what stands for the optional ones that are missing. -/
def fillArguments (f : HostFunction) (absent : HostValue) (args : List HostValue) :
    List HostValue :=
  args ++ List.replicate (f.positional.most - args.length) absent

def plainResults : HostResult → Run Results
  | .one (.plain .none) => return .many []
  | .one h => return .one (Store.ofItem h)
  | .list hs => return .many (hs.map fun h => .one (Store.ofItem h))
  | .tuple hs => do return .one (.foreign (← newObject (.tuple hs)))

def convertedResults (k : Evaluator) : HostResult → Run Results
  | .one h => do return .ofList [← toLua k h]
  | .list hs | .tuple hs => do return .ofList (← hs.mapM (toLua k))

def settle (results : HostResult → Run Results) : HostOutcome → Run Results
  | .returned r => results r
  | .raised f => fault f
  | .failed message => error message
  | .exited code => throw (.exit code)

/-- Calls a host function. A scope cannot be converted. -/
def callHost (k : Evaluator) (id : Nat) (converting : Bool) (scope : Option Nat)
    (args : List Value) : Run Results := do
  match (← get).hostFunctions[id]? with
  | none => fault .unsupported
  | some f =>
    if converting then
      match scope with
      | some sc => fault (.unknownValue (← Run.ofExcept ((← get).describeScope sc)))
      | none => pure ()
      let hs ← args.mapM (toHost k)
      Run.ofExcept (f.positional.check f.label scope.isSome hs.length)
      settle (convertedResults k) (f.behaviour (fillArguments f (.plain .none) hs))
    else
      Run.ofExcept (f.positional.check f.label scope.isSome args.length)
      settle plainResults (f.behaviour (fillArguments f (.lua .nil) (args.map .lua)))

def callRelay (k : Evaluator) (f : Value) (args : List Value) : Run Results := do
  let hs ← args.mapM (toHost k)
  let results ← callCallable k f hs
  return .ofList (← results.mapM (toLua k))

end Convert

end LuaInterpreter
