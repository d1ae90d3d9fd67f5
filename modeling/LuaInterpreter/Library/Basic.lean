import LuaInterpreter.Library.Argument

/-!
# The basic library

Conversions between strings and numbers, raw access, metatables, protected calls, traversal, and
loading of programs.
-/

namespace LuaInterpreter.BasicLibrary

open Run

/-! ## Strings and numbers -/

/-- The strings that stand for a value: what `__tostring` gives, or the text of the value, after its
`__name` if it has one. -/
def tostring (k : Evaluator) (scope : Nat) (v : Value) : Run Results := do
  match ← metavalue? v "__tostring" with
  | some f => k.call f [.one v] (some scope) true
  | none =>
    match ← metavalue? v "__name" with
    | some (.str name) =>
      let name ← Argument.decode name
      return .ofList [.text (name ++ ": " ++ (← text v))]
    | _ => return .ofList [.text (← text v)]

def numeralValue (k : Evaluator) (scope : Nat) (bs : Bytes) : Run Value := do
  let read (digits : String) : Run Expr := do
    match readNumeral digits with
    | .ok n => return .mk {} (.numeral n)
    | .error e => fault (.syntaxError e)
  let text ← Argument.decode bs.strip
  match text.toList with
  | [] => fault .textIndexOutOfRange
  | '-' :: cs => Eval.single k scope (.mk {} (.unary .negate (← read (String.ofList cs))))
  | '+' :: cs => Eval.single k scope (← read (String.ofList cs))
  | cs => Eval.single k scope (← read (String.ofList cs))

def foldDigits (base : Int) (digits : List Nat) : Int :=
  digits.foldl (fun (acc : Int) (d : Nat) => acc * base + d) 0

def foldFloatDigits (base : Float) (digits : List Nat) : Float :=
  digits.foldl (fun acc d => acc * base + Float.ofNat d) 0

/-- The digits before the first character that is none, and whether there is such a character. A
digit must be less than the base. -/
def baseDigits (base : Value) : List Char → Run (Option (List Nat))
  | [] => return some []
  | c :: cs => do
    match if c.toNat < 128 then digitValue? c else none with
    | none => return none
    | some d =>
      let b ← Argument.number base
      if b.le (.int d) then return none
      else return (← baseDigits base cs).map (d :: ·)

/-- The number that digits stand for; those beyond the integers count as `-1`. -/
def digitsNumber (base : Value) (digits : List Nat) : Run Int := do
  match base, digits with
  | _, [] => return 0
  | .num (.int b), _ =>
    let n := foldDigits b digits
    return if n < Number.maxInt then n else -1
  | .num (.float x), _ =>
    if (Number.float (foldFloatDigits x digits)).lt (.int Number.maxInt) then fault .notAnInteger
    else return -1
  | v, _ => fault (.noAttribute v.kind "value")

def tonumberIn (e base : Value) : Run Value := do
  match e with
  | .str bs =>
    let text ← Argument.decode bs.strip
    match text.toList with
    | [] => fault .textIndexOutOfRange
    | c :: cs =>
      match ← baseDigits base (if c = '+' || c = '-' then cs else c :: cs) with
      | none => return .nil
      | some digits =>
        let n ← digitsNumber base digits
        return .int (if c = '-' then -n else n)
  | _ =>
    error ("bad argument to 'tonumber' (string expected, got " ++ (← typeName e) ++ ")")

def tonumber (k : Evaluator) (scope : Nat) (e : Value) : Run Value := do
  match e with
  | .num n => return .num n
  | .str bs => (numeralValue k scope bs).handle (fun e => throw (.error e)) fun _ => return .nil
  | _ => tonumberIn e .nil

/-! ## Output -/

/-- The text of a value for printing: its strings, with commas if there are several. -/
def printed (k : Evaluator) (scope : Nat) (v : Value) : Run String := do
  let strings ← itemsOf (← tostring k scope v)
  let parts ← strings.mapM fun r => do Argument.decode (← Argument.content r.single)
  return ",".intercalate parts

def print (k : Evaluator) (scope : Nat) (args : List Value) : Run Unit := do
  let parts ← args.mapM (printed k scope)
  world (World.printLine ("\t".intercalate parts))

def writeWarning (session : Session) (pieces : List Value) : Run Unit := do
  if session.warnings then
    world (World.putError "Warning: ")
    for v in pieces do
      world (World.putError (← text v))
    world (World.putError "\n")

def firstOther (args : List Value) : Option (Nat × Value) :=
  (args.zipIdx 1).findSome? fun (v, i) =>
    match v with
    | .str _ => none
    | _ => some (i, v)

/-- Emits a warning. A single piece that starts with `@` controls the emission. -/
def warn (scope : Nat) (args : List Value) : Run Unit := do
  match firstOther args with
  | some (i, v) => Argument.wrongType ("#" ++ toString i) "warn" "string" v
  | none =>
    let s ← get
    match args with
    | [.str (64 :: control)] =>
      let setTo (on : Bool) : Run Unit :=
        modifySession (s.scope scope).session fun session => { session with warnings := on }
      if control == Bytes.ofAscii "off" then setTo false
      else if control == Bytes.ofAscii "on" then setTo true
    | _ => writeWarning (s.sessionOf scope) args

/-! ## Tables and metatables -/

/-- The metatable of a value, or what stands for it. -/
def getmetatable (v : Value) : Run Value := do
  let mt ← metatable v "get_metatable"
  if mt.isNil then return .nil
  return (← field? mt (.ascii "__metatable")).getD mt

def setmetatable (v mt : Value) : Run Unit := do
  if ← hasMetavalue v "__metatable" then error "cannot change a protected metatable"
  match v, mt with
  | .table id, .nil => modifyTable id fun t => { t with metatable := none }
  | .table id, _ => modifyTable id fun t => { t with metatable := some mt }
  | _, .nil => pure ()
  | _, _ => error ("cannot set metatable for " ++ (← typeName v) ++ " value")

def firstEntry (entries : List (Value × Value)) : List Value :=
  match entries.find? fun (_, v) => !v.isNil with
  | some (k, v) => [k, v]
  | none => [.nil]

def entriesAfter (key : Value) : List (Value × Value) → List (Value × Value)
  | [] => []
  | (k, _) :: rest => if k.rawEq key then rest else entriesAfter key rest

/-- The entry after a key. The very first entry is given even if its value is `nil`. -/
def next (t : Table) (key : Value) : List Value :=
  match key, t.entries with
  | .nil, [] => [.nil]
  | .nil, (k, v) :: _ => [k, v]
  | key, entries => firstEntry (entriesAfter key entries)

/-- One step of the traversal by position: the next position and its value, or nothing. -/
def ipairsStep (state control : Value) : Run (List Value) := do
  match ← Argument.number control with
  | .float x =>
    if (Number.int Number.maxInt).lt (.float (x + 1)) then return [] else fault .notAnInteger
  | .int i =>
    if Number.maxInt < i + 1 then return []
    else
      let v ← rawGet state (.int (i + 1))
      return if v.isNil then [] else [.int (i + 1), v]

/-- The arguments from number `index` on. A negative number counts from the end, starting one
further to the front. -/
def select (index : Value) (args : List Value) : Run (List Value) := do
  match index with
  | .num (.float _) => error "bad argument #1 to 'select' (integer expected, got float)"
  | .num (.int i) =>
    if i = 0 || i < -(args.length : Int) then
      error "bad argument #1 to 'select' (index out of range)"
    let start : Int := if i < 0 then args.length + (i - 1) else i - 1
    return args.drop start.toNat
  | _ =>
    if index.rawEq (.ascii "#") then return [.int args.length]
    else error "bad argument #1 to 'select' (must be integer or the string '#')"

/-! ## Protected calls -/

/-- The status of a call followed by its results. -/
def withStatus (ok : Bool) (r : Results) : Run Results := do
  return .many (.one (.bool ok) :: (← itemsOr .notSpreadable r))

/-- Calls a function; an error is handed to `onError` with the state it left. -/
def protectedCall (k : Evaluator) (scope : Nat) (f : Value) (args : List Value)
    (onError : Value → Run Results) : Run Results := do
  let outcome ← tryCatch (do
      return Except.ok (← k.call f (args.map .one) (some scope) true)) fun
    | .error e => return Except.error e.message
    | s => throw s
  match outcome with
  | .ok r => withStatus true r
  | .error message => onError message

/-! ## Loading -/

def chunkFunction (scope : Nat) (name : String) (source : String) : Run Value := do
  match readChunk source with
  | .error e => fault (.syntaxError e)
  | .ok chunk =>
    let own ← newScope { session := ((← get).scope scope).session, parent := none }
    newFunction { params := [], variadic := true, scope := some own
                  code := .block (chunk.stamp name).block }

/-- A function that runs the chunk, or `nil` and why there is none. -/
def compile (scope : Nat) (source : Bytes) (name : Value) : Run Results :=
  (do
    let name ← Argument.decode (← Argument.content name)
    let source ← Argument.decode source
    return Results.one (← chunkFunction scope name source) : Run Results).handle
    (fun e => throw (.error e))
    (fun f => return .ofList [.nil, .text f.message])

def pieces (k : Evaluator) (f : Value) : Run Bytes :=
  loop k.fuel (fun (acc : Bytes) => do
    match ← k.call f [] none true with
    | .many [] => return .inr acc
    | .many (r :: _) =>
      match r.single with
      | .nil | .str [] => return .inr acc
      | .str s => return .inl (acc ++ s)
      | _ => error "load: chunk() must return a string"
    | .one v => fault (.foreign "TypeError" ("'" ++ v.kind ++ "' object is not subscriptable"))) []

def load (k : Evaluator) (scope : Nat) (chunk : Value) (name : Option Value) : Run Results := do
  match chunk with
  | .str s => compile scope s (name.getD (.ascii "chunk"))
  | .func _ => compile scope (← pieces k chunk) (name.getD (.ascii "=(load)"))
  | _ => error "load: chunk must be a string or a function"

def inputLine : Run String := do
  match ← world (World.promptLine "") with
  | .line cs => return String.ofList cs
  | .interrupted => throw .interrupt
  | .ended => fault .endOfInput

def loadfile (scope : Nat) (filename : Option Value) : Run Results := do
  match filename with
  | none =>
    (do compile scope (Bytes.encodeUtf8 (← inputLine)) (.ascii "stdin") : Run Results).handle
      (fun e => throw (.error e)) (fun f => return .ofList [.nil, .text f.message])
  | some (.str name) =>
    (do
      let source ← world (World.fileContent name (Quoted.bytes name))
      compile scope source (.str name) : Run Results).handle
      (fun e => throw (.error e)) (fun f => return .ofList [.nil, .text f.message])
  | some _ => error "bad argument #1 to 'loadfile' (string expected)"

/-- The name and the text of the program in a file, or of standard input. -/
def sourceOf (filename : Option Value) : Run (String × String) := do
  match filename with
  | none => return ("<stdin>", String.ofList (← world World.readText))
  | some (.str name) =>
    let bs ← world (World.fileContent name (Quoted.bytes name))
    return (Quoted.bytes (Path.baseName name), ← Run.ofExcept (Chunk.sourceText bs))
  | some _ => error "bad argument #1 to 'dofile' (string expected)"

def dofile (k : Evaluator) (scope : Nat) (filename : Option Value) : Run Results := do
  let (name, source) ← sourceOf filename
  match readChunk source with
  | .error e => fault (.syntaxError e)
  | .ok chunk =>
    let own ← newScope { session := ((← get).scope scope).session, parent := none }
    let block := (chunk.stamp name).block
    k.expr own (.mk block.place (.block block))

def run (k : Evaluator) (scope : Nat) (b : Builtin) (args : List Value) : Run Results := do
  match b, args with
  | .assert, v :: rest =>
    let message := rest.headD .nil
    if v.truthy then return .ofList (v :: message :: rest.drop 1)
    else if message.isNil then error "assertion failed!"
    else errorValue message
  | .collectgarbage, _ => fault (.noAttribute "LuaFunction" "call")
  | .dofile, args => dofile k scope args.head?
  | .error, args => errorValue (args.headD .nil)
  | .getmetatable, v :: _ => return .ofList [← getmetatable v]
  | .ipairs, t :: _ => return .ofList [.func Builtin.ipairsStep.number, t, .int 0]
  | .ipairsStep, state :: control :: _ => return .ofList (← ipairsStep state control)
  | .load, chunk :: rest => load k scope chunk rest.head?
  | .loadfile, args => loadfile scope args.head?
  | .next, t :: rest =>
    match t with
    | .table id => return .ofList (next ((← get).table id) (rest.headD .nil))
    | _ => Argument.wrongType "#1" "next" "table" t
  | .pairs, t :: _ =>
    match ← metavalue? t "__pairs" with
    | some f => k.call f [.one t] (some scope) true
    | none => return .ofList [.func Builtin.next.number, t, .nil]
  | .pcall, f :: args =>
    protectedCall k scope f args fun message => return .ofList [.bool false, message]
  | .print, args =>
    print k scope args
    return .many []
  | .rawequal, a :: b :: _ => return .ofList [.bool (a.rawEq b)]
  | .rawget, t :: key :: _ =>
    match t with
    | .table _ => return .ofList [← rawGet t key]
    | _ => error "'table' must be a table"
  | .rawlen, v :: _ =>
    match v with
    | .table _ | .str _ => return .ofList [← Operator.length k.call v true]
    | _ => error "'v' must be a table or a string"
  | .rawset, t :: key :: v :: _ =>
    rawPut t key v
    return .ofList [t]
  | .select, index :: rest => return .ofList (← select index rest)
  | .setmetatable, t :: mt :: _ =>
    setmetatable t mt
    return .ofList [t]
  | .tonumber, [e] => return .ofList [← tonumber k scope e]
  | .tonumber, e :: base :: _ => return .ofList [← tonumberIn e base]
  | .tostring, v :: _ => tostring k scope v
  | .type, v :: _ => return .ofList [.ascii (← typeName v)]
  | .warn, args =>
    warn scope args
    return .many []
  | .xpcall, f :: handler :: args =>
    protectedCall k scope f args fun message => do
      withStatus false (← k.call handler [.one message] (some scope) true)
  | _, _ => return .many []

end LuaInterpreter.BasicLibrary
