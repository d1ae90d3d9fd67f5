/-!
# Options

Short options without values can be written together, a value can follow its option directly or as
the next argument, and a long option can be cut short. After `--` nothing is an option.
-/

namespace LuaInterpreter

structure Options where
  statement : Option String := none
  interactive : Bool := false
  /-- Libraries to load, each a name or a name and a library with `=` between them. -/
  libraries : List String := []
  showVersion : Bool := false
  ignoreEnvironment : Bool := false
  warnings : Bool := false
  verbose : Bool := false
  script : Option String := none
  arguments : List String := []
deriving Repr, DecidableEq

namespace Options

inductive Flag where
  | statement | interactive | library | version | ignoreEnvironment | warnings | verbose | help
deriving Repr, DecidableEq

def spellings : List (String × Flag) :=
  [("-h", .help), ("--help", .help), ("-e", .statement), ("-i", .interactive), ("-l", .library),
    ("-v", .version), ("-E", .ignoreEnvironment), ("-W", .warnings), ("-V", .verbose),
    ("--verbose", .verbose)]

def Flag.takesValue : Flag → Bool
  | .statement | .library => true
  | _ => false

inductive Refusal where
  | missingValue (flag : Flag)
  | unwantedValue (flag : Flag)
  | unknownOption (argument : String)
  | ambiguous (argument : String)
  | leftOver (arguments : List String)
  | help
deriving Repr, DecidableEq

def apply (o : Options) : Flag → (value : String) → Options
  | .statement, value => { o with statement := some value }
  | .library, value => { o with libraries := o.libraries ++ [value] }
  | .interactive, _ => { o with interactive := true }
  | .version, _ => { o with showVersion := true }
  | .ignoreEnvironment, _ => { o with ignoreEnvironment := true }
  | .warnings, _ => { o with warnings := true }
  | .verbose, _ => { o with verbose := true }
  | .help, _ => o

inductive Shape where
  | option (spelling : String) (flag : Flag) (attached : Option String)
  | unknown
  | ambiguous
  | plain
deriving Repr, DecidableEq

/-- Whether an argument is a negative number, which is no option. -/
def isNegativeNumber (cs : List Char) : Bool :=
  match cs with
  | '-' :: cs =>
    let rest := cs.dropWhile Char.isDigit
    match rest with
    | [] => !cs.isEmpty
    | '.' :: ds => !ds.isEmpty && ds.all Char.isDigit
    | _ => false
  | _ => false

/-- The options that an argument can stand for: a long one by its start, a short one by its first
two characters, the rest being attached to it. -/
def candidates (argument : String) : List Shape :=
  let cs := argument.toList
  let beforeEq := String.ofList (cs.takeWhile (· != '='))
  let attached := match cs.dropWhile (· != '=') with
    | [] => none
    | _ :: rest => some (String.ofList rest)
  if cs.take 2 == ['-', '-'] then
    spellings.filterMap fun (s, flag) =>
      if beforeEq.toList.isPrefixOf s.toList then some (.option s flag attached) else none
  else
    spellings.filterMap fun (s, flag) =>
      if s.toList == cs.take 2 then some (.option s flag (some (String.ofList (cs.drop 2))))
      else if cs.isPrefixOf s.toList then some (.option s flag none)
      else none

def shape (argument : String) : Shape :=
  let cs := argument.toList
  match cs with
  | '-' :: _ :: _ =>
    match spellings.lookup argument with
    | some flag => .option argument flag none
    | none =>
      let beforeEq := String.ofList (cs.takeWhile (· != '='))
      match cs.dropWhile (· != '='), spellings.lookup beforeEq with
      | _ :: rest, some flag => .option beforeEq flag (some (String.ofList rest))
      | _, _ =>
        match candidates argument with
        | [s] => s
        | _ :: _ :: _ => .ambiguous
        | [] => if isNegativeNumber cs || cs.contains ' ' then .plain else .unknown
  | _ => .plain

/-- An argument with its shape; after `--`, which is left out, all are plain. -/
def shapes : (ended : Bool) → List String → List (String × Shape)
  | _, [] => []
  | true, a :: rest => (a, .plain) :: shapes true rest
  | false, a :: rest => if a = "--" then shapes true rest else (a, shape a) :: shapes false rest

/-- Options without values that are written together: `flag`, and what is attached to it. The last
one may take the rest as its value, and is answered if it still waits for one. -/
def cluster (o : Options) (flag : Flag) : List Char → Except Refusal (Options × Option Flag)
  | [] => if flag.takesValue then .ok (o, some flag) else .ok (o.apply flag "", none)
  | c :: cs =>
    if flag.takesValue then .ok (o.apply flag (String.ofList (c :: cs)), none)
    else match spellings.lookup (String.ofList ['-', c]) with
      | some next => cluster (o.apply flag "") next cs
      | none => .error (.unwantedValue flag)

/-- Takes in an option with what is attached to it; answers the option if it waits for a value. -/
def accept (o : Options) (spelling : String) (flag : Flag) (attached : Option String) :
    Except Refusal (Options × Option Flag) :=
  match attached with
  | none => cluster o flag []
  | some value =>
    if flag.takesValue then .ok (o.apply flag value, none)
    else if spelling.length = 2 && value != "" then cluster o flag value.toList
    else .error (.unwantedValue flag)

/-- Reads arguments. `waiting` is the option whose value comes next, `plain` the plain arguments
read so far, and `closed` tells that an option has come after them. -/
def read (o : Options) (waiting : Option Flag) (plain : List String) (closed : Bool) :
    List (String × Shape) → Except Refusal Options
  | [] =>
    match waiting with
    | some flag => .error (.missingValue flag)
    | none => .ok { o with script := plain.head?, arguments := plain.tail }
  | (argument, s) :: rest =>
    match waiting, s with
    | some flag, .plain => read (o.apply flag argument) none plain closed rest
    | some flag, _ => .error (.missingValue flag)
    | none, .plain =>
      if closed then .error (.leftOver [argument])
      else read o none (plain ++ [argument]) false rest
    | none, .option spelling flag attached =>
      if flag = .help then .error .help
      else match accept o spelling flag attached with
        | .ok (o, waiting) => read o waiting plain (!plain.isEmpty) rest
        | .error refusal => .error refusal
    | none, .ambiguous => .error (.ambiguous argument)
    | none, .unknown => .error (.unknownOption argument)

def ofArguments (arguments : List String) : Except Refusal Options :=
  read {} none [] false (shapes false arguments)

end Options

end LuaInterpreter
