import LuaInterpreter.Fault

/-!
# The functions of the library

Their parameters, and the check of how many arguments they are given. What they do is defined with
the libraries they belong to.
-/

namespace LuaInterpreter

structure Parameters where
  required : List String := []
  optional : List String := []
  variadic : Bool := false
deriving Repr, DecidableEq

namespace Parameters

def most (p : Parameters) : Nat := p.required.length + p.optional.length

/-- Compares the number of arguments with the parameters. The scope, where it is an argument, is
counted. Too many is found before too few. -/
def check (p : Parameters) (label : String) (hasScope : Bool) (given : Nat) : Except Fault Unit :=
  let extra := if hasScope then 1 else 0
  let least := p.required.length
  if !p.variadic && p.most < given then
    .error (.tooManyArguments label (least + extra) (p.most + extra) (given + extra))
  else if given < least then .error (.missingArguments label (p.required.drop given))
  else .ok ()

end Parameters

inductive Builtin where
  -- Basic functions
  | assert | collectgarbage | dofile | error | getmetatable | ipairs | load | loadfile | next
  | pairs | pcall | print | rawequal | rawget | rawlen | rawset | select | setmetatable | tonumber
  | tostring | type | warn | xpcall
  | ipairsStep
  -- Operating system
  | osClock | osDate | osDifftime | osExecute | osExit | osGetenv | osRemove | osRename
  | osSetlocale | osTime | osTmpname
  -- Input and output
  | ioClose | ioFlush | ioInput | ioLines | ioOpen | ioOutput | ioPopen | ioRead | ioTmpfile
  | ioType | ioWrite
  -- Methods of files
  | fileClose | fileFlush | fileLines | fileRead | fileSeek | fileSetvbuf | fileWrite
  -- Tables
  | tableConcat | tableInsert | tableMove | tablePack | tableRemove | tableSort | tableUnpack
deriving Repr, DecidableEq

structure Profile where
  name : String
  label : String
  parameters : Parameters := {}
  getsScope : Bool := false
  signature : Option String := none
deriving Repr, DecidableEq

namespace Builtin

private def basic (name : String) (parameters : Parameters) (getsScope : Bool := false) :
    Profile :=
  { name, label := "lf_" ++ name, parameters, getsScope }

private def within (library name : String) (parameters : Parameters) (getsScope : Bool := false) :
    Profile :=
  { name, label := "lf_" ++ library ++ "_" ++ name, parameters, getsScope }

private def method (name : String) (parameters : Parameters) (getsScope : Bool := false) :
    Profile :=
  { name, label := "_lf_file_method_" ++ name, parameters, getsScope }

def profile : Builtin → Profile
  | assert => basic "assert" { required := ["v"], optional := ["message"], variadic := true }
  | collectgarbage => basic "collectgarbage" { optional := ["opt", "arg"] } true
  | dofile => basic "dofile" { optional := ["filename"] } true
  | error => basic "error" { optional := ["message", "level"] } true
  | getmetatable => basic "getmetatable" { required := ["object"] }
  | ipairs => basic "ipairs" { required := ["t"] }
  | load =>
    basic "load" { required := ["chunk"], optional := ["chunk_name", "mode", "env"] } true
  | loadfile => basic "loadfile" { optional := ["filename", "mode", "env"] } true
  | next => basic "next" { required := ["table"], optional := ["index"] }
  | pairs => basic "pairs" { required := ["t"] } true
  | pcall => basic "pcall" { required := ["f"], variadic := true } true
  | print => basic "print" { variadic := true } true
  | rawequal => basic "rawequal" { required := ["v1", "v2"] }
  | rawget => basic "rawget" { required := ["table", "index"] }
  | rawlen => basic "rawlen" { required := ["v"] }
  | rawset => basic "rawset" { required := ["table", "index", "value"] }
  | select => basic "select" { required := ["index"], variadic := true }
  | setmetatable => basic "setmetatable" { required := ["table", "metatable"] }
  | tonumber => basic "tonumber" { required := ["e"], optional := ["base"] } true
  | tostring => basic "tostring" { required := ["v"] } true
  | type => basic "type" { required := ["v"] }
  | warn => basic "warn" { required := ["msg1"], variadic := true } true
  | xpcall => basic "xpcall" { required := ["f", "msgh"], variadic := true } true
  | ipairsStep =>
    { name := "_ipairs_iterator_function", label := "_ipairs_iterator_function"
      parameters := { required := ["state", "control_variable"] } }
  | osClock => within "os" "clock" {}
  | osDate => within "os" "date" { optional := ["format", "time"] }
  | osDifftime => within "os" "difftime" { required := ["t2", "t1"] }
  | osExecute => within "os" "execute" { optional := ["command"] }
  | osExit => within "os" "exit" { optional := ["code", "close"] }
  | osGetenv => within "os" "getenv" { required := ["varname"] }
  | osRemove => within "os" "remove" { required := ["filename"] }
  | osRename => within "os" "rename" { required := ["oldname", "newname"] }
  | osSetlocale => within "os" "setlocale" { required := ["locale"], optional := ["category"] }
  | osTime => within "os" "time" { optional := ["table"] }
  | osTmpname => within "os" "tmpname" {}
  | ioClose => within "io" "close" { optional := ["file"] } true
  | ioFlush => within "io" "flush" {} true
  | ioInput => within "io" "input" { optional := ["file"] } true
  | ioLines => within "io" "lines" { optional := ["filename"], variadic := true } true
  | ioOpen => within "io" "open" { required := ["filename"], optional := ["mode"] }
  | ioOutput => within "io" "output" { optional := ["file"] } true
  | ioPopen => within "io" "popen" { required := ["prog"], optional := ["mode"] }
  | ioRead => within "io" "read" { variadic := true } true
  | ioTmpfile => within "io" "tmpfile" {}
  | ioType => within "io" "type" { required := ["obj"] }
  | ioWrite => within "io" "write" { variadic := true } true
  | fileClose => method "close" { required := ["self"] }
  | fileFlush => method "flush" { required := ["self"] }
  | fileLines => method "lines" { required := ["self"], variadic := true } true
  | fileRead => method "read" { required := ["self"], variadic := true } true
  | fileSeek => method "seek" { required := ["self"], optional := ["whence", "offset"] }
  | fileSetvbuf => method "setvbuf" { required := ["self", "mode"], optional := ["size"] } true
  | fileWrite => method "write" { required := ["self"], variadic := true }
  | tableConcat =>
    within "table" "concat" { required := ["list"], optional := ["sep", "i", "j"] }
  | tableInsert =>
    { within "table" "insert" { required := ["list"], optional := ["arg1", "arg2"] } with
      signature := some "(list, [pos,] value)" }
  | tableMove =>
    within "table" "move" { required := ["a1", "f", "e", "t"], optional := ["a2"] }
  | tablePack => within "table" "pack" { variadic := true }
  | tableRemove => within "table" "remove" { required := ["list"], optional := ["pos"] }
  | tableSort => within "table" "sort" { required := ["list"], optional := ["comp"] }
  | tableUnpack => within "table" "unpack" { required := ["list"], optional := ["i", "j"] }

def basicMembers : List Builtin :=
  [assert, collectgarbage, dofile, error, getmetatable, ipairs, load, loadfile, next, pairs, pcall,
    print, rawequal, rawget, rawlen, rawset, select, setmetatable, tonumber, tostring, type, warn,
    xpcall]

def osMembers : List Builtin :=
  [osClock, osDate, osDifftime, osExecute, osExit, osGetenv, osRemove, osRename, osSetlocale,
    osTime, osTmpname]

def ioMembers : List Builtin :=
  [ioClose, ioFlush, ioInput, ioLines, ioOpen, ioOutput, ioPopen, ioRead, ioTmpfile, ioType,
    ioWrite]

def fileMembers : List Builtin :=
  [fileClose, fileFlush, fileLines, fileRead, fileSeek, fileSetvbuf, fileWrite]

def tableMembers : List Builtin :=
  [tableConcat, tableInsert, tableMove, tablePack, tableRemove, tableSort, tableUnpack]

/-- All library functions. The place of a function in this list is its number in every store. -/
def all : List Builtin :=
  basicMembers ++ [ipairsStep] ++ osMembers ++ ioMembers ++ fileMembers ++ tableMembers

def number (b : Builtin) : Nat := all.idxOf b

end Builtin

end LuaInterpreter
