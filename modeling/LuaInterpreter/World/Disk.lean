import LuaInterpreter.Fault

/-!
# Files and directories

A name stands for a directory or for a content; contents are kept apart, so that an open file
outlives the removal or the renaming of its name.
-/

namespace LuaInterpreter

/-- A name, divided at the slashes. -/
abbrev Path := List Bytes

namespace Path

/-- The parts between slashes; empty parts and single dots do not count, and two dots take back the
part before them. -/
def ofParts (parts : List Bytes) : Path :=
  (parts.foldl (fun (acc : Path) part =>
    if part = [] ∨ part = [46] then acc
    else if part = [46, 46] then acc.tail
    else part :: acc) []).reverse

def splitSlashes : Bytes → List Bytes
  | [] => [[]]
  | b :: bs =>
    match splitSlashes bs with
    | [] => [[b]]
    | part :: parts => if b = 47 then [] :: part :: parts else (b :: part) :: parts

/-- The part that an absolute path starts with; no name has a part like it. -/
def rootPart : Bytes := [47]

/-- The path that a name stands for. A name that starts with a slash is absolute. -/
def ofName (name : Bytes) : Path :=
  let parts := ofParts (splitSlashes name)
  if name.head? = some 47 then rootPart :: parts else parts

def isAbsolute (p : Path) : Bool := p.head? = some rootPart

def temporary : Path := [rootPart, [116, 109, 112]]

def toName : Path → Bytes
  | [] => []
  | [part] => part
  | part :: rest => part ++ 47 :: toName rest

def baseName (name : Bytes) : Bytes := (splitSlashes name).getLastD []

end Path

/-- What a path stands for: a directory, or the content with a number. -/
inductive Node where
  | directory
  | file (content : Nat)
deriving Repr, DecidableEq

structure Disk where
  nodes : List (Path × Node) := []
  contents : Array Bytes := #[]
deriving Repr

namespace Disk

def noSuchFile : Nat := 2
def busy : Nat := 16
def notADirectory : Nat := 20
def isADirectory : Nat := 21
def invalid : Nat := 22
def nameTooLong : Nat := 36
def notEmpty : Nat := 39

def longestName : Nat := 255

def content (d : Disk) (i : Nat) : Bytes := d.contents.getD i []

def setContent (d : Disk) (i : Nat) (bs : Bytes) : Disk :=
  { d with contents := d.contents.setIfInBounds i bs }

/-- What a path stands for. The working directory, the root and the directory of temporary files
are always there. -/
def find? (d : Disk) (p : Path) : Option Node :=
  if p = [] ∨ p = [Path.rootPart] ∨ p = Path.temporary then some .directory else d.nodes.lookup p

/-- The error of walking down to `p`: all that stands before its last part must be directories. -/
def walkError? (d : Disk) (p : Path) : Option Nat :=
  (List.range p.length).findSome? fun n =>
    match d.find? (p.take n) with
    | some .directory => none
    | some (.file _) => some notADirectory
    | none => some noSuchFile

/-- A name that ends in a slash can only stand for a directory. -/
def endsInSlash (name : Bytes) : Bool := name.getLast? = some 47

def locate (d : Disk) (name : Bytes) : Except Nat (Path × Option Node) :=
  if name = [] then .error noSuchFile
  else
    let p := Path.ofName name
    if p.any (·.length > longestName) then .error nameTooLong
    else
    match d.walkError? p with
    | some code => .error code
    | none =>
      match d.find? p with
      | some (.file i) =>
        if endsInSlash name then .error notADirectory else .ok (p, some (.file i))
      | node => .ok (p, node)

def openRead (d : Disk) (name : Bytes) : Except Nat Nat := do
  match ← d.locate name with
  | (_, some (.file i)) => return i
  | (_, some .directory) => .error isADirectory
  | (_, none) => .error noSuchFile

/-- The content that a name stands for, to be written; it is made if the name stands for nothing,
and emptied if `truncate` is set. -/
def openWrite (d : Disk) (name : Bytes) (truncate : Bool) : Except Nat (Nat × Disk) := do
  match ← d.locate name with
  | (_, some (.file i)) => return (i, if truncate then d.setContent i [] else d)
  | (_, some .directory) => .error isADirectory
  | (p, none) =>
    if endsInSlash name then throw isADirectory
    return (d.contents.size,
      { nodes := d.nodes ++ [(p, .file d.contents.size)], contents := d.contents.push [] })

def newContent (d : Disk) (bs : Bytes) : Nat × Disk :=
  (d.contents.size, { d with contents := d.contents.push bs })

def add (d : Disk) (name : Bytes) (content : Option Bytes) : Disk :=
  let p := Path.ofName name
  match content with
  | none => { d with nodes := d.nodes ++ [(p, .directory)] }
  | some bs =>
    { nodes := d.nodes ++ [(p, .file d.contents.size)], contents := d.contents.push bs }

def hasBelow (d : Disk) (p : Path) : Bool :=
  d.nodes.any fun (q, _) => p.length < q.length && q.take p.length == p

def erase (d : Disk) (p : Path) : Disk := { d with nodes := d.nodes.filter (·.1 != p) }

def remove (d : Disk) (name : Bytes) : Except Nat Disk := do
  match ← d.locate name with
  | (_, none) => .error noSuchFile
  | (p, some (.file _)) => return d.erase p
  | (p, some .directory) =>
    if p = [] then .error invalid
    else if Path.isAbsolute p then .error busy
    else if d.hasBelow p then .error notEmpty else return d.erase p

def isAbove (p q : Path) : Bool := q.take p.length == p

def move (d : Disk) (p q : Path) : Disk :=
  { d with nodes := (d.nodes.filter (·.1 != q)).map fun (r, node) =>
      (if isAbove p r then q ++ r.drop p.length else r, node) }

/-- Renames a file or a directory, in place of a file or an empty directory of the new name. -/
def rename (d : Disk) (old new : Bytes) : Except Nat Disk := do
  let (p, node) ← d.locate old
  match node with
  | none => .error noSuchFile
  | some node =>
    let (q, target) ← d.locate new
    if p = q then return d
    match node, target with
    | .file _, some .directory => .error isADirectory
    | .directory, some (.file _) => .error notADirectory
    | .directory, some .directory =>
      if isAbove p q then .error invalid
      else if d.hasBelow q then .error notEmpty else return d.move p q
    | .directory, none => if isAbove p q then .error invalid else return d.move p q
    | .file _, _ => if endsInSlash new then .error notADirectory else return d.move p q

end Disk

end LuaInterpreter
