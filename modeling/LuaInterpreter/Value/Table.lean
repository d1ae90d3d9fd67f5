import LuaInterpreter.Value.Basic

/-!
# Tables

A table keeps its entries in the order in which their keys were first set. Setting a key to `nil`
keeps the entry, so that a traversal can go on from it.
-/

namespace LuaInterpreter

structure Table where
  entries : List (Value × Value) := []
  /-- Any value can be put here, though only tables and files make sense. -/
  metatable : Option Value := none
deriving Repr

instance : Inhabited Table := ⟨{}⟩

namespace Table

def lookup (k : Value) : List (Value × Value) → Option Value
  | [] => none
  | (k', v) :: rest => if k'.rawEq k then some v else lookup k rest

/-- Sets the entry whose key equals `k`, which keeps its key and its place; a new entry comes
last. -/
def update (k v : Value) : List (Value × Value) → List (Value × Value)
  | [] => [(k, v)]
  | (k', v') :: rest => if k'.rawEq k then (k', v) :: rest else (k', v') :: update k v rest

def get (t : Table) (k : Value) : Value := (lookup k t.entries).getD .nil

def get? (t : Table) (k : Value) : Option Value :=
  let found := t.get k
  if found.isNil then none else some found

def has (t : Table) (k : Value) : Bool := !(t.get k).isNil

/-- A key as it is kept: integral floats become integers. -/
def keyOf : Value → Value
  | .num n => .num n.asKey
  | k => k

/-- Sets the value at a key. A key that is not there is not set to `nil`. -/
def put (t : Table) (k v : Value) : Table :=
  let k := keyOf k
  if v.isNil && (lookup k t.entries).isNone then t
  else { t with entries := update k v t.entries }

/-- The least `n ≥ start` for which `n + 1` has no value; `fuel` bounds the search. -/
def borderFrom (t : Table) : (fuel start : Nat) → Nat
  | 0, start => start
  | fuel + 1, start =>
    if t.has (.int (start + 1)) then borderFrom t fuel (start + 1) else start

/-- The number of values at `1`, `2`, … before the first `nil`. There are not more than there are
entries. -/
def border (t : Table) : Nat := borderFrom t t.entries.length 0

def ofPairs (pairs : List (Value × Value)) : Table :=
  pairs.foldl (fun t (k, v) => t.put k v) {}

end Table

end LuaInterpreter
