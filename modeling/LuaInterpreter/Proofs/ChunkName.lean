import LuaInterpreter.Syntax.Reader

/-!
# The name of the chunk on the nodes of its tree

Stamping a tree with the name of its chunk follows the fields of each node. It stops at two kinds
of node: the branches of an `if`, each a condition with its block, and the value of a table field.
Such a subtree is *sheltered*: its nodes, however deep, keep the file they have. Every other node
gets the name.
-/

namespace LuaInterpreter

/-- A node of a tree, seen as its place and whether it is sheltered from the name of the chunk. -/
structure Spot where
  place : Place
  sheltered : Bool := false

def Spot.shelter (s : Spot) : Spot := { s with sheltered := true }

/-- What the name of a chunk does to a node. -/
def Spot.named (file : String) (s : Spot) : Spot :=
  if s.sheltered then s else { s with place := s.place.named file }

def Name.spot (n : Name) : Spot := { place := n.place }

def AttribName.spots (a : AttribName) : List Spot :=
  { place := a.place } :: a.name.spot :: a.attrib.toList.map Name.spot

/-! ## The nodes of a tree

From the root on, through every field, list and pair. -/

mutual

def Expr.spots : Expr → List Spot
  | .mk p f => { place := p } :: f.spots

def ExprForm.spots : ExprForm → List Spot
  | .paren e | .unary _ e => e.spots
  | .variable n => [n.spot]
  | .index l r | .binary _ l r => l.spots ++ r.spots
  | .table fs => Field.spotsAll fs
  | .function b => b.spots
  | .call f args => f.spots ++ Expr.spotsAll args
  | .method o n args => o.spots ++ n.spot :: Expr.spotsAll args
  | .block b => b.spots
  | .litNil | .litTrue | .litFalse | .numeral _ | .string _ | .fieldName _ | .vararg | .alien _ => []

def Expr.spotsAll : List Expr → List Spot
  | [] => []
  | e :: es => e.spots ++ Expr.spotsAll es

def Field.spots : Field → List Spot
  | .keyed p k v => { place := p } :: k.spots ++ v.spots.map Spot.shelter
  | .positional p v => { place := p } :: v.spots.map Spot.shelter
  | .alien _ => []

def Field.spotsAll : List Field → List Spot
  | [] => []
  | f :: fs => f.spots ++ Field.spotsAll fs

def FieldKey.spots : FieldKey → List Spot
  | .name n => [n.spot]
  | .expr e => e.spots
  | .alien _ => []

def FuncBody.spots : FuncBody → List Spot
  | .mk p ps _ b => { place := p } :: ps.map Name.spot ++ b.spots

def Block.spots : Block → List Spot
  | .mk p ss none => { place := p } :: Stat.spotsAll ss
  | .mk p ss (some r) => { place := p } :: Stat.spotsAll ss ++ r.spots

def Stat.spots : Stat → List Spot
  | .mk p f => { place := p } :: f.spots

def Stat.spotsAll : List Stat → List Spot
  | [] => []
  | s :: ss => s.spots ++ Stat.spotsAll ss

def StatForm.spots : StatForm → List Spot
  | .assign ts vs => Expr.spotsAll ts ++ Expr.spotsAll vs
  | .expr e => e.spots
  | .label n | .goto n => [n.spot]
  | .do b | .block b => b.spots
  | .while c b | .repeat b c => c.spots ++ b.spots
  | .if bs none => (Stat.branchSpots bs).map Spot.shelter
  | .if bs (some b) => (Stat.branchSpots bs).map Spot.shelter ++ b.spots
  | .for n a z none b => n.spot :: a.spots ++ z.spots ++ b.spots
  | .for n a z (some s) b => n.spot :: a.spots ++ z.spots ++ s.spots ++ b.spots
  | .forIn ns es b => ns.map Name.spot ++ Expr.spotsAll es ++ b.spots
  | .function n b => { place := n.place } :: n.names.map Name.spot ++ b.spots
  | .localFunction n b => n.spot :: b.spots
  | .local ns none => ns.flatMap AttribName.spots
  | .local ns (some es) => ns.flatMap AttribName.spots ++ Expr.spotsAll es
  | .return (some es) => Expr.spotsAll es
  | .return none | .empty | .break | .alien _ => []

def Stat.branchSpots : List (Expr × Block) → List Spot
  | [] => []
  | (e, b) :: bs => e.spots ++ b.spots ++ Stat.branchSpots bs

end

def Chunk.spots (c : Chunk) : List Spot := { place := c.place } :: c.block.spots

/-! ## Stamping -/

section

variable (file : String)

attribute [local simp] Expr.stamp ExprForm.stamp Expr.stampAll Field.stamp Field.stampAll
  FieldKey.stamp FuncBody.stamp Block.stamp Stat.stamp Stat.stampAll StatForm.stamp Expr.spots
  ExprForm.spots Expr.spotsAll Field.spots Field.spotsAll FieldKey.spots FuncBody.spots Block.spots
  Stat.spots Stat.spotsAll StatForm.spots

@[simp]
theorem Spot.named_mk (p : Place) : Spot.named file { place := p } = { place := p.named file } := rfl

@[simp]
theorem Name.spot_stamp (n : Name) : (n.stamp file).spot = n.spot.named file := rfl

@[simp]
theorem Spot.named_comp_shelter : Spot.named file ∘ Spot.shelter = Spot.shelter := rfl

@[simp]
theorem Name.spot_comp_stamp : Name.spot ∘ Name.stamp file = Spot.named file ∘ Name.spot := rfl

theorem AttribName.spots_stamp (a : AttribName) :
    (a.stamp file).spots = a.spots.map (.named file) := by
  cases h : a.attrib <;> simp [AttribName.stamp, AttribName.spots, h]

@[simp]
theorem AttribName.flatMap_spots_stamp (as : List AttribName) :
    (as.map (.stamp file)).flatMap AttribName.spots =
      (as.flatMap AttribName.spots).map (.named file) := by
  simp [List.flatMap_map, List.map_flatMap, AttribName.spots_stamp]

mutual

theorem Expr.spots_stamp : (e : Expr) → (e.stamp file).spots = e.spots.map (Spot.named file)
  | .mk p f => by simp [f.spots_stamp]

theorem ExprForm.spots_stamp :
    (f : ExprForm) → (f.stamp file).spots = f.spots.map (Spot.named file)
  | .paren e | .unary _ e => by simp [e.spots_stamp]
  | .index l r | .binary _ l r => by simp [l.spots_stamp, r.spots_stamp]
  | .table fs => by simp [Field.spotsAll_stamp fs]
  | .function b => by simp [b.spots_stamp]
  | .call f args => by simp [f.spots_stamp, Expr.spotsAll_stamp args]
  | .method o n args => by simp [o.spots_stamp, Expr.spotsAll_stamp args]
  | .block b => by simp [b.spots_stamp]
  | .variable _ | .litNil | .litTrue | .litFalse | .numeral _ | .string _ | .fieldName _ | .vararg
  | .alien _ => rfl

theorem Expr.spotsAll_stamp : (es : List Expr) →
    Expr.spotsAll (Expr.stampAll file es) = (Expr.spotsAll es).map (.named file)
  | [] => rfl
  | e :: es => by simp [e.spots_stamp, Expr.spotsAll_stamp es]

theorem Field.spots_stamp : (f : Field) → (f.stamp file).spots = f.spots.map (Spot.named file)
  | .keyed p k v => by simp [k.spots_stamp]
  | .positional p v => by simp
  | .alien _ => rfl

theorem Field.spotsAll_stamp : (fs : List Field) →
    Field.spotsAll (Field.stampAll file fs) = (Field.spotsAll fs).map (.named file)
  | [] => rfl
  | f :: fs => by simp [f.spots_stamp, Field.spotsAll_stamp fs]

theorem FieldKey.spots_stamp :
    (k : FieldKey) → (k.stamp file).spots = k.spots.map (.named file)
  | .expr e => by simp [e.spots_stamp]
  | .name _ | .alien _ => rfl

theorem FuncBody.spots_stamp :
    (b : FuncBody) → (b.stamp file).spots = b.spots.map (.named file)
  | .mk p ps v b => by simp [b.spots_stamp]

theorem Block.spots_stamp : (b : Block) → (b.stamp file).spots = b.spots.map (Spot.named file)
  | .mk p ss none => by simp [Stat.spotsAll_stamp ss]
  | .mk p ss (some r) => by simp [Stat.spotsAll_stamp ss, r.spots_stamp]

theorem Stat.spots_stamp : (s : Stat) → (s.stamp file).spots = s.spots.map (Spot.named file)
  | .mk p f => by simp [f.spots_stamp]

theorem Stat.spotsAll_stamp : (ss : List Stat) →
    Stat.spotsAll (Stat.stampAll file ss) = (Stat.spotsAll ss).map (.named file)
  | [] => rfl
  | s :: ss => by simp [s.spots_stamp, Stat.spotsAll_stamp ss]

theorem StatForm.spots_stamp :
    (f : StatForm) → (f.stamp file).spots = f.spots.map (.named file)
  | .assign ts vs => by simp [Expr.spotsAll_stamp ts, Expr.spotsAll_stamp vs]
  | .expr e => by simp [e.spots_stamp]
  | .do b | .block b => by simp [b.spots_stamp]
  | .while c b | .repeat b c => by simp [c.spots_stamp, b.spots_stamp]
  | .if bs none => by simp
  | .if bs (some b) => by simp [b.spots_stamp]
  | .for n a z none b => by simp [a.spots_stamp, z.spots_stamp, b.spots_stamp]
  | .for n a z (some s) b => by
    simp [a.spots_stamp, z.spots_stamp, s.spots_stamp,
      b.spots_stamp]
  | .forIn ns es b => by simp [Expr.spotsAll_stamp es, b.spots_stamp]
  | .function n b => by simp [b.spots_stamp]
  | .localFunction n b => by simp [b.spots_stamp]
  | .local ns none => by simp
  | .local ns (some es) => by simp [Expr.spotsAll_stamp es]
  | .return (some es) => by simp [Expr.spotsAll_stamp es]
  | .label _ | .goto _ | .return none | .empty | .break | .alien _ => rfl

end

end

/-- Stamping keeps the nodes of a chunk in their order: a sheltered one keeps its place, and every
other one gets the name of the chunk as its file. So all nodes name the chunk exactly if the sheltered
ones did before. -/
theorem every_unsheltered_node_names_its_chunk (file : String) (c : Chunk) :
    (c.stamp file).spots = c.spots.map (fun s =>
      if s.sheltered then s else { s with place := { s.place with file } }) ∧
    ((∀ s ∈ (c.stamp file).spots, s.place.file = file) ↔
      ∀ s ∈ c.spots, s.sheltered → s.place.file = file) := by
  have hspots : (c.stamp file).spots = c.spots.map (.named file) := by
    simp [Chunk.stamp, Chunk.spots, c.block.spots_stamp]
  refine ⟨hspots, ?_⟩
  rw [hspots, List.forall_mem_map]
  refine forall₂_congr fun s _ => ?_
  by_cases h : s.sheltered <;> simp [Spot.named, Place.named, h]

end LuaInterpreter
