import LuaInterpreter.Syntax.Grammar

/-!
# Reading a text by the grammar

All readings are followed at once. The column of a position holds the productions that are read up
to there, each in the preferred way: with the greater weight (fewer names), and then listed first.
-/

namespace LuaInterpreter

/-- A production, read up to `dot`, whose reading began at position `start`. -/
structure Item where
  rule : Production
  dot : Nat
  start : Nat
deriving Repr, DecidableEq

namespace Item

def next? (i : Item) : Option Symbol := i.rule.symbols[i.dot]?

def isComplete (i : Item) : Bool := i.next?.isNone

def advance (i : Item) : Item := { i with dot := i.dot + 1 }

/-- Complete items of one category and start are alternatives of each other; any other item is
only like itself. -/
def agrees (a b : Item) : Bool :=
  a.start == b.start &&
    ((a.rule == b.rule && a.dot == b.dot) ||
      (a.rule.category == b.rule.category && a.isComplete && b.isComplete))

end Item

/-- What was read for one symbol: a piece of text, or an item completed in some column. -/
inductive Part where
  | token (terminal : Terminal) (text : String) (line : Nat)
  | node (column : Nat) (item : Item)

/-- The last step of a reading: the item before it, if anything had been read before, and what was
read for the last symbol. -/
structure Step where
  before : Option (Nat × Item)
  last : Part

inductive Arrived where
  | byTerminal
  | bySkip
  | byRule
deriving DecidableEq

/-- An item with its preferred reading, which belongs to the column `home`. -/
structure Entry where
  item : Item
  home : Nat
  weight : Int
  step : Option Step
  arrived : Arrived

abbrev Column := Array Entry

namespace Entry

def predicted (rule : Production) (position : Nat) : Entry :=
  { item := ⟨rule, 0, position⟩, home := position, weight := 0, step := none, arrived := .byRule }

def reference? (e : Entry) : Option (Nat × Item) :=
  if e.item.dot = 0 then none else some (e.home, e.item)

/-- The entry after one more symbol, read as `last` up to `position`. -/
def extend (e : Entry) (position : Nat) (last : Part) (weight : Int) (arrived : Arrived) : Entry :=
  { item := e.item.advance
    home := position
    weight := e.weight + weight
    step := some { before := e.reference?, last := last }
    arrived := arrived }

def beats (a b : Entry) : Bool :=
  if a.step.isSome == b.step.isSome then
    b.weight < a.weight || (a.weight == b.weight && a.item.rule.rank < b.item.rule.rank)
  else a.step.isSome

def reads (e : Entry) (c : Category) (start : Nat) : Bool :=
  e.item.start == start && e.item.rule.category == c && e.item.isComplete

def awaitsTerminal (e : Entry) : Bool :=
  match e.item.next? with
  | some (.terminal _) => true
  | _ => false

end Entry

namespace Column

def place? (c : Column) (item : Item) : Option Nat := c.toList.findIdx? (·.item.agrees item)

/-- Adds an entry. One that it agrees with stays as it is, except that two that have arrived as `a`
are compared. The second result is the place of an entry whose consequences have not been drawn. -/
def enter (col : Column) (a : Arrived) (e : Entry) : Column × Option Nat :=
  match col.place? e.item with
  | none => (col.push e, some col.size)
  | some k =>
    match col[k]? with
    | some old =>
      if old.arrived == a && e.arrived == a && e.beats old then
        (col.setIfInBounds k e, if old.weight < e.weight then some k else none)
      else (col, none)
    | none => (col, none)

/-- Adds entries that arrive by terminals and skips. -/
def receive (col : Column) (es : List Entry) : Column :=
  es.foldl (fun col e => (col.enter .byTerminal e).1) col

end Column

/-- What follows from an entry of the column at `position`: a complete item moves those on that
waited for its category; an item that waits for a category predicts its productions, and passes it
if it has been read without any text. -/
def Entry.consequences (chart : Array Column) (position : Nat) (column : Column) (e : Entry) :
    List Entry :=
  match e.item.next? with
  | none =>
    let waiting := if e.item.start = position then column else chart.getD e.item.start #[]
    waiting.toList.filterMap fun w =>
      if w.item.next? = some (.category e.item.rule.category) then
        some (w.extend position (.node e.home e.item) e.weight .byRule)
      else none
  | some (.category c) =>
    let predicted :=
      if column.toList.any fun x =>
          x.item.start == position && x.item.dot == 0 && x.item.rule.category == c then []
      else c.productions.map (Entry.predicted · position)
    let passed := column.toList.filterMap fun x =>
      if x.reads c position then some (e.extend position (.node x.home x.item) x.weight .byRule)
      else none
    predicted ++ passed
  | some (.terminal _) => []

/-- Draws the consequences of the entries at the places of the agenda, and of those that are added
or improved on the way. -/
def settleFrom (chart : Array Column) (position : Nat) : Nat → List Nat → Column → Column
  | 0, _, column => column
  | _ + 1, [], column => column
  | fuel + 1, k :: agenda, column =>
    match column[k]? with
    | none => settleFrom chart position fuel agenda column
    | some e =>
      let (column, changed) :=
        (e.consequences chart position column).foldl
          (fun (column, changed) new =>
            let (column, place) := column.enter .byRule new
            (column, place.toList ++ changed))
          (column, [])
      settleFrom chart position fuel (changed ++ agenda) column

/-- The number of pairs of a production and a place in it is below this. -/
def dottedRules : Nat := 1024

/-- Closes a column. Each item is visited at most once for each weight it can have, and weights lie
between minus the number of characters read and zero. -/
def settle (chart : Array Column) (position : Nat) (column : Column) : Column :=
  settleFrom chart position
    ((dottedRules * (position + 1) + 1) * (position + 2)) (List.range column.size) column

structure Arrival where
  position : Nat
  entry : Entry

/-- What the text `cs` at `position` makes of a column: every terminal that can be read there is
read; whatever can be skipped takes the waiting entries, and a finished reading, past it. -/
def arrivals (start : Category) (position line : Nat) (column : Column) (cs : List Char) :
    List Arrival :=
  let waiting := column.toList.filter Entry.awaitsTerminal
  let finished := column.toList.filter fun e =>
    e.item.rule.category == start && e.item.isComplete
  let terminals := waiting.filterMap fun e =>
    match e.item.next? with
    | some (.terminal t) =>
      (t.read? cs).map fun n =>
        let token := Part.token t (String.ofList (cs.take n)) line
        ⟨position + n, e.extend (position + n) token t.weight .byTerminal⟩
    | _ => none
  let skipped := (skips cs).flatMap fun n =>
    (waiting ++ finished).map fun e => ⟨position + n, { e with arrived := .bySkip }⟩
  terminals ++ skipped

/-- Where reading got stuck: the position, its line and column (from 1), and the terminals that
could have been read there. -/
structure Stuck where
  offset : Nat
  line : Nat
  column : Nat
  expected : List Terminal
deriving Repr, DecidableEq

def expectedTerminals (column : Column) : List Terminal :=
  (column.toList.filterMap fun e =>
    match e.item.next? with
    | some (.terminal t) => some t
    | _ => none).eraseDups

/-- Reads the rest of a text from `position`. `column` holds what has arrived there, `pending` what
will arrive later, and no match so far reaches beyond `horizon`. Reading is stuck where nothing
arrives at the next position and nothing reaches further. -/
def readFrom (start : Category) : List Char → (position line col : Nat) → Array Column → Column →
    List Arrival → (horizon : Nat) → Except Stuck (Array Column)
  | [], position, _, _, chart, column, _, _ => .ok (chart.push (settle chart position column))
  | c :: cs, position, line, col, chart, column, pending, horizon =>
    let column := settle chart position column
    let found := arrivals start position line column (c :: cs)
    let reach := (found.map (·.position) ++ (skips (c :: cs)).map (position + ·)).foldl max horizon
    let (now, later) := (pending ++ found).partition (·.position == position + 1)
    if now.isEmpty && reach ≤ position + 1 then
      .error { offset := position, line, column := col, expected := expectedTerminals column }
    else
      let (line, col) := if c = '\n' then (line + 1, 1) else (line, col + 1)
      readFrom start cs (position + 1) line col (chart.push column)
        (Column.receive #[] (now.map (·.entry))) later reach

/-! ## Trees -/

/-- A derivation tree: pieces of text at the leaves, productions at the nodes. -/
inductive Tree where
  | leaf (terminal : Terminal) (text : String) (line : Nat)
  | node (rule : Production) (children : List Tree)

mutual

/-- The tree of the item in a column. The fuel bounds the number of entries passed on a path. -/
def treeOf (chart : Array Column) : Nat → Nat → Item → Tree
  | 0, _, item => .node item.rule []
  | fuel + 1, home, item =>
    let column := chart.getD home #[]
    match (column.place? item).bind (column[·]?) with
    | none => .node item.rule []
    | some e =>
      match e.step with
      | none => .node e.item.rule []
      | some s => .node e.item.rule (childrenOf chart fuel s.before [partTree chart fuel s.last])

/-- The trees of the symbols read up to an item, followed by `after`. -/
def childrenOf (chart : Array Column) : Nat → Option (Nat × Item) → List Tree → List Tree
  | _, none, after => after
  | 0, some _, after => after
  | fuel + 1, some (home, item), after =>
    let column := chart.getD home #[]
    match (column.place? item).bind (column[·]?) with
    | none => after
    | some e =>
      match e.step with
      | none => after
      | some s => childrenOf chart fuel s.before (partTree chart fuel s.last :: after)

def partTree (chart : Array Column) : Nat → Part → Tree
  | _, .token t text line => .leaf t text line
  | 0, .node _ item => .node item.rule []
  | fuel + 1, .node home item => treeOf chart fuel home item

end

inductive Unreadable where
  | stuck (s : Stuck)
  | unfinished (expected : List Terminal)
deriving Repr, DecidableEq

/-- The preferred reading of a text as `start`. A path through its tree passes less than
`dottedRules` entries before it comes to a smaller part of the text. -/
def readText (start : Category) (text : List Char) : Except Unreadable Tree :=
  let first := (start.productions.map (Entry.predicted · 0)).toArray
  match readFrom start text 0 1 1 #[] first [] 0 with
  | .error s => .error (.stuck s)
  | .ok chart =>
    let last := chart.size - 1
    let column := chart.getD last #[]
    match column.toList.find? (·.reads start 0) with
    | none => .error (.unfinished (expectedTerminals column))
    | some e => .ok (treeOf chart (dottedRules * chart.size) last e.item)

end LuaInterpreter
