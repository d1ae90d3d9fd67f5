import LuaInterpreter.Proofs.Call
import LuaInterpreter.Proofs.History
import LuaInterpreter.Proofs.ReachedScopes

/-!
# Chunks that are run apart

`load`, `loadfile` and `dofile` run a chunk in a scope that lies within no other one. What such a
chunk assigns never changes a variable of the main chunk: a name that leads to no declaration of its
own is assigned among the globals. But a name like that is read in the outermost scope of the
session first, so that a variable of the main chunk hides what the chunk has assigned.
-/

namespace LuaInterpreter

open Run Eval Store BasicLibrary

namespace Store

/-! ## Detached scopes -/

/-- A scope within no other one that is not the outermost one of its session. -/
structure Detached (s : Store) (own : Nat) : Prop where
  lt_size : own < s.scopes.size
  parent : (s.scope own).parent = none
  ne_root : own ≠ (s.sessionOf own).root

section

variable {s t : Store} {own scope : Nat} {x : Bytes}

theorem Later.root (h : s.Later t) (hs : s.WellFormed) (hscope : scope < s.scopes.size) :
    (t.sessionOf scope).root = (s.sessionOf scope).root := by
  rw [sessionOf, h.extend.session scope hscope]
  exact h.extend.root _ (hs.session scope hscope)

theorem Detached.later (h : s.Detached own) (hs : s.WellFormed) (hst : s.Later t) :
    t.Detached own where
  lt_size := hst.lt_size h.lt_size
  parent := (hst.extend.parent own h.lt_size).trans h.parent
  ne_root := by
    rw [hst.root hs h.lt_size]
    exact h.ne_root

/-- A scope made within no other one is detached: the outermost scopes have been there before. -/
theorem detached_pushScope (hs : s.WellFormed) (hscope : scope < s.scopes.size) :
    (s.pushScope { session := (s.scope scope).session, parent := none }).Detached
      s.scopes.size where
  lt_size := by
    rw [size_pushScope]
    exact Nat.lt_succ_self _
  parent := by rw [scope_pushScope_new]
  ne_root := by
    rw [sessionOf, scope_pushScope_new]
    exact Nat.ne_of_gt (hs.root _ (hs.session scope hscope)).1

/-- From within a detached scope no name leads to a declaration under the outermost scope. -/
theorem Detached.not_within_root (hown : s.Detached own) (hs : s.WellFormed)
    (hscope : s.Within own scope) {owner : Nat} (hx : s.Resolves x scope (some owner)) :
    ¬s.Within (s.sessionOf scope).root owner := by
  intro howner
  have hsession : s.sessionOf scope = s.sessionOf own := by
    rw [sessionOf, sessionOf, hscope.session hs]
  have hroot := hs.root _ (hs.session own hown.lt_size)
  rw [hsession] at howner
  exact hown.ne_root (hscope.unique (howner.trans hx.within) hown.parent hroot.2.1)

/-! ## Reading a name that leads nowhere -/

theorem getName_of_root (hs : s.WellFormed) (hx : s.Resolves x scope none) {w : Variable}
    (hw : (s.scope (s.sessionOf scope).root).find? x = some w) : s.getName scope x = w.value := by
  have hroot : s.Resolves x (s.sessionOf scope).root (some (s.sessionOf scope).root) := .here hw
  simp only [getName, (resolves_iff hs).mp hx, getGlobal, (resolves_iff hs).mp hroot, localValue, hw]

theorem getName_of_no_root (hs : s.WellFormed) (hscope : scope < s.scopes.size)
    (hx : s.Resolves x scope none) (hw : (s.scope (s.sessionOf scope).root).find? x = none) :
    s.getName scope x = (s.table (s.sessionOf scope).globals).get (.str x) := by
  have hparent := (hs.root _ (hs.session scope hscope)).2.1
  have hroot : s.Resolves x (s.sessionOf scope).root none := .nowhere hw hparent
  simp only [getName, (resolves_iff hs).mp hx, getGlobal, (resolves_iff hs).mp hroot]

end

end Store

/-! ## Loaded chunks -/

/-- The function that `load` and `loadfile` make of a chunk, in a scope made for it. -/
def chunkCode (own : Nat) (name : String) (chunk : Chunk) : Function :=
  { params := [], variadic := true, scope := some own, code := .block (chunk.stamp name).block }

/-- A store with the function and the scope made for it. -/
def Store.withChunk (s : Store) (scope : Nat) (name : String) (chunk : Chunk) : Store :=
  let t := s.pushScope { session := (s.scope scope).session, parent := none }
  { t with functions := t.functions.push (chunkCode s.scopes.size name chunk) }

variable {source : String} {chunk : Chunk} {s : Store} {p : Point}

theorem chunkFunction_of_read (h : readChunk source = .ok chunk) (scope : Nat) (name : String)
    (s : Store) :
    BasicLibrary.chunkFunction scope name source s =
      .ok (.func s.functions.size) (s.withChunk scope name chunk) := by
  rw [BasicLibrary.chunkFunction, h]
  rfl

theorem compile_of_read {bytes : Bytes} {name : Value} {label : String}
    (hname : (Argument.content name >>= Argument.decode) s = .ok label s)
    (hsource : Argument.decode bytes s = .ok source s) (hread : readChunk source = .ok chunk)
    (scope : Nat) :
    BasicLibrary.compile scope bytes name s =
      .ok (.one (.func s.functions.size)) (s.withChunk scope label chunk) := by
  refine handle_of_ok ?_
  rw [← bind_assoc, bind_of_ok hname, bind_of_ok hsource,
    bind_of_ok (chunkFunction_of_read hread scope label s)]
  rfl

/-- Stated for any source: of a fixed one, the two sides would be compared by reading it. -/
theorem runBuiltin_load (k : Evaluator) (scope : Nat) (source : Bytes) :
    Eval.runBuiltin k scope .load [.str source] =
      BasicLibrary.compile scope source (.ascii "chunk") := rfl

theorem chunkFunction_eq_ok {scope id : Nat} {name : String} {t : Store}
    (h : BasicLibrary.chunkFunction scope name source s = .ok (.func id) t) :
    ∃ chunk, readChunk source = .ok chunk ∧ id = s.functions.size ∧
      t = s.withChunk scope name chunk := by
  cases hread : readChunk source with
  | ok chunk =>
    rw [chunkFunction_of_read hread] at h
    cases h
    exact ⟨chunk, rfl, rfl, rfl⟩
  | error e =>
    rw [BasicLibrary.chunkFunction, hread] at h
    cases h

theorem function?_withChunk (s : Store) (scope : Nat) (name : String) (chunk : Chunk) :
    (s.withChunk scope name chunk).function? s.functions.size =
      some (chunkCode s.scopes.size name chunk) :=
  Array.getElem?_push_size

/-- A statement that a loaded chunk comes to, at whatever depth of constructs: in a call of a
function made by `load` or `loadfile`, which may come at any later time, or in a file that `dofile`
runs. The chunk may be loaded on any well-formed store, and so on any reachable one. -/
inductive InLoaded : Point → Prop
  | called {s t u : Store} {scope id own n : Nat} {name source : String} {f : Function}
      {body : Block} {args : List Results} {p : Point} :
      s.WellFormed → scope < s.scopes.size →
      BasicLibrary.chunkFunction scope name source s = .ok (.func id) t →
      t.function? id = some f → f.code = .block body → f.scope = some own → t.Later u →
      Reaches n u.scopes.size body (entry u f own args) p → InLoaded p
  | file {s t u v : Store} {scope own inner n : Nat} {filename : Option Value}
      {name source : String} {chunk : Chunk} {p : Point} :
      s.WellFormed → scope < s.scopes.size →
      BasicLibrary.sourceOf filename s = .ok (name, source) t → readChunk source = .ok chunk →
      newScope { session := (t.scope scope).session, parent := none } t = .ok own u →
      pushScope own u = .ok inner v → Reaches n inner (chunk.stamp name).block v p → InLoaded p

theorem Eval.Reaches.detached {n own inner : Nat} {b : Block} (hreach : Reaches n inner b s p)
    (hs : s.WellFormed) (hown : s.Detached own) (hinner : (s.scope inner).parent = some own) :
    p.store.WellFormed ∧ ∃ own, p.store.Detached own ∧ p.store.Within own p.scope := by
  obtain ⟨hlater, hwithin⟩ := hreach.later hs (lt_size_of_parent_eq_some hinner)
  have hinner' := Store.Within.inside (hlater.parent hinner) .top
  exact ⟨hlater.wellFormed, own, hown.later hs hlater, hinner'.trans hwithin⟩

theorem InLoaded.detached (hp : InLoaded p) :
    p.store.WellFormed ∧ ∃ own, p.store.Detached own ∧ p.store.Within own p.scope := by
  cases hp with
  | @called s _ u scope _ _ _ name source _ _ args _ hs hscope hfunction hf _ hown hu hreach =>
    have ht := (confined_chunkFunction (fun _ => hscope) name source).later_of_ok hs
      (Nat.le_refl _) hfunction
    -- The function is the one that was made last, and its scope the one made for it.
    obtain ⟨chunk, -, rfl, rfl⟩ := chunkFunction_eq_ok hfunction
    rw [function?_withChunk] at hf
    cases hf
    cases hown
    have hnew := detached_pushScope hs hscope
    have hdetached : (s.withChunk scope name chunk).Detached s.scopes.size :=
      ⟨hnew.lt_size, hnew.parent, hnew.ne_root⟩
    have hdetached' := hdetached.later ht.wellFormed hu
    have hentry : u.Later (entry u (chunkCode s.scopes.size name chunk) s.scopes.size args) :=
      .pushScope hu.wellFormed (.inside hu.wellFormed hdetached'.lt_size rfl rfl)
    exact hreach.detached hentry.wellFormed (hdetached'.later hu.wellFormed hentry)
      (congrArg Scope.parent scope_entry)
  | @file _ t _ _ scope _ _ _ filename _ _ _ _ hs hscope hsource _ hown hpush hreach =>
    have ht := Confined.later_of_ok
      (congr_sourceOf (R := .confined True _ _ 0) filename) hs (Nat.le_refl _) hsource
    have hscope' := ht.lt_size hscope
    cases hown
    have hdetached := detached_pushScope ht.wellFormed hscope'
    have hu : t.Later (t.pushScope { session := (t.scope scope).session, parent := none }) :=
      .pushScope ht.wellFormed (.apart ht.wellFormed hscope' rfl rfl)
    obtain ⟨hv, hparent, -, -⟩ := pushScope_later hu.wellFormed hdetached.lt_size hpush
    exact hreach.detached hv.wellFormed (hdetached.later hu.wellFormed hv) hparent

/-- Loaded code does not always read what it has assigned. From a statement that a loaded chunk comes
to, at that time or later, no name leads to a declaration of the main chunk. A name that leads to
none at all can always be assigned: the value goes among the globals, and no scope changes. Reading
the name gives that value if the outermost scope does not declare it. If the outermost scope
declares it, reading gives the variable of the main chunk, before the assignment and after it. -/
theorem loaded_code_reads_outermost_locals {p : Point} (hp : InLoaded p) {u : Store}
    (hu : p.store.Later u) (x : Bytes) (v : Value) :
    (∀ owner, u.Resolves x p.scope (some owner) →
      ¬u.Within (u.sessionOf p.scope).root owner) ∧
    (u.Resolves x p.scope none → ∃ t, assign p.scope x v u = .ok () t ∧
      (∀ id, t.scope id = u.scope id) ∧
      (t.table (u.sessionOf p.scope).globals).get (.str x) = v ∧
      ((u.scope (u.sessionOf p.scope).root).find? x = none →
        u.getName p.scope x = (u.table (u.sessionOf p.scope).globals).get (.str x) ∧
        t.getName p.scope x = v) ∧
      ∀ w, (u.scope (u.sessionOf p.scope).root).find? x = some w →
        u.getName p.scope x = w.value ∧ t.getName p.scope x = w.value) := by
  obtain ⟨hs, own, hown, hwithin⟩ := hp.detached
  have hown' := hown.later hs hu
  have hwithin' := hwithin.later hu
  have hscope : p.scope < u.scopes.size := hwithin'.lt_size hown'.lt_size
  refine ⟨fun owner => hown'.not_within_root hu.wellFormed hwithin', fun hx => ?_⟩
  have hsession := hu.wellFormed.session p.scope hscope
  have hshape := sameShape_setGlobal u (u.sessionOf p.scope) x v
  have ht := hu.wellFormed.of_sameShape hshape
  -- The assignment touches no scope, so the name is still looked up in the outermost one first.
  have hx' : (u.setGlobal (u.sessionOf p.scope) x v).Resolves x p.scope none :=
    hx.of_agree hshape.parent fun _ => Iff.rfl
  have hglobal := get_table_setGlobal (hu.wellFormed.globals _ hsession) x x v
  rw [if_pos rfl] at hglobal
  refine ⟨_, assign_of_none hu.wellFormed hx, fun _ => rfl, hglobal, fun hnone => ⟨?_, ?_⟩,
    fun w hw => ⟨?_, ?_⟩⟩
  · exact getName_of_no_root hu.wellFormed hscope hx hnone
  · exact (getName_of_no_root ht hscope hx' hnone).trans hglobal
  · exact getName_of_root hu.wellFormed hx hw
  · exact getName_of_root ht hx' hw

/-- A new session in whose outermost scope a variable `x` is declared. -/
def outermostLocal : Store :=
  (Request.declaration 0 (Bytes.ofAscii "x") { value := .bool true }).run.final
    (newRoot.final (Store.initial {}))

theorem reachable_outermostLocal : Reachable outermostLocal := by
  refine .step _ (.start {}) fun id hid => ?_
  cases List.mem_singleton.mp hid
  exact Nat.zero_lt_one

theorem readChunk_empty_statement :
    ∃ chunk st rest, readChunk ";" = .ok chunk ∧ (chunk.stamp "chunk").block.stats = st :: rest := by
  have hread : ((readChunk ";").toOption.bind fun chunk =>
      (chunk.stamp "chunk").block.stats.head?).isSome := by
    decide +kernel
  cases hchunk : readChunk ";" with
  | ok chunk =>
    rw [hchunk] at hread
    obtain ⟨st, hst⟩ := Option.isSome_iff_exists.mp hread
    obtain ⟨rest, hstats⟩ := List.head?_eq_some_iff.mp hst
    exact ⟨chunk, st, rest, rfl, hstats⟩
  | error e =>
    rw [hchunk] at hread
    cases hread

/-- In a chunk that was loaded beside a variable `x` of the main chunk, `x` can be assigned, and the
global gets the value, but the name still stands for that variable. -/
theorem outermostLocal_hides_assignment :
    ∃ p, InLoaded p ∧ ∃ t, assign p.scope (Bytes.ofAscii "x") (.bool false) p.store = .ok () t ∧
      (t.table (outermostLocal.session 0).globals).get (.str (Bytes.ofAscii "x")) = .bool false ∧
      t.getName p.scope (Bytes.ofAscii "x") = .bool true := by
  obtain ⟨chunk, st, rest, hread, hstats⟩ := readChunk_empty_statement
  have hs := reachable_outermostLocal.wellFormed
  have hfunction := chunkFunction_of_read hread 0 "chunk" outermostLocal
  have hlater := (confined_chunkFunction (fun _ => Nat.zero_lt_one) "chunk"
    ";").later_of_ok hs (Nat.le_refl 1) hfunction
  have hfirst : (chunk.stamp "chunk").block.stats = [] ++ st :: rest := hstats
  have hp : InLoaded ⟨0, 2, st, entry (outermostLocal.withChunk 0 "chunk" chunk)
      (chunkCode 1 "chunk" chunk) 1 []⟩ :=
    .called hs Nat.zero_lt_one hfunction (function?_withChunk _ _ _ _) rfl rfl
      (.refl hlater.wellFormed) (.here (.stat hfirst .done))
  obtain ⟨t, ht, -, hglobal, -, hhidden⟩ := (loaded_code_reads_outermost_locals hp
    (.refl hp.detached.1) (Bytes.ofAscii "x") (.bool false)).2 (.outside rfl rfl (.nowhere rfl rfl))
  exact ⟨_, hp, t, ht, hglobal, (hhidden _ rfl).2⟩

end LuaInterpreter
