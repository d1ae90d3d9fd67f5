import LuaInterpreter.Proofs.LoadedChunk
import LuaInterpreter.Proofs.ProtectedCall

/-!
# Chunks in pieces

A chunk may be loaded from a string, or from the pieces that a function gives when it is called again
and again. The pieces are put together before anything is read, so it does not matter where the chunk
is cut.
-/

namespace LuaInterpreter

open Run List Eval Argument Builtin Bytes

open Evaluator (withFuel)

namespace BasicLibrary

variable {k : Evaluator} {f : Value} {ps : List Bytes} {s t : Store}

/-! ## Pieces -/

/-- Results that say that there are no more pieces: no value, or `nil` or an empty string first. -/
def EndsPieces : Results → Prop
  | .many [] => True
  | .many (r :: _) => r.single = .nil ∨ r.single = .str []
  | .one _ => False

/-- Calling a function without arguments gives pieces, one with each call, and then none: it is called
once more than there are pieces. Behind a piece, a call may give other values. -/
inductive Gives (k : Evaluator) (f : Value) : List Bytes → Store → Store → Prop
  | done {r : Results} {s t : Store} :
      k.call f [] none true s = .ok r t → EndsPieces r → Gives k f [] s t
  | piece {p : Bytes} {ps : List Bytes} {r : Results} {rs : List Results} {s t u : Store} :
      k.call f [] none true s = .ok (.many (r :: rs)) t → r.single = .str p → p ≠ [] →
      Gives k f ps t u → Gives k f (p :: ps) s u

/-- A number that goes up by one with each call goes up by one more than there are pieces. -/
theorem Gives.count (h : Gives k f ps s t) {count : Store → Nat}
    (hcount : ∀ s r t, k.call f [] none true s = .ok r t → count t = count s + 1) :
    count t = count s + (ps.length + 1) := by
  induction h with
  | done hcall _ => exact hcount _ _ _ hcall
  | piece hcall _ _ _ ih =>
    rw [ih, hcount _ _ _ hcall, length_cons]
    omega

/-- One call, with what has been put together before it. -/
def nextPiece (k : Evaluator) (f : Value) (acc : Bytes) : Run (Bytes ⊕ Bytes) := do
  match ← k.call f [] none true with
  | .many [] => return .inr acc
  | .many (r :: _) =>
    match r.single with
    | .nil | .str [] => return .inr acc
    | .str s => return .inl (acc ++ s)
    | _ => error "load: chunk() must return a string"
  | .one v => fault (.foreign "TypeError" ("'" ++ v.kind ++ "' object is not subscriptable"))

variable {r : Results} {name : Bytes}

theorem nextPiece_of_endsPieces (hcall : k.call f [] none true s = .ok r t) (hr : EndsPieces r)
    (acc : Bytes) : nextPiece k f acc s = .ok (.inr acc) t := by
  refine (bind_of_ok hcall).trans ?_
  cases r with
  | one v => exact hr.elim
  | many rs =>
    cases rs with
    | nil => rfl
    | cons r rs =>
      rcases hr with hr | hr
      · simp only [hr]
        rfl
      · simp only [hr]
        rfl

theorem nextPiece_of_piece {p : Bytes} {rs : List Results}
    (hcall : k.call f [] none true s = .ok (.many (r :: rs)) t) (hr : r.single = .str p)
    (hp : p ≠ []) (acc : Bytes) : nextPiece k f acc s = .ok (.inl (acc ++ p)) t := by
  refine (bind_of_ok hcall).trans ?_
  simp only [hr]
  rfl

theorem pieces_of_gives (h : Gives k f ps s t) (hfuel : ps.length < k.fuel) :
    pieces k f s = .ok ps.flatten t := by
  -- The induction is on the calls; the fuel that is left and what is put together already vary.
  suffices hloop : ∀ {fuel : Nat} (acc : Bytes), ps.length < fuel →
      loop fuel (nextPiece k f) acc s = .ok (acc ++ ps.flatten) t from hloop [] hfuel
  clear hfuel
  induction h with
  | done hcall hr =>
    intro fuel acc hfuel
    obtain ⟨fuel, rfl⟩ := Nat.exists_eq_add_one.mpr hfuel
    rw [flatten_nil, append_nil]
    exact bind_of_ok (nextPiece_of_endsPieces hcall hr acc)
  | piece hcall hr hp _ ih =>
    intro fuel acc hfuel
    obtain ⟨fuel, rfl⟩ := Nat.exists_eq_add_one.mpr (Nat.zero_lt_of_lt hfuel)
    rw [flatten_cons, ← append_assoc]
    exact (bind_of_ok (nextPiece_of_piece hcall hr hp acc)).trans
      (ih _ (Nat.lt_of_succ_lt_succ hfuel))

/-! ## What is made of a source -/

theorem decode_cases (bs : Bytes) :
    (∃ text, ∀ s, decode bs s = .ok text s) ∨
      ∃ fl, ∀ s, decode bs s = .error (.fault fl) s := by
  unfold decode
  cases (decodeUtf8? bs).mapError Fault.undecodable with
  | ok text => exact .inl ⟨text, fun _ => rfl⟩
  | error fl => exact .inr ⟨fl, fun _ => rfl⟩

/-- What is made of a source, before faults are dealt with. -/
def makeChunk (scope : Nat) (source name : Bytes) : Run Results := do
  let label ← decode name
  let text ← decode source
  return .one (← chunkFunction scope label text)

/-- Whether a source can be read, and as what, does not depend on the store. -/
theorem compile_cases (source name : Bytes) :
    (∃ message, ∀ scope s, compile scope source (.str name) s = .ok (.ofList [.nil, message]) s) ∨
    ∃ label chunk, ∀ scope s, compile scope source (.str name) s =
      .ok (.one (.func s.functions.size)) (s.withChunk scope label chunk) := by
  rcases decode_cases name with ⟨label, hlabel⟩ | ⟨fl, hfl⟩
  · rcases decode_cases source with ⟨text, htext⟩ | ⟨fl, hfl⟩
    · cases hread : readChunk text with
      | ok chunk =>
        have hname (s : Store) : (content (.str name) >>= decode) s = .ok label s :=
          hlabel s
        exact .inr ⟨label, chunk, fun scope s => compile_of_read (hname s) (htext s) hread scope⟩
      | error e =>
        have hchunk (scope : Nat) (s : Store) :
            chunkFunction scope label text s = .error (.fault (.syntaxError e)) s := by
          rw [chunkFunction, hread]
          rfl
        exact .inl ⟨_, fun scope s => handle_of_fault ((bind_of_ok (hlabel s)).trans
          ((bind_of_ok (htext s)).trans (bind_of_error (hchunk scope s))))⟩
    · exact .inl ⟨_, fun scope s => handle_of_fault
        ((bind_of_ok (hlabel s)).trans (bind_of_error (hfl s)))⟩
  · exact .inl ⟨_, fun scope s => handle_of_fault
      (show makeChunk scope source name s = _ from bind_of_error (hfl s))⟩

/-! ## Loading -/

theorem call_load {g sc : Nat} {scope : Option Nat} {chunk : Value} {u : Store}
    (hg : s.function? g = some (.ofBuiltin .load))
    (hscope : scopeFor (.ofBuiltin .load) scope s = .ok sc t)
    (hload : load k sc chunk (some (.str name)) t = .ok r u) (traced : Bool) :
    call k (.func g) [.one chunk, .one (.str name)] scope traced s = .ok r u := by
  refine call_builtin_of_ok hg ?_
  exact (runNative_of_check rfl rfl hscope).trans hload

/-- Let a function give pieces when it is called, and then none, from a store `t` on to a store `u`.
Then loading a chunk from the function gives what loading the concatenation of the pieces gives: a
function with the same code, or `nil` and the same message. Loading from the function makes its calls,
which are one more than there are pieces, and changes nothing else before it makes the function. -/
theorem load_ignores_cuts {k : Evaluator} {g f sc : Nat} {scope : Option Nat} {pieces : List Bytes}
    {s t u : Store} (hg : s.function? g = some (.ofBuiltin .load))
    (hscope : Eval.scopeFor (.ofBuiltin .load) scope s = .ok sc t)
    (hgives : Gives k (.func f) pieces t u) (hfuel : pieces.length < k.fuel) (name : Bytes)
    (traced : Bool) :
    let outcome (chunk : Value) := Eval.call k (.func g) [.one chunk, .one (.str name)] scope traced s
    ((∃ message, outcome (.func f) = .ok (.ofList [.nil, message]) u ∧
        outcome (.str pieces.flatten) = .ok (.ofList [.nil, message]) t) ∨
      ∃ label chunk,
        outcome (.func f) = .ok (.one (.func u.functions.size)) (u.withChunk sc label chunk) ∧
        outcome (.str pieces.flatten) =
          .ok (.one (.func t.functions.size)) (t.withChunk sc label chunk) ∧
        (u.withChunk sc label chunk).function? u.functions.size =
          some (chunkCode u.scopes.size label chunk) ∧
        (t.withChunk sc label chunk).function? t.functions.size =
          some (chunkCode t.scopes.size label chunk)) ∧
    ∀ count : Store → Nat,
      (∀ s r t, k.call (.func f) [] none true s = .ok r t → count t = count s + 1) →
      count u = count t + (pieces.length + 1) := by
  intro outcome
  have hpieces := pieces_of_gives hgives hfuel
  have hcut {r : Results} {v : Store}
      (h : compile sc pieces.flatten (.str name) u = .ok r v) : outcome (.func f) = .ok r v :=
    call_load hg hscope ((bind_of_ok hpieces).trans h) traced
  have hwhole {r : Results} {v : Store}
      (h : compile sc pieces.flatten (.str name) t = .ok r v) :
      outcome (.str pieces.flatten) = .ok r v := by
    have hload : load k sc (.str pieces.flatten) (some (.str name)) t = .ok r v := h
    exact call_load hg hscope hload traced
  refine ⟨?_, fun count hcount => hgives.count hcount⟩
  rcases compile_cases pieces.flatten name with ⟨message, hcompile⟩ | ⟨label, chunk, hcompile⟩
  · exact .inl ⟨message, hcut (hcompile sc u), hwhole (hcompile sc t)⟩
  · exact .inr ⟨label, chunk, hcut (hcompile sc u), hwhole (hcompile sc t),
      function?_withChunk u sc label chunk, function?_withChunk t sc label chunk⟩

def named (x : String) : Expr := .mk {} (.variable { lexeme := { text := x } })

/-- The function `function() x, y, z = y, z, x return z end`. -/
def rotator : Function where
  params := []
  variadic := false
  scope := some 0
  code := .block (.mk {}
    [.mk {} (.assign [named "x", named "y", named "z"] [named "y", named "z", named "x"])]
    (some (.mk {} (.return (some [named "z"])))))

/-- A session with the library and that function, in which `x` and `y` are two halves of a word. -/
def rotatorStore : Store :=
  { tables := #[{}]
    functions := (all.map Function.ofBuiltin).toArray.push rotator
    scopes := #[{ session := 0, parent := none
                  locals := [(ofAscii "x", { value := .ascii "ret" }),
                    (ofAscii "y", { value := .ascii "urn" }),
                    (ofAscii "z", { value := .nil })] }]
    sessions := #[{ globals := 0, root := 0 }] }

def callRotator : Run Results := (withFuel 4).call (.func all.length) [] none true

theorem callRotator_of_return {v : Value} (hv : t.itemsOf? (.one v) = none)
    (h : callRotator s = .ok (.ofList (flattenAll t (.many [.one v]))) t) :
    callRotator s = .ok (.many [.one v]) t := by
  rw [h]
  simp [flattenAll, lastValues, hv, Results.ofList]

theorem rotator_gives : Gives (withFuel 4) (.func all.length)
    [ofAscii "ret", ofAscii "urn"] rotatorStore
    (callRotator.final (callRotator.final (callRotator.final rotatorStore))) := by
  have hfirst : callRotator rotatorStore =
      .ok (.many [.one (.ascii "ret")]) (callRotator.final rotatorStore) :=
    callRotator_of_return rfl rfl
  have hsecond : callRotator (callRotator.final rotatorStore) =
      .ok (.many [.one (.ascii "urn")]) (callRotator.final (callRotator.final rotatorStore)) :=
    callRotator_of_return rfl rfl
  have hthird : callRotator (callRotator.final (callRotator.final rotatorStore)) =
      .ok (.many [.one .nil])
        (callRotator.final (callRotator.final (callRotator.final rotatorStore))) :=
    callRotator_of_return rfl rfl
  exact .piece hfirst rfl (by decide) (.piece hsecond rfl (by decide) (.done hthird (.inl rfl)))

/-- A word is put together from its halves before it is read. -/
theorem halves_of_word_are_loaded : ∃ r r' t t',
    Eval.call (withFuel 4) (.func Builtin.load.number)
        [.one (.func Builtin.all.length), .one (.ascii "name")] (some 0) false rotatorStore =
      .ok r t ∧
    Eval.call (withFuel 4) (.func Builtin.load.number)
        [.one (.ascii "return"), .one (.ascii "name")] (some 0) false rotatorStore = .ok r' t' ∧
    (r = r' ∨ ∃ i j own own' label chunk, r = .one (.func i) ∧ r' = .one (.func j) ∧
      t.function? i = some (chunkCode own label chunk) ∧
      t'.function? j = some (chunkCode own' label chunk)) := by
  have hg : rotatorStore.function? Builtin.load.number = some (.ofBuiltin .load) := rfl
  have hscope : scopeFor (.ofBuiltin .load) (some 0) rotatorStore = .ok 0 rotatorStore := rfl
  obtain ⟨⟨message, hcut, hwhole⟩ | ⟨label, chunk, hcut, hwhole, hcode, hcode'⟩, -⟩ :=
    load_ignores_cuts hg hscope rotator_gives (by decide) (ofAscii "name") false
  · exact ⟨_, _, _, _, hcut, hwhole, .inl rfl⟩
  · exact ⟨_, _, _, _, hcut, hwhole, .inr ⟨_, _, _, _, label, chunk, rfl, rfl, hcode, hcode'⟩⟩

end BasicLibrary

end LuaInterpreter
