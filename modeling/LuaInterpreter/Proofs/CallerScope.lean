import LuaInterpreter.Proofs.Likeness.Call
import LuaInterpreter.Proofs.Return

/-!
# What a call knows of its caller

Functions are scoped by where they are defined, not by where they are called. Called with the same
arguments from two scopes of one session, a value gives the same results or the same error, and
leaves the same store behind. Only the functions that go through the lines of a file remember who
made them, and they do not show it.
-/

namespace LuaInterpreter

open Run Eval

open Evaluator (withFuel)

/-- Two stores that differ at most in the scopes that readers of files remember, and there by scopes
of one session. -/
structure Store.SameUpToReaders (s t : Store) : Prop where
  tables : t.tables = s.tables
  scopes : t.scopes = s.scopes
  sessions : t.sessions = s.sessions
  files : t.files = s.files
  objects : t.objects = s.objects
  hostFunctions : t.hostFunctions = s.hostFunctions
  world : t.world = s.world
  count : t.functions.size = s.functions.size
  function : ∀ id f, s.function? id = some f → ∃ f', t.function? id = some f' ∧
    (f' = f ∨ ∃ maker a b file formats closing,
      f.code = .reader maker a file formats closing ∧
      f' = { f with code := .reader maker b file formats closing } ∧
      (s.scope a).session = (s.scope b).session)

variable {α : Type} {s t : Store}

theorem Store.Alike.sameUpToReaders (h : s.Alike { scopes := true } t) : s.SameUpToReaders t where
  tables := h.tables
  scopes := h.scopes
  sessions := h.sessions.trans s.sessions.map_id
  files := h.files
  objects := h.objects
  hostFunctions := h.hostFunctions
  world := h.world
  count := h.count
  function := by
    intro id f hf
    obtain ⟨f', hf', halike⟩ := h.function id f hf
    refine ⟨f', hf', ?_⟩
    rcases halike.eq_or_reader with heq | ⟨maker, a, b, file, formats, closing, hab, hcode, hcode'⟩
    · exact .inl heq
    · exact .inr ⟨maker, a, b, file, formats, closing, hcode, hcode' ▸ halike.eq, hab.session⟩

/-- Two runs that are as verbose end the same, up to traces and to what readers remember. -/
theorem Run.EndsAlike.ends_same {r r' : EStateM.Result Signal Store α}
    (h : EndsAlike { scopes := true } false s r r') :
    (∃ v t t', r = .ok v t ∧ r' = .ok v t' ∧ t.SameUpToReaders t') ∨
      ∃ e e' t t', r = .error e t ∧ r' = .error e' t' ∧ e.Alike e' ∧ t.SameUpToReaders t' := by
  cases h with
  | ok ht hkeeps => exact .inl ⟨_, _, _, rfl, rfl, ht.sameUpToReaders⟩
  | error he ht hkeeps => exact .inr ⟨_, _, _, _, rfl, rfl, he, ht.sameUpToReaders⟩
  | @excused _ e' _ he =>
    cases e' with
    | kill code => exact absurd he nofun
    | fault f => exact absurd he.1 nofun
    | _ => exact he.elim

/-- A call does not show which scope of a session it comes from. Let a value be called with
arguments on a store, once from one scope and once from another one of the same session. Both calls
give the same results, or the same error up to its trace, or the same other signal. They leave the
same tables, scopes, sessions, files and world, hence the same output and the same globals. No
function of the store may be one of the host that both converts its arguments and is given the
scope. -/
theorem call_ignores_caller_scope {s : Store} (hs : ∀ f ∈ s.functions, f.HidesScope) {a b : Nat}
    (ha : a < s.scopes.size) (hb : b < s.scopes.size)
    (hab : (s.scope a).session = (s.scope b).session) (n : Nat) (f : Value) (args : List Results)
    (traced : Bool) :
    (∃ r t t', (withFuel n).call f args (some a) traced s = .ok r t ∧
      (withFuel n).call f args (some b) traced s = .ok r t' ∧ t.SameUpToReaders t') ∨
    ∃ e e' t t', (withFuel n).call f args (some a) traced s = .error e t ∧
      (withFuel n).call f args (some b) traced s = .error e' t' ∧ e.Alike e' ∧
      t.SameUpToReaders t' := by
  have hk := Evaluator.alike_withFuel (l := { scopes := true }) rfl n
  exact (hk.call.kin false a b f args traced s s (.refl rfl fun _ => hs)
    (.inr ⟨rfl, ha, hb, hab⟩)).ends_same

def nameX : Name := { lexeme := ⟨"x", 1⟩ }

def returnX : Stat := .mk {} (.return (some [.mk {} (.variable nameX)]))

/-- A function of this statement, defined in the first scope. -/
def readerOfX : Function :=
  { params := [], variadic := false, scope := some 0, code := .block (.mk {} [] (some returnX)) }

/-- The function, the scope it was defined in, where `x` is true, and two scopes in which `x` is
false and a table. -/
def threeScopes : Store :=
  { tables := #[{}], functions := #[readerOfX], sessions := #[{ globals := 0, root := 0 }]
    scopes := #[
      { session := 0, parent := none, locals := [(Bytes.ofAscii "x", { value := .bool true })] },
      { session := 0, parent := none, locals := [(Bytes.ofAscii "x", { value := .bool false })] },
      { session := 0, parent := none, locals := [(Bytes.ofAscii "x", { value := .table 0 })] }] }

theorem readerOfX_gives_its_own (caller : Option Nat) :
    (withFuel 4).call (.func 0) [] caller true threeScopes =
      .ok (.ofList [.bool true]) (entry threeScopes readerOfX 0 []) := by
  have hvalues : each (withFuel 2) 3 [.mk {} (.variable nameX)]
      (entry threeScopes readerOfX 0 []) =
      .ok [.one (.bool true)] (entry threeScopes readerOfX 0 []) := rfl
  have hwritten : [Results.one (.bool true)].flatMap
      (flattenAll (entry threeScopes readerOfX 0 [])) = [.bool true] := by
    simp [flattenAll, lastValues, Store.itemsOf?]
  have hreturn := statement_return (rfl : returnX.form = _) hvalues
  refine (call_eq_ok_iff rfl rfl rfl).mpr (blockValue_eq_ok_iff.mpr (.inr ?_))
  rw [← hwritten]
  exact (bind_of_ok (pure_apply none)).trans (bind_of_error hreturn)

/-- From either scope the function gives the `x` of the scope it was defined in. -/
theorem readerOfX_ignores_caller_scope :
    (∀ f ∈ threeScopes.functions, f.HidesScope) ∧
    (threeScopes.scope 1).session = (threeScopes.scope 2).session ∧
    ∃ t t',
      (withFuel 4).call (.func 0) [] (some 1) true threeScopes = .ok (.ofList [.bool true]) t ∧
      (withFuel 4).call (.func 0) [] (some 2) true threeScopes = .ok (.ofList [.bool true]) t' ∧
      t.SameUpToReaders t' := by
  have hhidden : ∀ f ∈ threeScopes.functions, f.HidesScope := by
    intro f hf
    cases Array.mem_singleton.mp hf
    exact Function.hidesScope_of_block rfl
  have hcall := readerOfX_gives_its_own (some 1)
  refine ⟨hhidden, rfl, ?_⟩
  rcases call_ignores_caller_scope hhidden (by decide : 1 < 3) (by decide : 2 < 3) rfl 4 (.func 0)
    [] true with ⟨r, t, t', ht, ht', hsame⟩ | ⟨e, e', t, t', ht, -⟩
  · cases hcall.symm.trans ht
    exact ⟨_, t', hcall, ht', hsame⟩
  · cases hcall.symm.trans ht

end LuaInterpreter
