import LuaInterpreter.Proofs.Likeness.Call

/-!
# Verbose sessions

In a verbose session errors carry longer traces. That is all the difference it makes to a program,
as long as no fault leaves a construct: there a verbose session turns the fault into an error, which
a program may catch.
-/

namespace LuaInterpreter

open Run

open Evaluator (withFuel halting)

variable {α : Type} {code : Int} {s t : Store}

/-! ## What can be seen -/

def Store.silenced (s : Store) : Store := { s with sessions := s.sessions.map Session.silenced }

def Signal.untraced : Signal → Signal
  | .error e => .error { e with trace := [] }
  | e => e

/-- What can be seen of the end of a run by looking neither at traces nor at whether sessions are
verbose. -/
def Run.seen : EStateM.Result Signal Store α → EStateM.Result Signal Store α
  | .ok v t => .ok v t.silenced
  | .error e t => .error e.untraced t.silenced

theorem Store.silenced_silenced (s : Store) : s.silenced.silenced = s.silenced := by
  simp only [Store.silenced, Array.map_map]
  rfl

theorem Store.alike_silenced (s : Store) (code : Int) :
    s.Alike { code := some code } s.silenced where
  tables := rfl
  scopes := rfl
  files := rfl
  objects := rfl
  hostFunctions := rfl
  world := rfl
  sessions := rfl
  count := rfl
  function := fun _ f hf => ⟨f, hf, .refl f⟩
  hidden := nofun

/-- Where scopes may not differ, the store of the second run is that of the first one, silenced. -/
theorem Store.Alike.eq_silenced (h : s.Alike { code := some code } t) : t = s.silenced := by
  have hfunctions : t.functions = s.functions := by
    apply Array.ext_getElem?
    intro id
    cases hf : s.function? id with
    | none => exact (h.function?_eq_none hf).trans hf.symm
    | some f =>
      obtain ⟨f', hf', halike⟩ := h.function id f hf
      rcases halike.eq_or_reader with rfl | ⟨_, a, b, _, _, _, hkin, hcode, hcode'⟩
      · exact hf'.trans hf.symm
      · have hab : a = b := hkin.resolve_right nofun
        have heq : f' = f := by rw [halike.eq, hcode', ← hab, ← hcode]
        exact hf'.trans (heq ▸ hf.symm)
  rw [h.eq, hfunctions, h.sessions]
  rfl

theorem Signal.Alike.untraced_eq {e e' : Signal} (h : e.Alike e') : e'.untraced = e.untraced := by
  cases h with
  | _ => rfl

/-! ## Runs without faults -/

/-- In the course of a run no fault leaves an expression or a statement: if the process were ended
there with a code, it would not be. -/
def Faultless (n : Nat) (m : Evaluator → Run α) (s : Store) : Prop :=
  ∃ code : Int, ∀ t, m (halting code n) s.silenced ≠ .error (.kill code) t

/-- What is seen of a run is what is seen of the run that is ended where a fault leaves a construct,
if it does not come to that. -/
theorem seen_halting {m m' : Run α} (hm : Run.Alike { code := some code } false 0 0 m m')
    (hhalt : ∀ t, m' s.silenced ≠ .error (.kill code) t) : seen (m s) = seen (m' s.silenced) := by
  have hends := hm s s.silenced (s.alike_silenced code) (.refl 0)
  generalize m s = r, m' s.silenced = r' at hends hhalt
  cases hends with
  | ok ht hkeeps => rw [ht.eq_silenced, seen, seen, Store.silenced_silenced]
  | error he ht hkeeps =>
    rw [ht.eq_silenced, seen, seen, Store.silenced_silenced, he.untraced_eq]
  | @excused _ e' t' he =>
    cases e' with
    | kill code' =>
      -- Only a fault ends the second run with this code, and none came up.
      cases he
      exact absurd rfl (hhalt t')
    | fault f => exact absurd he.2 nofun
    | _ => exact he.elim

/-- A run is seen to end the same in sessions that differ in their verbosity. -/
theorem seen_eq_of_faultless {n : Nat} {m : Evaluator → Run α}
    (hm : ∀ {l : Leeway} {k k' : Evaluator}, k.Alike l k' → Run.Alike l false 0 0 (m k) (m k'))
    (hst : s.silenced = t.silenced) (hfaultless : Faultless n m s) :
    seen (m (withFuel n) s) = seen (m (withFuel n) t) := by
  obtain ⟨code, hhalt⟩ := hfaultless
  have hends := hm (Evaluator.alike_halting (l := { code := some code }) rfl n)
  calc seen (m (withFuel n) s)
      = seen (m (halting code n) s.silenced) := seen_halting hends hhalt
    _ = seen (m (halting code n) t.silenced) := by rw [hst]
    _ = seen (m (withFuel n) t) := (seen_halting hends (hst ▸ hhalt)).symm

/-- Verbose sessions differ from others in the traces of errors only. Let a text be run as a chunk,
or a block as part of one, on two stores that differ at most in which sessions are verbose. If no
fault leaves an expression or a statement in the course of the run, both runs give the same results,
or the same error up to its trace, or the same other signal, and they leave the same store up to
verbosity. -/
theorem verbosity_shows_in_traces_only {s t : Store} (hst : s.silenced = t.silenced)
    (n scope : Nat) :
    (∀ text name, Faultless n (fun k => Chunk.execute k scope text name) s →
      seen (Chunk.execute (withFuel n) scope text name s) =
        seen (Chunk.execute (withFuel n) scope text name t)) ∧
    ∀ b, Faultless n (fun k => Eval.runBlock k scope b) s →
      seen (Eval.runBlock (withFuel n) scope b s) = seen (Eval.runBlock (withFuel n) scope b t) :=
  ⟨fun text name => seen_eq_of_faultless (fun hk => Chunk.alike_execute hk scope text name) hst,
    fun b => seen_eq_of_faultless (fun hk => Eval.alike_runBlock hk scope b) hst⟩

/-- A session of a given verbosity, with a scope that has no `...`. -/
def plainStore (verbose : Bool) : Store :=
  { scopes := #[{ session := 0, parent := none }]
    sessions := #[{ globals := 0, root := 0, verbose }] }

def varargReturn : Block := .mk {} [] (some (.mk {} (.return (some [.mk {} .vararg]))))

theorem silenced_plainStore (verbose : Bool) :
    (plainStore verbose).silenced = plainStore false := by
  simp [plainStore, Store.silenced, Session.silenced]

/-- An error that is raised without a fault, once with a trace and once without. -/
theorem varargReturn_seen :
    Faultless 3 (fun k => Eval.runBlock k 0 varargReturn) (plainStore true) ∧
    (∃ e t, Eval.runBlock (withFuel 3) 0 varargReturn (plainStore true) = .error (.error e) t ∧
      e.trace.length = 2) ∧
    (∃ e t, Eval.runBlock (withFuel 3) 0 varargReturn (plainStore false) = .error (.error e) t ∧
      e.trace.length = 0) ∧
    seen (Eval.runBlock (withFuel 3) 0 varargReturn (plainStore true)) =
      seen (Eval.runBlock (withFuel 3) 0 varargReturn (plainStore false)) := by
  have hfaultless : Faultless 3 (fun k => Eval.runBlock k 0 varargReturn) (plainStore true) := by
    have hrun : ∃ e u, Eval.runBlock (halting 0 3) 0 varargReturn (plainStore false) =
        .error (.error e) u := ⟨_, _, rfl⟩
    obtain ⟨e, u, hrun⟩ := hrun
    refine ⟨0, fun t h => ?_⟩
    rw [silenced_plainStore] at h
    cases hrun.symm.trans h
  have hsilenced : (plainStore true).silenced = (plainStore false).silenced := by
    rw [silenced_plainStore, silenced_plainStore]
  exact ⟨hfaultless, ⟨_, _, rfl, rfl⟩, ⟨_, _, rfl, rfl⟩,
    (verbosity_shows_in_traces_only hsilenced 3 0).2 varargReturn hfaultless⟩

end LuaInterpreter
