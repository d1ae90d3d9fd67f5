import LuaInterpreter.Proofs.Congruence
import LuaInterpreter.Proofs.Legibility

/-!
# Two runs that differ at one point

To see whether an error gets through, a run in which it is raised is compared with one that is ended
on the spot at the same point, by a signal that nothing catches. Wherever the second run is ended,
the first one should end with an error of the same message, on the same store.
-/

namespace LuaInterpreter

def Signal.Says (message : Value) : Signal → Prop
  | .error e => e.message = message
  | _ => False

/-- A point at which one run raises an error with a message, and another one is ended with a code.
The functions of its store can be written as text, as traces do. -/
structure Cut where
  store : Store
  message : Value
  code : Int
  legible : store.Legible

namespace Run

variable {α β : Type} {c : Cut} {s : Store}

variable {id : Nat}

theorem text_func_of_functionText {x : String} (hx : s.functionText id = .ok x) :
    text (.func id) s = .ok x s := by
  have htext : s.text (.func id) = .ok x := by
    rw [Store.text, Store.textFrom, Store.atomText, hx]
    · rfl
    · exact nofun
  show Run.ofExcept (s.text (.func id)) s = .ok x s
  rw [htext]
  rfl

theorem text_func_of_legible (hs : s.Legible) (id : Nat) : ∃ x, text (.func id) s = .ok x s :=
  (hs.functionText_eq_ok id).imp fun _ => text_func_of_functionText

theorem text_func_of_builtin {b : Builtin} (hb : s.function? id = some (.ofBuiltin b)) :
    ∃ x, text (.func id) s = .ok x s := by
  obtain ⟨x, hx⟩ := (Function.isLegible_ofBuiltin b).text_eq_ok id
  refine ⟨x, text_func_of_functionText ?_⟩
  rw [Store.functionText, hb]
  exact hx

/-- On a store, a computation ends like another one, or with an error where the other one is cut
off. -/
def MirrorsAt (c : Cut) (m m' : Run α) (s : Store) : Prop :=
  m s = m' s ∨ m' s = .error (.kill c.code) c.store ∧ Raises (Signal.Says c.message) m s c.store

def Mirrors (c : Cut) (m m' : Run α) : Prop := ∀ s, MirrorsAt c m m' s

theorem MirrorsAt.get_bind {f f' : Store → Run α} (hf : MirrorsAt c (f s) (f' s) s) :
    MirrorsAt c (.get >>= f) (.get >>= f') s :=
  hf

namespace Mirrors

theorem refl (m : Run α) : Mirrors c m m := fun _ => .inl rfl

variable {m m' : Run α} {f f' : α → Run β} {onFault : Fault → Run α}

variable (hm : Mirrors c m m')
include hm

theorem bind_of {P : α → Prop} (hP : Ensures m P) (hf : ∀ a, P a → Mirrors c (f a) (f' a)) :
    Mirrors c (m >>= f) (m' >>= f') := by
  intro s
  rcases hm s with heq | ⟨hcut, hraises⟩
  · cases hm' : m' s with
    | ok a t =>
      have hrun := bind_of_ok (f := f) (heq.trans hm')
      rcases hf a (hP s a t (heq.trans hm')) t with heq | ⟨hcut, hraises⟩
      · exact .inl (hrun.trans (heq.trans (bind_of_ok hm').symm))
      · exact .inr ⟨(bind_of_ok hm').trans hcut, hraises.of_eq hrun⟩
    | error e t => exact .inl ((bind_of_error (heq.trans hm')).trans (bind_of_error hm').symm)
  · exact .inr ⟨bind_of_error hcut, bind_raises hraises⟩

theorem bind (hf : ∀ a, Mirrors c (f a) (f' a)) : Mirrors c (m >>= f) (m' >>= f') :=
  hm.bind_of (P := fun _ => True) (fun _ _ _ _ => trivial) fun a _ => hf a

omit hm in
theorem after (hf : ∀ a, Mirrors c (f a) (f' a)) : Mirrors c (m >>= f) (m >>= f') :=
  (refl m).bind hf

theorem ite {p : Prop} [Decidable p] {n n' : Run α} (hn : Mirrors c n n') :
    Mirrors c (if p then m else n) (if p then m' else n') := by
  split
  · exact hm
  · exact hn

/-- A handler that stops neither errors nor the end of the process. -/
theorem tryCatch {h : Signal → Run α}
    (herror : ∀ e, Raises (Signal.Says e.message) (h (.error e)) c.store c.store)
    (hkill : ∀ code, h (.kill code) = throw (.kill code)) :
    Mirrors c (MonadExcept.tryCatch m h) (MonadExcept.tryCatch m' h) := by
  intro s
  rcases hm s with heq | ⟨hcut, e, hsays, hraise⟩
  · refine .inl ?_
    cases hm' : m' s with
    | ok a t => rw [tryCatch_of_ok (heq.trans hm'), tryCatch_of_ok hm']
    | error e t => rw [tryCatch_of_error (heq.trans hm'), tryCatch_of_error hm']
  · refine .inr ⟨?_, ?_⟩
    · rw [tryCatch_of_error hcut, hkill]
      rfl
    · cases e with
      | error e =>
        have hmessage : e.message = c.message := hsays
        exact hmessage ▸ (herror e).of_eq (tryCatch_of_error hraise)
      | _ => exact hsays.elim

/-- Errors are handled by raising them again, with the same message. -/
theorem handle {onError : LuaError → Run α}
    (herror : ∀ e, Raises (Signal.Says e.message) (onError e) c.store c.store) :
    Mirrors c (m.handle onError onFault) (m'.handle onError onFault) :=
  hm.tryCatch herror fun _ => rfl

theorem raise :
    Mirrors c (m.handle (fun e => throw (.error e)) onFault)
      (m'.handle (fun e => throw (.error e)) onFault) :=
  hm.handle fun e => ⟨.error e, rfl, rfl⟩

omit hm in
theorem raises_text (id : Nat) (e : LuaError) (entry : String → String) :
    Raises (Signal.Says e.message)
      (do
        let name ← text (.func id)
        throw (.error (e.push (entry name))) : Run α) c.store c.store := by
  obtain ⟨name, hname⟩ := text_func_of_legible c.legible id
  exact ⟨.error (e.push (entry name)), rfl, bind_of_ok hname⟩

theorem traced {scope : Nat} {place : Place} {role kind : String} {silent : Bool} :
    Mirrors c (traced scope place role kind silent m) (traced scope place role kind silent m') := by
  refine after fun s => .ite (hm.handle fun e => ?_) hm
  cases silent with
  | true => exact ⟨.error e, rfl, rfl⟩
  | false => exact ⟨.error (e.push _), rfl, rfl⟩

end Mirrors

end Run

def Mirroring (c : Cut) (call call' : Caller) : Prop :=
  ∀ f args scope traced, Run.Mirrors c (call f args scope traced) (call' f args scope traced)

/-- An evaluator that does so for the parts of a construct. Only where a function is called may one
of the two be cut off. -/
structure Evaluator.Mirrors (c : Cut) (k k' : Evaluator) : Prop where
  fuel : k.fuel = k'.fuel
  expr : ∀ scope e, Run.Mirrors c (k.expr scope e) (k'.expr scope e)
  stat : ∀ scope st, Run.Mirrors c (k.stat scope st) (k'.stat scope st)
  call : Mirroring c k.call k'.call
  callable : ∀ f, (∀ id, f ≠ .func id) → k.call f = k'.call f

/-! ## Operations -/

/-- To end like another computation up to such a point, as a relation that is kept by all that
computations are put together with. -/
def Congruence.mirrors (c : Cut) (scope : Nat) : Congruence where
  p := scope
  q := scope
  Rel m m' := Run.Mirrors c m m'
  rel_pure _ := .refl _
  rel_throw _ _ := .refl _
  rel_bind_of hm hP hf := hm.bind_of hP hf
  rel_get_bind hf := .after fun s => hf s s (.refl scope s)
  rel_world _ := .refl _
  rel_modifyTable _ _ _ := .refl _
  rel_newTable _ := .refl _
  rel_newFile _ := .refl _
  rel_newObject _ := .refl _
  rel_modifyObjects _ := .refl _
  rel_modifySession _ _ _ _ := .refl _

theorem Mirroring.calls {c : Cut} {call call' : Caller} (hcall : Mirroring c call call') (scope : Nat) :
    (Congruence.mirrors c scope).Calls call call' :=
  fun f args traced => hcall f args none traced

end LuaInterpreter
