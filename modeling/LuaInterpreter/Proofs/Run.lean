import LuaInterpreter.Eval.Basic

/-!
# How computations on the store compose

Equations for the ways in which computations are put together, at the store they start on. Every
proof about the evaluator goes through them, so that nothing else opens the monad.

* `bind_of_ok`, `bind_of_error`, `bind_eq_ok_iff`: one computation after the other;
* `ensures_bind`: a property of all results of a sequence is one of what comes last;
* `tryCatch_of_ok`, `tryCatch_of_error`, `handle_of_ok`, `handle_of_control`: handlers;
* `handle_eq_ok_iff`: handlers that always raise again add no result;
* `traced_eq_ok_iff`, `traced_of_control`: traces touch neither results nor control signals;
* `bind_raises`, `traced_raises`, `loop_raises`: a computation ends as the part of it that does not
  end normally, up to the class of the signal.
-/

namespace LuaInterpreter

def Signal.IsControl : Signal → Prop
  | .error _ | .fault _ => False
  | _ => True

def Signal.IsFailure : Signal → Prop
  | .error _ | .fault _ => True
  | _ => False

/-- A class of signals that no loop stops, and that tracing stays within. -/
structure Signal.Leaving (C : Signal → Prop) : Prop where
  not_break : ¬C .break
  error : ∀ e, C (.error e) → ∀ e', C (.error e')
  fault : ∀ f, C (.fault f) → (∀ e, C (.error e)) ∧ ∀ f', C (.fault f')

/-- A class of signals that no block stops either. -/
structure Signal.Passing (C : Signal → Prop) : Prop extends Leaving C where
  not_goto : ∀ label, ¬C (.goto label)

theorem Signal.leaving_goto (label : String) : Leaving (· = .goto label) := by
  constructor <;> simp

theorem Signal.passing_return (r : Results) : Passing (· = .return r) where
  not_break := by simp
  not_goto := by simp
  error := by simp
  fault := by simp

theorem Signal.passing_isFailure : Passing IsFailure where
  not_break := id
  not_goto := fun _ => id
  error := fun _ _ _ => trivial
  fault := fun _ _ => ⟨fun _ => trivial, fun _ => trivial⟩

namespace Run

variable {α β : Type} {s t u : Store}

@[simp] theorem pure_apply (a : α) : (pure a : Run α) s = .ok a s := rfl

@[simp] theorem throw_apply (e : Signal) : (throw e : Run α) s = .error e s := rfl

@[simp] theorem fault_apply (f : Fault) : (fault f : Run α) s = .error (.fault f) s := rfl

@[simp] theorem get_bind_apply (f : Store → Run β) : (get >>= f) s = f s s := rfl

/-! ## Sequences -/

variable {e : Signal} {a : α} {P : α → Prop} {h : Signal → Run α}

theorem bind_of_eq {m m' : Run α} {f : α → Run β} (h : m s = m' t) :
    (m >>= f) s = (m' >>= f) t := by
  show EStateM.bind m f s = EStateM.bind m' f t
  simp only [EStateM.bind, h]

theorem bind_of_ok {m : Run α} {f : α → Run β} (h : m s = .ok a t) : (m >>= f) s = f a t := by
  show EStateM.bind m f s = f a t
  simp only [EStateM.bind, h]

theorem bind_of_error {m : Run α} {f : α → Run β} (h : m s = .error e t) :
    (m >>= f) s = .error e t := by
  show EStateM.bind m f s = .error e t
  simp only [EStateM.bind, h]

theorem bind_eq_ok_iff {m : Run α} {f : α → Run β} {b : β} :
    (m >>= f) s = .ok b u ↔ ∃ a t, m s = .ok a t ∧ f a t = .ok b u := by
  cases h : m s with
  | ok a t =>
    rw [bind_of_ok h]
    constructor
    · intro hf
      exact ⟨a, t, rfl, hf⟩
    · rintro ⟨_, _, hm, hf⟩
      cases hm
      exact hf
  | error e t =>
    rw [bind_of_error h]
    constructor
    · intro hf
      cases hf
    · rintro ⟨_, _, hm, _⟩
      cases hm

def Ensures (m : Run α) (P : α → Prop) : Prop := ∀ s a t, m s = .ok a t → P a

theorem ensures_pure (ha : P a) : Ensures (pure a) P := by
  intro s b t h
  cases h
  exact ha

theorem ensures_throw (e : Signal) : Ensures (throw e) P := by
  intro s b t h
  cases h

theorem ensures_bind_of {Q : β → Prop} {m : Run α} {f : α → Run β} (hm : Ensures m P)
    (hf : ∀ a, P a → Ensures (f a) Q) : Ensures (m >>= f) Q := by
  intro s b u h
  obtain ⟨a, t, ha, hfa⟩ := bind_eq_ok_iff.mp h
  exact hf a (hm s a t ha) t b u hfa

theorem ensures_bind {P : β → Prop} {m : Run α} {f : α → Run β} (hf : ∀ a, Ensures (f a) P) :
    Ensures (m >>= f) P :=
  ensures_bind_of (P := fun _ => True) (fun _ _ _ _ => trivial) fun a _ => hf a

theorem ensures_mapM {P : β → Prop} {f : α → Run β} (l : List α)
    (hf : ∀ a ∈ l, Ensures (f a) P) : Ensures (l.mapM f) fun bs => ∀ b ∈ bs, P b := by
  induction l with
  | nil => exact ensures_pure fun b hb => by cases hb
  | cons a l ih =>
    obtain ⟨hhead, htail⟩ := List.forall_mem_cons.mp hf
    intro s bs u h
    rw [List.mapM_cons] at h
    obtain ⟨b, t, hb, h⟩ := bind_eq_ok_iff.mp h
    obtain ⟨rest, v, hrest, h⟩ := bind_eq_ok_iff.mp h
    cases h
    exact List.forall_mem_cons.mpr ⟨hhead s b t hb, ih htail t rest u hrest⟩

/-! ## Handlers -/

theorem tryCatch_of_ok {m : Run α} (hm : m s = .ok a t) : tryCatch m h s = .ok a t := by
  show EStateM.tryCatch m h s = .ok a t
  delta EStateM.tryCatch
  simp only [hm]

theorem tryCatch_of_error {m : Run α} (hm : m s = .error e t) : tryCatch m h s = h e t := by
  show EStateM.tryCatch m h s = h e t
  delta EStateM.tryCatch
  simp only [hm]
  rfl

variable {m : Run α} {onError : LuaError → Run α} {onFault : Fault → Run α}

theorem handle_of_ok (hm : m s = .ok a t) : m.handle onError onFault s = .ok a t :=
  tryCatch_of_ok hm

theorem handle_of_error {e : LuaError} (hm : m s = .error (.error e) t) :
    m.handle onError onFault s = onError e t :=
  tryCatch_of_error hm

theorem handle_of_fault {f : Fault} (hm : m s = .error (.fault f) t) :
    m.handle onError onFault s = onFault f t :=
  tryCatch_of_error hm

theorem handle_of_control (hm : m s = .error e t) (he : e.IsControl) :
    m.handle onError onFault s = .error e t := by
  rw [handle, tryCatch_of_error hm]
  cases e with
  | error | fault => exact he.elim
  | _ => rfl

/-- A handler that ends with a signal again, whatever it is given, leaves the results as they
are. -/
theorem handle_eq_ok_iff (hError : ∀ e v b w, onError e v ≠ .ok b w)
    (hFault : ∀ f v b w, onFault f v ≠ .ok b w) :
    m.handle onError onFault s = .ok a u ↔ m s = .ok a u := by
  cases hm : m s with
  | ok b t => rw [handle_of_ok hm]
  | error e t =>
    rw [handle, tryCatch_of_error hm]
    cases e with
    | error e => simp [hError e t a u]
    | fault f => simp [hFault f t a u]
    | _ => simp

/-! ## Traces -/

variable {scope : Nat} {place : Place} {role kind : String} {silent : Bool}

theorem traced_eq_ok_iff : traced scope place role kind silent m s = .ok a t ↔ m s = .ok a t := by
  simp only [traced, get_bind_apply]
  split
  · refine handle_eq_ok_iff (fun e v b w h => ?_) (fun f v b w h => ?_)
    · cases h
    · obtain ⟨_, _, _, hthrow⟩ := bind_eq_ok_iff.mp h
      cases hthrow
  · exact Iff.rfl

theorem traced_of_control (hm : m s = .error e t) (he : e.IsControl) :
    traced scope place role kind silent m s = .error e t := by
  simp only [traced, get_bind_apply]
  split
  · exact handle_of_control hm he
  · exact hm

theorem traced_of_error {e : LuaError} (hm : m s = .error (.error e) t) :
    ∃ trace, traced scope place role kind silent m s = .error (.error { e with trace }) t := by
  simp only [traced, get_bind_apply]
  split
  · rw [handle_of_error hm]
    cases silent with
    | true => exact ⟨e.trace, rfl⟩
    | false => exact ⟨_, rfl⟩
  · exact ⟨e.trace, hm⟩

/-- Tracing replaces signals at most by others, and leaves the store alone. -/
theorem traced_eq_error (hm : m s = .error e t) :
    ∃ e', traced scope place role kind silent m s = .error e' t := by
  simp only [traced, get_bind_apply]
  split
  · cases e with
    | error e => exact ⟨_, handle_of_error hm⟩
    | fault f =>
      rw [handle_of_fault hm]
      cases asciiMessage f.message with
      | ok message | error g => exact ⟨_, rfl⟩
    | _ =>
      exact ⟨_, handle_of_control hm trivial⟩
  · exact ⟨e, hm⟩

/-! ## Signals of a class -/

/-- A computation ends with a signal of a class. -/
def Raises (C : Signal → Prop) (m : Run α) (s t : Store) : Prop := ∃ e, C e ∧ m s = .error e t

variable {C : Signal → Prop} {f : α → Run β}

theorem raises_return_iff {r : Results} :
    Raises (· = .return r) m s t ↔ m s = .error (.return r) t := by
  constructor
  · rintro ⟨_, rfl, hm⟩
    exact hm
  · intro hm
    exact ⟨_, rfl, hm⟩

theorem Raises.of_eq {m' : Run α} (hm : Raises C m s t) (h : m' u = m s) : Raises C m' u t := by
  obtain ⟨e, hC, he⟩ := hm
  exact ⟨e, hC, h.trans he⟩

theorem bind_raises (hm : Raises C m s t) : Raises C (m >>= f) s t := by
  obtain ⟨e, hC, he⟩ := hm
  exact ⟨e, hC, bind_of_error he⟩

theorem bind_raises_of_ok (hm : m s = .ok a t) (hf : Raises C (f a) t u) : Raises C (m >>= f) s u :=
  hf.of_eq (bind_of_ok hm)

/-- Tracing turns faults into errors, or into the fault that the message is not ASCII. -/
theorem traced_raises (hC : Signal.Leaving C) (hm : Raises C m s t) :
    Raises C (traced scope place role kind silent m) s t := by
  obtain ⟨e, he, hms⟩ := hm
  simp only [traced, Raises, get_bind_apply]
  split
  · cases e with
    | error e =>
      rw [handle_of_error hms]
      exact ⟨_, hC.error e he _, throw_apply _⟩
    | fault fl =>
      rw [handle_of_fault hms]
      cases hmessage : asciiMessage fl.message with
      | ok v => exact ⟨_, (hC.fault fl he).1 _, bind_of_ok (pure_apply v)⟩
      | error g => exact ⟨_, (hC.fault fl he).2 g, bind_of_error (fault_apply g)⟩
    | _ =>
      exact ⟨_, he, handle_of_control hms trivial⟩
  · exact ⟨e, he, hms⟩

/-! ## Loops -/

/-- Rounds of a loop that all go on: from one state and store to another. -/
inductive Rounds {σ α : Type} (step : σ → Run (σ ⊕ α)) : Nat → σ → Store → σ → Store → Prop
  | zero {x : σ} {s : Store} : Rounds step 0 x s x s
  | succ {n : Nat} {x y z : σ} {s t u : Store} :
      step x s = .ok (.inl y) t → Rounds step n y t z u → Rounds step (n + 1) x s z u

theorem loop_raises {σ : Type} {step : σ → Run (σ ⊕ α)} {n fuel : Nat} {x y : σ}
    (hrounds : Rounds step n x s y t) (hfuel : n < fuel) (hstep : Raises C (step y) t u) :
    Raises C (loop fuel step x) s u := by
  induction hrounds generalizing fuel with
  | zero =>
    obtain ⟨fuel, rfl⟩ := Nat.exists_eq_add_one.mpr hfuel
    exact bind_raises hstep
  | succ hround _ ih =>
    obtain ⟨fuel, rfl⟩ := Nat.exists_eq_add_one.mpr (Nat.zero_lt_of_lt hfuel)
    exact bind_raises_of_ok hround (ih (Nat.lt_of_succ_lt_succ hfuel) hstep)

end Run

end LuaInterpreter
