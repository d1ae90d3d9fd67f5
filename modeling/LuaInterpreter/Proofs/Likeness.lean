import LuaInterpreter.Eval.Chunk
import LuaInterpreter.Proofs.Congruence

/-!
# Two runs side by side

Two runs of one program that start on almost the same store, from almost the same scope. How far
they may differ is told by a `Leeway`: in the scopes that calls come from, as long as these belong
to one session, and in whether sessions are verbose.

Errors may differ in their traces. Where a fault leaves a construct of a verbose session it becomes
an error, so there the second run is ended on the spot, and that excuses the first one.
-/

namespace LuaInterpreter

open Array

/-- How far two runs may differ. -/
structure Leeway where
  /-- The runs may be called from different scopes of one session. -/
  scopes : Bool := false
  /-- The first run may be verbose where the second one is not. The second one may then be ended
  with this code. -/
  code : Option Int := none

namespace Leeway

/-- What a session of the first run is in the second one. -/
def session (l : Leeway) (x : Session) : Session := if l.code.isSome then x.silenced else x

/-- Two scopes that calls may come from: the same one, or two of one session. -/
def Kin (l : Leeway) (s : Store) (a b : Nat) : Prop :=
  a = b ∨ l.scopes = true ∧ a < s.scopes.size ∧ b < s.scopes.size ∧
    (s.scope a).session = (s.scope b).session

/-- How the second run may be ended so that it says nothing about the first one: with the code, or
(where `lax` is set) with a fault that has not reached a construct yet. -/
def Excuses (l : Leeway) (lax : Bool) : Signal → Prop
  | .kill code => l.code = some code
  | .fault _ => l.code.isSome = true ∧ lax = true
  | _ => False

variable (l : Leeway) (x : Session)

theorem silenced_session : (l.session x).silenced = x.silenced := by
  unfold session
  split <;> rfl

@[simp] theorem root_session : (l.session x).root = x.root := by
  unfold session
  split <;> rfl

@[simp] theorem globals_session : (l.session x).globals = x.globals := by
  unfold session
  split <;> rfl

theorem session_change {f : Session → Session} (hf : ∀ x, f x.silenced = (f x).silenced) :
    f (l.session x) = l.session (f x) := by
  unfold session
  split
  · exact hf x
  · rfl

end Leeway

/-! ## Stores -/

/-- The code of a function in two runs: readers may remember different scopes. -/
inductive Code.Alike (l : Leeway) (s : Store) : Code → Code → Prop
  | same (c : Code) : Code.Alike l s c c
  | reader {maker : Builtin} {a b : Nat} {file : Value} {formats : List Value} {closing : Bool} :
      l.Kin s a b →
      Code.Alike l s (.reader maker a file formats closing) (.reader maker b file formats closing)

structure Function.Alike (l : Leeway) (s : Store) (f f' : Function) : Prop where
  code : f.code.Alike l s f'.code
  eq : f' = { f with code := f'.code }

/-- A function that shows the host nothing of the scope that it is called from. One that converts
its arguments would convert the scope too, which fails and describes it in the message. -/
def Function.HidesScope (f : Function) : Prop := ∀ id, f.code = .host id true → f.getsScope = false

variable {f : Function} {l : Leeway} {s : Store} {f' : Function}

theorem Function.hidesScope_of_block {body : Block} (hf : f.code = .block body) : f.HidesScope :=
  fun _ hcode => nomatch hf.symm.trans hcode

namespace Store

/-- The scopes of a store are still there, each in its session. -/
structure Keeps (s t : Store) : Prop where
  size : s.scopes.size ≤ t.scopes.size
  session : ∀ id, id < s.scopes.size → (t.scope id).session = (s.scope id).session

structure Alike (l : Leeway) (s s' : Store) : Prop where
  tables : s'.tables = s.tables
  scopes : s'.scopes = s.scopes
  files : s'.files = s.files
  objects : s'.objects = s.objects
  hostFunctions : s'.hostFunctions = s.hostFunctions
  world : s'.world = s.world
  sessions : s'.sessions = s.sessions.map l.session
  count : s'.functions.size = s.functions.size
  function : ∀ id f, s.function? id = some f → ∃ f', s'.function? id = some f' ∧ f.Alike l s f'
  hidden : l.scopes = true → ∀ f ∈ s.functions, f.HidesScope

variable {l : Leeway} {s s' t u : Store}

namespace Keeps

theorem refl (s : Store) : s.Keeps s := ⟨Nat.le_refl _, fun _ _ => rfl⟩

theorem of_scopes_eq (h : t.scopes = s.scopes) : s.Keeps t := by
  refine ⟨Nat.le_of_eq (by rw [h]), fun id _ => ?_⟩
  rw [Store.scope, h, Store.scope]

theorem trans (hst : s.Keeps t) (htu : t.Keeps u) : s.Keeps u where
  size := Nat.le_trans hst.size htu.size
  session := by
    intro id hid
    rw [htu.session id (Nat.lt_of_lt_of_le hid hst.size), hst.session id hid]

end Keeps

end Store

namespace Leeway.Kin

variable {l : Leeway} {s t : Store} {a b : Nat}

theorem refl (a : Nat) : l.Kin s a a := .inl rfl

theorem session (h : l.Kin s a b) : (s.scope a).session = (s.scope b).session := by
  rcases h with rfl | ⟨_, _, _, h⟩
  · rfl
  · exact h

theorem keeps (h : l.Kin s a b) (hst : s.Keeps t) : l.Kin t a b := by
  rcases h with rfl | ⟨hl, ha, hb, h⟩
  · exact .refl a
  · refine .inr ⟨hl, Nat.lt_of_lt_of_le ha hst.size, Nat.lt_of_lt_of_le hb hst.size, ?_⟩
    rw [hst.session a ha, hst.session b hb, h]

end Leeway.Kin

theorem Function.Alike.keeps {t : Store} (h : f.Alike l s f') (hst : s.Keeps t) :
    f.Alike l t f' := by
  refine ⟨?_, h.eq⟩
  have hcode := h.code
  revert hcode
  generalize f.code = c, f'.code = c'
  rintro (_ | hab)
  · exact .same _
  · exact .reader (hab.keeps hst)

theorem Function.Alike.refl (f : Function) : f.Alike l s f :=
  ⟨.same _, rfl⟩

/-- A function is the same in both runs, or a reader that remembers another scope. -/
theorem Function.Alike.eq_or_reader (h : f.Alike l s f') :
    f' = f ∨ ∃ maker a b file formats closing, l.Kin s a b ∧
      f.code = .reader maker a file formats closing ∧
      f'.code = .reader maker b file formats closing := by
  have heq := h.eq
  have hcode := h.code
  generalize hc : f.code = c, hc' : f'.code = c' at hcode
  cases hcode with
  | same =>
    left
    rw [heq, hc', ← hc]
  | reader hab => exact .inr ⟨_, _, _, _, _, _, hab, rfl, rfl⟩

theorem Function.Alike.text (h : f.Alike l s f') (id : Nat) : f'.text id = f.text id := by
  have hnative : f'.code.isNative = f.code.isNative := by
    have hcode := h.code
    revert hcode
    generalize f.code = c, f'.code = c'
    rintro (_ | _)
    · rfl
    · rfl
  rw [Function.text, hnative, h.eq, Function.text]
  rfl

namespace Store.Alike

variable {l : Leeway} {s s' t t' : Store}

theorem refl (hl : l.code = none) (hs : l.scopes = true → ∀ f ∈ s.functions, f.HidesScope) :
    s.Alike l s where
  tables := rfl
  scopes := rfl
  files := rfl
  objects := rfl
  hostFunctions := rfl
  world := rfl
  sessions := by
    have hsession : l.session = id := by
      funext x
      rw [Leeway.session, hl]
      rfl
    rw [hsession, map_id]
  count := rfl
  function := fun _ f hf => ⟨f, hf, .refl f⟩
  hidden := hs

variable (hs : s.Alike l s')
include hs

/-- All that stores have in common but functions and sessions. -/
theorem eq : s' = { s with functions := s'.functions, sessions := s'.sessions } := by
  obtain ⟨htables, hscopes, hfiles, hobjects, hhost, hworld, -⟩ := hs
  cases s
  cases s'
  simp only at *
  subst htables hscopes hfiles hobjects hhost hworld
  rfl

theorem table (id : Nat) : s'.table id = s.table id := by
  rw [Store.table, hs.tables, Store.table]

theorem scope (id : Nat) : s'.scope id = s.scope id := by
  rw [Store.scope, hs.scopes, Store.scope]

theorem session (i : Nat) : s'.session i = l.session (s.session i) := by
  simp only [Store.session, hs.sessions, getD_eq_getD_getElem?, getElem?_map]
  cases s.sessions[i]? with
  | some x => rfl
  | none =>
    unfold Leeway.session
    split <;> rfl

theorem function?_eq_none {id : Nat} (h : s.function? id = none) : s'.function? id = none := by
  have hsize : s.functions.size ≤ id := Array.getElem?_eq_none_iff.mp h
  exact Array.getElem?_eq_none_iff.mpr (hs.count ▸ hsize)

theorem sessionOf (scope : Nat) : s'.sessionOf scope = l.session (s.sessionOf scope) := by
  rw [Store.sessionOf, hs.scope, hs.session, Store.sessionOf]

theorem session_of_kin {a b : Nat} (hab : l.Kin s a b) :
    (s'.scope b).session = (s.scope a).session := by
  rw [hs.scope, hab.session]

theorem owner? (scope : Nat) (name : Bytes) : s'.owner? scope name = s.owner? scope name := by
  have howner (fuel scope : Nat) : s'.ownerFrom name fuel scope = s.ownerFrom name fuel scope := by
    induction fuel generalizing scope with
    | zero => rfl
    | succ fuel ih =>
      rw [Store.ownerFrom, Store.ownerFrom, hs.scope]
      simp only [ih]
  rw [Store.owner?, howner, hs.scopes, Store.owner?]

theorem getName (scope : Nat) (name : Bytes) : s'.getName scope name = s.getName scope name := by
  have hlocal (scope : Nat) : s'.localValue scope name = s.localValue scope name := by
    rw [Store.localValue, hs.scope, Store.localValue]
  simp only [Store.getName, hs.owner?, hlocal, hs.sessionOf, Store.getGlobal, hs.table,
    Leeway.root_session, Leeway.globals_session]

omit hs in
/-- Changes that neither look at functions and sessions nor touch them. -/
theorem map {f : Store → Store}
    (hf : ∀ s functions sessions,
      f { s with functions, sessions } = { f s with functions, sessions })
    (hs : s.Alike l s') (hkeeps : s.Keeps (f s)) : (f s).Alike l (f s') := by
  have hfs : f s = { f s with functions := s.functions, sessions := s.sessions } :=
    hf s s.functions s.sessions
  have hfs' : f s' = { f s with functions := s'.functions, sessions := s'.sessions } := by
    rw [← hf s, ← hs.eq]
  rw [hfs] at hkeeps
  rw [hfs, hfs']
  exact { tables := rfl, scopes := rfl, files := rfl, objects := rfl, hostFunctions := rfl
          world := rfl, sessions := hs.sessions, count := hs.count, hidden := hs.hidden
          function := fun id g hg => by
            obtain ⟨g', hg', halike⟩ := hs.function id g hg
            exact ⟨g', hg', halike.keeps hkeeps⟩ }

/-! ### Texts -/

theorem functionText (id : Nat) : s'.functionText id = s.functionText id := by
  unfold Store.functionText
  cases hf : s.function? id with
  | none => rw [hs.function?_eq_none hf]
  | some f =>
    obtain ⟨f', hf', halike⟩ := hs.function id f hf
    rw [hf']
    exact halike.text id

theorem fileText (id : Nat) : s'.fileText id = s.fileText id := by
  rw [hs.eq]
  rfl

theorem atomText (v : Value) : s'.atomText v = s.atomText v := by
  cases v with
  | func id => exact hs.functionText id
  | file id => exact hs.fileText id
  | _ => rfl

theorem textFrom (fuel : Nat) :
    (∀ seen v, s'.textFrom fuel seen v = s.textFrom fuel seen v) ∧
      ∀ seen entries, s'.pairTexts fuel seen entries = s.pairTexts fuel seen entries := by
  induction fuel with
  | zero =>
    refine ⟨fun seen v => ?_, fun seen entries => ?_⟩
    · rw [Store.textFrom, Store.textFrom, hs.atomText]
      · exact nofun
      · exact nofun
    · cases entries with
      | nil => rw [Store.pairTexts, Store.pairTexts]
      | cons => rw [Store.pairTexts, Store.pairTexts] <;> exact nofun
  | succ fuel ih =>
    refine ⟨fun seen v => ?_, fun seen entries => ?_⟩
    · cases v with
      | table id => rw [Store.textFrom, Store.textFrom, ih.2, hs.table]
      | _ =>
        rw [Store.textFrom, Store.textFrom, hs.atomText] <;> exact nofun
    · cases entries with
      | nil => rw [Store.pairTexts, Store.pairTexts]
      | cons e rest => simp only [Store.pairTexts, ih.1, ih.2]

theorem text (v : Value) : s'.text v = s.text v := by
  rw [Store.text, Store.textFuel, hs.tables, (hs.textFrom _).1, Store.text, Store.textFuel]

end Store.Alike

/-! ## Signals -/

/-- Signals of two runs: errors may differ in their traces, and what is returned is a list. -/
inductive Signal.Alike : Signal → Signal → Prop
  | error (e : LuaError) (trace : List String) : Signal.Alike (.error e) (.error { e with trace })
  | fault (f : Fault) : Signal.Alike (.fault f) (.fault f)
  | break : Signal.Alike .break .break
  | goto (label : String) : Signal.Alike (.goto label) (.goto label)
  | return (values : List Value) :
      Signal.Alike (.return (.ofList values)) (.return (.ofList values))
  | exit (code : Foreign) : Signal.Alike (.exit code) (.exit code)
  | kill (code : Int) : Signal.Alike (.kill code) (.kill code)
  | interrupt : Signal.Alike .interrupt .interrupt
  | outOfFuel : Signal.Alike .outOfFuel .outOfFuel

/-! ## Computations -/

namespace Run

variable {α β : Type} {l : Leeway} {lax : Bool} {a b : Nat} {s s' t t' : Store}

/-- How two computations that started on alike stores ended: with the same result or with alike
signals, on alike stores; or the second one in a way that excuses the first one. -/
inductive EndsAlike (l : Leeway) (lax : Bool) (s : Store) {α : Type} :
    EStateM.Result Signal Store α → EStateM.Result Signal Store α → Prop
  | ok {v : α} {t t' : Store} : t.Alike l t' → s.Keeps t → EndsAlike l lax s (.ok v t) (.ok v t')
  | error {e e' : Signal} {t t' : Store} :
      e.Alike e' → t.Alike l t' → s.Keeps t → EndsAlike l lax s (.error e t) (.error e' t')
  | excused {r : EStateM.Result Signal Store α} {e' : Signal} {t' : Store} :
      l.Excuses lax e' → EndsAlike l lax s r (.error e' t')

/-- Two computations that end alike from alike stores, if calls from `a` in the first run are calls
from `b` in the second one. Where `lax` is set, faults of the second one excuse the first one. -/
def Alike (l : Leeway) (lax : Bool) (a b : Nat) (m m' : Run α) : Prop :=
  ∀ s s', s.Alike l s' → l.Kin s a b → EndsAlike l lax s (m s) (m' s')

/-- A computation that is ended with a code where a fault comes up. -/
def halting (code : Int) (m : Run α) : Run α :=
  tryCatch m fun
    | .fault _ => throw (.kill code)
    | e => throw e

theorem EndsAlike.keeps {r r' : EStateM.Result Signal Store α} (h : EndsAlike l lax t r r')
    (hst : s.Keeps t) : EndsAlike l lax s r r' := by
  cases h with
  | ok ht hkeeps => exact .ok ht (hst.trans hkeeps)
  | error he ht hkeeps => exact .error he ht (hst.trans hkeeps)
  | excused he => exact .excused he

namespace Alike

theorem pure (v : α) : Alike l lax a b (pure v : Run α) (pure v) :=
  fun s _ hs _ => .ok hs (.refl s)

theorem throw {e e' : Signal} (he : e.Alike e') : Alike l lax a b (throw e : Run α) (throw e') :=
  fun s _ hs _ => .error he hs (.refl s)

theorem fault (f : Fault) : Alike l lax a b (fault f : Run α) (fault f) := .throw (.fault f)

theorem ofExcept (r : Except Fault α) : Alike l lax a b (ofExcept r) (ofExcept r) := by
  cases r with
  | ok v => exact .pure v
  | error f => exact .fault f

variable {m m' : Run α} {f f' : α → Run β} {c : Prop} (v : Value)

theorem bind_of {P : α → Prop} (hm : Alike l lax a b m m') (hP : Ensures m P)
    (hf : ∀ v, P v → Alike l lax a b (f v) (f' v)) : Alike l lax a b (m >>= f) (m' >>= f') := by
  intro s s' hs hab
  have hends := hm s s' hs hab
  generalize h : m s = r, h' : m' s' = r' at hends
  cases hends with
  | ok ht hkeeps =>
    rw [bind_of_ok h, bind_of_ok h']
    exact (hf _ (hP _ _ _ h) _ _ ht (hab.keeps hkeeps)).keeps hkeeps
  | error he ht hkeeps =>
    rw [bind_of_error h, bind_of_error h']
    exact .error he ht hkeeps
  | excused he =>
    rw [bind_of_error h']
    exact .excused he

theorem bind (hm : Alike l lax a b m m') (hf : ∀ v, Alike l lax a b (f v) (f' v)) :
    Alike l lax a b (m >>= f) (m' >>= f') :=
  hm.bind_of (P := fun _ => True) (fun _ _ _ _ => trivial) fun v _ => hf v

theorem get_bind {f f' : Store → Run β}
    (hf : ∀ s s', s.Alike l s' → l.Kin s a b → Alike l lax a b (f s) (f' s')) :
    Alike l lax a b (get >>= f) (get >>= f') :=
  fun s s' hs hab => hf s s' hs hab s s' hs hab

theorem read {g g' : Store → α} (hg : ∀ s s', s.Alike l s' → l.Kin s a b → g' s' = g s)
    (hf : ∀ v, Alike l lax a b (f v) (f' v)) :
    Alike l lax a b (get >>= fun s => f (g s)) (get >>= fun s => f' (g' s)) := by
  refine .get_bind fun s s' hs hab => ?_
  rw [hg s s' hs hab]
  exact hf _

theorem set {f f' : Store → Store} {v v' : Store → α}
    (hv : ∀ s s', s.Alike l s' → l.Kin s a b → v' s' = v s)
    (hf : ∀ s s', s.Alike l s' → l.Kin s a b → (f s).Alike l (f' s') ∧ s.Keeps (f s)) :
    Alike l lax a b (do let s ← get; set (f s); return v s)
      (do let s ← get; set (f' s); return v' s) := by
  intro s s' hs hab
  obtain ⟨hfs, hkeeps⟩ := hf s s' hs hab
  show EndsAlike l lax s (.ok (v s) (f s)) (.ok (v' s') (f' s'))
  rw [hv s s' hs hab]
  exact .ok hfs hkeeps

theorem modify {f f' : Store → Store}
    (hf : ∀ s s', s.Alike l s' → l.Kin s a b → (f s).Alike l (f' s') ∧ s.Keeps (f s)) :
    Alike l lax a b (modify f : Run Unit) (modify f') :=
  fun s s' hs hab => .ok (hf s s' hs hab).1 (hf s s' hs hab).2

theorem here {m m' : Run α} {c : Nat} (hm : Alike l lax c c m m') : Alike l lax a b m m' :=
  fun s s' hs _ => hm s s' hs (.refl c)

/-- Calls come from the same scope, unless the leeway allows for more. -/
theorem of_kin (hm : b = a ∨ l.scopes = true → Alike l lax a b m m') : Alike l lax a b m m' :=
  fun s s' hs hab => hm (hab.imp Eq.symm And.left) s s' hs hab

theorem error (message : String) : Alike l lax a b (error message : Run α) (error message) :=
  (ofExcept _).bind fun _ => .throw (.error _ _)

theorem text : Alike l lax a b (text v) (text v) :=
  .read (fun _ _ hs _ => hs.text v) fun _ => .ofExcept _

theorem ite [Decidable c] {n n' : Run α} (hm : Alike l lax a b m m') (hn : Alike l lax a b n n') :
    Alike l lax a b (if c then m else n) (if c then m' else n') := by
  split
  · exact hm
  · exact hn

theorem check [Decidable c] {m m' : Run Unit} {f f' : Unit → Run α} (hm : Alike l lax a b m m')
    (hf : ∀ r, Alike l lax a b (f r) (f' r)) :
    Alike l lax a b (if c then m >>= f else f ()) (if c then m' >>= f' else f' ()) :=
  .ite (hm.bind hf) (hf ())

/-! ### Handlers -/

theorem imp {lax' : Bool} (himp : ∀ e, l.Excuses lax e → l.Excuses lax' e)
    (hm : Alike l lax a b m m') : Alike l lax' a b m m' := by
  intro s s' hs hab
  have hends := hm s s' hs hab
  generalize m s = r, m' s' = r' at hends ⊢
  cases hends with
  | ok ht hkeeps => exact .ok ht hkeeps
  | error he ht hkeeps => exact .error he ht hkeeps
  | excused he => exact .excused (himp _ he)

theorem weaken (hm : Alike l false a b m m') : Alike l lax a b m m' := by
  refine hm.imp fun e he => ?_
  cases e with
  | kill code => exact he
  | fault f => exact absurd he.2 nofun
  | _ => exact he.elim

/-- Where the second run is as verbose as the first one, nothing is excused. -/
theorem strict (hl : l.code = none) (hm : Alike l true a b m m') : Alike l false a b m m' := by
  refine hm.imp fun e he => ?_
  cases e with
  | kill code => exact he
  | fault f => exact absurd (hl ▸ he.1) nofun
  | _ => exact he.elim

/-- A handler that passes on what excuses the first run. -/
theorem tryCatch {h h' : Signal → Run α} (hm : Alike l lax a b m m')
    (hh : ∀ e e', e.Alike e' → Alike l lax a b (h e) (h' e'))
    (hkill : ∀ code, h' (.kill code) = MonadExcept.throw (.kill code))
    (hfault : lax = true → ∀ f, h' (.fault f) = MonadExcept.throw (.fault f)) :
    Alike l lax a b (tryCatch m h) (tryCatch m' h') := by
  intro s s' hs hab
  have hends := hm s s' hs hab
  generalize hrun : m s = r, hrun' : m' s' = r' at hends
  cases hends with
  | ok ht hkeeps =>
    rw [tryCatch_of_ok hrun, tryCatch_of_ok hrun']
    exact .ok ht hkeeps
  | error he ht hkeeps =>
    rw [tryCatch_of_error hrun, tryCatch_of_error hrun']
    exact (hh _ _ he _ _ ht (hab.keeps hkeeps)).keeps hkeeps
  | @excused _ e' _ he =>
    rw [tryCatch_of_error hrun']
    cases e' with
    | kill code =>
      rw [hkill]
      exact .excused he
    | fault f =>
      rw [hfault he.2]
      exact .excused he
    | _ => exact he.elim

theorem handle {onError onError' : LuaError → Run α} {onFault onFault' : Fault → Run α}
    (hm : Alike l false a b m m')
    (hError : ∀ e trace, Alike l false a b (onError e) (onError' { e with trace }))
    (hFault : ∀ f, Alike l false a b (onFault f) (onFault' f)) :
    Alike l false a b (m.handle onError onFault) (m'.handle onError' onFault') := by
  refine hm.tryCatch (fun e e' he => ?_) (fun _ => rfl) nofun
  cases he with
  | error e trace => exact hError e trace
  | fault f => exact hFault f
  | _ =>
    exact .throw (by constructor)

/-- Traces differ at most in a verbose session. There a fault becomes an error, but in the second
run it stays a fault, which excuses the first one. -/
theorem traced {c c' : Nat} {place : Place} {role kind : String} {silent : Bool}
    (hscope : ∀ s : Store, l.Kin s a b → (s.scope c).session = (s.scope c').session)
    (hm : Alike l true a b m m') :
    Alike l true a b (traced c place role kind silent m) (traced c' place role kind silent m') := by
  refine .get_bind fun s s' hs hab => ?_
  have hverbose : (s'.sessionOf c').verbose = (l.session (s.sessionOf c)).verbose := by
    rw [Store.sessionOf, hs.scope, hs.session, Store.sessionOf, hscope s hab]
  rw [hverbose]
  cases hl : l.code with
  | none =>
    have hsession : l.session (s.sessionOf c) = s.sessionOf c := by
      rw [Leeway.session, hl]
      rfl
    rw [hsession]
    refine .ite (weaken ((hm.strict hl).handle (fun e trace => ?_) fun f => ?_)) hm
    · cases silent with
      | true | false => exact .throw (.error _ _)
    · exact (Alike.ofExcept _).bind fun _ => .throw (.error _ _)
  | some code =>
    -- The second run is silent. A verbose first run differs from it where it turns a fault into an
    -- error, and there the second run still has the fault.
    have hsession : (l.session (s.sessionOf c)).verbose = false := by
      rw [Leeway.session, hl]
      rfl
    rw [hsession]
    split
    · intro t t' ht hkin
      have hends := hm t t' ht hkin
      show EndsAlike l true t _ (m' t')
      generalize hrun : m t = r, hrun' : m' t' = r' at hends ⊢
      cases hends with
      | ok hu hkeeps =>
        rw [handle_of_ok hrun]
        exact .ok hu hkeeps
      | error he hu hkeeps =>
        cases he with
        | error e trace =>
          rw [handle_of_error hrun]
          cases silent with
          | true | false => exact .error (.error _ _) hu hkeeps
        | fault f => exact .excused ⟨hl ▸ rfl, rfl⟩
        | _ =>
          rw [handle_of_control hrun trivial]
          exact .error (by constructor) hu hkeeps
      | excused he => exact .excused he
    · exact hm

theorem halting {code : Int} (hl : l.code = some code) (hm : Alike l true a b m m') :
    Alike l false a b m (m'.halting code) := by
  intro s s' hs hab
  have hends := hm s s' hs hab
  generalize hrun : m s = r, hrun' : m' s' = r' at hends ⊢
  cases hends with
  | ok ht hkeeps =>
    rw [Run.halting, tryCatch_of_ok hrun']
    exact .ok ht hkeeps
  | error he ht hkeeps =>
    rw [Run.halting, tryCatch_of_error hrun']
    cases he with
    | fault f => exact .excused hl
    | _ =>
      exact .error (by constructor) ht hkeeps
  | @excused _ e' _ he =>
    rw [Run.halting, tryCatch_of_error hrun']
    cases e' with
    | kill code => exact .excused he
    | fault f => exact .excused hl
    | _ => exact he.elim

end Alike

/-! ## What touches the store -/

theorem alike_world (action : World.Action α) : Alike l lax a b (world action) (world action) := by
  intro s s' hs _
  simp only [world, get_bind_apply, hs.world]
  cases action.run s.world with
  | ok r =>
    exact .ok (hs.map (f := fun s => { s with world := r.2 }) (fun _ _ _ => rfl)
      (.of_scopes_eq rfl)) (.of_scopes_eq rfl)
  | error f => exact .error (.fault f) hs (.refl s)

/-- A change that neither looks at functions and sessions nor touches them, and leaves scopes in
their sessions. -/
theorem alike_modify {f : Store → Store}
    (hf : ∀ s functions sessions,
      f { s with functions, sessions } = { f s with functions, sessions })
    (hkeeps : ∀ s : Store, s.Keeps (f s)) : Alike l lax a b (modify f : Run Unit) (modify f) :=
  .modify fun s _ hs _ => ⟨hs.map hf (hkeeps s), hkeeps s⟩

theorem alike_modifyTable (id : Nat) (f : Table → Table) :
    Alike l lax a b (modifyTable id f) (modifyTable id f) :=
  alike_modify (fun _ _ _ => rfl) fun _ => .of_scopes_eq rfl

theorem alike_newTable (t : Table) : Alike l lax a b (newTable t) (newTable t) :=
  .set (fun _ _ hs _ => by rw [hs.tables])
    fun _ _ hs _ => ⟨hs.map (f := fun s => { s with tables := s.tables.push t }) (fun _ _ _ => rfl)
      (.of_scopes_eq rfl), .of_scopes_eq rfl⟩

theorem alike_newFile (f : File) : Alike l lax a b (newFile f) (newFile f) :=
  .set (fun _ _ hs _ => by rw [hs.files])
    fun _ _ hs _ => ⟨hs.map (f := fun s => { s with files := s.files.push f }) (fun _ _ _ => rfl)
      (.of_scopes_eq rfl), .of_scopes_eq rfl⟩

theorem alike_newObject (o : HostObject) : Alike l lax a b (newObject o) (newObject o) :=
  .set (fun _ _ hs _ => by rw [hs.objects])
    fun _ _ hs _ => ⟨hs.map (f := fun s => { s with objects := s.objects.push o })
      (fun _ _ _ => rfl) (.of_scopes_eq rfl), .of_scopes_eq rfl⟩

theorem alike_newFunction {f f' : Function} (hf : ∀ s : Store, l.Kin s a b → f.Alike l s f')
    (hhidden : l.scopes = true → f.HidesScope) :
    Alike l lax a b (newFunction f) (newFunction f') := by
  refine .set (fun _ _ hs _ => by rw [hs.count]) fun s s' hs hab => ⟨?_, .of_scopes_eq rfl⟩
  have hkeeps : s.Keeps { s with functions := s.functions.push f } := .of_scopes_eq rfl
  refine { hs with
    count := by rw [size_push, size_push, hs.count]
    function := fun id g hg => ?_
    hidden := fun hl g hg => ?_ }
  · simp only [Store.function?, getElem?_push, hs.count] at hg ⊢
    by_cases hid : id = s.functions.size
    · rw [if_pos hid] at hg ⊢
      cases hg
      exact ⟨f', rfl, (hf s hab).keeps hkeeps⟩
    · rw [if_neg hid] at hg ⊢
      obtain ⟨g', hg', halike⟩ := hs.function id g hg
      exact ⟨g', hg', halike.keeps hkeeps⟩
  · rcases Array.mem_push.mp hg with hg | rfl
    · exact hs.hidden hl g hg
    · exact hhidden hl

theorem alike_modifySession {id id' : Nat} (hid : id' = id) {f : Session → Session}
    (hf : ∀ y, f y.silenced = (f y).silenced) :
    Alike l lax a b (modifySession id f) (modifySession id' f) := by
  subst hid
  refine .modify fun s s' hs _ => ⟨?_, .of_scopes_eq rfl⟩
  refine { hs with sessions := ?_, function := fun i g hg => ?_ }
  · rw [hs.sessions]
    apply ext_getElem?
    intro i
    simp only [getElem?_modify, getElem?_map]
    split
    · cases s.sessions[i]? with
      | none => rfl
      | some y => exact congrArg some (l.session_change y hf)
    · rfl
  · obtain ⟨g', hg', halike⟩ := hs.function i g hg
    exact ⟨g', hg', halike.keeps (.of_scopes_eq rfl)⟩

/-! ### Variables -/

theorem keeps_modify (s : Store) (id : Nat) {f : Scope → Scope}
    (hf : ∀ sc, (f sc).session = sc.session) :
    s.Keeps { s with scopes := s.scopes.modify id f } := by
  refine ⟨Nat.le_of_eq Array.size_modify.symm, fun i _ => ?_⟩
  simp only [Store.scope, getD_eq_getD_getElem?, getElem?_modify]
  split
  · cases s.scopes[i]? with
    | none => rfl
    | some sc => exact hf sc
  · rfl

variable (scope : Nat) (name : Bytes) (v : Variable)

theorem alike_setVariable : Alike l lax a b (setVariable scope name v) (setVariable scope name v) :=
  alike_modify (fun _ _ _ => rfl) fun s => keeps_modify s scope fun _ => rfl

theorem alike_declare : Alike l lax a b (declare scope name v) (declare scope name v) := by
  refine .get_bind fun s s' hs _ => ?_
  rw [hs.scope]
  split
  · exact .ite (.error _) (alike_setVariable scope name v)
  · exact alike_setVariable scope name v

theorem alike_assign (v : Value) : Alike l lax a b (assign scope name v) (assign scope name v) := by
  refine .get_bind fun s s' hs _ => ?_
  rw [hs.owner?]
  split
  · rw [hs.scope]
    split
    · exact .ite (.error _) (alike_setVariable _ name _)
    · exact alike_setVariable _ name _
  · rw [setGlobal, setGlobal, hs.sessionOf, Leeway.globals_session]
    exact alike_modifyTable _ _

/-! ### Scopes and sessions -/

theorem alike_newScope {sc sc' : Scope} (h : sc' = sc) :
    Alike l lax a b (newScope sc) (newScope sc') := by
  subst h
  have hkeeps (s : Store) : s.Keeps { s with scopes := s.scopes.push sc' } := by
    refine ⟨size_push sc' ▸ Nat.le_succ _, fun i hi => ?_⟩
    simp only [Store.scope, getD_eq_getD_getElem?, getElem?_push_lt hi,
      getElem?_eq_getElem hi]
  exact .set (fun _ _ hs _ => by rw [hs.scopes]) fun s _ hs _ =>
    ⟨hs.map (f := fun s => { s with scopes := s.scopes.push sc' }) (fun _ _ _ => rfl) (hkeeps s),
      hkeeps s⟩

theorem alike_pushScope (parent : Nat) : Alike l lax a b (pushScope parent) (pushScope parent) :=
  .get_bind fun _ _ hs _ => alike_newScope (by rw [hs.scope])

theorem alike_newDetached {f f' : Nat → Run β} (hf : ∀ own, Alike l lax a b (f own) (f' own)) :
    Alike l lax a b
      (get >>= fun s => newScope { session := (s.scope a).session, parent := none } >>= f)
      (get >>= fun s => newScope { session := (s.scope b).session, parent := none } >>= f') :=
  .get_bind fun _ _ hs hab => (alike_newScope (by rw [hs.session_of_kin hab])).bind hf

theorem alike_newSession : Alike l lax a b newSession newSession := by
  have hpush (y : Session) (hy : y.silenced = y) : Alike l lax a b
      (modify fun s => { s with sessions := s.sessions.push y } : Run Unit)
      (modify fun s => { s with sessions := s.sessions.push y }) := by
    refine .modify fun s s' hs _ => ⟨?_, .of_scopes_eq rfl⟩
    refine { hs with sessions := ?_, function := fun i g hg => ?_ }
    · rw [map_push, hs.sessions, Leeway.session, hy, ite_self]
    · obtain ⟨g', hg', halike⟩ := hs.function i g hg
      exact ⟨g', hg', halike.keeps (.of_scopes_eq rfl)⟩
  refine (alike_newTable _).bind fun os => (alike_newTable _).bind fun io =>
    (alike_newTable _).bind fun table => .get_bind fun s s' hs _ => ?_
  rw [hs.tables]
  refine (alike_newTable _).bind fun _ => .get_bind fun t t' ht _ => ?_
  rw [ht.sessions, size_map]
  exact (alike_newScope rfl).bind fun root => (hpush _ rfl).bind fun _ => .pure _

theorem alike_newRoot : Alike l lax a b newRoot newRoot :=
  alike_newSession.bind fun id =>
    .read (fun _ _ hs _ => by rw [hs.session, Leeway.root_session]) fun _ => .pure _

end Run

end LuaInterpreter
