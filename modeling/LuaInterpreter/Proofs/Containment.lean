import LuaInterpreter.Proofs.FunctionEnd
import LuaInterpreter.Proofs.Likeness.Call
import LuaInterpreter.Proofs.LoadedChunk
import LuaInterpreter.Proofs.ProtectedCall

/-!
# What gets out of a protected call

A protected call turns the errors of the function it calls into results, and nothing else. Control
signals pass through it. A fault gets out as an error, and so does the one that comes up when the
results are not a list that the status can be put before.
-/

namespace LuaInterpreter

open Run BasicLibrary Eval Results Builtin

/-! ## Results that can be spread -/

/-- Results that can be written out into a list: a list, or a value of the host that can be gone
through. -/
def Results.Spreads : Results → Prop
  | .many _ => True
  | .one (.foreign (.bytes _)) | .one (.foreign (.text _)) | .one (.foreign (.object _)) => True
  | .one _ => False

theorem Store.itemsOf?_isSome_iff {s : Store} {r : Results} :
    (s.itemsOf? r).isSome ↔ r.Spreads := by
  unfold Store.itemsOf?
  split
  any_goals exact iff_of_true rfl trivial
  · next v hbytes htext hobject =>
    refine iff_of_false nofun fun h => ?_
    unfold Results.Spreads at h
    split at h
    · next heq => cases heq
    · next heq => exact hbytes _ (by injection heq)
    · next heq => exact htext _ (by injection heq)
    · next heq => exact hobject _ (by injection heq)
    · exact h

def Run.Spreads (m : Run Results) : Prop := Ensures m Results.Spreads

namespace Run.Spreads

variable {α : Type}

theorem list (values : List Value) : Spreads (pure (.ofList values)) := ensures_pure trivial

theorem many (items : List Results) : Spreads (pure (.many items)) := ensures_pure trivial

theorem throw (e : Signal) : Spreads (MonadExcept.throw e) := ensures_throw e

theorem fault (f : Fault) : Spreads (Run.fault f) := ensures_throw _

theorem after {m : Run α} {f : α → Run Results} (hf : ∀ a, Spreads (f a)) : Spreads (m >>= f) :=
  ensures_bind hf

theorem listed {m : Run α} (f : α → List Value) : Spreads (m >>= fun a => pure (.ofList (f a))) :=
  after fun _ => list _

theorem error (message : String) : Spreads (Run.error message) := after fun _ => ensures_throw _

theorem errorValue (message : Value) : Spreads (Run.errorValue message) := ensures_throw _

variable {m : Run Results}

theorem ite {p : Prop} [Decidable p] {m' : Run Results} (hm : Spreads m) (hm' : Spreads m') :
    Spreads (if p then m else m') := by
  split
  · exact hm
  · exact hm'

theorem traced {scope : Nat} {place : Place} {role kind : String} {silent : Bool} (hm : Spreads m) :
    Spreads (.traced scope place role kind silent m) :=
  fun s r t h => hm s r t (traced_eq_ok_iff.mp h)

end Run.Spreads

/-! ## Statements and blocks -/

namespace Eval

variable {k : Evaluator} {scope : Nat}

theorem spreads_asList (r : Results) : (asList r).Spreads := by
  unfold asList
  split <;> trivial

def SpreadsOutput (out : Option Results) : Prop := (out.getD (.many [])).Spreads

variable (hk : ∀ scope st, Ensures (k.stat scope st) SpreadsOutput)
include hk

theorem spreads_runBlock (b : Block) : Spreads (runBlock k scope b) := by
  intro s r t h
  obtain ⟨log, u, hlog, rfl⟩ := runBlock_eq_ok h
  cases hlast : log.getLast? with
  | none =>
    rw [lastOutput, hlast]
    trivial
  | some e =>
    obtain ⟨v, hst⟩ := hlog.output e (List.mem_of_getLast? hlast)
    rw [lastOutput, hlast]
    exact hk scope e.stat e.start e.output v hst

theorem ensures_statForm (form : StatForm) : Ensures (statForm k scope form) SpreadsOutput := by
  cases form with
  | empty | label => exact ensures_pure trivial
  | assign | «local» => exact ensures_bind fun _ => ensures_bind fun _ => ensures_pure trivial
  | expr e =>
    rw [statForm]
    split
    · exact ensures_bind fun r => ensures_pure (spreads_asList r)
    · exact ensures_throw _
  | «break» | goto | alien => exact ensures_throw _
  | «do» | «while» | «repeat» | «for» | forIn => exact ensures_bind fun _ => ensures_pure trivial
  | «if» =>
    refine ensures_bind fun taken => ?_
    cases taken with
    | none => exact ensures_pure trivial
    | some b => exact ensures_bind fun _ => ensures_pure trivial
  | function name body =>
    intro s out t h
    obtain ⟨r, u, hr, h⟩ := bind_eq_ok_iff.mp h
    obtain ⟨v, rfl⟩ := ensures_defineFunction name body s r u hr
    cases h
    trivial
  | localFunction name body =>
    intro s out t h
    obtain ⟨r, u, hr, h⟩ := bind_eq_ok_iff.mp h
    obtain ⟨v, rfl⟩ := ensures_defineLocal name body s r u hr
    cases h
    trivial
  | «return» values =>
    cases values with
    | none => exact ensures_throw _
    | some es => exact ensures_bind fun _ => ensures_bind fun _ => ensures_throw _
  | block b =>
    intro s out t h
    obtain ⟨inner, u, _, h⟩ := bind_eq_ok_iff.mp h
    obtain ⟨r, v, hr, h⟩ := bind_eq_ok_iff.mp h
    cases h
    exact spreads_runBlock hk b u r _ hr

theorem ensures_statement (st : Stat) : Ensures (statement k scope st) SpreadsOutput := by
  intro s out t h
  unfold statement at h
  cases hform : st.form with
  | alien kind =>
    rw [hform] at h
    cases h
  | expr e =>
    rw [hform] at h
    dsimp only at h
    split at h
    · exact ensures_statForm hk _ s out t (traced_eq_ok_iff.mp h)
    · cases h
  | _ =>
    rw [hform] at h
    exact ensures_statForm hk _ s out t (traced_eq_ok_iff.mp h)

end Eval

namespace Evaluator

theorem ensures_stat (n scope : Nat) (st : Stat) :
    Ensures ((withFuel n).stat scope st) Eval.SpreadsOutput := by
  induction n generalizing scope st with
  | zero => exact ensures_throw _
  | succ n ih => exact ensures_statement ih st

end Evaluator

namespace Eval

open Evaluator (withFuel)

variable {n scope : Nat} {s t : Store}

/-- What is returned is a list, as a run that is compared with itself shows. -/
theorem runBlock_return {b : Block} {r : Results}
    (h : runBlock (withFuel n) scope b s = .error (.return r) t) :
    ∃ values, r = .ofList values := by
  have hends : EndsAlike {} false s (runBlock (withFuel n) scope b s)
      (runBlock (withFuel n) scope b s) :=
    alike_runBlock (Evaluator.alike_withFuel rfl n) scope b s s (.refl rfl nofun) (.refl 0)
  rw [h] at hends
  cases hends with
  | error he =>
    cases he with
    | «return» values => exact ⟨values, rfl⟩
  | excused he => exact he.elim

theorem spreads_blockValue (n scope : Nat) (b : Block) :
    Spreads (blockValue (withFuel n) scope b) := by
  intro s r t h
  rcases blockValue_eq_ok_iff.mp h with hends | hreturns
  · exact spreads_runBlock (Evaluator.ensures_stat n) b s r t hends
  · obtain ⟨values, rfl⟩ := runBlock_return hreturns
    trivial

theorem spreads_block_expr (n scope : Nat) (place : Place) (b : Block) :
    Spreads ((withFuel n).expr scope (.mk place (.block b))) := by
  cases n with
  | zero => exact .throw _
  | succ n => exact .traced (.after fun inner => spreads_blockValue n inner b)

end Eval

/-! ## The library -/

open Evaluator (withFuel)

variable (k : Evaluator) (b : Builtin) (args : List Value)

theorem TableLibrary.spreads_run : Spreads (run k b args) := by
  unfold run
  split
  any_goals exact .listed _
  any_goals exact .after fun _ => .many []
  · split
    all_goals exact .after fun j => .listed _
  · exact .many []

theorem OsLibrary.spreads_exit (code close : Option Value) : Spreads (exit code close) := by
  refine .after fun c => ?_
  split
  · exact .throw _
  · split
    · exact .ite (.fault _) (.throw _)
    · exact .fault _

theorem OsLibrary.spreads_run : Spreads (run k b args) := by
  unfold run
  split
  any_goals exact .listed _
  · exact .list _
  · exact spreads_exit _ _
  · exact .many []

theorem IoLibrary.spreads_runMethod (scope : Nat) (b : Builtin) (args : List Value) :
    Spreads (runMethod k scope b args) := by
  unfold runMethod
  split
  any_goals exact .listed _
  any_goals exact .after fun _ => .after fun _ => .many []
  exact .many []

theorem IoLibrary.spreads_run (scope : Nat) (b : Builtin) (args : List Value) :
    Spreads (run k scope b args) := by
  unfold run
  split
  any_goals exact .listed _
  iterate 3 exact .after fun _ => .after fun _ => .many []
  · exact .after fun _ => .after fun _ => .listed _
  · exact .after fun _ => .listed _
  · split
    · exact .after fun _ => .listed _
    · exact .list _
  · exact .after fun _ => .after fun _ => .listed _
  · exact spreads_runMethod k scope _ _

namespace BasicLibrary

theorem spreads_withStatus (ok : Bool) (r : Results) : Spreads (withStatus ok r) :=
  .after fun _ => .many _

theorem spreads_protectedCall (k : Evaluator) (scope : Nat) (f : Value) (args : List Value)
    {onError : Value → Run Results} (herror : ∀ message, Spreads (onError message)) :
    Spreads (protectedCall k scope f args onError) := by
  refine .after fun outcome => ?_
  cases outcome with
  | ok r => exact spreads_withStatus true r
  | error message => exact herror message

theorem spreads_dofile (n scope : Nat) (filename : Option Value) :
    Spreads (dofile (withFuel n) scope filename) := by
  refine .after fun source => ?_
  dsimp only
  split
  · exact .fault _
  · exact .after fun _ => .after fun own => spreads_block_expr n own _ _

/-- All but the functions that give a bare function, and those that give what a metamethod gives. -/
theorem spreads_run (n scope : Nat) {b : Builtin} (hb : b ∉ [.load, .loadfile, .tostring, .pairs])
    (args : List Value) : Spreads (run (withFuel n) scope b args) := by
  unfold run
  split
  any_goals exact .listed _
  any_goals contradiction
  · exact .ite (.list _) (.ite (.error _) (.errorValue _))
  · exact .fault _
  · exact spreads_dofile n scope _
  · exact .errorValue _
  · exact .list _
  · split
    · exact .listed _
    · exact .after fun _ => .error _
  · exact spreads_protectedCall _ scope _ _ fun _ => .list _
  · exact .after fun _ => .many []
  · exact .list _
  · split
    · exact .listed _
    · exact .error _
  · split
    any_goals exact .listed _
    exact .error _
  · exact .after fun _ => .many []
  · exact spreads_protectedCall _ scope _ _ fun _ => .after fun r => spreads_withStatus false r
  · exact .many []

end BasicLibrary

/-! ## Calls -/

/-- A function whose results can always be spread: one of the language, or of the library but for
those that give a bare function and those that give what a metamethod gives. -/
def Function.Spreads (f : Function) : Prop :=
  match f.code with
  | .builtin b => b ∉ [.load, .loadfile, .tostring, .pairs]
  | .host .. => False
  | .block _ | .reader .. | .relay _ | .nothing => True

namespace Eval

variable {n id : Nat} {f : Function} {args : List Results} {scope : Option Nat} {traced : Bool}
  {s t : Store}

theorem spreads_runBuiltin (n sc : Nat) {b : Builtin}
    (hb : b ∉ [.load, .loadfile, .tostring, .pairs]) (args : List Value) :
    Spreads (runBuiltin (withFuel n) sc b args) :=
  .ite (TableLibrary.spreads_run _ b args) (.ite (OsLibrary.spreads_run _ b args)
    (.ite (IoLibrary.spreads_run _ sc b args) (spreads_run n sc hb args)))

theorem spreads_runNative (n : Nat) (hf : f.Spreads) (args : List Value) (scope : Option Nat) :
    Spreads (runNative (withFuel n) f args scope) := by
  unfold Function.Spreads at hf
  unfold runNative
  split
  · next b hcode =>
    rw [hcode] at hf
    exact .after fun _ => .ite (.after fun _ => spreads_runBuiltin n _ hf args)
      (spreads_runBuiltin n _ hf args)
  · exact .after fun _ => .listed _
  · next hcode =>
    rw [hcode] at hf
    exact hf.elim
  · exact .after fun _ => .after fun _ => .listed _
  · exact .after fun _ => .many []
  · exact .many []

variable {r : Results} {fl : Fault}

theorem callNative_eq_ok_iff {k : Evaluator} :
    callNative k id f args scope s = .ok r t ↔
      runNative k f (flatten args) scope s = .ok r t := by
  refine handle_eq_ok_iff (fun e v b w h => ?_) fun fl v b w h => ?_
  · obtain ⟨_, _, _, h⟩ := bind_eq_ok_iff.mp h
    cases h
  · obtain ⟨_, _, _, h⟩ := bind_eq_ok_iff.mp h
    cases h

theorem spreads_runFunction (n : Nat) (f : Function) (body : Block) (args : List Results) :
    Spreads (runFunction (withFuel n) f body args) := by
  unfold runFunction
  split
  · exact .fault _
  · exact .after fun _ => .after fun inner => spreads_blockValue n inner body

theorem spreads_runCallee (n id : Nat) (hf : f.Spreads) (args : List Results)
    (scope : Option Nat) : Spreads (runCallee (withFuel n) id f args scope) := by
  unfold runCallee
  split
  · exact spreads_runFunction n f _ args
  · exact fun s r t h => spreads_runNative n hf _ scope s r t (callNative_eq_ok_iff.mp h)

theorem spreads_call (hid : s.function? id = some f) (hf : f.Spreads)
    (h : (withFuel n).call (.func id) args scope traced s = .ok r t) : r.Spreads := by
  cases n with
  | zero => cases h
  | succ n =>
    have hrun : settleCall id traced (runCallee (withFuel n) id f args scope) s = .ok r t :=
      (callFunction_of_function hid _ _ _ _).symm.trans h
    exact spreads_runCallee n id hf args scope s r t (settleCall_eq_ok_iff.mp hrun)

/-! ## Faults -/

variable {k : Evaluator} {m : Run Results}

theorem legible_runCallee (hk : k.Confined False) (hs : s.Legible) (id : Nat) (f : Function)
    (args : List Results) (scope : Option Nat) :
    ((runCallee k id f args scope).final s).Legible := by
  have hconfined : Run.Confined False 0 (fun _ _ => True) (runCallee k id f args scope) := by
    unfold runCallee
    split
    · exact confined_runFunction hk False.elim _ args
    · exact confined_callNative hk False.elim False.elim id False.elim args
  exact (hconfined s False.elim).legible hs

theorem callNative_of_fault (hname : ∃ name, text (.func id) t = .ok name t)
    (hrun : runNative k f (flatten args) scope s = .error (.fault fl) t) :
    ∃ e : LuaError, e.message = .text fl.message ∧
      callNative k id f args scope s = .error (.error e) t := by
  obtain ⟨name, hname⟩ := hname
  exact ⟨_, rfl, (handle_of_fault hrun).trans (bind_of_ok hname)⟩

theorem callNative_ne_fault (hk : k.Confined False) (hs : s.Legible) (fl : Fault) :
    callNative k id f args scope s ≠ .error (.fault fl) t := by
  intro h
  have hlegible : ((runNative k f (flatten args) scope).final s).Legible :=
    (confined_runNative (n := 0) (D := fun _ _ => True) hk False.elim False.elim False.elim _ s
      False.elim).legible hs
  cases hrun : runNative k f (flatten args) scope s with
  | ok r u => cases (handle_of_ok hrun).symm.trans h
  | error e u =>
    rw [final_of_error hrun] at hlegible
    cases e with
    | error e =>
      obtain ⟨name, hname⟩ := text_func_of_legible hlegible id
      cases ((handle_of_error hrun).trans (bind_of_ok hname)).symm.trans h
    | fault g =>
      obtain ⟨e, -, hcall⟩ := callNative_of_fault (text_func_of_legible hlegible id) hrun
      cases hcall.symm.trans h
    | _ =>
      cases (handle_of_control hrun trivial).symm.trans h

/-- A call ends with a fault only where there is one without a message. -/
theorem settleCall_fault (hlegible : (m.final s).Legible)
    (h : settleCall id traced m s = .error (.fault fl) t) :
    fl = .assertion ∧ ∃ g : Fault, m s = .error (.fault g) t := by
  cases hm : m s with
  | ok r u => cases (handle_of_ok hm).symm.trans h
  | error e u =>
    rw [final_of_error hm] at hlegible
    cases e with
    | error e =>
      obtain ⟨e', -, hcall⟩ := settleCall_of_error traced (text_func_of_legible hlegible id) hm
      cases hcall.symm.trans h
    | fault g =>
      obtain ⟨name, hname⟩ := text_func_of_legible hlegible id
      have hend := (handle_of_fault hm).symm.trans h
      by_cases hmessage : g.message = ""
      · rw [if_pos hmessage] at hend
        cases hend
        exact ⟨rfl, g, rfl⟩
      · rw [if_neg hmessage] at hend
        have hthrow := (bind_of_ok hname).symm.trans hend
        cases traced with
        | true =>
          simp only [if_true, bind_assoc, pure_bind] at hthrow
          cases (bind_of_ok hname).symm.trans hthrow
        | false => cases hthrow
    | _ =>
      cases (handle_of_control hm trivial).symm.trans h

theorem call_fault (hs : s.Legible) (hid : s.function? id = some f)
    (h : (withFuel n).call (.func id) args scope traced s = .error (.fault fl) t) :
    fl = .assertion ∧ ∃ body, f.code = .block body := by
  cases n with
  | zero => cases h
  | succ n =>
    have hk := Evaluator.confined_withFuel False n
    obtain ⟨hfault, g, hrun⟩ := settleCall_fault (legible_runCallee hk hs id f args scope)
      ((callFunction_of_function hid _ _ _ _).symm.trans h)
    refine ⟨hfault, ?_⟩
    cases hcode : f.code with
    | block body => exact ⟨body, rfl⟩
    | _ =>
      rw [runCallee, hcode] at hrun
      exact absurd hrun (callNative_ne_fault hk hs g)

end Eval

/-! ## Protected calls -/

/-- How a protected call ends, by how the call of the function ends. It gives the results after
`true`, or the message of an error after `false`. If the results cannot be spread it ends with an
error itself, and so it does at a fault. All other signals pass. -/
inductive Contained :
    EStateM.Result Signal Store Results → EStateM.Result Signal Store Results → Prop
  | results {r : Results} {items : List Results} {t : Store} : t.itemsOf? r = some items →
      Contained (.ok r t) (.ok (.many (.one (.bool true) :: items)) t)
  | bare {v : Value} {e : LuaError} {t : Store} : ¬Results.Spreads (.one v) →
      e.message = .text (Fault.notSpreadable v.kind).message →
      Contained (.ok (.one v) t) (.error (.error e) t)
  | error {e : LuaError} {t : Store} :
      Contained (.error (.error e) t) (.ok (.ofList [.bool false, e.message]) t)
  | fault {fl : Fault} {e : LuaError} {t : Store} : e.message = .text fl.message →
      Contained (.error (.fault fl) t) (.error (.error e) t)
  | control {e : Signal} {t : Store} : e.IsControl → Contained (.error e t) (.error e t)

namespace BasicLibrary

variable {k : Evaluator} {scope : Nat} {f : Value} {args : List Value} {s t : Store}
  {onError : Value → Run Results}

variable {r : Results} {ok : Bool}

theorem protectedCall_of_ok (hf : k.call f (args.map .one) (some scope) true s = .ok r t) :
    protectedCall k scope f args onError s = withStatus true r t := by
  refine (bind_of_ok (a := .ok r) (t := t) ?_).trans rfl
  exact tryCatch_of_ok (bind_of_ok hf)

theorem protectedCall_of_signal {e : Signal}
    (hf : k.call f (args.map .one) (some scope) true s = .error e t) (he : ∀ x, e ≠ .error x) :
    protectedCall k scope f args onError s = .error e t := by
  refine bind_of_error ?_
  rw [tryCatch_of_error (bind_of_error hf)]
  cases e with
  | error x => exact absurd rfl (he x)
  | _ => rfl

theorem withStatus_of_items {items : List Results} (h : t.itemsOf? r = some items) :
    withStatus ok r t = .ok (.many (.one (.bool ok) :: items)) t := by
  refine bind_of_ok (t := t) ?_
  rw [itemsOr, get_bind_apply, h]
  rfl

theorem withStatus_of_bare {v : Value} (h : t.itemsOf? (.one v) = none) :
    withStatus ok (.one v) t = .error (.fault (.notSpreadable v.kind)) t := by
  refine bind_of_error ?_
  rw [itemsOr, get_bind_apply, h]
  rfl

end BasicLibrary

namespace Eval

variable {k : Evaluator} {id : Nat} {b : Builtin} {args : List Results} {scope : Option Nat}
  {traced : Bool} {s t : Store}

theorem call_builtin_of_fault (hb : s.function? id = some (.ofBuiltin b)) (traced : Bool)
    (hname : ∃ name, text (.func id) t = .ok name t) {fl : Fault}
    (hrun : runNative k (.ofBuiltin b) (flatten args) scope s = .error (.fault fl) t) :
    ∃ e : LuaError, e.message = .text fl.message ∧
      call k (.func id) args scope traced s = .error (.error e) t := by
  obtain ⟨e, he, hnative⟩ := callNative_of_fault hname hrun
  obtain ⟨e', he', hsettle⟩ := settleCall_of_error traced hname hnative
  exact ⟨e', he'.trans he, (callFunction_of_function hb _ _ _ _).trans hsettle⟩

theorem call_builtin_of_failure (hb : s.function? id = some (.ofBuiltin b))
    (hrun : Raises Signal.IsFailure (runNative k (.ofBuiltin b) (flatten args) scope) s s)
    (traced : Bool) :
    ∃ e : LuaError, call k (.func id) args scope traced s = .error (.error e) s := by
  obtain ⟨e, hfailure, hrun⟩ := hrun
  have hname := text_func_of_builtin hb
  cases e with
  | error e =>
    obtain ⟨e', -, hcall⟩ := call_builtin_of_error hb hrun hname
    exact ⟨e', hcall⟩
  | fault fl =>
    obtain ⟨e', -, hcall⟩ := call_builtin_of_fault hb traced hname hrun
    exact ⟨e', hcall⟩
  | _ => exact hfailure.elim

theorem call_builtin_of_control (hb : s.function? id = some (.ofBuiltin b)) {e : Signal}
    (hrun : runNative k (.ofBuiltin b) (flatten args) scope s = .error e t)
    (he : e.IsControl) :
    call k (.func id) args scope traced s = .error e t :=
  (callFunction_of_function hb _ _ _ _).trans
    (handle_of_control (handle_of_control hrun he) he)

theorem contained_pcall {n sc : Nat} {f : Value} {values : List Value} (hs : s.Legible)
    (hpcall : s.function? id = some (.ofBuiltin .pcall))
    (hargs : flatten args = f :: values)
    (hscope : scopeFor (.ofBuiltin .pcall) scope s = .ok sc t) :
    Contained ((withFuel n).call f (values.map .one) (some sc) true t)
      ((withFuel (n + 1)).call (.func id) args scope traced s) := by
  have hlegible := ((Evaluator.confined_withFuel False n).call 0 (fun _ _ => True) f
    (values.map .one) (some sc) true False.elim t False.elim).legible
    (legible_of_scopeFor hscope hs)
  have hrun : runNative (withFuel n) (.ofBuiltin .pcall) (flatten args) scope s =
      BasicLibrary.protectedCall (withFuel n) sc f values
        (fun message => pure (.ofList [.bool false, message])) t := by
    rw [hargs, runNative_of_scopeFor (.inl rfl) (Nat.le_add_left 1 _) hscope]
    rfl
  show Contained _ (call (withFuel n) (.func id) args scope traced s)
  cases hcall : (withFuel n).call f (values.map .one) (some sc) true t with
  | ok r u =>
    rw [final_of_ok hcall] at hlegible
    rw [protectedCall_of_ok hcall] at hrun
    cases hitems : u.itemsOf? r with
    | some items =>
      rw [withStatus_of_items hitems] at hrun
      rw [call_builtin_of_ok hpcall hrun]
      exact .results hitems
    | none =>
      cases r with
      | many items => cases hitems
      | one v =>
        -- The results are spread after the protected part, so a bare value is a fault of `pcall`.
        rw [withStatus_of_bare hitems] at hrun
        obtain ⟨e, he, hend⟩ := call_builtin_of_fault hpcall traced
          (text_func_of_legible hlegible id) hrun
        rw [hend]
        refine .bare (fun hspreads => ?_) he
        rw [← Store.itemsOf?_isSome_iff (s := u), hitems] at hspreads
        cases hspreads
  | error e u =>
    rw [final_of_error hcall] at hlegible
    cases e with
    | error e =>
      rw [protectedCall_of_error hcall] at hrun
      rw [call_builtin_of_ok hpcall hrun]
      exact .error
    | fault fl =>
      rw [protectedCall_of_signal hcall (by simp)] at hrun
      obtain ⟨e, he, hend⟩ := call_builtin_of_fault hpcall traced
        (text_func_of_legible hlegible id) hrun
      rw [hend]
      exact .fault he
    | _ =>
      rw [protectedCall_of_signal hcall (by simp)] at hrun
      rw [call_builtin_of_control hpcall hrun trivial]
      exact .control trivial

end Eval

/-- A protected call contains errors, and nothing else. Let `pcall` be called with a function and
arguments, on a store whose functions can be written as text, such as all that are reachable. How it
ends follows from how the call of the function ends (`Contained`). Functions of the language always
give results that can be spread, and so do all functions of the library but `load` and `loadfile`,
which give a bare function, and `tostring` and `pairs`, which may give what such a one gives as a
metamethod. Only functions of the language end with a fault, which is then one without a message. -/
theorem pcall_contains_errors_only {n id sc : Nat} {args : List Results} {scope : Option Nat}
    {traced : Bool} {f : Value} {values : List Value} {s t : Store} (hs : s.Legible)
    (hpcall : s.function? id = some (.ofBuiltin .pcall))
    (hargs : Results.flatten args = f :: values)
    (hscope : Eval.scopeFor (.ofBuiltin .pcall) scope s = .ok sc t) :
    Contained ((withFuel n).call f (values.map .one) (some sc) true t)
      ((withFuel (n + 1)).call (.func id) args scope traced s) ∧
    ∀ i g, f = .func i → t.function? i = some g →
      (g.Spreads → ∀ r u, (withFuel n).call f (values.map .one) (some sc) true t = .ok r u →
        r.Spreads) ∧
      ∀ fl u, (withFuel n).call f (values.map .one) (some sc) true t = .error (.fault fl) u →
        fl = .assertion ∧ ∃ body, g.code = .block body := by
  refine ⟨contained_pcall hs hpcall hargs hscope, ?_⟩
  rintro i g rfl hi
  exact ⟨fun hg r u h => spreads_call hi hg h,
    fun fl u h => call_fault (legible_of_scopeFor hscope hs) hi h⟩

/-- `pcall(load, ";")` ends with an error, though `load` gives a function. -/
theorem pcall_of_load_raises :
    raiserStore.Legible ∧ ∃ e u, (withFuel 2).call (.func Builtin.pcall.number)
      [.one (.func Builtin.load.number), .one (.ascii ";")] (some 0) false raiserStore =
        .error (.error e) u ∧
      e.message = .text "Value after * must be an iterable, not LuaFunction" := by
  obtain ⟨chunk, -, -, hread, -⟩ := readChunk_empty_statement
  have hload : (withFuel 1).call (.func load.number) [.one (.ascii ";")] (some 0) true
      raiserStore = .ok (.one (.func raiserStore.functions.size))
        (raiserStore.withChunk 0 "chunk" chunk) := by
    have hload : raiserStore.function? load.number = some (.ofBuiltin .load) := rfl
    refine call_builtin_of_ok hload ((runNative_of_check rfl rfl rfl).trans ?_)
    exact (congrFun (runBuiltin_load _ 0 _) raiserStore).trans (compile_of_read rfl rfl hread 0)
  have hargs : flatten [.one (.func load.number), .one (.ascii ";")] =
      .func load.number :: [.ascii ";"] := rfl
  have hscope : Eval.scopeFor (.ofBuiltin .pcall) (some 0) raiserStore = .ok 0 raiserStore := rfl
  have hpcall : raiserStore.function? pcall.number = some (.ofBuiltin .pcall) := rfl
  refine ⟨raiserStore_legible, ?_⟩
  generalize hcall : (withFuel 2).call _ _ _ _ _ = outcome
  have hcontained : Contained _ outcome :=
    hcall ▸ (pcall_contains_errors_only raiserStore_legible hpcall hargs hscope).1
  rw [List.map_singleton, hload] at hcontained
  cases hcontained with
  | results hitems => cases hitems
  | bare _ he => exact ⟨_, _, rfl, he⟩

end LuaInterpreter
