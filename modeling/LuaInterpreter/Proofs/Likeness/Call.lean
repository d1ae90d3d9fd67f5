import LuaInterpreter.Proofs.Call
import LuaInterpreter.Proofs.Congruence.Library
import LuaInterpreter.Proofs.Likeness.Evaluation

/-!
# Calls in two runs

A function of the language runs its block in a scope inside the one it was defined in, whoever calls
it. Functions of the library are called from the two scopes, and functions of the host are not told
about them. So calls from two scopes of one session end alike.
-/

namespace LuaInterpreter

open Run Convert

variable {α β : Type} {l : Leeway} {p q : Nat} {k k' : Evaluator}

/-! ## The library -/

variable {o : AdoptOptions}

theorem HostFunction.getsScope_toFunction {h : HostFunction} {id : Nat} {f : Function}
    (hf : h.toFunction id o = .ok f) : f.getsScope = o.getsScope := by
  unfold toFunction at hf
  simp only [bind, Except.bind, pure, Except.pure] at hf
  split at hf
  · cases hf
  · split at hf
    · cases hf
    · split at hf
      · cases hf
      · cases hf
        rfl

theorem Run.alike_adopt (id : Nat) (ho : o.getsScope = false) :
    Run.Alike l false p q (adopt id o) (adopt id o) := by
  refine .get_bind fun s s' hs _ => ?_
  rw [hs.hostFunctions]
  cases s.hostFunctions[id]? with
  | none => exact .fault _
  | some h =>
    refine (Run.Alike.ofExcept _).bind_of (P := fun f => h.toFunction id o = .ok f) ?_
      fun f hf => ?_
    · cases h.toFunction id o with
      | ok f => exact ensures_pure rfl
      | error f => exact ensures_throw _
    · exact alike_newFunction (fun _ _ => .refl f) fun _ _ _ =>
        (HostFunction.getsScope_toFunction hf).trans ho

theorem Convert.alike_callConverter (hk : k.Alike l k') (f v : Value) :
    Run.Alike l false p q (callConverter k f v) (callConverter k' f v) := by
  refine .get_bind fun s s' hs _ => ?_
  cases f with
  | func id =>
    dsimp only
    rw [hs.function?_bind id fun _ _ => rfl]
    exact hk.call.same _ _ _ _ _ _ _
  | _ => exact hk.call.same _ _ _ _ _ _ _

theorem Run.Alike.catches : (Congruence.alike l false p q).Catches := by
  refine fun hm => .tryCatch hm (fun e e' he => ?_) (fun _ => rfl) nofun
  cases he with
  | error e trace => exact .pure _
  | _ =>
    exact .throw (by constructor)

namespace BasicLibrary

theorem alike_chunkFunction (name source : String) :
    Run.Alike l false p q (chunkFunction p name source) (chunkFunction q name source) := by
  unfold chunkFunction
  split
  · exact .fault _
  · exact alike_newDetached fun own => alike_newFunction (fun _ _ => .refl _)
      fun _ => Function.hidesScope_of_block rfl

end BasicLibrary

/-- What the library asks of two evaluators. The function that iterates over a file keeps the scope it
was made for. -/
theorem Evaluator.Alike.evaluators (hk : k.Alike l k') (p q : Nat) :
    (Congruence.alike l false p q).Evaluators k k' where
  fuel := hk.fuel
  raise hm hFault := .handle hm (fun _ _ => .throw (.error _ _)) hFault
  apart := hk.call.calls false p q
  within := hk.call.kin false p q
  numeral he := Eval.alike_single_numeral hk he
  chunk := BasicLibrary.alike_chunkFunction
  detached e := alike_newDetached fun own => hk.expr false p q own e
  iterator _ _ _ _ :=
    alike_newFunction (fun _ hab => ⟨.reader hab, rfl⟩) fun _ _ hcode => nomatch hcode
  adopt id _ ho := alike_adopt id ho
  relay _ _ := alike_newFunction (fun _ _ => .refl _) fun _ _ hcode => nomatch hcode
  converter := alike_callConverter hk

/-! ## All functions -/

namespace Eval

variable (hk : k.Alike l k') {sc sc' : Option Nat}
include hk

theorem alike_runFunction (f : Function) (body : Block) (args : List Results) :
    Run.Alike l false p q (runFunction k f body args) (runFunction k' f body args) := by
  unfold runFunction
  split
  · exact .fault _
  · refine .get_bind fun s s' hs _ => ?_
    rw [hs.scope]
    exact (alike_newScope rfl).bind fun scope => alike_blockValue hk scope body

theorem alike_callHost (id : Nat) (converting : Bool) (sc : Option Nat)
    (args : List Value) : Run.Alike l false p q (Convert.callHost k id converting sc args)
      (Convert.callHost k' id converting sc args) := by
  refine congr_callHost (hk.evaluators p q) id converting rfl (fun _ a ha b hb => ?_) args
  cases Option.mem_unique ha hb
  exact Run.Alike.read (fun _ _ hs _ => hs.describeScope a) fun _ => .ofExcept _

omit hk in
theorem alike_scopeFor_same (f : Function) (sc : Option Nat) :
    Run.Alike l false p q (scopeFor f sc) (scopeFor f sc) := by
  unfold scopeFor
  split
  · exact .pure _
  · exact alike_newRoot

omit hk in
theorem alike_scopeFor (hsc : sc' = sc ∨ sc = some p ∧ sc' = some q) (f : Function)
    {g g' : Nat → Run β} (hg : ∀ a b, Run.Alike l false a b (g a) (g' b)) :
    Run.Alike l false p q (scopeFor f sc >>= g) (scopeFor f sc' >>= g') := by
  rcases hsc with rfl | ⟨rfl, rfl⟩
  · exact (alike_scopeFor_same f sc').bind fun scope => (hg scope scope).here
  · exact hg p q

variable {f f' : Function}

theorem alike_runNative (hsc : sc' = sc ∨ sc = some p ∧ sc' = some q)
    (hf : l.scopes = true → f.HidesScope) (args : List Value) :
    Run.Alike l false p q (runNative k f args sc) (runNative k' f args sc') := by
  unfold runNative
  split
  · refine (Run.Alike.ofExcept _).bind fun _ => .ite ?_ ?_
    · exact alike_scopeFor hsc f fun _ _ =>
        congr_runBuiltin (hk.evaluators _ _) (fun _ => .catches) args
    · exact .here (congr_runBuiltin (hk.evaluators _ _) (fun _ => .catches) args)
  · exact (Run.Alike.ofExcept _).bind fun _ =>
      (Run.Alike.here (IoLibrary.congr_iterate (hk.evaluators _ _) _ _ _)).bind fun _ => .pure _
  · next id converting hcode =>
    refine .of_kin fun hkin => ?_
    rcases hkin with rfl | hl
    -- Called from one scope, a function of the host may even describe it.
    · have hsame : sc' = sc := by
        rcases hsc with rfl | ⟨rfl, rfl⟩
        · rfl
        · rfl
      subst hsame
      refine .ite ?_ (alike_callHost hk id converting none args)
      exact (alike_scopeFor_same f sc').bind fun scope =>
        alike_callHost hk id converting (some scope) args
    · cases converting with
      | true =>
        rw [hf hl id hcode]
        exact alike_callHost hk id true none args
      | false =>
        -- A function that does not convert its arguments is only told whether there is a scope.
        have hplain (a b : Nat) {sc sc' : Option Nat} (hsc : sc'.isSome = sc.isSome) :
            Run.Alike l false a b (Convert.callHost k id false sc args)
              (Convert.callHost k' id false sc' args) :=
          congr_callHost (hk.evaluators a b) id false hsc nofun args
        exact .ite (alike_scopeFor hsc f fun a b => hplain a b rfl) (hplain p q rfl)
  · exact congr_callRelay (hk.evaluators p q) _ args
  · exact (Run.Alike.ofExcept _).bind fun _ => .pure _
  · exact .pure _

omit hk in
theorem alike_callNative {args : List Results}
    (hrun : Run.Alike l false p q (runNative k f (Results.flatten args) sc)
      (runNative k' f' (Results.flatten args) sc')) (id : Nat) :
    Run.Alike l false p q (callNative k id f args sc) (callNative k' id f' args sc') :=
  hrun.handle (fun _ _ => (Run.Alike.text _).bind fun _ => .throw (.error _ _))
    fun _ => (Run.Alike.text _).bind fun _ => .throw (.error _ _)

omit hk in
theorem alike_settleCall {run run' : Run Results} (hrun : Run.Alike l false p q run run') (id : Nat)
    (traced : Bool) :
    Run.Alike l false p q (settleCall id traced run) (settleCall id traced run') := by
  unfold settleCall
  extract_lets enter
  have henter (e : LuaError) (trace : List String) : Run.Alike l false p q
      (enter e >>= fun e => throw (.error e) : Run Results)
      (enter { e with trace } >>= fun e => throw (.error e)) := by
    cases traced with
    | true =>
      simp only [enter, if_true, bind_assoc, pure_bind]
      exact (Run.Alike.text _).bind fun _ => .throw (.error _ _)
    | false => exact .throw (.error _ _)
  refine hrun.handle henter fun f => ?_
  exact .check (.fault _) fun _ => (Run.Alike.text _).bind fun name => henter _ []

variable (hsc : sc' = sc ∨ sc = some p ∧ sc' = some q)
include hsc

theorem alike_callFunction (id : Nat) (args : List Results) (traced : Bool) :
    Run.Alike l false p q (callFunction k id args sc traced)
      (callFunction k' id args sc' traced) := by
  intro s s' hs hab
  cases hf : s.function? id with
  | none =>
    have hf' := hs.function?_eq_none hf
    simp only [callFunction, get_bind_apply, hf, hf']
    exact .error (.fault _) hs (.refl s)
  | some f =>
    obtain ⟨f', hf', halike⟩ := hs.function id f hf
    rw [callFunction_of_function hf, callFunction_of_function hf']
    rcases halike.eq_or_reader with rfl | ⟨maker, a, b, file, formats, closing, hkin, hcode, hcode'⟩
    · have hhidden (hl : l.scopes = true) : f'.HidesScope :=
        hs.hidden hl f' (Array.mem_of_getElem? hf)
      refine alike_settleCall ?_ id traced s s' hs hab
      unfold runCallee
      split
      · exact alike_runFunction hk f' _ args
      · exact alike_callNative (alike_runNative hk hsc hhidden _) id
    · -- The scopes that count here are those that the reader remembers.
      refine alike_settleCall ?_ id traced s s' hs hkin
      rw [runCallee, runCallee, hcode, hcode']
      refine alike_callNative ?_ id
      rw [runNative, runNative, hcode, hcode']
      exact (Run.Alike.ofExcept _).bind fun _ => .bind
        (IoLibrary.congr_iterate (hk.evaluators a b) file formats closing) fun _ => .pure _

theorem alike_call (f : Value) (args : List Results) (traced : Bool) :
    Run.Alike l false p q (call k f args sc traced) (call k' f args sc' traced) := by
  unfold call
  split
  · exact alike_callFunction hk hsc _ args traced
  · refine .bind (congr_metavalue? (R := .alike l false p q) f _) fun g => ?_
    split
    · exact (Run.Alike.ofExcept _).bind fun _ => .error _
    · exact alike_callFunction hk hsc _ _ traced
    · exact (Run.Alike.ofExcept _).bind fun _ => .error _

end Eval

/-! ## Evaluators -/

namespace Evaluator

/-- The evaluator that is ended with a code where a fault leaves an expression or a statement. -/
def halting (code : Int) : Nat → Evaluator
  | 0 => withFuel 0
  | n + 1 =>
    { fuel := n + 1
      expr := fun scope e => (Eval.expression (halting code n) scope e).halting code
      stat := fun scope st => (Eval.statement (halting code n) scope st).halting code
      call := fun f args scope traced => Eval.call (halting code n) f args scope traced }

theorem alike_zero (l : Leeway) : Evaluator.Alike l (withFuel 0) (withFuel 0) where
  fuel := rfl
  expr := fun _ _ _ _ _ => .throw .outOfFuel
  numeral := fun _ _ _ _ _ => .throw .outOfFuel
  stat := fun _ _ _ _ _ => .throw .outOfFuel
  call := ⟨fun _ _ _ _ _ _ _ => .throw .outOfFuel, fun _ _ _ _ _ _ => .throw .outOfFuel⟩

theorem alike_calls (hk : k.Alike l k') :
    Caller.Alike l (Eval.call k) (Eval.call k') where
  same := fun _ _ _ f args _ traced => .weaken (Eval.alike_call hk (.inl rfl) f args traced)
  kin := fun _ _ _ f args traced => .weaken (Eval.alike_call hk (.inr ⟨rfl, rfl⟩) f args traced)

/-- Where both runs are as verbose, an evaluator ends alike with itself. -/
theorem alike_withFuel (hl : l.code = none) (n : Nat) :
    Evaluator.Alike l (withFuel n) (withFuel n) := by
  induction n with
  | zero => exact alike_zero l
  | succ n ih =>
    exact {
      fuel := rfl
      expr := fun _ _ _ scope e => .weaken ((Eval.alike_expression ih scope e).strict hl)
      numeral := fun _ _ _ _ he => .weaken ((Eval.alike_expression_numeral ih he).strict hl)
      stat := fun _ _ _ scope st => .weaken ((Eval.alike_statement ih scope st).strict hl)
      call := alike_calls ih }

/-- Where the first run may be verbose, the second one is ended at the first fault. -/
theorem alike_halting {code : Int} (hl : l.code = some code) (n : Nat) :
    Evaluator.Alike l (withFuel n) (halting code n) := by
  induction n with
  | zero => exact alike_zero l
  | succ n ih =>
    exact {
      fuel := rfl
      expr := fun _ _ _ scope e => .weaken ((Eval.alike_expression ih scope e).halting hl)
      numeral := fun _ _ _ _ he => .weaken ((Eval.alike_expression_numeral ih he).halting hl)
      stat := fun _ _ _ scope st => .weaken ((Eval.alike_statement ih scope st).halting hl)
      call := alike_calls ih }

end Evaluator

end LuaInterpreter
