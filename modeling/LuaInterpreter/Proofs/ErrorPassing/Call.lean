import LuaInterpreter.Proofs.Congruence.Evaluation
import LuaInterpreter.Proofs.Congruence.Library
import LuaInterpreter.Proofs.ErrorPassing

/-!
# Errors get through evaluation and calls

Nothing that an expression or a statement consists of stops an error or changes its message: loops
stop `break`, blocks stop `return` and `goto`, and traces only grow. Nor does a call of a function,
unless the function is `pcall` or `xpcall`. Functions of the library call functions that they are
given, metamethods and, to read numerals, the evaluator. Apart from the two, none of them stops an
error, and nor does a conversion between the language and the host.
-/

namespace LuaInterpreter

open Run

def Scoping.mirrors (c : Cut) : Scoping where
  Situation := Unit
  rel _ := .mirrors c 0
  Inside _ _ := True
  MayDeclare _ _ _ := True
  Traces _ := True
  stricter := id
  inside_stricter := id
  rel_consuming hm := Run.Mirrors.raise hm
  rel_catch {_ α m m' h} hm hh := by
    have hthrow {e : Signal} (he : ¬e.IsJump) : h e = throw e :=
      (hh e).resolve_right fun hcaught => he hcaught.1
    exact Run.Mirrors.tryCatch hm (fun e => ⟨.error e, rfl, by rw [hthrow id]; rfl⟩)
      fun _ => hthrow id
  rel_traced _ hm := Run.Mirrors.traced hm
  rel_pushScope _ hf := Run.Mirrors.after fun inner =>
    hf inner () (fun _ _ => trivial) trivial (fun _ => trivial) id
  rel_declare _ _ := Run.Mirrors.refl _
  rel_assign _ _ _ := Run.Mirrors.refl _
  rel_newFunction _ _ := Run.Mirrors.refl _

variable {c : Cut} {k k' : Evaluator}

/-- The text of what was called is entered in the trace, and a function has one. -/
theorem Eval.mirrors_callFrom (hk : k.Mirrors c k') (scope : Nat) (place : Place) (what : String)
    (f : Value) (args : List Results) :
    Run.Mirrors c (callFrom k scope place what f args) (callFrom k' scope place what f args) := by
  by_cases hf : ∃ id, f = .func id
  · obtain ⟨id, rfl⟩ := hf
    exact (hk.call (.func id) args _ _).handle fun e =>
      Mirrors.raises_text id e fun name => place.entry (what ++ name)
  · rw [callFrom, callFrom, hk.callable f fun id hid => hf ⟨id, hid⟩]
    exact .refl _

theorem Evaluator.Mirrors.evaluates (hk : k.Mirrors c k') : (Scoping.mirrors c).Evaluates k k' where
  fuel := hk.fuel.symm
  expr _ e := hk.expr _ e
  stat _ st _ := hk.stat _ st
  apart _ := hk.call.calls 0
  within _ f args traced := hk.call f args _ traced
  callFrom _ place what f args := Eval.mirrors_callFrom hk _ place what f args

def Function.Catches (f : Function) : Prop := f.code = .builtin .pcall ∨ f.code = .builtin .xpcall

theorem Evaluator.Mirrors.evaluators (hk : k.Mirrors c k') (scope : Nat) :
    (Congruence.mirrors c scope).Evaluators k k' where
  fuel := hk.fuel.symm
  raise hm _ := .raise hm
  apart := hk.call.calls scope
  within f args traced := hk.call f args (some scope) traced
  numeral _ := Eval.congr_single (F := .mirrors c) (i := ()) hk.evaluates trivial _
  chunk _ _ := .refl _
  detached e := .after fun _ => .after fun own => hk.expr own e
  iterator _ _ _ _ := .refl _
  adopt _ _ _ := .refl _
  relay _ _ := .refl _
  converter f _ := .after fun _ => hk.call f _ _ _

namespace Eval

variable (hk : k.Mirrors c k')
include hk

theorem mirrors_runFunction (f : Function) (body : Block) (args : List Results) :
    Run.Mirrors c (runFunction k f body args) (runFunction k' f body args) := by
  unfold runFunction
  split
  · exact .refl _
  · exact .after fun _ => .after fun _ =>
      congr_blockValue (F := .mirrors c) (i := ()) hk.evaluates trivial body fun _ _ => trivial

theorem mirrors_callHost (id : Nat) (converting : Bool) (scope : Option Nat) (args : List Value) :
    Run.Mirrors c (Convert.callHost k id converting scope args)
      (Convert.callHost k' id converting scope args) := by
  refine Convert.congr_callHost (hk.evaluators 0) id converting rfl (fun _ a ha b hb => ?_) args
  cases Option.mem_unique ha hb
  exact .refl _

variable {f : Function}

theorem mirrors_runNative (hf : ¬f.Catches) (args : List Value) (scope : Option Nat) :
    Run.Mirrors c (runNative k f args scope) (runNative k' f args scope) := by
  unfold runNative
  split
  · next b hcode =>
    have hrun (sc : Nat) : Run.Mirrors c (runBuiltin k sc b args) (runBuiltin k' sc b args) :=
      congr_runBuiltin (hk.evaluators sc) (fun hb => absurd (hb.imp (· ▸ hcode) (· ▸ hcode)) hf) args
    exact .after fun _ => .ite (.after hrun) (hrun 0)
  · exact .after fun _ => (IoLibrary.congr_iterate (hk.evaluators _) _ _ _).bind fun _ => .refl _
  · exact .ite (.after fun sc => mirrors_callHost hk _ _ _ args) (mirrors_callHost hk _ _ _ args)
  · exact Convert.congr_callRelay (hk.evaluators 0) _ args
  · exact .refl _
  · exact .refl _

theorem mirrorsAt_call {id : Nat} {s : Store} (hf : ∀ f, s.function? id = some f → ¬f.Catches)
    (args : List Results) (scope : Option Nat) (traced : Bool) :
    Run.MirrorsAt c (call k (.func id) args scope traced) (call k' (.func id) args scope traced)
      s := by
  refine .get_bind ?_
  cases hfunction : s.function? id with
  | none => exact Mirrors.refl _ s
  | some f =>
    refine Mirrors.handle ?_ (fun e => ?_) s
    · split
      · exact mirrors_runFunction hk f _ args
      · exact (mirrors_runNative hk (hf f hfunction) _ scope).handle fun e =>
          Mirrors.raises_text id e nativeEntry
    · cases traced with
      | true =>
        obtain ⟨name, hname⟩ := text_func_of_legible c.legible id
        exact ⟨.error (e.push name), rfl, bind_of_ok (bind_of_ok hname)⟩
      | false => exact ⟨.error e, rfl, rfl⟩

end Eval

end LuaInterpreter
