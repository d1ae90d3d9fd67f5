import LuaInterpreter.Proofs.Congruence.Evaluation
import LuaInterpreter.Proofs.Likeness.Operation

/-!
# Evaluation in two runs

The rules for expressions and statements, applied to the same construct in the same scope of both
runs. They end alike if the evaluators of the two runs do so for the parts of the construct.
-/

namespace LuaInterpreter

/-- Two evaluators that end alike for the parts of a construct: in the same scope, and for numerals
also each in the caller's scope of its run. -/
structure Evaluator.Alike (l : Leeway) (k k' : Evaluator) : Prop where
  fuel : k'.fuel = k.fuel
  expr : ∀ lax p q scope e, Run.Alike l lax p q (k.expr scope e) (k'.expr scope e)
  numeral : ∀ lax p q e, e.IsNumeral → Run.Alike l lax p q (k.expr p e) (k'.expr q e)
  stat : ∀ lax p q scope st, Run.Alike l lax p q (k.stat scope st) (k'.stat scope st)
  call : Caller.Alike l k.call k'.call

/-- Traces are kept only where faults excuse the first run. -/
def Scoping.alike (l : Leeway) (p q : Nat) : Scoping where
  Situation := Bool
  rel lax := .alike l lax p q
  Inside _ _ := True
  MayDeclare _ _ _ := True
  Traces lax := lax = true
  stricter _ := false
  inside_stricter := id
  rel_consuming hm := by
    refine Run.Alike.weaken (Run.Alike.handle hm (fun _ _ => .throw (.error _ _)) fun f => ?_)
    split
    · exact .fault _
    · exact .fault _
  rel_catch {lax α m m' h} hm hh := by
    have hthrow {e : Signal} (he : ¬e.IsJump) : h e = throw e :=
      (hh e).resolve_right fun hcaught => he hcaught.1
    refine Run.Alike.tryCatch hm (fun e e' he => ?_) (fun _ => hthrow id) fun _ _ => hthrow id
    cases he with
    | «break» | goto | «return» =>
      rcases hh _ with hpassed | hcaught
      · exact hpassed ▸ .throw (by constructor)
      · exact hcaught.2
    | error =>
      rw [hthrow id, hthrow id]
      exact .throw (by constructor)
    | _ =>
      rw [hthrow id]
      exact .throw (by constructor)
  rel_traced htraces hm := by
    cases htraces
    exact Run.Alike.traced (fun _ _ => rfl) hm
  rel_pushScope {lax α f f' scope} _ hf := (Run.alike_pushScope scope).bind fun inner =>
    hf inner lax (fun _ _ => trivial) trivial (fun _ => trivial) id
  rel_declare v _ := Run.alike_declare _ _ v
  rel_assign scope x v := Run.alike_assign scope x v
  rel_newFunction _ hf :=
    Run.alike_newFunction (fun _ _ => .refl _) fun _ => Function.hidesScope_of_block hf.code

theorem Evaluator.Alike.evaluates {l : Leeway} {k k' : Evaluator} (hk : k.Alike l k') (p q : Nat) :
    (Scoping.alike l p q).Evaluates k k' where
  fuel := hk.fuel
  expr _ e := hk.expr _ p q _ e
  stat _ st _ := hk.stat _ p q _ st
  apart lax := hk.call.calls lax p q
  within _ f args traced := hk.call.same _ p q f args _ traced
  callFrom _ _ _ f args := Run.Alike.weaken ((hk.call.same _ p q f args _ false).handle
    (fun _ _ => (Run.Alike.text f).bind fun _ => .throw (.error _ _)) fun _ => .fault _)

namespace Eval

open Run

variable {l : Leeway} {lax : Bool} {p q : Nat} {k k' : Evaluator}

variable {e : Expr}

variable (hk : k.Alike l k')
include hk

theorem alike_single_numeral (he : e.IsNumeral) :
    Run.Alike l lax p q (single k p e) (single k' q e) := by
  have hvalue := (hk.numeral lax p q e he).bind fun r => Run.Alike.pure r.single
  cases he with
  | plain | negated => exact hvalue

theorem alike_runBlock (scope : Nat) (b : Block) :
    Run.Alike l lax p q (runBlock k scope b) (runBlock k' scope b) :=
  congr_runBlock (F := .alike l p q) (i := lax) (hk.evaluates p q) trivial b fun _ _ => trivial

theorem alike_blockValue (scope : Nat) (b : Block) :
    Run.Alike l lax p q (blockValue k scope b) (blockValue k' scope b) :=
  congr_blockValue (F := .alike l p q) (i := lax) (hk.evaluates p q) trivial b fun _ _ => trivial

theorem alike_expression (scope : Nat) (e : Expr) :
    Run.Alike l true p q (expression k scope e) (expression k' scope e) :=
  congr_expression (F := .alike l p q) (i := true) (hk.evaluates p q) trivial rfl e

theorem alike_expression_numeral (he : e.IsNumeral) :
    Run.Alike l true p q (expression k p e) (expression k' q e) := by
  cases he with
  | plain =>
    exact .traced (fun _ hab => hab.session) ((Run.Alike.ofExcept _).bind fun _ => .pure _)
  | negated place e he =>
    exact .traced (fun _ hab => hab.session) ((alike_single_numeral hk he).bind fun v =>
      Run.Alike.bind (Operator.congr_unary (hk.call.calls _ p q) .negate v) fun _ => .pure _)

theorem alike_statement (scope : Nat) (st : Stat) :
    Run.Alike l true p q (statement k scope st) (statement k' scope st) :=
  congr_statement (F := .alike l p q) (i := true) (hk.evaluates p q) trivial rfl st fun _ _ => trivial

end Eval

/-! ## Chunks -/

namespace Chunk

open Run

variable {l : Leeway} {p q : Nat} {k k' : Evaluator}

variable {α : Type}

theorem alike_accept (r : Except SyntaxError α) : Run.Alike l false p q (accept r) (accept r) := by
  unfold accept
  split
  · exact .pure _
  · exact .throw (.error _ _)
  · exact .fault _

theorem alike_execute (hk : k.Alike l k') (scope : Nat) (text name : String) :
    Run.Alike l false p q (execute k scope text name) (execute k' scope text name) :=
  (alike_accept _).bind fun _ => (Eval.alike_blockValue hk scope _).handle
    (fun _ _ => .throw (.error _ _)) fun _ => .throw (.error _ _)

end Chunk

end LuaInterpreter
