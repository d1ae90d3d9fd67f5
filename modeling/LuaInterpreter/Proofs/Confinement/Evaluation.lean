import LuaInterpreter.Proofs.Confinement
import LuaInterpreter.Proofs.Congruence.Evaluation

/-!
# Evaluation is confined

The rules for expressions and statements add names to one scope only: a statement adds those that it
declares itself to the scope it runs in. Everything else they do in scopes of their own.
-/

namespace LuaInterpreter

/-- An evaluator that adds no names to scopes that exist, except those that a statement declares. -/
structure Evaluator.Confined (strict : Prop) (k : Evaluator) : Prop where
  expr : ∀ (n : Nat) (D : Declarable) (scope : Nat) (e : Expr), (strict → scope < n) →
    Run.Confined strict n D (k.expr scope e)
  stat : ∀ (n : Nat) (D : Declarable) (scope : Nat) (st : Stat), (strict → scope < n) →
    (∀ x, st.Declares x → D scope x) → Run.Confined strict n D (k.stat scope st)
  call : Confines strict k.call

theorem Function.IsClosure.scopes {scope : Nat} {body : Block} {f : Function}
    (h : f.IsClosure scope body) : f.scopes = [scope] := by
  rw [Function.scopes, h.code, h.scope]
  rfl

def Scoping.confined (strict : Prop) : Scoping where
  Situation := Nat × Declarable
  rel i := .confined strict i.1 i.2 0
  Inside i scope := strict → scope < i.1
  MayDeclare i := i.2
  Traces _ := True
  stricter := id
  inside_stricter := id
  rel_consuming hm := by
    refine Run.Confined.handle hm (fun _ => .throw _) fun f => ?_
    split
    · exact .fault _
    · exact .fault _
  rel_catch hm hh := by
    refine Run.Confined.tryCatch hm fun e => ?_
    rcases hh e with he | he
    · exact he ▸ .throw e
    · exact he.2
  rel_traced _ hm := Run.Confined.traced hm
  rel_pushScope hscope hf := Run.Confined.pushScope hscope fun inner hinner =>
    hf inner (inner + 1, Declarable.opened _ inner)
      (fun _ hsc hstrict => Nat.lt_succ_of_lt (Nat.lt_of_lt_of_le (hsc hstrict) (hinner hstrict)))
      (fun _ => Nat.lt_succ_self inner) (fun _ => .inl rfl) id
  rel_declare v hx := Run.confined_declare v hx
  rel_assign scope x v := Run.confined_assign scope x v
  rel_newFunction hscope hf := Run.confined_newFunction hf.legible fun hstrict id hid => by
    cases List.mem_singleton.mp (hf.scopes ▸ hid)
    exact hscope hstrict

theorem Evaluator.Confined.evaluates {strict : Prop} {k : Evaluator} (hk : k.Confined strict) :
    (Scoping.confined strict).Evaluates k k where
  fuel := rfl
  expr hscope e := hk.expr _ _ _ e hscope
  stat hscope st hdeclare := hk.stat _ _ _ st hscope hdeclare
  apart _ := hk.call.calls 0
  within hscope f args traced := hk.call.within hscope f args traced
  callFrom hscope _ _ f args := (hk.call.within hscope f args false).handle
    (fun _ => (Run.Confined.text f).bind fun _ => .throw _) fun _ => .fault _

namespace Eval

open Run

variable {strict : Prop} {n : Nat} {D : Declarable} {k : Evaluator} {scope inner : Nat}

theorem inside (D : Declarable) (hscope : strict → scope < n) :
    (Scoping.confined strict).Inside (n, D) scope :=
  hscope

/-! ## Expressions and statements -/

section

variable (hk : k.Confined strict) (hscope : strict → scope < n)

include hk hscope

variable (e : Expr) (b : Block)

theorem confined_each (es : List Expr) : Confined strict n D (each k scope es) :=
  congr_each hk.evaluates (inside D hscope) es

theorem confined_expression : Confined strict n D (expression k scope e) :=
  congr_expression hk.evaluates (inside D hscope) trivial e

theorem confined_runBlock (hD : ∀ x, b.Declares x → D scope x) :
    Confined strict n D (runBlock k scope b) :=
  congr_runBlock hk.evaluates (inside D hscope) b hD

theorem confined_blockValue (hD : ∀ x, b.Declares x → D scope x) :
    Confined strict n D (blockValue k scope b) :=
  congr_blockValue hk.evaluates (inside D hscope) b hD

theorem confined_innerBlock : Confined strict n D (innerBlock k scope b) :=
  congr_innerBlock hk.evaluates (inside D hscope) trivial b

theorem confined_assignAll (targets : List Expr) (values : List Value) :
    Confined strict n D (assignAll k scope targets values) :=
  congr_assignAll hk.evaluates (inside D hscope) targets values

theorem confined_guardedRound (hD : ∀ x, D scope x) {goesOn : Run Bool}
    (hgoesOn : Confined strict n D goesOn) (body : Block) :
    Confined strict n D (guardedRound k scope goesOn body) :=
  congr_guardedRound hk.evaluates (inside D hscope) hD
    (show (Congruence.confined strict n D 0).Holds goesOn goesOn from hgoesOn) body

theorem confined_holds (cond : Expr) : Confined strict n D (holds k scope cond) :=
  congr_holds hk.evaluates (inside D hscope) cond

theorem confined_forInHead (names : List Name) (exprs : List Expr)
    (hD : ∀ name ∈ names, ∀ x, Bytes.encodeAscii? name.text = .ok x → D inner x) :
    Confined strict n D (forInHead k scope inner names exprs) :=
  congr_forInHead hk.evaluates (inside D hscope) names exprs hD

theorem confined_advance (it : Iteration) (hD : ∀ x ∈ it.names, D inner x) :
    Confined strict n D (advance k scope inner it) :=
  congr_advance hk.evaluates (inside D hscope) it hD

theorem confined_statement (st : Stat) (hD : ∀ x, st.Declares x → D scope x) :
    Confined strict n D (statement k scope st) :=
  congr_statement hk.evaluates (inside D hscope) trivial st hD

end

end Eval

/-! ## Chunks -/

namespace Chunk

open Run

variable {strict : Prop} {n : Nat} {D : Declarable} {k : Evaluator} {scope : Nat}

variable {α : Type}

theorem confined_protect {m : Run α} (hm : Run.Confined strict n D m) :
    Run.Confined strict n D (protect m) :=
  hm.handle (fun _ => .throw _) fun _ => .throw _

theorem confined_accept (r : Except SyntaxError α) : Run.Confined strict n D (accept r) := by
  unfold accept
  split
  · exact .pure _
  · exact .throw _
  · exact .fault _

section

variable (hk : k.Confined strict) (hscope : strict → scope < n)

include hk hscope

theorem confined_execute
    (hD : ∀ x, D scope x) (text name : String) :
    Run.Confined strict n D (execute k scope text name) :=
  (confined_accept _).bind fun _ =>
    confined_protect (Eval.confined_blockValue hk hscope _ fun x _ => hD x)

theorem confined_evaluate (text : String) :
    Run.Confined strict n D (evaluate k scope text) := by
  refine (confined_accept _).bind fun e => ?_
  refine (confined_protect (hk.expr n D scope _ hscope)).bind fun r => ?_
  split
  · exact .pure _
  · exact .pure _
  · exact .pure _

theorem confined_executeFile
    (hD : ∀ x, D scope x) (path : String) :
    Run.Confined strict n D (executeFile k scope path) := by
  refine (confined_world _).bind fun bs => ?_
  split
  · exact .fault _
  · exact Confined.handle ((Confined.ofExcept _).bind fun text =>
      confined_execute hk hscope hD text _) (fun _ => .throw _) fun _ => .throw _

end

end Chunk

end LuaInterpreter
