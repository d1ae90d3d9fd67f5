import LuaInterpreter.Proofs.Adjustment
import LuaInterpreter.Proofs.Run

/-!
# Calls of functions of the language

A call adds one scope to the store, in which the parameters are bound, and runs the block of the
function there. Nothing else happens before the block, and nothing but errors and faults is changed
after it.
-/

namespace LuaInterpreter.Eval

open Run Results

/-! ## The scope of a call -/

/-- The scope that a call of a function makes, inside the one that the function was defined in. -/
def frame (s : Store) (f : Function) (parent : Nat) (args : List Results) : Scope :=
  { session := (s.scope parent).session
    parent := some parent
    locals := (bind f args).locals
    varargs := (bind f args).varargs }

/-- The store on which the block of a called function starts. -/
def entry (s : Store) (f : Function) (parent : Nat) (args : List Results) : Store :=
  { s with scopes := s.scopes.push (frame s f parent args) }

section

variable {k : Evaluator} {s : Store} {id parent : Nat} {f : Function} {body : Block}
  {args : List Results} {caller : Option Nat} {isTraced : Bool}

@[simp] theorem scope_entry :
    (entry s f parent args).scope s.scopes.size = frame s f parent args := by
  simp [Store.scope, entry]

theorem runFunction_eq (hscope : f.scope = some parent) :
    runFunction k f body args s = blockValue k s.scopes.size body (entry s f parent args) := by
  simp only [runFunction, hscope]
  rfl

/-! ## Results of calls -/

variable {r : Results} {t : Store}

/-- A block as the body of a function gives what it ends with, or what it returns. -/
theorem blockValue_eq_ok_iff {scope : Nat} :
    blockValue k scope body s = .ok r t ↔
      runBlock k scope body s = .ok r t ∨ runBlock k scope body s = .error (.return r) t := by
  cases hrun : runBlock k scope body s with
  | ok a u =>
    rw [blockValue, tryCatch_of_ok hrun]
    simp
  | error e u =>
    rw [blockValue, tryCatch_of_error hrun]
    cases e <;> simp

/-- What a function does when it is called, before its faults are dealt with. -/
def runCallee (k : Evaluator) (id : Nat) (f : Function) (args : List Results) (sc : Option Nat) :
    Run Results :=
  match f.code with
  | .block body => runFunction k f body args
  | _ => callNative k id f args sc

/-- Ends a call: errors may have it entered in their trace, and a fault becomes an error that names
the function, or is replaced if it has no message. -/
def settleCall (id : Nat) (traced : Bool) (run : Run Results) : Run Results :=
  let enter (e : LuaError) : Run LuaError := do
    if traced then return e.push (← text (.func id)) else return e
  run.handle
    (fun e => do throw (.error (← enter e)))
    (fun f => do
      if f.message = "" then fault .assertion
      let name ← text (.func id)
      throw (.error (← enter { message := .text (name ++ ": " ++ f.message), cause := some f })))

theorem callFunction_of_function {s : Store} {id : Nat} (hf : s.function? id = some f)
    (k : Evaluator) (args : List Results) (sc : Option Nat) (traced : Bool) :
    callFunction k id args sc traced s = settleCall id traced (runCallee k id f args sc) s := by
  simp only [callFunction, get_bind_apply, hf]
  rfl

theorem settleCall_eq_ok_iff {m : Run Results} :
    settleCall id isTraced m s = .ok r t ↔ m s = .ok r t := by
  refine handle_eq_ok_iff (fun e v b w h => ?_) fun fl v b w h => ?_
  · obtain ⟨_, _, _, h⟩ := bind_eq_ok_iff.mp h
    cases h
  · split at h
    · cases h
    · obtain ⟨_, _, _, h⟩ := bind_eq_ok_iff.mp h
      obtain ⟨_, _, _, h⟩ := bind_eq_ok_iff.mp h
      cases h

theorem settleCall_of_error (traced : Bool) {m : Run Results} {e : LuaError}
    (hname : ∃ name, text (.func id) t = .ok name t) (hm : m s = .error (.error e) t) :
    ∃ e' : LuaError, e'.message = e.message ∧ settleCall id traced m s = .error (.error e') t := by
  obtain ⟨name, hname⟩ := hname
  cases traced with
  | true => exact ⟨e.push name, rfl, (handle_of_error hm).trans (bind_of_ok (bind_of_ok hname))⟩
  | false => exact ⟨e, rfl, handle_of_error hm⟩

theorem call_eq_ok_iff (hf : s.function? id = some f) (hcode : f.code = .block body)
    (hscope : f.scope = some parent) :
    call k (.func id) args caller isTraced s = .ok r t ↔
      blockValue k s.scopes.size body (entry s f parent args) = .ok r t := by
  rw [call, callFunction_of_function hf, settleCall_eq_ok_iff, runCallee, hcode]
  dsimp only
  rw [runFunction_eq hscope]

/-! ## Names at the start of the block -/

theorem getName_entry (hnd : f.params.Nodup) {i : Nat} {n : Bytes} (hn : f.params[i]? = some n) :
    (entry s f parent args).getName s.scopes.size n = (Results.flatten args).getD i .nil := by
  have hfind : (frame s f parent args).find? n =
      some { value := (Results.flatten args).getD i .nil } := lookup_bind_locals args hnd hn
  have howner : (entry s f parent args).owner? s.scopes.size n = some s.scopes.size := by
    simp only [Store.owner?, Store.ownerFrom, scope_entry, hfind]
  simp only [Store.getName, howner, Store.localValue, scope_entry, hfind]

theorem varargs_entry (hvariadic : f.variadic = true) :
    varargs s.scopes.size (entry s f parent args) =
      .ok (.ofList ((Results.flatten args).drop f.params.length)) (entry s f parent args) := by
  have hframe : (frame s f parent args).varargs =
      some ((Results.flatten args).drop f.params.length) := by
    simp only [frame, bind_varargs, hvariadic, if_true]
  simp only [varargs, get_bind_apply, scope_entry, hframe]
  rfl

end

/-! ## Adjustment and binding agree -/

/-- Adjustment, flattening and the binding of arguments agree on every expression list. Adjusting
to `n` values gives `n` of them: the flattened list, cut or filled up with `nil`. An inner list
counts for what it is itself adjusted to where one value is needed. Flattening a flattened list
changes nothing. A function with distinct parameters, called with a list, runs its block where the
parameter at each position stands for the value at that position of the flattened list, and, if it
is variadic, `...` for the values that are left. -/
theorem parameters_hold_flattened_arguments :
    (∀ (rs : List Results) (n : Nat), (Results.adjust rs n).length = n ∧
      Results.adjust rs n = (Results.flatten rs).take n ++
        List.replicate (n - (Results.flatten rs).length) .nil) ∧
    (∀ items : List Results, Results.adjust items 1 = [Results.single (.many items)]) ∧
    (∀ rs : List Results,
      Results.flatten ((Results.flatten rs).map .one) = Results.flatten rs) ∧
    ∀ (k : Evaluator) (s : Store) (id parent : Nat) (f : Function) (body : Block)
      (args : List Results) (caller : Option Nat) (isTraced : Bool),
      s.function? id = some f → f.code = .block body → f.scope = some parent → f.params.Nodup →
      (∀ r t, call k (.func id) args caller isTraced s = .ok r t ↔
        blockValue k s.scopes.size body (entry s f parent args) = .ok r t) ∧
      (∀ i n, f.params[i]? = some n →
        (entry s f parent args).getName s.scopes.size n = (Results.flatten args).getD i .nil) ∧
      (f.variadic = true → varargs s.scopes.size (entry s f parent args) =
        .ok (.ofList ((Results.flatten args).drop f.params.length)) (entry s f parent args)) := by
  refine ⟨fun rs n => ⟨length_adjust rs n, adjust_eq_take_flatten rs n⟩,
    adjust_one, fun rs => flatten_map_one _, ?_⟩
  intro k s id parent f body args caller isTraced hf hcode hscope hnd
  exact ⟨fun r t => call_eq_ok_iff hf hcode hscope, fun i n hn => getName_entry hnd hn,
    varargs_entry⟩

/-- A function `f(a, b, ...)` with an empty block. -/
def variadicSample : Function :=
  { params := [Bytes.ofAscii "a", Bytes.ofAscii "b"]
    variadic := true
    scope := some 0
    code := .block (.mk {} [] none) }

/-- A store with one scope, in which `variadicSample` was defined. -/
def variadicStore : Store :=
  { functions := #[variadicSample], scopes := #[{ session := 0, parent := none }] }

/-- A call `f((1, 2), (3, (4, 5), ()))`: the inner lists leave `1`, `3`, `4` and `nil`. -/
def nestedArguments : List Results :=
  [.many [.one (.int 1), .one (.int 2)],
    .many [.one (.int 3), .many [.one (.int 4), .one (.int 5)], .many []]]

theorem parameters_hold_nested_arguments :
    let start := entry variadicStore variadicSample 0 nestedArguments
    start.getName 1 (Bytes.ofAscii "a") = .int 1 ∧ start.getName 1 (Bytes.ofAscii "b") = .int 3 ∧
      varargs 1 start = .ok (.ofList [.int 4, .nil]) start := by
  obtain ⟨_, _, _, hcall⟩ := parameters_hold_flattened_arguments
  obtain ⟨_, hparam, hrest⟩ := hcall (Evaluator.withFuel 0) variadicStore 0 0 variadicSample
    (.mk {} [] none) nestedArguments none false rfl rfl rfl (by decide)
  exact ⟨hparam 0 _ rfl, hparam 1 _ rfl, hrest rfl⟩

end LuaInterpreter.Eval
