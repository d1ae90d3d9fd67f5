import LuaInterpreter.Proofs.Call
import LuaInterpreter.Proofs.Nesting

/-!
# What `return` gives to the caller

A `return` leaves all constructs around it and ends the call of the function. Its values are written
out completely: every expression of the list contributes all its values, not only the last one.
-/

namespace LuaInterpreter.Eval

open Run List Evaluator

/-! ## The statement -/

section

variable {k : Evaluator} {scope : Nat} {st : Stat} {s t : Store}

theorem statement_return {es : List Expr} {vs : List Results}
    (hform : st.form = .return (some es)) (heach : each k scope es s = .ok vs t) :
    statement k scope st s = .error (.return (.ofList (vs.flatMap (flattenAll t)))) t := by
  have hvalues : consuming (each k scope es) s = .ok vs t := handle_of_ok heach
  have hreturn : statForm k scope (.return (some es)) s =
      .error (.return (.ofList (vs.flatMap (flattenAll t)))) t := by
    rw [statForm, ← flattenAll]
    exact bind_of_ok hvalues
  unfold statement
  rw [hform]
  exact traced_of_control hreturn trivial

theorem statement_bareReturn (hform : st.form = .return none) :
    Raises Signal.IsFailure (statement k scope st) s s := by
  unfold statement
  rw [hform]
  exact traced_raises Signal.passing_isFailure.toLeaving ⟨.fault (.notIterable "NoneType"), trivial, rfl⟩

end

/-! ## The values -/

/-- The values written out are those of the expression list exactly if the expressions before the
last one come to the same written out as adjusted to one value each. -/
theorem flatMap_flattenAll_eq_flatten_iff {t : Store} {init : List Results} {last : Results}
    (hlast : flattenAll t last = Results.flatten [last]) :
    (init ++ [last]).flatMap (flattenAll t) = Results.flatten (init ++ [last]) ↔
      init.flatMap (flattenAll t) = init.map Results.single := by
  rw [flatMap_append, flatMap_singleton, Results.flatten_concat, hlast,
    append_cancel_right_eq]

/-! ## The call -/

section

variable {n : Nat} {s t : Store} {id parent : Nat} {f : Function} {body : Block}
  {args : List Results} {caller : Option Nat} {isTraced : Bool} {p : Point}

variable (hf : s.function? id = some f) (hcode : f.code = .block body)
  (hscope : f.scope = some parent) (hreach : Reaches n s.scopes.size body (entry s f parent args) p)
include hf hcode hscope hreach

theorem call_of_reaches_return {r : Results} (hp : p.run p.store = .error (.return r) t) :
    call (withFuel n) (.func id) args caller isTraced s = .ok r t := by
  rw [call_eq_ok_iff hf hcode hscope, blockValue_eq_ok_iff, ← raises_return_iff]
  exact Or.inr (hreach.raises (Signal.passing_return r) (raises_return_iff.mpr hp))

theorem call_ne_ok_of_reaches_failure
    (hp : Raises Signal.IsFailure p.run p.store t) (r : Results) (u : Store) :
    call (withFuel n) (.func id) args caller isTraced s ≠ .ok r u := by
  obtain ⟨e, he, hrun⟩ := hreach.raises Signal.passing_isFailure hp
  rw [ne_eq, call_eq_ok_iff hf hcode hscope, blockValue_eq_ok_iff, hrun]
  rintro (h | h)
  · cases h
  · cases h
    exact he

end

/-- What a function gives that comes to a `return`, at whatever depth of blocks, branches and loops.
If the expressions give results, the call gives all values of each of them. Where the last one has
no lists within its list, so that writing it out is right, that is the expression list flattened
(one value of each, all values of the last) exactly if the expressions before the last come to the
same written out as adjusted to one value each. If there are no expressions, the call has no
result: it fails. -/
theorem return_gives_all_values {n : Nat} {s : Store} {id parent : Nat} {f : Function}
    {body : Block} {args : List Results} {caller : Option Nat} {isTraced : Bool} {p : Point}
    (hf : s.function? id = some f) (hcode : f.code = .block body) (hscope : f.scope = some parent)
    (hreach : Reaches n s.scopes.size body (entry s f parent args) p) :
    (∀ (m : Nat) (es : List Expr) (vs : List Results) (t : Store),
      p.fuel = m + 1 → p.stat.form = .return (some es) →
      each (Evaluator.withFuel m) p.scope es p.store = .ok vs t →
      call (Evaluator.withFuel n) (.func id) args caller isTraced s =
          .ok (.ofList (vs.flatMap (flattenAll t))) t ∧
        ∀ init last, vs = init ++ [last] → flattenAll t last = Results.flatten [last] →
          (vs.flatMap (flattenAll t) = Results.flatten vs ↔
            init.flatMap (flattenAll t) = init.map Results.single)) ∧
    (∀ m : Nat, p.fuel = m + 1 → p.stat.form = .return none → ∀ (r : Results) (t : Store),
      call (Evaluator.withFuel n) (.func id) args caller isTraced s ≠ .ok r t) := by
  constructor
  · intro m es vs t hfuel hform heach
    have hp : p.run p.store = .error (.return (.ofList (vs.flatMap (flattenAll t)))) t := by
      rw [Point.run, hfuel]
      exact statement_return hform heach
    refine ⟨call_of_reaches_return hf hcode hscope hreach hp, ?_⟩
    rintro init last rfl hlast
    exact flatMap_flattenAll_eq_flatten_iff hlast
  · intro m hfuel hform
    have hp : Raises Signal.IsFailure p.run p.store p.store := by
      rw [Point.run, hfuel]
      exact statement_bareReturn hform
    exact call_ne_ok_of_reaches_failure hf hcode hscope hreach hp

/-- The expressions `g(), true`. -/
def returnedSample : List Expr :=
  [.mk {} (.call (.mk {} (.variable { lexeme := { text := "g" } })) []), .mk {} .litTrue]

/-- The block `do return g(), true end`. -/
def returningSample : Block :=
  .mk {} [.mk {} (.do (.mk {} [] (some (.mk {} (.return (some returnedSample))))))] none

/-- A function without parameters whose block is `returningSample`. -/
def returningFunction : Function :=
  { params := [], variadic := false, scope := some 0, code := .block returningSample }

/-- A store with `returningFunction` and a function `g` that gives nothing. -/
def returningStore : Store :=
  { functions := #[{ params := [], variadic := false, scope := none, code := .nothing },
      returningFunction]
    scopes := #[{ session := 0, parent := none,
                  locals := [(Bytes.ofAscii "g", { value := .func 0 })] }] }

/-- Where the call comes to the `return`: in the scope of the inner block. -/
def returningPoint : Point :=
  let start := entry returningStore returningFunction 0 []
  { fuel := 4, scope := 2, stat := .mk {} (.return (some returnedSample))
    store := { start with scopes := start.scopes.push { session := 0, parent := some 1 } } }

/-- The call gives `true` alone, not `nil` and `true`. -/
theorem return_drops_empty_result :
    call (Evaluator.withFuel 5) (.func 1) [] none false returningStore =
        .ok (.ofList [.bool true]) returningPoint.store ∧
      Results.flatten [.many [], .one (.bool true)] = [.nil, .bool true] := by
  have hf : returningStore.function? 1 = some returningFunction := rfl
  have hreach : Reaches 5 returningStore.scopes.size returningSample
      (entry returningStore returningFunction 0 []) returningPoint :=
    .inside (.stat (nil_append _).symm .done) (.inDo rfl) (.here (.ret rfl .done))
  have hvalues : each (withFuel 3) returningPoint.scope returnedSample
      returningPoint.store = .ok [.many [], .one (.bool true)] returningPoint.store := by
    rfl
  have hwritten : [.many [], .one (.bool true)].flatMap (flattenAll returningPoint.store) =
      [.bool true] := by
    simp [flattenAll, lastValues, Store.itemsOf?]
  refine ⟨?_, rfl⟩
  rw [← hwritten]
  exact ((return_gives_all_values hf rfl rfl hreach).1 3 _ _ _ rfl rfl hvalues).1

end LuaInterpreter.Eval
