import LuaInterpreter.Eval.Call

/-!
# Adjustment of expression lists, and the binding of arguments

`Results.flatten` gives all values of an expression list, `Results.adjust` exactly as many as are
needed. A function takes its arguments through either, depending on whether it is variadic.
-/

namespace LuaInterpreter

open List

/-! ## Expression lists -/

namespace Results

variable (rs : List Results) (n : Nat) (vs : List Value) (init : List Results) (last : Results)

theorem adjust_eq_take_flatten :
    adjust rs n = (flatten rs).take n ++ List.replicate (n - (flatten rs).length) .nil := by
  simp only [adjust, flatten, map_take, length_take, length_map]
  congr 2
  omega

theorem length_adjust : (adjust rs n).length = n := by
  rw [adjust_eq_take_flatten, length_append, length_take, length_replicate]
  omega

theorem getElem?_adjust {i n : Nat} (h : i < n) :
    (adjust rs n)[i]? = some ((flatten rs).getD i .nil) := by
  rw [adjust_eq_take_flatten, List.getElem?_append, length_take, getD_eq_getElem?_getD]
  split
  · next hi =>
    have hi' : i < (flatten rs).length := by omega
    rw [List.getElem?_take_of_lt h, List.getElem?_eq_getElem hi']
    rfl
  · next hi =>
    have hi' : (flatten rs).length ≤ i := by omega
    rw [List.getElem?_replicate, if_pos (by omega), List.getElem?_eq_none hi']
    rfl

theorem spread_map_one : spread (vs.map .one) = vs.map .one := by
  induction vs with
  | nil => rfl
  | cons v vs ih =>
    cases vs with
    | nil => rfl
    | cons w ws =>
      simp only [map_cons, spread] at ih ⊢
      rw [ih]

theorem flatten_map_one : flatten (vs.map .one) = vs := by
  rw [flatten, spread_map_one, map_map]
  exact map_id vs

theorem spread_concat : spread (init ++ [last]) = init ++ spread [last] := by
  induction init with
  | nil => rfl
  | cons r rs ih =>
    cases rs with
    | nil => simp only [cons_append, nil_append, spread]
    | cons r' rs =>
      simp only [cons_append, spread] at ih ⊢
      rw [ih]

/-- Every expression but the last contributes one value, the last one all its values. -/
theorem flatten_concat : flatten (init ++ [last]) = init.map single ++ flatten [last] := by
  rw [flatten, spread_concat, map_append, flatten]

/-- Cutting the flattened list first makes no difference to the values that are needed. -/
theorem adjust_take_flatten : adjust (((flatten rs).take n).map .one) n = adjust rs n := by
  rw [adjust_eq_take_flatten, adjust_eq_take_flatten, flatten_map_one, take_take,
    Nat.min_self, length_take]
  congr 2
  omega

/-- An inner list counts for its first value, at whatever depth that is found. -/
theorem adjust_one (items : List Results) : adjust items 1 = [single (.many items)] := by
  match items with
  | [] => rfl
  | [.one _] => rfl
  | [.many []] => rfl
  | [.many (r :: rs)] => simp [adjust, spread, single]
  | r :: r' :: rs => simp [adjust, spread, single]

end Results

/-! ## Parameters -/

namespace Scope

variable {v : Variable} {names : List Bytes}

theorem setLocal_of_not_mem {name : Bytes} {locals : List (Bytes × Variable)}
    (h : name ∉ locals.map Prod.fst) : setLocal name v locals = locals ++ [(name, v)] := by
  induction locals with
  | nil => rfl
  | cons entry rest ih =>
    rw [map_cons, mem_cons, not_or] at h
    rw [setLocal, if_neg (Ne.symm h.1), ih h.2]
    rfl

theorem foldl_setLocal (locals : List (Bytes × Variable)) (hnd : names.Nodup)
    (hnew : ∀ n ∈ names, n ∉ locals.map Prod.fst) (values : List Value) :
    (names.zip values).foldl (fun ls (n, v) => setLocal n { value := v } ls) locals =
      locals ++ names.zip (values.map fun v => { value := v }) := by
  induction names generalizing locals values with
  | nil => simp
  | cons n ns ih =>
    cases values with
    | nil => simp
    | cons v vs =>
      obtain ⟨hn, hns⟩ := nodup_cons.mp hnd
      have hset : setLocal n { value := v } locals = locals ++ [(n, { value := v })] :=
        setLocal_of_not_mem (hnew n mem_cons_self)
      have hnew' : ∀ m ∈ ns, m ∉ (locals ++ [(n, ({ value := v } : Variable))]).map Prod.fst := by
        intro m hm
        rw [map_append, mem_append, not_or]
        refine ⟨hnew m (mem_cons_of_mem _ hm), ?_⟩
        rw [map_singleton, mem_singleton]
        rintro rfl
        exact hn hm
      simp only [zip_cons_cons, foldl_cons, map_cons]
      rw [hset, ih _ hns hnew' vs, append_assoc]
      rfl

theorem lookup_zip (hnd : names.Nodup) {vars : List Variable} {i : Nat} {n : Bytes}
    (hn : names[i]? = some n) (hv : vars[i]? = some v) : (names.zip vars).lookup n = some v := by
  induction names generalizing vars i with
  | nil => simp at hn
  | cons m ms ih =>
    obtain ⟨hm, hms⟩ := nodup_cons.mp hnd
    cases vars with
    | nil => simp at hv
    | cons w ws =>
      cases i with
      | zero =>
        simp only [List.getElem?_cons_zero, Option.some.injEq] at hn hv
        rw [zip_cons_cons, hn, hv, lookup_cons_self]
      | succ i =>
        have hne : (n == m) = false := by
          rw [beq_eq_false_iff_ne]
          rintro rfl
          exact hm (mem_of_getElem? hn)
        rw [zip_cons_cons, lookup_cons, hne]
        exact ih hms hn hv

end Scope

namespace Eval

variable (f : Function) (args : List Results)

theorem bind_locals (hnd : f.params.Nodup) :
    (bind f args).locals =
      f.params.zip ((Results.adjust args f.params.length).map fun v => { value := v }) := by
  have hfold (values : List Value) := Scope.foldl_setLocal [] hnd (by simp) values
  simp only [nil_append] at hfold
  unfold bind
  split
  · -- The variadic function flattens, cuts and adjusts what is left.
    refine (hfold _).trans ?_
    rw [Results.adjust_take_flatten]
  · exact hfold _

theorem bind_varargs :
    (bind f args).varargs =
      if f.variadic then some ((Results.flatten args).drop f.params.length) else none := by
  unfold bind
  split <;> rfl

/-- The parameter at a position holds the value at that position of the flattened arguments. -/
theorem lookup_bind_locals {f : Function} (hnd : f.params.Nodup) {i : Nat} {n : Bytes}
    (hn : f.params[i]? = some n) :
    (bind f args).locals.lookup n = some { value := (Results.flatten args).getD i .nil } := by
  rw [bind_locals f args hnd]
  refine Scope.lookup_zip hnd hn ?_
  obtain ⟨hi, _⟩ := List.getElem?_eq_some_iff.mp hn
  rw [List.getElem?_map, Results.getElem?_adjust args hi]
  rfl

end Eval

end LuaInterpreter
