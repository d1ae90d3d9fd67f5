import LuaInterpreter.Proofs.Likeness.Call
import LuaInterpreter.Proofs.TableSort

/-!
# Sorting that is cut short

A comparison may answer as it likes, and it may end the whole sort with an error. As long as it
leaves the table alone nothing is lost: values are only ever swapped in pairs, and between the two
writes of a swap nothing else is run.
-/

namespace LuaInterpreter

open Run Table

open Evaluator (withFuel)

/-! ## Swaps -/

namespace Table

variable {t u v : Table} {n p : Nat}

/-- The first `n` items of a table are those of another one in some order, and nothing else has
changed. -/
structure Shuffles (t u : Table) (n : Nat) : Prop where
  metatable : u.metatable = t.metatable
  perm : (u.itemsFrom 0 n).Perm (t.itemsFrom 0 n)
  agrees : t.AgreesBut u 0 n

theorem Shuffles.refl (t : Table) (n : Nat) : t.Shuffles t n :=
  ⟨rfl, .refl _, .refl _ _ _⟩

theorem Shuffles.trans (htu : t.Shuffles u n) (huv : u.Shuffles v n) : t.Shuffles v n where
  metatable := huv.metatable.trans htu.metatable
  perm := huv.perm.trans htu.perm
  agrees := htu.agrees.trans huv.agrees

theorem itemsFrom_add (t : Table) (p m n : Nat) :
    t.itemsFrom p (m + n) = t.itemsFrom p m ++ t.itemsFrom (p + m) n := by
  simp only [itemsFrom, ← List.map_append, List.range'_append_1]

theorem get_mem_itemsFrom (t : Table) (h : p < n) : t.get (.int (p + 1)) ∈ t.itemsFrom 0 n :=
  List.mem_map.mpr ⟨p, List.mem_range'_1.mpr ⟨Nat.zero_le p, by omega⟩, rfl⟩

theorem shuffles_putPair (t : Table) (h : p + 1 < n) :
    t.Shuffles (t.putPair p (t.get (.int ((p + 1 : Nat) + 1))) (t.get (.int (p + 1)))) n := by
  obtain ⟨m, rfl⟩ : ∃ m, n = p + (m + 2) := ⟨n - (p + 2), by omega⟩
  have hagrees := agreesBut_putPair t p (t.get (.int ((p + 1 : Nat) + 1))) (t.get (.int (p + 1)))
  have hsplit (u : Table) :
      u.itemsFrom 0 (p + (m + 2)) = u.itemsFrom 0 p ++ u.itemsFrom p (m + 2) := by
    rw [itemsFrom_add, Nat.zero_add]
  refine ⟨metatable_putPair t p _ _, ?_, hagrees.mono (Nat.zero_le p) (by omega)⟩
  rw [hsplit, hsplit, hagrees.itemsFrom_eq (.inl (by omega)), itemsFrom_putPair, itemsFrom_succ,
    itemsFrom_succ]
  exact .append_left _ (.swap _ _ _)

end Table

/-! ## Stages -/

namespace TableLibrary

variable {k k' : Evaluator} {comp : Value} {id n p : Nat} {vs : List Value} {s t u : Store}

/-- The stores on which neighbours can be compared while a table is sorted: where a comparison has
ended, with its values swapped if they were out of order. -/
inductive Stage (k : Evaluator) (comp : Value) (id n : Nat) (s : Store) : Store → Prop
  | start : Stage k comp id n s s
  | kept {u v : Store} {p : Nat} : Stage k comp id n s u → p + 1 < n →
      compareAt k comp id p u = .ok false v → Stage k comp id n s v
  | swapped {u v : Store} {p : Nat} : Stage k comp id n s u → p + 1 < n →
      compareAt k comp id p u = .ok true v →
      Stage k comp id n s (v.putPair id p ((u.table id).get (.int ((p + 1 : Nat) + 1)))
        ((u.table id).get (.int (p + 1))))

/-- At every stage, the comparison of two items leaves the table alone, in whatever way it ends. -/
def LeavesAlone (k : Evaluator) (comp : Value) (id : Nat) (vs : List Value) (s : Store) : Prop :=
  ∀ u, Stage k comp id vs.length s u → ∀ a ∈ vs, ∀ b ∈ vs,
    ((outOfOrder k comp a b).final u).table id = u.table id

/-- What a sort relies on: a table without metatable, whose items are compared without any change
to it. -/
structure Undisturbed (k : Evaluator) (comp : Value) (id : Nat) (vs : List Value) (s : Store) :
    Prop where
  metatable : (s.table id).metatable = none
  items : (s.table id).itemsFrom 0 vs.length = vs
  not_nil : ∀ a ∈ vs, a ≠ .nil
  leavesAlone : LeavesAlone k comp id vs s

namespace Undisturbed

variable (h : Undisturbed k comp id vs s)
include h

theorem mem_of_shuffles (hu : (s.table id).Shuffles (u.table id) vs.length) (hp : p < vs.length) :
    (u.table id).get (.int (p + 1)) ∈ vs := by
  have hperm := hu.perm
  rw [h.items] at hperm
  exact hperm.subset (get_mem_itemsFrom _ hp)

theorem table_of_compareAt (hstage : Stage k comp id vs.length s u)
    (hu : (s.table id).Shuffles (u.table id) vs.length) (hp : p + 1 < vs.length) :
    ((compareAt k comp id p).final u).table id = u.table id :=
  h.leavesAlone u hstage _ (h.mem_of_shuffles hu hp) _ (h.mem_of_shuffles hu (Nat.lt_of_succ_lt hp))

theorem table_putPair (hu : (s.table id).Shuffles (u.table id) vs.length) (hp : p + 1 < vs.length)
    (htable : t.table id = u.table id) (b a : Value) :
    (t.putPair id p b a).table id = (u.table id).putPair p b a := by
  have hset : (t.table id).get (.int (p + 1)) ≠ .nil := by
    rw [htable]
    exact h.not_nil _ (h.mem_of_shuffles hu (Nat.lt_of_succ_lt hp))
  rw [Store.table_putPair (Store.lt_size_of_get_ne_nil hset), htable]

theorem shuffles (hstage : Stage k comp id vs.length s u) :
    (s.table id).Shuffles (u.table id) vs.length := by
  induction hstage with
  | start => exact .refl _ _
  | kept hstage hp hcompare ih =>
    have htable := h.table_of_compareAt hstage ih hp
    rw [final_of_ok hcompare] at htable
    exact htable ▸ ih
  | swapped hstage hp hcompare ih =>
    have htable := h.table_of_compareAt hstage ih hp
    rw [final_of_ok hcompare] at htable
    rw [h.table_putPair ih hp htable]
    exact ih.trans (shuffles_putPair _ hp)

end Undisturbed

end TableLibrary

/-! ## Other evaluators -/

namespace Run

variable {α β : Type} {P Q R : Store → Prop} {m m' : Run α} {f f' : α → Run β} {s : Store}

/-- On a store, one computation does what another one does. It ends with a result on a store of the
one kind, or with a signal on one of the other kind. -/
def Follows (P Q : Store → Prop) (m m' : Run α) (s : Store) : Prop :=
  m' s = m s ∧ match m s with
    | .ok _ t => P t
    | .error _ t => Q t

theorem follows_pure (a : α) (hs : P s) : Follows P Q (pure a) (pure a) s := ⟨rfl, hs⟩

theorem follows_of_eq (h : m' s = m s) : Follows (fun _ => True) (fun _ => True) m m' s :=
  ⟨h, by split <;> trivial⟩

variable {t : Store} (v : Value)

theorem follows_of_error {e : Signal} (h : m s = .error e t) (h' : m' s = .error e t) (ht : Q t) :
    Follows P Q m m' s := by
  unfold Follows
  rw [h, h']
  exact ⟨rfl, ht⟩

theorem Follows.of_eq {n n' : Run α} (hn : Follows P Q n n' t) (h : m s = n t) (h' : m' s = n' t) :
    Follows P Q m m' s := by
  unfold Follows
  rw [h, h']
  exact hn

theorem Follows.bind (hm : Follows P Q m m' s) (hf : ∀ a t, P t → Follows R Q (f a) (f' a) t) :
    Follows R Q (m >>= f) (m' >>= f') s := by
  obtain ⟨hsame, hend⟩ := hm
  cases h : m s with
  | ok a t =>
    rw [h] at hsame hend
    exact (hf a t hend).of_eq (bind_of_ok h) (bind_of_ok hsame)
  | error e t =>
    rw [h] at hsame hend
    exact follows_of_error (bind_of_error h) (bind_of_error hsame) hend

theorem follows_loop {σ : Type} {step step' : σ → Run (σ ⊕ α)} (hPQ : ∀ t, P t → Q t)
    (hstep : ∀ x t, P t → Follows P Q (step x) (step' x) t) (fuel : Nat) (x : σ) (hs : P s) :
    Follows P Q (loop fuel step x) (loop fuel step' x) s := by
  induction fuel generalizing x s with
  | zero => exact ⟨rfl, hPQ s hs⟩
  | succ fuel ih =>
    refine (hstep x s hs).bind fun r t ht => ?_
    cases r with
    | inl y => exact ih y ht
    | inr a => exact follows_pure a ht

theorem Follows.left (h : Follows P Q m m' s) : m' s = m s := h.1

theorem Follows.final (hPQ : ∀ t, P t → Q t) (h : Follows P Q m m' s) : Q (m.final s) := by
  have hend := h.2
  cases hm : m s with
  | ok a t =>
    rw [hm] at hend
    exact final_of_ok hm ▸ hPQ t hend
  | error e t =>
    rw [hm] at hend
    exact final_of_error hm ▸ hend

/-! ### Computations that only read -/

theorem follows_of_final (h : m.final s = s) : Follows (· = s) (fun _ => True) m m s := by
  refine ⟨rfl, ?_⟩
  cases hm : m s with
  | ok a t => exact (final_of_ok hm).symm.trans h
  | error e t => trivial

theorem final_bind_of_final (hm : m.final s = s) (hf : ∀ a, (f a).final s = s) :
    (m >>= f).final s = s := by
  cases h : m s with
  | ok a t =>
    rw [final_of_ok h] at hm
    rw [final_bind_of_ok h, hm, hf a]
  | error e t =>
    rw [final_of_error h] at hm
    rw [final_bind_of_error h, hm]

theorem final_ofExcept (x : Except Fault α) (s : Store) : (ofExcept x).final s = s := by
  cases x <;> rfl

theorem final_error (message : String) (s : Store) : (error message : Run α).final s = s :=
  final_bind_of_final (final_ofExcept _ s) fun _ => rfl

theorem final_field? (key : Value) (s : Store) : (field? v key).final s = s := by
  have hkey : (requireKey key).final s = s := by
    unfold requireKey
    split <;> rfl
  unfold field? atField fileField
  split
  · exact final_bind_of_final hkey fun _ => rfl
  · refine final_bind_of_final ?_ fun _ => rfl
    split
    · split
      · rfl
      · exact final_error _ s
    · exact final_error _ s
  · rfl

theorem final_metavalue? (name : String) (s : Store) : (metavalue? v name).final s = s := by
  refine final_bind_of_final ?_ fun mt => ?_
  · unfold metatable
    split <;> rfl
  · split
    · rfl
    · exact final_field? mt _ s

end Run

namespace TableLibrary

variable {k k' : Evaluator} {comp : Value} {id p : Nat} {vs : List Value} {s u : Store}

theorem follows_binaryMetamethod {call call' : Caller}
    (h : ∀ f args scope traced, call' f args scope traced u = call f args scope traced u)
    (a b : Value) (name : String) :
    Follows (fun _ => True) (fun _ => True) (binaryMetamethod call a b name)
      (binaryMetamethod call' a b name) u := by
  have hcall (f : Value) : Follows (fun _ => True) (fun _ => True)
      (do return some (← call f [.one a, .one b] none true).single : Run (Option Value))
      (do return some (← call' f [.one a, .one b] none true).single) u :=
    (follows_of_eq (h _ _ _ _)).bind fun _ _ _ => follows_pure _ trivial
  refine (follows_of_final (final_metavalue? a name u)).bind fun found t ht => ?_
  subst ht
  cases found with
  | some f => exact hcall f
  | none =>
    refine (follows_of_final (final_metavalue? b name t)).bind fun found t' ht' => ?_
    subst ht'
    cases found with
    | some f => exact hcall f
    | none => exact follows_pure _ trivial

/-- The comparison of two values depends on nothing but the calls that it can make on its store. -/
theorem outOfOrder_congr (h : ∀ f args scope traced,
    k'.call f args scope traced u = k.call f args scope traced u) (a b : Value) :
    outOfOrder k' comp a b u = outOfOrder k comp a b u := by
  refine Follows.left (Q := fun _ => True) (P := fun _ => True) ?_
  unfold outOfOrder
  split
  · unfold Operator.lessThan Operator.compare
    split
    · exact follows_of_eq rfl
    · exact follows_of_eq rfl
    · refine (follows_binaryMetamethod h b a "__lt").bind fun found t _ => ?_
      cases found with
      | some v | none => exact follows_of_eq rfl
  · exact (follows_of_eq (h _ _ _ _)).bind fun _ _ _ => follows_of_eq rfl

/-- Evaluators that call functions alike on the stores on which the items are there. -/
structure CallsAlike (k k' : Evaluator) (id n : Nat) (s : Store) : Prop where
  fuel : k'.fuel = k.fuel
  call : ∀ u, (s.table id).Shuffles (u.table id) n → ∀ f args scope traced,
    k'.call f args scope traced u = k.call f args scope traced u

/-- An evaluator that is stopped on a store on which items are missing calls alike elsewhere. -/
theorem callsAlike_stoppedAt {n : Nat} (hu : ¬(s.table id).Shuffles (u.table id) n) (part : Task)
    (e : Signal) (t : Store) : CallsAlike k (k.stoppedAt part u e t) id n s where
  fuel := rfl
  call := by
    intro v hv f args scope traced
    refine if_neg ?_
    rintro ⟨-, rfl⟩
    exact hu hv

/-- A sweep goes from stage to stage, and no other evaluator that calls alike does anything else.
The induction is on the number of comparisons. -/
theorem pass_follows (h : Undisturbed k comp id vs s) (halike : CallsAlike k k' id vs.length s)
    (count : Nat) (hu : Stage k comp id vs.length s u) (hcount : p + count ≤ vs.length - 1)
    (swapped : Bool) :
    Follows (Stage k comp id vs.length s) (fun t => (s.table id).Shuffles (t.table id) vs.length)
      (pass k (.table id) comp count (p + 1) swapped)
      (pass k' (.table id) comp count (p + 1) swapped) u := by
  induction count generalizing p u swapped with
  | zero => exact follows_pure swapped hu
  | succ count ih =>
    have hp : p + 1 < vs.length := by omega
    have hshuffles := h.shuffles hu
    have hmetatable := hshuffles.metatable.trans h.metatable
    have htable := h.table_of_compareAt hu hshuffles hp
    have hcompare : compareAt k' comp id p u = compareAt k comp id p u :=
      outOfOrder_congr (halike.call u hshuffles) _ _
    cases hend : compareAt k comp id p u with
    | error e v =>
      rw [final_of_error hend] at htable
      exact follows_of_error (pass_of_error hmetatable hend count swapped)
        (pass_of_error hmetatable (hcompare.trans hend) count swapped) (by rwa [htable])
    | ok isOutOfOrder v =>
      rw [final_of_ok hend] at htable
      cases isOutOfOrder with
      | true =>
        exact (ih (.swapped hu hp hend) (by omega) true).of_eq
          (pass_of_swapped hmetatable hend htable count swapped)
          (pass_of_swapped hmetatable (hcompare.trans hend) htable count swapped)
      | false =>
        exact (ih (.kept hu hp hend) (by omega) swapped).of_eq
          (pass_of_kept hmetatable hend count swapped)
          (pass_of_kept hmetatable (hcompare.trans hend) count swapped)

theorem sort_follows (h : Undisturbed k comp id vs s) (halike : CallsAlike k k' id vs.length s)
    (hborder : (s.table id).border = vs.length) :
    Follows (Stage k comp id vs.length s) (fun t => (s.table id).Shuffles (t.table id) vs.length)
      (sort k (.table id) comp) (sort k' (.table id) comp) s := by
  have hsort := sort_eq_loop h.metatable hborder k comp
  have hsort' := sort_eq_loop h.metatable hborder k' comp
  rw [halike.fuel] at hsort'
  refine .of_eq (follows_loop (fun t => h.shuffles) (fun _ u hu => ?_) k.fuel () .start)
    hsort hsort'
  have hpass := pass_follows h halike (p := 0) (vs.length - 1) hu (Nat.zero_add _).le false
  exact hpass.bind fun _ _ ht => follows_pure _ ht

end TableLibrary

/-! ## The call of a sort -/

namespace Run

variable {α : Type} {m m' : Run α} {onError : LuaError → Run α} {onFault : Fault → Run α}
  {s : Store}

theorem handle_congr (h : m' s = m s) :
    m'.handle onError onFault s = m.handle onError onFault s := by
  unfold handle
  cases hm : m s with
  | ok a t => rw [tryCatch_of_ok hm, tryCatch_of_ok (h.trans hm)]
  | error e t => rw [tryCatch_of_error hm, tryCatch_of_error (h.trans hm)]

theorem final_of_eq {n : Run α} {t : Store} (h : m s = n t) : m.final s = n.final t := by
  rw [final, final, h]

theorem final_handle (hError : ∀ e t, (onError e).final t = t)
    (hFault : ∀ f t, (onFault f).final t = t) :
    (m.handle onError onFault).final s = m.final s := by
  cases hm : m s with
  | ok a t => rw [final_of_ok hm, final_of_ok (handle_of_ok hm)]
  | error e t =>
    rw [final_of_error hm]
    cases e with
    | error e => exact (final_of_eq (handle_of_error hm)).trans (hError e t)
    | fault f => exact (final_of_eq (handle_of_fault hm)).trans (hFault f t)
    | _ =>
      exact final_of_error (handle_of_control hm trivial)

theorem final_text (v : Value) (s : Store) : (text v).final s = s := final_ofExcept _ s

end Run

namespace Eval

variable {k k' : Evaluator} {id : Nat} {b : Builtin} {args : List Results} {scope : Option Nat}
  {traced : Bool} {s : Store}

theorem final_settleCall (id : Nat) (traced : Bool) (m : Run Results) (s : Store) :
    (settleCall id traced m).final s = m.final s := by
  unfold settleCall
  extract_lets enter
  have henter (e : LuaError) (t : Store) :
      (enter e >>= fun e => throw (.error e) : Run Results).final t = t := by
    refine final_bind_of_final ?_ fun _ => rfl
    show (if traced then _ else _ : Run LuaError).final t = t
    split
    · exact final_bind_of_final (final_text _ t) fun _ => rfl
    · rfl
  refine final_handle henter fun f t => ?_
  split
  · rfl
  · exact final_bind_of_final (final_text _ t) fun _ => henter _ t

theorem final_call_builtin (hb : s.function? id = some (.ofBuiltin b)) :
    (call k (.func id) args scope traced).final s =
      (runNative k (.ofBuiltin b) (Results.flatten args) scope).final s := by
  refine (final_of_eq (callFunction_of_function hb k args scope traced)).trans ?_
  rw [final_settleCall]
  refine final_handle (fun _ t => ?_) fun _ t => ?_
  · exact final_bind_of_final (final_text _ t) fun _ => rfl
  · exact final_bind_of_final (final_text _ t) fun _ => rfl

theorem call_builtin_congr (hb : s.function? id = some (.ofBuiltin b))
    (hrun : runNative k' (.ofBuiltin b) (Results.flatten args) scope s =
      runNative k (.ofBuiltin b) (Results.flatten args) scope s) :
    call k' (.func id) args scope traced s = call k (.func id) args scope traced s := by
  refine (callFunction_of_function hb k' args scope traced).trans ?_
  refine Eq.trans ?_ (callFunction_of_function hb k args scope traced).symm
  exact handle_congr (handle_congr hrun)

end Eval

namespace TableLibrary

variable {k : Evaluator} {f id : Nat} {comp : Value} {vs : List Value} {args : List Results}
  {s : Store}

/-- The arguments of a sort: the table and what to compare with, which may be left out. -/
inductive SortArguments (id : Nat) : Value → List Results → Prop
  | given (comp : Value) : SortArguments id comp [.one (.table id), .one comp]
  | default : SortArguments id .nil [.one (.table id)]

theorem runNative_sort (hargs : SortArguments id comp args) (k : Evaluator) (scope : Option Nat) :
    Eval.runNative k (.ofBuiltin .tableSort) (Results.flatten args) scope =
      (do
        sort k (.table id) comp
        return .many []) := by
  cases hargs <;> rfl

theorem call_sort_congr {k' : Evaluator} (hf : s.function? f = some (.ofBuiltin .tableSort))
    (hargs : SortArguments id comp args) (h : Undisturbed k comp id vs s)
    (halike : CallsAlike k k' id vs.length s) (hborder : (s.table id).border = vs.length)
    (scope : Option Nat) (traced : Bool) :
    Eval.call k' (.func f) args scope traced s = Eval.call k (.func f) args scope traced s := by
  refine Eval.call_builtin_congr hf ?_
  rw [runNative_sort hargs, runNative_sort hargs]
  exact ((sort_follows h halike hborder).bind fun _ _ ht => follows_pure _ ht).left

/-- Sorting loses nothing, whatever becomes of it. Let a table have no metatable, and let the
comparison of two items leave it alone, be it by a function or by default, whatever it answers and
in whatever way it ends. Then the table has all its items, in some order, and is otherwise unchanged,
at every stage on which items are compared, on every store on which the sort asks for a function to
be called, and on the store on which the sort ends, with a result or with a signal. -/
theorem interrupted_sort_loses_nothing (hf : s.function? f = some (.ofBuiltin .tableSort))
    (hargs : SortArguments id comp args) (hmetatable : (s.table id).metatable = none)
    (hitems : (s.table id).items = vs) (hcompares : LeavesAlone k comp id vs s)
    (scope : Option Nat) (traced : Bool) :
    (∀ u, Stage k comp id vs.length s u → (s.table id).Shuffles (u.table id) vs.length) ∧
    (∀ part u, Task.Asks k (.call (.func f) args scope traced) s part u →
      (s.table id).Shuffles (u.table id) vs.length) ∧
    (s.table id).Shuffles (((Eval.call k (.func f) args scope traced).final s).table id)
      vs.length := by
  have hborder : (s.table id).border = vs.length := by rw [← hitems, length_items]
  have h : Undisturbed k comp id vs s :=
    { metatable := hmetatable
      items := by rw [← hborder, ← hitems]; rfl
      not_nil := fun a ha => ne_nil_of_mem_items (hitems ▸ ha)
      leavesAlone := hcompares }
  refine ⟨fun u => h.shuffles, fun part u hasks => ?_, ?_⟩
  · -- Stopped on any other store, the sort would end with whichever code it is stopped with.
    by_contra hlost
    have hends (code : Int) :
        Eval.call k (.func f) args scope traced s = .error (.kill code) u := by
      have halike := callsAlike_stoppedAt (k := k) hlost part (.kill code) u
      exact (call_sort_congr hf hargs h halike hborder scope traced).symm.trans (hasks code u)
    cases (hends 0).symm.trans (hends 1)
  · rw [Eval.final_call_builtin hf, runNative_sort hargs, final_bind_pure]
    exact (sort_follows h ⟨rfl, fun _ _ _ _ _ _ => rfl⟩ hborder).final fun _ => h.shuffles

/-! ### Values that cannot be compared -/

/-- A session with a table of two numbers and a string, which cannot be compared with a number, and
a further field. -/
def mixedStore : Store :=
  { sortingStore [] with
    tables := #[{}, Table.ofPairs [(.int 1, .int 1), (.int 2, .int 2), (.int 3, .str [120]),
      (.str [120], .bool true)]] }

/-- The greater number comes first; then the sort ends with an error, and no item is lost. -/
theorem mixedStore_keeps_items :
    (∃ e, sort (withFuel 2) (.table 1) .nil mixedStore =
      .error (.error e) (mixedStore.putPair 1 0 (.int 2) (.int 1))) ∧
    (mixedStore.table 1).Shuffles (((Eval.call (withFuel 2) (.func Builtin.tableSort.number)
      [.one (.table 1)] none true).final mixedStore).table 1) 3 := by
  have hitems : (mixedStore.table 1).items = [.int 1, .int 2, .str [120]] := rfl
  have halone : LeavesAlone (withFuel 2) .nil 1 [.int 1, .int 2, .str [120]] mixedStore := by
    intro u _ a ha b hb
    simp only [List.mem_cons, List.not_mem_nil, or_false] at ha hb
    rcases ha with rfl | rfl | rfl <;> rcases hb with rfl | rfl | rfl <;> rfl
  exact ⟨⟨_, rfl⟩, (interrupted_sort_loses_nothing (f := Builtin.tableSort.number) rfl .default rfl
    hitems halone none true).2.2⟩

end TableLibrary

end LuaInterpreter
