import LuaInterpreter.Proofs.TableConstructor

/-!
# Lists of arguments

Selecting gives the arguments behind a place. From the front it starts at the argument that is named,
but from the end it starts one argument before it, if there is one. Packing keeps the arguments in a
table, from which all of them can be unpacked, also those that are `nil`.
-/

namespace LuaInterpreter

open Run List Eval Table Results

open Evaluator (withFuel)

theorem Results.flatten_one_cons (v : Value) (rs : List Results) :
    flatten (.one v :: rs) = v :: flatten rs := by
  cases rs <;> rfl

/-! ## Selecting -/

namespace BasicLibrary

variable {a : List Value} {i : Int} {k : Nat}

theorem select_of_pos (a : List Value) (hi : 1 ≤ i) (s : Store) :
    select (.int i) a s = .ok (a.drop (i - 1).toNat) s := by
  have hrange : (decide (i = 0) || decide (i < -(a.length : Int))) = false := by
    simp only [Bool.or_eq_false_iff, decide_eq_false_iff_not]
    omega
  show (if _ then _ else _ : Run (List Value)) s = _
  rw [hrange, if_neg (show ¬i < 0 by omega)]
  rfl

/-- The argument before the one that is named comes first, if there is one. -/
theorem select_of_neg (hk : 1 ≤ k) (hlength : k ≤ a.length) (s : Store) :
    select (.int (-k)) a s = .ok (a.drop (a.length - (k + 1))) s := by
  have hrange : (decide (-(k : Int) = 0) || decide (-(k : Int) < -(a.length : Int))) = false := by
    simp only [Bool.or_eq_false_iff, decide_eq_false_iff_not]
    omega
  have hstart : ((a.length : Int) + (-k - 1)).toNat = a.length - (k + 1) := by omega
  show (if _ then _ else _ : Run (List Value)) s = _
  rw [hrange, if_pos (show -(k : Int) < 0 by omega), ← hstart]
  rfl

theorem select_of_out_of_range (hi : i = 0 ∨ i < -(a.length : Int)) (s : Store) :
    select (.int i) a s = error "bad argument #1 to 'select' (index out of range)" s := by
  have hrange : (decide (i = 0) || decide (i < -(a.length : Int))) = true := by
    simpa only [Bool.or_eq_true, decide_eq_true_eq] using hi
  show (if _ then _ else _ : Run (List Value)) s = _
  rw [hrange]
  rfl

theorem runNative_select (k : Evaluator) (i : Int) (rs : List Results) (scope : Option Nat) (s : Store) :
    Eval.runNative k (.ofBuiltin .select) (flatten (.one (.int i) :: rs)) scope s =
      (select (.int i) (flatten rs) >>= fun vs => pure (.ofList vs)) s := by
  rw [flatten_one_cons]
  rfl

theorem drop_eq_iff {m n : Nat} (hm : m ≤ a.length) (hn : n ≤ a.length) :
    a.drop m = a.drop n ↔ m = n := by
  refine ⟨fun h => ?_, congrArg a.drop⟩
  have hlength := congrArg List.length h
  rw [length_drop, length_drop] at hlength
  omega

/-- Selecting the arguments `a` from number `i ≥ 1` on gives them from there on. But selecting them
from the `k`-th on, counted from the end, gives one more, if there is one: it gives the last `k`
exactly if these are all. Likewise it gives the same as counting to that argument from the front
exactly then. Other numbers are out of range. -/
theorem select_from_end_gives_one_more {m g : Nat} {s : Store}
    (hg : s.function? g = some (.ofBuiltin .select)) (rs : List Results) (scope : Option Nat)
    (traced : Bool) :
    let a := Results.flatten rs
    let call (i : Int) := (withFuel (m + 1)).call (.func g) (.one (.int i) :: rs) scope traced s
    (∀ i : Int, 1 ≤ i → call i = .ok (.ofList (a.drop (i - 1).toNat)) s) ∧
    (∀ k : Nat, 1 ≤ k → k ≤ a.length →
      call (-k) = .ok (.ofList (a.drop (a.length - (k + 1)))) s ∧
      (call (-k) = .ok (.ofList (a.drop (a.length - k))) s ↔ k = a.length) ∧
      (call (-k) = call (a.length - k + 1) ↔ k = a.length)) ∧
    ∀ i : Int, i = 0 ∨ i < -(a.length : Int) → ∃ e : LuaError,
      e.message = .ascii "bad argument #1 to 'select' (index out of range)" ∧
      call i = .error (.error e) s := by
  intro a call
  have hcall {i : Int} {vs : List Value} (h : select (.int i) a s = .ok vs s) :
      call i = .ok (.ofList vs) s :=
    call_builtin_of_ok hg ((runNative_select _ i rs scope s).trans (bind_of_ok h))
  have hfront (i : Int) (hi : 1 ≤ i) : call i = .ok (.ofList (a.drop (i - 1).toNat)) s :=
    hcall (select_of_pos a hi s)
  refine ⟨hfront, fun k hk hlength => ?_, fun i hi => ?_⟩
  · have hend := hcall (select_of_neg hk hlength s)
    have hlast : call (-k) = .ok (.ofList (a.drop (a.length - k))) s ↔ k = a.length := by
      rw [hend]
      simp only [EStateM.Result.ok.injEq, and_true, ofList, many.injEq]
      rw [List.map_inj_right fun _ _ h => one.inj h, drop_eq_iff (by omega) (by omega)]
      omega
    have hstart : ((a.length : Int) - k + 1 - 1).toNat = a.length - k := by omega
    refine ⟨hend, hlast, ?_⟩
    rwa [hfront (a.length - k + 1) (by omega), hstart]
  · have hrun := (runNative_select (withFuel m) i rs scope s).trans
      (bind_of_error (select_of_out_of_range hi s))
    exact call_builtin_of_error hg hrun (text_func_of_builtin hg)

/-- Of three arguments, the last two are selected where the last one is asked for. -/
theorem last_two_of_three_are_selected :
    (withFuel 1).call (.func Builtin.select.number)
        [.one (.int (-(1 : Nat))), .one .nil, .one (.bool false), .one (.bool true)] (some 0) false
        (Store.initial {}) =
      .ok (.ofList [.bool false, .bool true]) (Store.initial {}) :=
  ((select_from_end_gives_one_more rfl [.one .nil, .one (.bool false), .one (.bool true)] (some 0)
    false).2.1 1 (by decide) (by decide)).1

end BasicLibrary

/-! ## Unpacking -/

namespace Table

def values (t : Table) : (i : Int) → (count : Nat) → List Value
  | _, 0 => []
  | i, count + 1 => t.get (.int i) :: t.values (i + 1) count

variable (t : Table) (i : Int) (a : List Value)

theorem values_add (m n : Nat) : t.values i (m + n) = t.values i m ++ t.values (i + m) n := by
  induction m generalizing i with
  | zero => rw [Nat.zero_add, Nat.cast_zero, Int.add_zero, values, nil_append]
  | succ m ih =>
    have hposition : i + (m + 1 : Nat) = i + 1 + m := by
      push_cast
      ring
    rw [Nat.succ_add, values, values, ih, hposition, cons_append]

theorem getElem?_values {c count : Nat} (hc : c < count) :
    (t.values i count)[c]? = some (t.get (.int (i + c))) := by
  induction count generalizing i c with
  | zero => exact absurd hc (Nat.not_lt_zero c)
  | succ count ih =>
    cases c with
    | zero => simp [values]
    | succ c =>
      rw [values, getElem?_cons_succ, ih (i + 1) (Nat.lt_of_succ_lt_succ hc), Nat.cast_succ,
        add_comm (c : Int), ← add_assoc]

/-- What each position has to do with an item of a list, the values have to do with the list. -/
theorem forall₂_values {α : Type} {R : Value → α → Prop} {t : Table} {i : Int} {as : List α}
    (h : ∀ (c : Nat) (a : α), as[c]? = some a → R (t.get (.int (i + c))) a) :
    List.Forall₂ R (t.values i as.length) as := by
  induction as generalizing i with
  | nil => exact .nil
  | cons a as ih =>
    refine .cons (by simpa using h 0 a rfl) (ih fun c b hb => ?_)
    have hlater := h (c + 1) b hb
    rwa [Nat.cast_succ, add_comm (c : Int), ← add_assoc] at hlater

def packed (a : List Value) : Table :=
  (putAll {} (numbered 1 a)).put (.ascii "n") (.int a.length)

/-- The number of the arguments is kept under a string, so it is in nobody's place. -/
theorem get_packed (j : Value) :
    (packed a).get j = if (Value.ascii "n").rawEq j then .int a.length
      else (putAll {} (numbered 1 a)).get j := by
  have hkey : (Value.ascii "n").IsPlainKey := trivial
  exact get_put_of_isPlainKey _ hkey _ j

theorem values_packed : (packed a).values 1 a.length = a := by
  refine forall₂_eq_eq_eq ▸ forall₂_values fun c v hv => ?_
  rw [get_packed]
  exact get_putAll_numbered _ hv

end Table

namespace TableLibrary

variable {k : Evaluator} {id g : Nat} {i j : Int} {s : Store}

theorem span_one (n : Nat) : span 1 n = n := by
  unfold span
  omega

theorem lt_span {c : Nat} (hc : i + c ≤ j) : c < span i j := by
  unfold span
  omega

theorem values_append (t : Table) {l : Int} (hil : i ≤ l) (hlj : l < j) :
    t.values i (span i l) ++ t.values (l + 1) (span (l + 1) j) = t.values i (span i j) := by
  have hspan : span i j = span i l + span (l + 1) j := by
    unfold span
    omega
  have hnext : i + span i l = l + 1 := by
    unfold span
    omega
  rw [hspan, values_add, hnext]

theorem valuesFrom_of_metatable_eq_none (hmetatable : (s.table id).metatable = none)
    (k : Evaluator) (count : Nat) (i : Int) :
    valuesFrom k (.table id) count i s = .ok ((s.table id).values i count) s := by
  induction count generalizing i with
  | zero => rfl
  | succ count ih =>
    exact (bind_of_ok (item_of_metatable_eq_none hmetatable k i)).trans (bind_of_ok (ih (i + 1)))

theorem call_unpack (hg : s.function? g = some (.ofBuiltin .tableUnpack))
    (hmetatable : (s.table id).metatable = none) (i j : Int) (scope : Option Nat) (traced : Bool) :
    Eval.call k (.func g) [.one (.table id), .one (.int i), .one (.int j)] scope traced s =
      .ok (.ofList ((s.table id).values i (span i j))) s :=
  call_builtin_of_ok hg (bind_of_ok (valuesFrom_of_metatable_eq_none hmetatable k (span i j) i))

theorem call_pack (hg : s.function? g = some (.ofBuiltin .tablePack)) (rs : List Results)
    (scope : Option Nat) (traced : Bool) :
    Eval.call k (.func g) rs scope traced s = .ok (.ofList [.table s.tables.size])
      { s with tables := s.tables.push (.packed (flatten rs)) } := by
  have hpack : pack (flatten rs) s = .ok (.table s.tables.size)
      { s with tables := s.tables.push (.packed (flatten rs)) } := by
    rw [pack, table_putAll]
    rfl
  have hrun : Eval.runNative k (.ofBuiltin .tablePack) (flatten rs) scope s =
      (pack (flatten rs) >>= fun v => pure (.ofList [v])) s := rfl
  exact call_builtin_of_ok hg (hrun.trans (bind_of_ok hpack))

/-- Arguments `a` that are packed can be unpacked again. Packing gives a table in which `n` is their
number, and unpacking its positions `1` to `n` gives exactly `a`, with every `nil`. Unpacking the
positions of any table without a metatable gives what is at them, so they can be unpacked in two
parts. -/
theorem unpack_inverts_pack {m p u : Nat} {s : Store}
    (hp : s.function? p = some (.ofBuiltin .tablePack))
    (hu : s.function? u = some (.ofBuiltin .tableUnpack)) (scope : Option Nat) (traced : Bool) :
    let unpack (id : Nat) (i j : Int) := (withFuel (m + 1)).call (.func u)
      [.one (.table id), .one (.int i), .one (.int j)] scope traced
    (∀ rs : List Results, let a := Results.flatten rs
      ∃ id t, (withFuel (m + 1)).call (.func p) rs scope traced s = .ok (.ofList [.table id]) t ∧
        Index.read (withFuel m).call (.table id) (.ascii "n") t = .ok (.int a.length) t ∧
        unpack id 1 a.length t = .ok (.ofList a) t) ∧
    ∀ id, (s.table id).metatable = none → ∀ i l j : Int, i ≤ l → l < j → ∃ before after,
      unpack id i l s = .ok (.ofList before) s ∧ unpack id (l + 1) j s = .ok (.ofList after) s ∧
      unpack id i j s = .ok (.ofList (before ++ after)) s ∧
      ∀ c : Nat, i + c ≤ j → (before ++ after)[c]? = some ((s.table id).get (.int (i + c))) := by
  refine ⟨fun rs => ?_, fun id hmetatable i l j hil hlj => ?_⟩
  · let t : Store := { s with tables := s.tables.push (.packed (flatten rs)) }
    have htable : t.table s.tables.size = .packed (flatten rs) := by
      simp [t, Store.table]
    have hmetatable : (t.table s.tables.size).metatable = none := by
      rw [htable, packed, metatable_put, metatable_putAll]
    refine ⟨s.tables.size, t, call_pack hp rs scope traced, ?_, ?_⟩
    · refine (read_of_metatable_eq_none hmetatable _ _).trans ?_
      show EStateM.Result.ok ((t.table s.tables.size).get (.ascii "n")) t = _
      rw [htable, get_packed]
      rfl
    · have hu' : t.function? u = some (.ofBuiltin .tableUnpack) := hu
      refine (call_unpack hu' hmetatable 1 (flatten rs).length scope traced).trans ?_
      rw [htable, span_one, values_packed]
  · refine ⟨_, _, call_unpack hu hmetatable i l scope traced,
      call_unpack hu hmetatable (l + 1) j scope traced, ?_, fun c hc => ?_⟩
    · rw [values_append _ hil hlj]
      exact call_unpack hu hmetatable i j scope traced
    · rw [values_append _ hil hlj]
      exact getElem?_values _ i (lt_span hc)

/-- A value between two `nil`s comes back with both, and two positions can be unpacked one by one. -/
theorem nils_are_packed_and_unpacked :
    (∃ id t, (withFuel 1).call (.func Builtin.tablePack.number)
        [.one .nil, .one (.bool true), .many [.one .nil]] none false (sortingStore [7, 8]) =
          .ok (.ofList [.table id]) t ∧
      (withFuel 1).call (.func Builtin.tableUnpack.number)
        [.one (.table id), .one (.int 1), .one (.int (3 : Nat))] none false t =
          .ok (.ofList [.nil, .bool true, .nil]) t) ∧
    ∃ before after, (withFuel 1).call (.func Builtin.tableUnpack.number)
        [.one (.table 1), .one (.int 1), .one (.int 2)] none false (sortingStore [7, 8]) =
          .ok (.ofList (before ++ after)) (sortingStore [7, 8]) ∧
      (before ++ after)[1]? = some (.int 8) := by
  obtain ⟨hpack, hunpack⟩ := unpack_inverts_pack (m := 0) (s := sortingStore [7, 8])
    (p := Builtin.tablePack.number) (u := Builtin.tableUnpack.number) rfl rfl none false
  obtain ⟨id, t, hcall, -, hvalues⟩ := hpack [.one .nil, .one (.bool true), .many [.one .nil]]
  obtain ⟨before, after, -, -, hboth, hat⟩ := hunpack 1 rfl 1 1 2 (by decide) (by decide)
  exact ⟨⟨id, t, hcall, hvalues⟩, before, after, hboth, hat 1 (by decide)⟩

end TableLibrary

end LuaInterpreter
