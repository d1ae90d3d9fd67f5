import LuaInterpreter.Proofs.TableSort

/-!
# Moving values between positions

Values are copied one by one, from the lowest position up. Between two tables, and down within one
table, every value is read before anything is written to its position. Up within one table that is
so only if the positions do not overlap: otherwise what has been copied is copied again, so that the
first values are repeated.
-/

namespace LuaInterpreter

open Run Nat Table Store

open Evaluator (withFuel)

/-! ## Changes to a table -/

namespace Table

variable {t u v : Table} {i i' j j' : Int}

/-- Two tables differ at most at the positions from `i` on and before `j`. -/
def AgreesOutside (t u : Table) (i j : Int) : Prop :=
  ∀ key, (∀ l, i ≤ l → l < j → (Value.int l).rawEq key = false) → u.get key = t.get key

theorem AgreesOutside.refl (t : Table) (i j : Int) : t.AgreesOutside t i j := fun _ _ => rfl

theorem AgreesOutside.trans (htu : t.AgreesOutside u i j) (huv : u.AgreesOutside v i j) :
    t.AgreesOutside v i j :=
  fun key hkey => (huv key hkey).trans (htu key hkey)

theorem AgreesOutside.mono (h : t.AgreesOutside u i' j') (hi : i ≤ i') (hj : j' ≤ j) :
    t.AgreesOutside u i j :=
  fun key hkey => h key fun l hl hl' => hkey l (hi.trans hl) (hl'.trans_le hj)

theorem AgreesOutside.get_int (h : t.AgreesOutside u i j) {l : Int} (hl : l < i ∨ j ≤ l) :
    u.get (.int l) = t.get (.int l) := by
  refine h _ fun l' hl' hj => ?_
  rw [rawEq_int, decide_eq_false_iff_not]
  omega

theorem agreesOutside_put (t : Table) (i : Int) (v : Value) :
    t.AgreesOutside (t.put (.int i) v) i (i + 1) := by
  intro key hkey
  rw [get_put_of_isPlainKey t (isPlainKey_int i), hkey i (Int.le_refl i) (Int.lt_succ i)]
  rfl

end Table

namespace Store

variable {s t u : Store} {id : Nat}

/-- Nothing but one table has changed, and that one has the metatable that it had. -/
structure Rewrites (s t : Store) (id : Nat) : Prop where
  functions : t.functions = s.functions
  size : t.tables.size = s.tables.size
  metatable : (t.table id).metatable = (s.table id).metatable
  table : ∀ i, i ≠ id → t.table i = s.table i

theorem Rewrites.refl (s : Store) (id : Nat) : s.Rewrites s id := ⟨rfl, rfl, rfl, fun _ _ => rfl⟩

theorem Rewrites.trans (hst : s.Rewrites t id) (htu : t.Rewrites u id) : s.Rewrites u id where
  functions := htu.functions.trans hst.functions
  size := htu.size.trans hst.size
  metatable := htu.metatable.trans hst.metatable
  table := fun i hi => (htu.table i hi).trans (hst.table i hi)

theorem rewrites_putItem (hid : id < s.tables.size) (i : Int) (v : Value) :
    s.Rewrites (s.putItem id i v) id where
  functions := rfl
  size := Array.size_modify
  metatable := by rw [table_putItem hid, metatable_put]
  table := by
    intro j hj
    simp [Store.table, putItem, Array.getElem?_modify, Ne.symm hj]

theorem Rewrites.metatable_eq_none (h : s.Rewrites t id) {i : Nat}
    (hi : (s.table i).metatable = none) : (t.table i).metatable = none := by
  by_cases hid : i = id
  · rw [hid, h.metatable, ← hid, hi]
  · rw [h.table i hid, hi]

end Store

/-! ## Copies -/

namespace TableLibrary

variable {k : Evaluator} {a b : Nat} {f t : Int} {s : Store}

/-- How far behind position `f` the value was that is copied to the position `c` behind `t`. Up
within one table, what lies behind `t` already is copied again. -/
def origin (a b : Nat) (f t : Int) (c : Nat) : Nat :=
  if a = b ∧ f < t then c % (t - f).toNat else c

theorem origin_of_not_overlapping (h : ¬(a = b ∧ f < t)) (c : Nat) : origin a b f t c = c :=
  if_neg h

variable {d : Nat} {α : Type} (g : Int → α)

theorem origin_of_overlapping (a : Nat) (f : Int) (hd : 0 < d) (c : Nat) :
    origin a a f (f + d) c = c % d := by
  rw [origin, if_pos ⟨rfl, by omega⟩, add_sub_cancel_left, Int.toNat_natCast]

theorem origin_zero (a b : Nat) (f t : Int) : origin a b f t 0 = 0 := by
  unfold origin
  split
  · exact zero_mod _
  · rfl

/-- Once the first value is copied, the others come from where they come from anyway. -/
theorem get_origin_succ (hb : b < s.tables.size) (f t : Int) (c : Nat) :
    ((s.putItem b t ((s.table a).get (.int f))).table a).get
        (.int (f + 1 + origin a b (f + 1) (t + 1) c)) =
      (s.table a).get (.int (f + origin a b f t (c + 1))) := by
  by_cases hoverlap : a = b ∧ f < t
  · obtain ⟨rfl, hft⟩ := hoverlap
    obtain ⟨d, rfl⟩ : ∃ d : Nat, t = f + (d + 1 : Nat) := ⟨(t - f - 1).toNat, by omega⟩
    have hd : 0 < d + 1 := succ_pos d
    have hlt : c % (d + 1) < d + 1 := mod_lt c hd
    rw [table_putItem hb, get_put_int, Int.add_right_comm f (d + 1 : Nat) 1,
      origin_of_overlapping a (f + 1) hd, origin_of_overlapping a f hd]
    by_cases hlast : c % (d + 1) = d
    · -- This is the position to which the first value was copied.
      rw [if_pos (by omega), Nat.succ_mod_succ_eq_zero_iff.mpr hlast, cast_zero, Int.add_zero]
    · have hsucc : (c + 1) % (d + 1) = c % (d + 1) + 1 := by
        rw [add_mod, mod_eq_of_lt (show 1 < d + 1 by omega), mod_eq_of_lt (by omega)]
      rw [if_neg (by omega), hsucc]
      congr 2
      push_cast
      ring
  · have hposition : f + 1 + (c : Int) = f + (c + 1 : Nat) := by
      push_cast
      ring
    rw [origin_of_not_overlapping hoverlap, origin_of_not_overlapping (by omega), hposition]
    by_cases hab : a = b
    · subst hab
      rw [table_putItem hb, get_put_int, if_neg (by omega)]
    · rw [(rewrites_putItem hb t _).table a hab]

/-- What copying does to a table, from one position to the next. The induction is on the number of
values, and the first one is copied before the others are read. -/
theorem copyFrom_of_metatable_eq_none (k : Evaluator) (count : Nat) (hb : b < s.tables.size)
    (hsource : (s.table a).metatable = none) (htarget : (s.table b).metatable = none) (f t : Int) :
    ∃ u, copyFrom k (.table a) (.table b) 1 count f t s = .ok () u ∧ s.Rewrites u b ∧
      (∀ c < count, (u.table b).get (.int (t + c)) =
        (s.table a).get (.int (f + origin a b f t c))) ∧
      (s.table b).AgreesOutside (u.table b) t (t + count) := by
  induction count generalizing s f t with
  | zero => exact ⟨s, rfl, .refl s b, fun c hc => absurd hc (Nat.not_lt_zero c), .refl _ _ _⟩
  | succ count ih =>
    have hstep := rewrites_putItem hb t ((s.table a).get (.int f))
    obtain ⟨u, hrun, hrewrites, hread, hagrees⟩ := ih (hstep.size ▸ hb)
      (hstep.metatable_eq_none hsource) (hstep.metatable_eq_none htarget) (f + 1) (t + 1)
    have hput : (s.table b).AgreesOutside
        ((s.putItem b t ((s.table a).get (.int f))).table b) t (t + 1) :=
      table_putItem hb t _ ▸ agreesOutside_put (s.table b) t _
    refine ⟨u, ?_, hstep.trans hrewrites, fun c hc => ?_, ?_⟩
    · exact (bind_of_ok (item_of_metatable_eq_none hsource k f)).trans
        ((bind_of_ok (put_of_metatable_eq_none htarget k t _)).trans hrun)
    · cases c with
      | zero =>
        rw [origin_zero, cast_zero, Int.add_zero, Int.add_zero,
          hagrees.get_int (.inl (Int.lt_succ t)), table_putItem hb, get_put_int,
          if_pos rfl]
      | succ c =>
        rw [← get_origin_succ hb f t, ← hread c (lt_of_succ_lt_succ hc)]
        congr 2
        push_cast
        ring
    · refine (hput.mono (Int.le_refl t) (by push_cast; omega)).trans (hagrees.mono (by omega) ?_)
      push_cast
      omega

/-- A list begins with its first `d` values over and over exactly if each value is the one `d`
positions before it. -/
theorem repeats_iff (f e : Int) (hd : 0 < d) :
    (∀ c : Nat, f + c ≤ e → g (f + (c % d : Nat)) = g (f + c)) ↔
      ∀ c : Nat, f + d + c ≤ e → g (f + d + c) = g (f + c) := by
  constructor
  · intro h c hc
    have hlater := h (c + d) (by push_cast; omega)
    rw [add_mod_right, h c (by omega)] at hlater
    rw [hlater]
    congr 1
    push_cast
    ring
  · intro h c
    induction c using Nat.strong_induction_on with
    | _ c ih =>
      intro hc
      rcases Nat.lt_or_ge c d with hlt | hge
      · rw [mod_eq_of_lt hlt]
      · obtain ⟨c, rfl⟩ := Nat.exists_eq_add_of_le' hge
        have hposition : f + ((c + d : Nat) : Int) = f + d + c := by
          push_cast
          ring
        rw [add_mod_right, hposition, h c (by omega)]
        exact ih c (by omega) (by omega)

/-- A copy is the one that was asked for exactly if nothing is overwritten before it is read, or
only by what is the same. -/
theorem simultaneous_iff (a b : Nat) (f e t : Int) :
    (∀ c : Nat, f + c ≤ e → g (f + origin a b f t c) = g (f + c)) ↔
      (a = b → f < t → ∀ c : Nat, t + c ≤ e → g (t + c) = g (f + c)) := by
  by_cases hoverlap : a = b ∧ f < t
  · obtain ⟨rfl, hft⟩ := hoverlap
    obtain ⟨d, rfl⟩ : ∃ d : Nat, t = f + d := ⟨(t - f).toNat, by omega⟩
    have hd : 0 < d := by omega
    simp only [origin_of_overlapping a f hd, repeats_iff g f e hd, true_implies, hft]
  · refine iff_of_true (fun c _ => ?_) fun hab hft => absurd ⟨hab, hft⟩ hoverlap
    rw [origin_of_not_overlapping hoverlap]

/-! ## Moves -/

/-- The arguments of a move: without a last one, values are moved within the table. -/
inductive MoveArguments (a : Nat) (f e t : Int) : Nat → List Results → Prop
  | between (b : Nat) : MoveArguments a f e t b
      [.one (.table a), .one (.int f), .one (.int e), .one (.int t), .one (.table b)]
  | within : MoveArguments a f e t a
      [.one (.table a), .one (.int f), .one (.int e), .one (.int t)]

theorem call_move {e : Int} {g : Nat} {args : List Results} {u : Store}
    (hg : s.function? g = some (.ofBuiltin .tableMove)) (hargs : MoveArguments a f e t b args)
    (h : copyFrom k (.table a) (.table b) 1 (span f e) f t s = .ok () u) (scope : Option Nat)
    (traced : Bool) :
    Eval.call k (.func g) args scope traced s = .ok (.ofList [.table b]) u := by
  refine Eval.call_builtin_of_ok hg ?_
  cases hargs with
  | between =>
    have hmove : move k (.table a) (.int f) (.int e) (.int t) (.table b) s = .ok (.table b) u :=
      bind_of_ok h
    exact bind_of_ok hmove
  | within =>
    have hmove : move k (.table a) (.int f) (.int e) (.int t) .nil s = .ok (.table a) u :=
      bind_of_ok h
    exact bind_of_ok hmove

/-- Moving copies value by value, from the lowest position up. Let two tables, which may be one,
have no metatables. Then the value `c` behind position `t` becomes the one that was `c` behind
position `f`, unless values are moved up within one table: there it becomes the one `c % (t - f)`
behind `f`. Nothing else in the table changes. That is a simultaneous assignment exactly if there
are two tables, or values are not moved up, or each value that is overwritten before it is read is
the same as the one that it is overwritten with. -/
theorem move_repeats_overlapped_values {m g a b : Nat} {f e t : Int} {args : List Results}
    {s : Store} (hg : s.function? g = some (.ofBuiltin .tableMove))
    (hargs : MoveArguments a f e t b args) (hb : b < s.tables.size)
    (hsource : (s.table a).metatable = none) (htarget : (s.table b).metatable = none)
    (scope : Option Nat) (traced : Bool) :
    ∃ u, (withFuel (m + 1)).call (.func g) args scope traced s = .ok (.ofList [.table b]) u ∧
      (∀ c : Nat, f + c ≤ e →
        (u.table b).get (.int (t + c)) = (s.table a).get (.int (f + origin a b f t c))) ∧
      (∀ key, (∀ i, t ≤ i → i ≤ t + (e - f) → (Value.int i).rawEq key = false) →
        (u.table b).get key = (s.table b).get key) ∧
      ((∀ c : Nat, f + c ≤ e → (u.table b).get (.int (t + c)) = (s.table a).get (.int (f + c))) ↔
        (a = b → f < t → ∀ c : Nat, t + c ≤ e →
          (s.table a).get (.int (t + c)) = (s.table a).get (.int (f + c)))) := by
  obtain ⟨u, hcopy, -, hread, hagrees⟩ :=
    copyFrom_of_metatable_eq_none (withFuel m) (span f e) hb hsource htarget f t
  have hvalue (c : Nat) (hc : f + c ≤ e) :
      (u.table b).get (.int (t + c)) = (s.table a).get (.int (f + origin a b f t c)) :=
    hread c (by unfold span; omega)
  refine ⟨u, call_move hg hargs hcopy scope traced, hvalue, fun key hkey => ?_, ?_⟩
  · refine hagrees key fun i hi hi' => hkey i hi ?_
    unfold span at hi'
    omega
  · rw [← simultaneous_iff fun i => (s.table a).get (.int i)]
    exact forall₂_congr fun c hc => by rw [hvalue c hc]

/-- The first two of three integers are moved up by one position: the first one is repeated, and the
second one is lost. -/
theorem sortingStore_repeats_first : ∃ u,
    (withFuel 1).call (.func Builtin.tableMove.number)
      [.one (.table 1), .one (.int 1), .one (.int 2), .one (.int 2)] none true
      (sortingStore [1, 2, 3]) = .ok (.ofList [.table 1]) u ∧
    (u.table 1).itemsFrom 0 3 = [.int 1, .int 1, .int 1] ∧
    ¬∀ c : Nat, 1 + c ≤ (2 : Int) →
      (u.table 1).get (.int (2 + c)) = ((sortingStore [1, 2, 3]).table 1).get (.int (1 + c)) := by
  obtain ⟨u, hcall, hread, hother, hsimultaneous⟩ := move_repeats_overlapped_values (m := 0)
    (a := 1) (f := 1) (e := 2) (t := 2) (g := Builtin.tableMove.number)
    (s := sortingStore [1, 2, 3]) rfl .within (by decide) rfl rfl none true
  refine ⟨u, hcall, ?_, fun hclaim => ?_⟩
  · have hfirst : (u.table 1).get (.int 1) = .int 1 := hother _ fun i hi _ => by
      rw [rawEq_int, decide_eq_false_iff_not]
      omega
    have hsecond : (u.table 1).get (.int 2) = .int 1 := hread 0 (by decide)
    have hthird : (u.table 1).get (.int 3) = .int 1 := hread 1 (by decide)
    exact congrArg₂ _ hfirst (congrArg₂ _ hsecond (congrArg₂ _ hthird rfl))
  · have hsame : Value.int 2 = .int 1 := hsimultaneous.mp hclaim rfl (by decide) 0 (by decide)
    cases hsame

end TableLibrary

end LuaInterpreter
