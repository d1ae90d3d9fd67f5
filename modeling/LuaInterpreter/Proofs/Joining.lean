import LuaInterpreter.Proofs.ArgumentLists
import LuaInterpreter.Proofs.Containment

/-!
# Joining the values of a list

The values at some positions of a table are joined from the first to the last. Each one is looked at
before it is added, so that nothing is given if one of them has no text.
-/

namespace LuaInterpreter

open Run List

open Evaluator (withFuel)

open NumberText (digitsOf)

open Operator (concatPart?)

/-! ## Texts -/

/-- The text that a value is joined as: a string is its own, and a number has what it is written as,
unless it is an integer of too many digits. No other value has a text. -/
inductive Value.HasText : Value → Bytes → Prop
  | string (bs : Bytes) : HasText (.str bs) bs
  | integer {n : Int} : (digitsOf n.natAbs).length ≤ 4300 →
      HasText (.int n) (Bytes.ofAscii (integerText n))
  | float (x : Float) : HasText (.num (.float x)) (Bytes.ofAscii (floatText x))

theorem Value.hasText_iff {v : Value} {p : Bytes} : v.HasText p ↔ concatPart? v = some (.ok p) := by
  constructor
  · rintro (_ | @⟨n, hlength⟩ | _)
    · rfl
    · have htext : Number.text (.int n) = .ok (integerText n) := if_neg (Nat.not_lt.mpr hlength)
      rw [Value.int, concatPart?, htext]
      rfl
    · rfl
  · intro h
    cases v with
    | str bs =>
      cases h
      exact .string _
    | num n =>
      cases n with
      | int n =>
        rw [concatPart?, Number.text, writeInteger] at h
        split at h
        · cases h
        · next hlength =>
          cases h
          exact .integer (Nat.not_lt.mp hlength)
      | float x =>
        cases h
        exact .float x
    | _ => cases h

def HaveTexts : List Value → List Bytes → Prop := List.Forall₂ Value.HasText

theorem haveTexts_or_exists (vs : List Value) :
    (∃ parts, HaveTexts vs parts) ∨ ∃ v ∈ vs, ∀ p, ¬v.HasText p := by
  induction vs with
  | nil => exact .inl ⟨[], .nil⟩
  | cons v vs ih =>
    by_cases hv : ∃ p, v.HasText p
    · obtain ⟨p, hp⟩ := hv
      rcases ih with ⟨parts, hparts⟩ | ⟨w, hw, hnone⟩
      · exact .inl ⟨p :: parts, .cons hp hparts⟩
      · exact .inr ⟨w, mem_cons_of_mem v hw, hnone⟩
    · exact .inr ⟨v, mem_cons_self, not_exists.mp hv⟩

theorem haveTexts_append_iff {vs ws : List Value} {parts : List Bytes} :
    HaveTexts (vs ++ ws) parts ↔ ∃ ps qs, HaveTexts vs ps ∧ HaveTexts ws qs ∧ parts = ps ++ qs := by
  constructor
  · intro h
    exact ⟨_, _, (forall₂_take_append _ _ _ h.flip).flip,
      (forall₂_drop_append _ _ _ h.flip).flip, (take_append_drop vs.length parts).symm⟩
  · rintro ⟨ps, qs, hps, hqs, rfl⟩
    exact rel_append hps hqs

theorem intercalate_append (sep : Bytes) {ps qs : List Bytes} (hps : ps ≠ []) (hqs : qs ≠ []) :
    sep.intercalate (ps ++ qs) = sep.intercalate ps ++ sep ++ sep.intercalate qs := by
  obtain ⟨q, qs, rfl⟩ := exists_cons_of_ne_nil hqs
  induction ps with
  | nil => exact absurd rfl hps
  | cons p ps ih =>
    cases ps with
    | nil => rw [singleton_append, intercalate_cons_cons, intercalate_singleton]
    | cons p' ps =>
      rw [cons_append, cons_append, intercalate_cons_cons, ← cons_append,
        ih (cons_ne_nil p' ps), intercalate_cons_cons]
      simp only [append_assoc]

theorem Operator.concat_of_texts {a b : Value} {x y : Bytes} (ha : a.HasText x) (hb : b.HasText y)
    (call : Caller) (s : Store) : concat call a b s = .ok (.str (x ++ y)) s := by
  simp only [concat, Value.hasText_iff.mp ha, Value.hasText_iff.mp hb]
  rfl

/-! ## Failures -/

variable {α : Type}

theorem Run.error_raises (text : String) (s : Store) :
    Raises Signal.IsFailure (error text : Run α) s s := by
  unfold error
  cases asciiMessage text with
  | ok message => exact ⟨.error { message }, trivial, rfl⟩
  | error f => exact ⟨.fault f, trivial, rfl⟩

theorem Run.ofExcept_bind_raises {β : Type} {f : β → Run α} {s : Store}
    (hf : ∀ b, Raises Signal.IsFailure (f b) s s) (r : Except Fault β) :
    Raises Signal.IsFailure (ofExcept r >>= f) s s := by
  cases r with
  | ok b => exact hf b
  | error fl => exact ⟨.fault fl, trivial, rfl⟩

namespace TableLibrary

variable {k : Evaluator} {id g count : Nat} {sep : Value} {between p : Bytes} {i j : Int}
  {before parts : List Bytes} {s : Store}

/-! ## The loop -/

/-- What has been joined after some texts; there is nothing yet after none. -/
def joined (between : Bytes) : List Bytes → Option Value
  | [] => none
  | parts => some (.str (between.intercalate parts))

section

variable (hmetatable : (s.table id).metatable = none)
include hmetatable

variable (hsep : sep.HasText between)
include hsep

omit hmetatable in
theorem front_joined (before : List Bytes) :
    ∃ x, front k sep (joined between before) s = .ok (.str x) s ∧
      ∀ p, joined between (before ++ [p]) = some (.str (x ++ p)) := by
  cases before with
  | nil =>
    refine ⟨[], rfl, fun p => ?_⟩
    rw [nil_append, nil_append, joined, intercalate_singleton]
    exact cons_ne_nil p []
  | cons q qs =>
    refine ⟨_, Operator.concat_of_texts (.string _) hsep _ s, fun p => ?_⟩
    have hjoined := intercalate_append between (cons_ne_nil q qs) (cons_ne_nil p [])
    rw [intercalate_singleton] at hjoined
    rw [← hjoined]
    rfl

theorem joinFrom_succ (hpart : ((s.table id).get (.int i)).HasText p) (before : List Bytes) :
    joinFrom k (.table id) sep (count + 1) i (joined between before) s =
      joinFrom k (.table id) sep count (i + 1) (joined between (before ++ [p])) s := by
  obtain ⟨x, hfront, hjoined⟩ := front_joined (k := k) (s := s) hsep before
  refine (bind_of_ok (item_of_metatable_eq_none hmetatable k i)).trans ?_
  simp only [Value.hasText_iff.mp hpart]
  refine (bind_of_ok hfront).trans ?_
  rw [hjoined]
  exact bind_of_ok (Operator.concat_of_texts (.string x) hpart _ s)

theorem joinFrom_succ_raises (hnone : ∀ p, ¬((s.table id).get (.int i)).HasText p)
    (before : List Bytes) :
    Raises Signal.IsFailure (joinFrom k (.table id) sep (count + 1) i (joined between before)) s
      s := by
  refine bind_raises_of_ok (item_of_metatable_eq_none hmetatable k i) ?_
  cases hpart : concatPart? ((s.table id).get (.int i)) with
  | none =>
    exact ofExcept_bind_raises (fun name => ofExcept_bind_raises (fun _ => error_raises _ s) _) _
  | some part =>
    obtain ⟨x, hfront, -⟩ := front_joined (k := k) (s := s) hsep before
    refine bind_raises_of_ok hfront (bind_raises ?_)
    cases part with
    | ok p => exact (hnone p (Value.hasText_iff.mpr hpart)).elim
    | error f =>
      refine ⟨.fault f, trivial, ?_⟩
      simp only [Operator.concat, hpart]
      rfl

/-- The induction is on the number of positions; the texts before them are arbitrary. -/
theorem joinFrom_of_haveTexts (hparts : HaveTexts ((s.table id).values i count) parts)
    (before : List Bytes) :
    joinFrom k (.table id) sep count i (joined between before) s =
      .ok (joined between (before ++ parts)) s := by
  induction count generalizing i parts before with
  | zero =>
    cases hparts
    rw [append_nil]
    rfl
  | succ count ih =>
    cases hparts with
    | @cons _ p _ parts hpart hrest =>
      rw [joinFrom_succ hmetatable hsep hpart, ih hrest, append_assoc, singleton_append]

theorem joinFrom_raises (hnone : ∃ v ∈ (s.table id).values i count, ∀ p, ¬v.HasText p)
    (before : List Bytes) :
    Raises Signal.IsFailure (joinFrom k (.table id) sep count i (joined between before)) s s := by
  induction count generalizing i before with
  | zero =>
    obtain ⟨v, hv, -⟩ := hnone
    cases hv
  | succ count ih =>
    by_cases hpart : ∃ p, ((s.table id).get (.int i)).HasText p
    · obtain ⟨p, hpart⟩ := hpart
      obtain ⟨v, hv, hv'⟩ := hnone
      rcases mem_cons.mp hv with rfl | hv
      · exact (hv' p hpart).elim
      · exact (ih ⟨v, hv, hv'⟩ (before ++ [p])).of_eq (joinFrom_succ hmetatable hsep hpart before)
    · exact joinFrom_succ_raises hmetatable hsep (not_exists.mp hpart) before

end

/-! ## Calls -/

theorem ne_nil_of_haveTexts {t : Table} (hparts : HaveTexts (t.values i (span i j)) parts)
    (hij : i ≤ j) : parts ≠ [] := by
  obtain ⟨n, hn⟩ := Nat.exists_eq_add_one.mpr (Nat.zero_lt_of_lt (lt_span (c := 0) (by simpa)))
  rw [hn] at hparts
  rintro rfl
  cases hparts

theorem concat_of_lt (hji : j < i) (list : Value) :
    concat k list sep (.int i) (.int j) s = .ok (.str []) s := by
  have hlt : Operator.lessThan k.call (.int j) (.int i) s = .ok true s :=
    congrArg (EStateM.Result.ok · s) (decide_eq_true hji)
  exact (bind_of_ok hlt).trans rfl

theorem concat_of_le (hij : i ≤ j) (list : Value) :
    concat k list sep (.int i) (.int j) s =
      (joinFrom k list sep (span i j) i (joined between []) >>= fun v =>
        pure (v.getD (.foreign .none))) s := by
  have hlt : Operator.lessThan k.call (.int j) (.int i) s = .ok false s :=
    congrArg (EStateM.Result.ok · s) (decide_eq_false (Int.not_lt.mpr hij))
  exact (bind_of_ok hlt).trans rfl

section

variable {scope : Option Nat} {traced : Bool}

def joinArguments (id : Nat) (sep : Value) (i j : Int) : List Results :=
  [.one (.table id), .one sep, .one (.int i), .one (.int j)]

theorem runNative_concat (k : Evaluator) (id : Nat) (sep : Value) (i j : Int) (s : Store) :
    Eval.runNative k (.ofBuiltin .tableConcat) (Results.flatten (joinArguments id sep i j)) scope s =
      (concat k (.table id) sep (.int i) (.int j) >>= fun v => pure (.ofList [v])) s := rfl

variable (hg : s.function? g = some (.ofBuiltin .tableConcat))
  (hmetatable : (s.table id).metatable = none) (hsep : sep.HasText between)
include hg hmetatable hsep

theorem call_concat_of_haveTexts (hparts : HaveTexts ((s.table id).values i (span i j)) parts) :
    Eval.call k (.func g) (joinArguments id sep i j) scope traced s =
      .ok (.ofList [.str (between.intercalate parts)]) s := by
  suffices hconcat : concat k (.table id) sep (.int i) (.int j) s =
      .ok (.str (between.intercalate parts)) s from
    Eval.call_builtin_of_ok hg ((runNative_concat k id sep i j s).trans (bind_of_ok hconcat))
  rcases Int.lt_or_le j i with hji | hij
  · have hspan : span i j = 0 := Int.toNat_of_nonpos (by omega)
    rw [hspan] at hparts
    cases hparts
    exact concat_of_lt hji _
  · rw [concat_of_le hij]
    refine (bind_of_ok (joinFrom_of_haveTexts hmetatable hsep hparts [])).trans ?_
    obtain ⟨p, ps, rfl⟩ := exists_cons_of_ne_nil (ne_nil_of_haveTexts hparts hij)
    rfl

theorem call_concat_of_exists
    (hnone : ∃ v ∈ (s.table id).values i (span i j), ∀ p, ¬v.HasText p) :
    ∃ e : LuaError, Eval.call k (.func g) (joinArguments id sep i j) scope traced s =
      .error (.error e) s := by
  have hij : i ≤ j := by
    by_contra hji
    have hspan : span i j = 0 := Int.toNat_of_nonpos (by omega)
    rw [hspan] at hnone
    obtain ⟨v, hv, -⟩ := hnone
    cases hv
  have hconcat : Raises Signal.IsFailure (concat k (.table id) sep (.int i) (.int j)) s s :=
    (bind_raises (joinFrom_raises hmetatable hsep hnone [])).of_eq (concat_of_le hij _)
  exact Eval.call_builtin_of_failure hg
    ((bind_raises hconcat).of_eq (runNative_concat k id sep i j s)) traced

end

/-- Joining the values at the positions from `i` to `j` of a table without a metatable gives their
texts in order, with that of the separator between neighbours; nothing if there are no positions.
If a value has no text, because it is neither a string nor a number or has too many digits, there is
an error, and nothing has changed. So the values can be joined in two parts. -/
theorem concat_joins_texts {m g id : Nat} {sep : Value} {between : Bytes} {s : Store}
    (hg : s.function? g = some (.ofBuiltin .tableConcat))
    (hmetatable : (s.table id).metatable = none) (hsep : sep.HasText between)
    (scope : Option Nat) (traced : Bool) :
    let item (i : Int) := (s.table id).get (.int i)
    let call (i j : Int) := (withFuel (m + 1)).call (.func g)
      [.one (.table id), .one sep, .one (.int i), .one (.int j)] scope traced s
    (∀ i j, j < i → call i j = .ok (.ofList [.str []]) s) ∧
    (∀ (i : Int) (parts : List Bytes),
      (∀ (c : Nat) (p : Bytes), parts[c]? = some p → (item (i + c)).HasText p) →
      call i (i + parts.length - 1) = .ok (.ofList [.str (between.intercalate parts)]) s) ∧
    (∀ i l j, i ≤ l → l ≤ j → (∀ p, ¬(item l).HasText p) → ∃ e : LuaError,
      call i j = .error (.error e) s) ∧
    ∀ i l j, i ≤ l → l < j → ∀ r, call i j = .ok (.ofList [.str r]) s ↔
      ∃ a b, call i l = .ok (.ofList [.str a]) s ∧ call (l + 1) j = .ok (.ofList [.str b]) s ∧
        r = a ++ between ++ b := by
  intro item call
  have hjoin {i j : Int} {parts : List Bytes}
      (hparts : HaveTexts ((s.table id).values i (span i j)) parts) :
      call i j = .ok (.ofList [.str (between.intercalate parts)]) s :=
    call_concat_of_haveTexts hg hmetatable hsep hparts
  have hfail {i j : Int} (hnone : ∃ v ∈ (s.table id).values i (span i j), ∀ p, ¬v.HasText p) :
      ∃ e : LuaError, call i j = .error (.error e) s :=
    call_concat_of_exists hg hmetatable hsep hnone
  have hiff {i j : Int} {r : Bytes} : call i j = .ok (.ofList [.str r]) s ↔
      ∃ parts, HaveTexts ((s.table id).values i (span i j)) parts ∧ r = between.intercalate parts := by
    refine ⟨fun hr => ?_, fun ⟨parts, hparts, hr⟩ => hr ▸ hjoin hparts⟩
    rcases haveTexts_or_exists ((s.table id).values i (span i j)) with ⟨parts, hparts⟩ | hnone
    · cases (hjoin hparts).symm.trans hr
      exact ⟨parts, hparts, rfl⟩
    · obtain ⟨e, he⟩ := hfail hnone
      cases he.symm.trans hr
  refine ⟨fun i j hji => ?_, fun i parts hparts => hjoin ?_, fun i l j hil hlj hnone => hfail ?_,
    fun i l j hil hlj r => ?_⟩
  · have hspan : span i j = 0 := Int.toNat_of_nonpos (by omega)
    have hnil : HaveTexts ((s.table id).values i (span i j)) [] := hspan ▸ .nil
    exact hjoin hnil
  · have hspan : span i (i + parts.length - 1) = parts.length := by
      unfold span
      omega
    rw [hspan]
    exact Table.forall₂_values hparts
  · obtain ⟨c, rfl⟩ := Int.le.dest hil
    exact ⟨_, mem_of_getElem? (Table.getElem?_values _ i (lt_span hlj)), hnone⟩
  · rw [hiff, ← values_append _ hil hlj]
    constructor
    · rintro ⟨parts, hparts, rfl⟩
      obtain ⟨ps, qs, hps, hqs, rfl⟩ := haveTexts_append_iff.mp hparts
      exact ⟨_, _, hjoin hps, hjoin hqs,
        intercalate_append between (ne_nil_of_haveTexts hps hil) (ne_nil_of_haveTexts hqs hlj)⟩
    · rintro ⟨a, b, ha, hb, rfl⟩
      obtain ⟨ps, hps, rfl⟩ := hiff.mp ha
      obtain ⟨qs, hqs, rfl⟩ := hiff.mp hb
      exact ⟨ps ++ qs, haveTexts_append_iff.mpr ⟨ps, qs, hps, hqs, rfl⟩, (intercalate_append between
        (ne_nil_of_haveTexts hps hil) (ne_nil_of_haveTexts hqs hlj)).symm⟩

/-- Two integers are joined with a third one between them, but not with what follows them. -/
theorem sortingStore_joined :
    (withFuel 1).call (.func Builtin.tableConcat.number)
        [.one (.table 1), .one (.int 0), .one (.int 1), .one (.int 2)] none false
        (sortingStore [7, 8]) =
      .ok (.ofList [.ascii "708"]) (sortingStore [7, 8]) ∧
    ∃ e : LuaError, (withFuel 1).call (.func Builtin.tableConcat.number)
        [.one (.table 1), .one (.int 0), .one (.int 1), .one (.int 3)] none false
        (sortingStore [7, 8]) =
      .error (.error e) (sortingStore [7, 8]) := by
  have hg : (sortingStore [7, 8]).function? Builtin.tableConcat.number =
      some (.ofBuiltin .tableConcat) := rfl
  have hmetatable : ((sortingStore [7, 8]).table 1).metatable = none := rfl
  have hsep : (Value.int 0).HasText (Bytes.ofAscii "0") := .integer (by decide)
  obtain ⟨-, hjoin, hfail, -⟩ := concat_joins_texts (m := 0) hg hmetatable hsep none false
  refine ⟨hjoin 1 [Bytes.ofAscii "7", Bytes.ofAscii "8"] fun c p hp => ?_,
    hfail 1 3 3 (by decide) (by decide) fun p hp => by cases hp⟩
  rcases c with - | - | c
  · cases hp
    exact .integer (by decide)
  · cases hp
    exact .integer (by decide)
  · cases hp

end TableLibrary

end LuaInterpreter
