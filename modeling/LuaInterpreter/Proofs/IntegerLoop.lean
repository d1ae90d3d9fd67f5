import LuaInterpreter.Proofs.LoopScope
import LuaInterpreter.Proofs.Wrapping

/-!
# Loops over integers

A numeric loop adds its step to the number at hand until the limit has been passed, or until the sum
is not exact. Sums are reported as inexact from the two ends of the range of 64 bits on, so a loop
goes through its whole progression if the limit lies strictly between these ends, and stops short of
the limit if it is one of them.
-/

namespace LuaInterpreter

open Store Bytes

namespace Number

/-! ## Sums -/

instance (i : Int) : Decidable (IsInt64 i) := inferInstanceAs (Decidable (_ ∧ _))

instance (i : Int) : Decidable (IsInner i) := inferInstanceAs (Decidable (_ ∧ _))

variable {i a b : Int}

/-- No integer is brought back to itself but those strictly inside the range. -/
theorem wrap_eq_self_iff : wrap i = i ↔ IsInner i := by
  refine ⟨fun h => ?_, wrap_of_isInner⟩
  by_contra houter
  obtain ⟨hsplit, hlow, hhigh⟩ := fdiv_fmod_maxInt i
  rw [wrap_of_not_isInner houter] at h
  unfold IsInner at houter
  unfold minInt maxInt at *
  split at h <;> omega

theorem addReporting_of_isInner (h : IsInner (a + b)) :
    addReporting (.int a) (.int b) = .ok (false, .int (a + b)) := by
  simp [addReporting, wrap_of_isInner h]

theorem addReporting_of_not_isInner (h : ¬IsInner (a + b)) :
    addReporting (.int a) (.int b) = .ok (true, .int (wrap (a + b))) := by
  simp [addReporting, mt wrap_eq_self_iff.mp h]

/-- The integers strictly inside the range are those in the range, but for its ends. -/
theorem isInner_iff_isInt64_iff : (IsInner i ↔ IsInt64 i) ↔ i ≠ minInt ∧ i ≠ maxInt := by
  unfold IsInner IsInt64 minInt maxInt
  omega

end Number

open Run Number

open Evaluator (withFuel)

namespace Run

theorem Rounds.concat {σ α : Type} {step : σ → Run (σ ⊕ α)} {n : Nat} {x y z : σ} {s t u : Store}
    (h : Rounds step n x s y t) (hstep : step y t = .ok (.inl z) u) :
    Rounds step (n + 1) x s z u := by
  induction h with
  | zero => exact .succ hstep .zero
  | succ hround _ ih => exact .succ hround (ih hstep)

end Run

namespace Eval

/-! ## Progressions -/

/-- The `i`-th number of the progression from `a` by `d` has not passed the limit `l`. -/
def InReach (a l d : Int) (i : Nat) : Prop := if d < 0 then l ≤ a + i * d else a + i * d ≤ l

instance (a l d : Int) (i : Nat) : Decidable (InReach a l d i) :=
  inferInstanceAs (Decidable (if d < 0 then l ≤ a + i * d else a + i * d ≤ l))

/-- A loop from `a` to `l` by `d` comes to its `i`-th number: the sum that leads there is exact. -/
def Visited (a l d : Int) (i : Nat) : Prop := InReach a l d i ∧ (i = 0 ∨ IsInner (a + i * d))

section

variable {a l d : Int} {i : Nat}

theorem covers_iff (a l d i : Int) :
    Progression.covers ⟨.int a, .int l, .int d⟩ (.int i) = true ↔
      if d < 0 then l ≤ i else i ≤ l := by
  by_cases h : d < 0 <;> simp [Progression.covers, Number.lt, Number.le, h]

/-- The multiples of a number are zero, or lie on its side of zero and not before it. -/
theorem mul_bounds (i : Nat) (d : Int) :
    i = 0 ∧ i * d = 0 ∨ 0 < i ∧ (0 ≤ d → d ≤ i * d) ∧ (d < 0 → i * d ≤ d) := by
  rcases Nat.eq_zero_or_pos i with rfl | hpos
  · simp
  · have hi : (1 : Int) ≤ i := by omega
    refine .inr ⟨hpos, fun hd => ?_, fun hd => ?_⟩
    · simpa using Int.mul_le_mul_of_nonneg_right hi hd
    · simpa using Int.mul_le_mul_of_nonpos_right hi (Int.le_of_lt hd)

variable (ha : IsInt64 a)
include ha

theorem Visited.pred (h : Visited a l d (i + 1)) : Visited a l d i := by
  obtain ⟨hreach, hinner⟩ := h
  have hbounds := mul_bounds i d
  rw [InReach] at hreach
  rw [Int.natCast_succ, Int.add_mul, Int.one_mul] at hinner hreach
  unfold Visited InReach
  unfold IsInt64 at ha
  unfold IsInner at hinner ⊢
  by_cases hd : d < 0
  · rw [if_pos hd] at hreach ⊢
    omega
  · rw [if_neg hd] at hreach ⊢
    omega

theorem not_visited_wordCount (hd : d ≠ 0) : ¬Visited a l d wordCount.toNat := by
  rintro ⟨-, hzero | hinner⟩
  · revert hzero
    decide
  · have hcast : ((wordCount.toNat : Nat) : Int) = wordCount := rfl
    rw [hcast] at hinner
    unfold IsInt64 at ha
    unfold IsInner at hinner
    unfold minInt maxInt wordCount at *
    omega

/-- A loop comes to the first numbers of its progression, and to no others. -/
theorem exists_count (hd : d ≠ 0) : ∃ count, ∀ i, i < count ↔ Visited a l d i := by
  classical
  have hexists : ∃ i, ¬Visited a l d i := ⟨_, not_visited_wordCount ha hd⟩
  have hup (i j : Nat) (h : ¬Visited a l d i) : ¬Visited a l d (i + j) := by
    induction j with
    | zero => exact h
    | succ j ih => exact fun h' => ih (h'.pred ha)
  refine ⟨Nat.find hexists, fun i => ⟨fun hlt => ?_, fun h => ?_⟩⟩
  · exact not_not.mp (Nat.find_min hexists hlt)
  · by_contra hle
    obtain ⟨j, rfl⟩ := Nat.exists_eq_add_of_le (Nat.not_lt.mp hle)
    exact hup _ j (Nat.find_spec hexists) h

/-- Where the limit lies strictly inside the range, so do all numbers before it but the first. -/
theorem visited_iff_inReach (hd : d ≠ 0) (hl : IsInner l) : Visited a l d i ↔ InReach a l d i := by
  refine and_iff_left_of_imp fun hreach => ?_
  have hbounds := mul_bounds i d
  unfold InReach at hreach
  unfold IsInt64 at ha
  unfold IsInner at hl ⊢
  split at hreach <;> omega

/-- Where the limit is an end of the range, it is left out, unless the loop starts there. -/
theorem visited_iff_of_end (hl : 0 < d ∧ l = maxInt ∨ d < 0 ∧ l = minInt) :
    Visited a l d i ↔ i = 0 ∨ IsInner (a + i * d) := by
  refine and_iff_right_of_imp fun h => ?_
  have hbounds := mul_bounds i d
  unfold InReach
  unfold IsInt64 at ha
  unfold IsInner at h
  split <;> omega

/-- Only a sum can lead to such a limit and be missed. -/
theorem visited_iff_inReach_iff (hl : 0 < d ∧ l = maxInt ∨ d < 0 ∧ l = minInt) :
    (Visited a l d i ↔ InReach a l d i) ↔ (0 < i → a + i * d ≠ l) := by
  have hbounds := mul_bounds i d
  unfold Visited InReach IsInner
  unfold IsInt64 at ha
  split <;> omega

end

/-! ## Rounds -/

/-- The body of a loop is run to its end once for each number of a list, in the order of the list;
each time the variable of the loop has just been given the number. -/
inductive Counts (k : Evaluator) (inner : Nat) (x : Bytes) (body : Block) :
    List Int → Store → Store → Prop
  | done {s : Store} : Counts k inner x body [] s s
  | next {i : Int} {rest : List Int} {s t u v : Store} {r : Results} :
      declare inner x { value := .num (.int i) } s = .ok () t →
      (t.scope inner).find? x = some { value := .num (.int i) } →
      runBlock k inner body t = .ok r u → Counts k inner x body rest u v →
      Counts k inner x body (i :: rest) s v

/-- A scope has no constant of a name. -/
def Free (s : Store) (scope : Nat) (x : Bytes) : Prop :=
  ∀ v, (s.scope scope).find? x = some v → v.constant = false

/-- Whenever a loop comes to its body, the body ends normally and leaves no constant with the name
`x` in the scope of the loop. -/
def RunsThrough (k : Evaluator) (scope : Nat) (form : StatForm) (x : Bytes) (s : Store) : Prop :=
  ∀ i inner body t, Iterates k scope form s i inner body t →
    ∃ r u, runBlock k inner body t = .ok r u ∧ Free u inner x

section

variable {k : Evaluator} {scope inner : Nat} {x : Bytes} {body : Block} {a l d : Int} {i : Nat}
  {s t u : Store}

theorem find?_of_declare {v : Variable} (hscope : scope < t.scopes.size)
    (h : declare scope x v s = .ok () t) : (t.scope scope).find? x = some v := by
  have hfree : Free s scope x := by
    intro old hold
    by_contra hconstant
    rw [declare_of_constant hold (Bool.eq_true_of_not_eq_false hconstant)] at h
    cases h
  rw [declare_of_variable hfree] at h
  cases h
  rw [(sameShape_setVariable s scope x v).size] at hscope
  rw [find?_setVariable hscope, if_pos ⟨rfl, rfl⟩]

/-- A round at a number before the limit: the body is run, and what comes next is up to the sum. -/
theorem countRound_of_inReach {r : Results} {overflow : Bool} {next : Number}
    (hreach : InReach a l d i)
    (hdeclare : declare inner x { value := .num (.int (a + i * d)) } s = .ok () t)
    (hrun : runBlock k inner body t = .ok r u)
    (hsum : addReporting (.int (a + i * d)) (.int d) = .ok (overflow, next)) :
    countRound k inner x ⟨.int a, .int l, .int d⟩ body (.int (a + i * d)) s =
      .ok (if overflow then .inr () else .inl next) u := by
  have hcovers := (covers_iff a l d (a + i * d)).mpr hreach
  rw [countRound, if_pos hcovers, bind_of_ok hdeclare, bind_of_ok hrun, hsum]
  rfl

theorem countRound_of_not_inReach (hreach : ¬InReach a l d i) :
    countRound k inner x ⟨.int a, .int l, .int d⟩ body (.int (a + i * d)) s = .ok (.inr ()) s := by
  rw [countRound, if_neg (mt (covers_iff a l d (a + i * d)).mp hreach)]
  rfl

theorem before_counting (hreach : InReach a l d i)
    (hdeclare : declare inner x { value := .num (.int (a + i * d)) } s = .ok () t) :
    (Cycle.counting inner x ⟨.int a, .int l, .int d⟩).before (.int (a + i * d)) s = .ok true t := by
  simp only [Cycle.counting, (covers_iff a l d (a + i * d)).mpr hreach, if_true]
  exact bind_of_ok hdeclare

/-- From the `i`-th number on, a loop runs its body for all further numbers that it comes to. The
induction is on how many these are; before each, the rounds so far are those of the loop. -/
theorem loop_counts (hk : k.Confined False) {form : StatForm} {count m fuel : Nat} {s₀ s₁ : Store}
    (hstarts : Starts k scope form s₀ inner body (.counting inner x ⟨.int a, .int l, .int d⟩) s₁)
    (hbody : RunsThrough k scope form x s₀) (hcount : ∀ i, i < count ↔ Visited a l d i)
    (hlimit : count ≤ k.fuel) (hsum : i + m = count) (hlive : i = 0 ∨ IsInner (a + i * d))
    (hrounds :
      Rounds (countRound k inner x ⟨.int a, .int l, .int d⟩ body) i (.int a) s₁ (.int (a + i * d)) s)
    (hinner : inner < s.scopes.size) (hfree : Free s inner x) (hfuel : m < fuel) :
    ∃ t, Counts k inner x body ((List.range' i m).map fun (j : Nat) => a + j * d) s t ∧
      loop fuel (countRound k inner x ⟨.int a, .int l, .int d⟩ body) (.int (a + i * d)) s =
        .ok () t := by
  obtain ⟨fuel, rfl⟩ := Nat.exists_eq_add_one.mpr (Nat.zero_lt_of_lt hfuel)
  induction m generalizing i s fuel with
  | zero =>
    have hreach : ¬InReach a l d i := fun hreach =>
      Nat.lt_irrefl count (hsum ▸ (hcount i).mpr ⟨hreach, hlive⟩)
    exact ⟨s, .done, bind_of_ok (countRound_of_not_inReach hreach)⟩
  | succ m ih =>
    have hi : i < count := by omega
    obtain ⟨hreach, -⟩ := (hcount i).mp hi
    have hdeclare := declare_of_variable (v := { value := .num (.int (a + i * d)) }) hfree
    have hdeclared := hinner
    rw [← (sameShape_setVariable s inner x { value := .num (.int (a + i * d)) }).size]
      at hdeclared
    obtain ⟨r, u, hrun, hfree'⟩ := hbody i inner body _
      (.intro hstarts (Cycle.round_counting x _ ▸ hrounds) (by omega) (before_counting hreach hdeclare))
    have hfind := find?_of_declare hdeclared hdeclare
    have hsize := ((confined_runBlock (D := fun _ _ => True) hk False.elim body
      fun _ _ => trivial).extends_of_ok hrun).size
    have hnumber : a + (i + 1 : Nat) * d = a + i * d + d := by
      rw [Int.natCast_succ, Int.add_mul, Int.one_mul, Int.add_assoc]
    by_cases hnext : IsInner (a + i * d + d)
    · have hround := countRound_of_inReach hreach hdeclare hrun (addReporting_of_isInner hnext)
      rw [← hnumber] at hround hnext
      obtain ⟨fuel, rfl⟩ := Nat.exists_eq_add_one.mpr (show 0 < fuel by omega)
      obtain ⟨t, hcounts, hloop⟩ := ih (by omega) (.inr hnext) (hrounds.concat hround)
        (Nat.lt_of_lt_of_le hdeclared hsize) hfree' fuel (by omega)
      exact ⟨t, .next hdeclare hfind hrun hcounts, (bind_of_ok hround).trans hloop⟩
    · -- The sum that would lead to a further number is not exact.
      have hlast : ¬i + 1 < count := fun h =>
        hnext (hnumber ▸ ((hcount (i + 1)).mp h).2.resolve_left (Nat.succ_ne_zero i))
      obtain rfl : m = 0 := by omega
      have hround := countRound_of_inReach hreach hdeclare hrun (addReporting_of_not_isInner hnext)
      exact ⟨u, .next hdeclare hfind hrun .done, bind_of_ok hround⟩

theorem countLoop_of_pushScope {p : Progression} (hstep : p.step.eq (.int 0) = false)
    (hpush : pushScope scope s = .ok inner t) :
    countLoop k scope x p body s = loop k.fuel (countRound k inner x p body) p.start t := by
  simp only [countLoop, hstep, Bool.false_eq_true, if_false]
  exact bind_of_ok hpush

variable {action : Run Unit}

theorem breakable_of_ok (h : action s = .ok () t) : breakable action s = .ok () t :=
  tryCatch_of_ok h

theorem free_of_pushScope (h : pushScope scope s = .ok inner t) : Free t inner x := by
  intro v hv
  rw [scope_of_pushScope h] at hv
  cases hv

end

variable {s : Store}

/-- A numeric loop over integers runs its body for the numbers that it comes to, and then it ends. -/
theorem statement_counts {n scope count : Nat} {st : Stat} {name : Name} {start stop : Expr}
    {step : Option Expr} {body : Block} {x : Bytes} {a l d : Int} {t : Store}
    (hform : st.form = .for name start stop step body)
    (hhead : forHead (withFuel n) scope name start stop step s =
      .ok (x, ⟨.int a, .int l, .int d⟩) t) (hd : d ≠ 0) (hcount : ∀ i, i < count ↔ Visited a l d i)
    (hbody : RunsThrough (withFuel n) scope st.form x s) (hfuel : count < n) :
    ∃ inner u v, pushScope scope t = .ok inner u ∧
      Counts (withFuel n) inner x body ((List.range count).map fun (i : Nat) => a + i * d) u v ∧
      (withFuel (n + 1)).stat scope st s = .ok none v := by
  have hn : (withFuel n).fuel = n := by cases n <;> rfl
  have hstep : (Number.int d).eq (.int 0) = false := by simpa [Number.eq] using hd
  obtain ⟨inner, u, hpush⟩ : ∃ inner u, pushScope scope t = .ok inner u := ⟨_, _, rfl⟩
  have hstarts : Starts (withFuel n) scope st.form s inner body
      (.counting inner x ⟨.int a, .int l, .int d⟩) u := hform ▸ .inFor hhead hstep hpush
  have hzero : a + (0 : Nat) * d = a := by simp
  have hrounds : Rounds (countRound (withFuel n) inner x ⟨.int a, .int l, .int d⟩ body) 0 (.int a) u
      (.int (a + (0 : Nat) * d)) u := by
    rw [hzero]
    exact .zero
  have hk := Evaluator.confined_withFuel False n
  obtain ⟨v, hcounts, hloop⟩ := loop_counts hk hstarts hbody hcount (by omega) (Nat.zero_add count)
    (.inl rfl) hrounds (hstarts.names hk).1 (free_of_pushScope hpush) hfuel
  refine ⟨inner, u, v, hpush, List.range_eq_range' ▸ hcounts, ?_⟩
  have hcountLoop : countLoop (withFuel n) scope x ⟨.int a, .int l, .int d⟩ body t = .ok () v := by
    rw [countLoop_of_pushScope hstep hpush, hn]
    exact hzero ▸ hloop
  have hfor : forLoop (withFuel n) scope name start stop step body s = .ok () v :=
    breakable_of_ok ((bind_of_ok hhead).trans hcountLoop)
  show statement (withFuel n) scope st s = .ok none v
  rw [statement, hform]
  exact traced_eq_ok_iff.mpr (bind_of_ok hfor)

/-! ### A loop that overwrites its variable -/

def integerNumeral (digits : String) : Expr :=
  .mk {} (.numeral (.decimal { text := digits } none none none))

def nameI : Name := { lexeme := { text := "i" } }

/-- The body `i = true`. -/
def overwritingBody : Block :=
  .mk {} [.mk {} (.assign [.mk {} (.variable nameI)] [.mk {} .litTrue])] none

/-- The loop `for i = start, stop, step do i = true end`. -/
def overwritingLoop (start stop step : String) : Stat :=
  .mk {} (.for nameI (integerNumeral start) (integerNumeral stop) (some (integerNumeral step))
    overwritingBody)

theorem runBlock_overwritingBody {inner : Nat} {v : Variable}
    (hv : (s.scope inner).find? (ofAscii "i") = some v) (hconstant : v.constant = false) :
    ∃ r, runBlock (withFuel 4) inner overwritingBody s =
      .ok r (s.setVariable inner (ofAscii "i") { value := .bool true }) := by
  have howner : s.owner? inner (ofAscii "i") = some inner := by
    simp only [Store.owner?, Store.ownerFrom, hv]
  have hassign : assign inner (ofAscii "i") (.bool true) s =
      .ok () (s.setVariable inner (ofAscii "i") { value := .bool true }) := by
    simp only [assign, get_bind_apply, howner, hv, hconstant]
    rfl
  have hvalue : (withFuel 3).expr inner (.mk {} .litTrue) s = .ok (.one (.bool true)) s :=
    traced_eq_ok_iff.mpr rfl
  have hvalues : each (withFuel 3) inner [.mk {} .litTrue] s = .ok [.one (.bool true)] s :=
    bind_of_ok hvalue
  have hassigns : assignAll (withFuel 3) inner [.mk {} (.variable nameI)] [.bool true] s =
      .ok () (s.setVariable inner (ofAscii "i") { value := .bool true }) :=
    bind_of_ok hassign
  have hstat : (withFuel 4).stat inner
      (.mk {} (.assign [.mk {} (.variable nameI)] [.mk {} .litTrue])) s =
        .ok (some (.ofList [.bool true]))
          (s.setVariable inner (ofAscii "i") { value := .bool true }) := by
    refine traced_eq_ok_iff.mpr ?_
    exact (bind_of_ok hvalues).trans (bind_of_ok hassigns)
  exact ⟨_, bind_of_ok (runStats_cons_of_ok hstat)⟩

theorem runsThrough_overwritingLoop (start stop step : String) :
    RunsThrough (withFuel 4) 3 (overwritingLoop start stop step).form (ofAscii "i")
      siblingScopes := by
  intro i inner body t h
  obtain ⟨-, hparent⟩ := h.enters.later (Evaluator.confined_withFuel True 4)
    wellFormed_siblingScopes (by decide)
  have hinner := lt_size_of_parent_eq_some hparent
  cases h.enters with
  | inFor hhead _ _ _ _ _ hdeclare =>
    have hname := ensures_forHead _ _ _ _ _ _ _ hhead
    cases hname
    have hfind := find?_of_declare hinner hdeclare
    obtain ⟨r, hrun⟩ := runBlock_overwritingBody hfind rfl
    refine ⟨r, _, hrun, fun v hv => ?_⟩
    rw [find?_setVariable hinner, if_pos ⟨rfl, rfl⟩] at hv
    cases hv
    rfl

/-! ## Limits within the range -/

/-- A numeric loop over integers goes through its whole progression if its limit lies strictly
between the least and the greatest 64-bit integer. -/
theorem integer_loop_runs_progression {n scope : Nat} {st : Stat} {name : Name} {start stop : Expr}
    {step : Option Expr} {body : Block} {x : Bytes} {a l d : Int} {s t : Store}
    (hform : st.form = .for name start stop step body)
    (hhead : forHead (withFuel n) scope name start stop step s =
      .ok (x, ⟨.int a, .int l, .int d⟩) t)
    (ha : IsInt64 a) (hd : d ≠ 0) (hl : IsInner l)
    (hbody : RunsThrough (withFuel n) scope st.form x s) :
    ∃ count, (∀ i, i < count ↔ InReach a l d i) ∧ (count < n → ∃ inner u v,
      pushScope scope t = .ok inner u ∧
      Counts (withFuel n) inner x body ((List.range count).map fun (i : Nat) => a + i * d) u v ∧
      (withFuel (n + 1)).stat scope st s = .ok none v) := by
  obtain ⟨count, hcount⟩ := exists_count (l := l) ha hd
  exact ⟨count, fun i => (hcount i).trans (visited_iff_inReach ha hd hl),
    statement_counts hform hhead hd hcount hbody⟩

/-- From the sixth number below the limit on and in steps of five, the body is run twice, though the
next number would lie beyond the range. -/
theorem overwritingLoop_runs_twice : ∃ inner u v,
    Counts (withFuel 4) inner (Bytes.ofAscii "i") overwritingBody
      [9223372036854775800, 9223372036854775805] u v ∧
    (withFuel 5).stat 3
      (overwritingLoop "9223372036854775800" "9223372036854775806" "5") siblingScopes =
        .ok none v := by
  obtain ⟨count, hcount, hruns⟩ := integer_loop_runs_progression rfl
    (a := 9223372036854775800) (l := 9223372036854775806) (d := 5) rfl (by decide) (by decide)
    (by decide)
    (runsThrough_overwritingLoop "9223372036854775800" "9223372036854775806" "5")
  have hone := (hcount 1).mpr (by decide)
  have htwo := mt (hcount 2).mp (by decide)
  obtain rfl : count = 2 := by omega
  obtain ⟨inner, u, v, -, hcounts, hstat⟩ := hruns (by decide)
  exact ⟨inner, u, v, hcounts, hstat⟩

/-! ## Limits at the ends of the range -/

/-- A sum of two 64-bit integers is reported as inexact if it does not lie strictly between the
least and the greatest of them, which is right unless it is one of these two. A loop up to the
greatest integer, or down to the least one, therefore ends before its limit if it would come there
by a sum, and otherwise goes through its whole progression. -/
theorem overflow_is_reported_at_ends {a : Int} (ha : IsInt64 a) :
    (∀ b, IsInt64 b → ∃ overflow r, addReporting (.int a) (.int b) = .ok (overflow, .int r) ∧
      (overflow = true ↔ ¬IsInner (a + b)) ∧ (overflow = false → r = a + b) ∧
      ((overflow = true ↔ ¬IsInt64 (a + b)) ↔ a + b ≠ minInt ∧ a + b ≠ maxInt)) ∧
    ∀ (n scope : Nat) (st : Stat) (name : Name) (start stop : Expr) (step : Option Expr)
      (body : Block) (x : Bytes) (l d : Int) (s t : Store),
      st.form = .for name start stop step body →
      forHead (withFuel n) scope name start stop step s = .ok (x, ⟨.int a, .int l, .int d⟩) t →
      (0 < d ∧ l = maxInt ∨ d < 0 ∧ l = minInt) →
      RunsThrough (withFuel n) scope st.form x s →
      ∃ count, (∀ i : Nat, i < count ↔ i = 0 ∨ IsInner (a + i * d)) ∧
        ((∀ i, i < count ↔ InReach a l d i) ↔ ∀ i : Nat, 0 < i → a + i * d ≠ l) ∧
        (count < n → ∃ inner u v,
          pushScope scope t = .ok inner u ∧
          Counts (withFuel n) inner x body ((List.range count).map fun (i : Nat) => a + i * d) u v ∧
          (withFuel (n + 1)).stat scope st s = .ok none v) := by
  constructor
  · intro b _
    obtain ⟨r, hsum, hexact⟩ : ∃ r,
        addReporting (.int a) (.int b) = .ok (decide (¬IsInner (a + b)), .int r) ∧
          (IsInner (a + b) → r = a + b) := by
      by_cases h : IsInner (a + b)
      · exact ⟨a + b, by simp [addReporting_of_isInner h, h], fun _ => rfl⟩
      · exact ⟨wrap (a + b), by simp [addReporting_of_not_isInner h, h], fun h' => absurd h' h⟩
    refine ⟨_, r, hsum, decide_eq_true_iff, fun h => hexact ?_, ?_⟩
    · exact not_not.mp (of_decide_eq_false h)
    · rw [decide_eq_true_iff, not_iff_not]
      exact isInner_iff_isInt64_iff
  · intro n scope st name start stop step body x l d s t hform hhead hl hbody
    have hd : d ≠ 0 := by omega
    obtain ⟨count, hcount⟩ := exists_count (l := l) ha hd
    have hvisited (i : Nat) : i < count ↔ i = 0 ∨ IsInner (a + i * d) :=
      (hcount i).trans (visited_iff_of_end ha hl)
    refine ⟨count, hvisited, ?_, statement_counts hform hhead hd hcount hbody⟩
    exact forall_congr' fun i => by rw [hcount i, visited_iff_inReach_iff ha hl]

/-- The sum of the last integer but one and one is reported as inexact, and a loop from the former
to the last integer ends after one round. -/
theorem overwritingLoop_runs_once :
    (∃ r, addReporting (.int 9223372036854775806) (.int 1) = .ok (true, .int r)) ∧
    ∃ inner u v,
      Counts (withFuel 4) inner (Bytes.ofAscii "i") overwritingBody [9223372036854775806] u v ∧
      (withFuel 5).stat 3
        (overwritingLoop "9223372036854775806" "9223372036854775807" "1") siblingScopes =
          .ok none v := by
  have hstart : IsInt64 9223372036854775806 := by decide
  obtain ⟨hsums, hloops⟩ := overflow_is_reported_at_ends hstart
  constructor
  · obtain ⟨overflow, r, hsum, hoverflow, -⟩ := hsums 1 (by decide)
    obtain rfl := hoverflow.mpr (by decide)
    exact ⟨r, hsum⟩
  · obtain ⟨count, hcount, -, hruns⟩ := hloops 4 3
      (overwritingLoop "9223372036854775806" "9223372036854775807" "1") _ _ _ _ _ _
      9223372036854775807 1 _ _ rfl rfl (by decide) (runsThrough_overwritingLoop _ _ _)
    have hzero := (hcount 0).mpr (.inl rfl)
    have hone := mt (hcount 1).mp (by decide)
    obtain rfl : count = 1 := by omega
    obtain ⟨inner, u, v, -, hcounts, hstat⟩ := hruns (by decide)
    exact ⟨inner, u, v, hcounts, hstat⟩

end Eval

end LuaInterpreter
