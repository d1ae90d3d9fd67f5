import LuaInterpreter.Proofs.PairsLoop
import LuaInterpreter.Proofs.TableEdit

/-!
# Loops over the positions of a table

The length of a table is the number of positions before the first one without a value, and a loop
over `ipairs(t)` comes to these positions. The loop gives its variables new values before each round,
in the scope in which the body has run. So it fails if the body has left a constant there that has
the name of one of them.
-/

namespace LuaInterpreter

open Run BasicLibrary List Store Bytes Results Builtin Number

open Evaluator (withFuel)

/-! ## Borders -/

namespace Table

variable {t : Table}

theorem get_of_borderFrom_lt {fuel start : Nat} (h : t.borderFrom fuel start < start + fuel) :
    t.get (.int (t.borderFrom fuel start + 1)) = .nil := by
  induction fuel generalizing start with
  | zero => exact absurd h (Nat.lt_irrefl start)
  | succ fuel ih =>
    rw [borderFrom] at h ⊢
    split
    · next hhas =>
      rw [if_pos hhas] at h
      exact ih (by omega)
    · next hhas => rwa [has_iff, ne_eq, not_not] at hhas

/-- The first position without a value comes after all that have one. -/
structure IsBorder (t : Table) (n : Nat) : Prop where
  set : ∀ i < n, t.get (.int (i + 1)) ≠ .nil
  unset : t.get (.int (n + 1)) = .nil

variable {u : Table} {n : Nat}

theorem IsBorder.of_entries (h : t.IsBorder n) (hu : u.entries = t.entries) : u.IsBorder n := by
  have hget (key : Value) : u.get key = t.get key := by rw [get, hu, ← get]
  exact ⟨fun i hi => hget _ ▸ h.set i hi, (hget _).trans h.unset⟩

theorem isBorder_border (t : Table) : t.IsBorder t.border := by
  have hset : ∀ i < t.border, t.get (.int (i + 1)) ≠ .nil :=
    fun i hi => get_ne_nil_of_lt_borderFrom (Nat.zero_le i) hi
  refine ⟨hset, ?_⟩
  by_contra hmore
  -- One position more has a value, so the search has not come to its end.
  have hle : t.border + 1 ≤ t.entries.length := by
    refine le_length_entries fun i hi => ?_
    rcases Nat.lt_succ_iff_lt_or_eq.mp hi with hlt | rfl
    · exact hset i hlt
    · exact hmore
  exact hmore (get_of_borderFrom_lt (by rw [Nat.zero_add]; exact hle))

/-- The positions after the first `p`, with their values. -/
def listedFrom (t : Table) (p n : Nat) : List (Value × Value) :=
  (List.range' p n).map fun (i : Nat) => (.int (i + 1), t.get (.int (i + 1)))

theorem listedFrom_congr (h : u.entries = t.entries) (p n : Nat) :
    u.listedFrom p n = t.listedFrom p n := by
  simp only [listedFrom, get, h]

def listed (t : Table) : List (Value × Value) := t.listedFrom 0 t.border

theorem take_listed (h : n ≤ t.border) : t.listed.take n = t.listedFrom 0 n := by
  rw [listed, listedFrom, ← map_take, take_range'_of_length_ge h, listedFrom]

end Table

/-! ## The iterator -/

namespace BasicLibrary

variable {id p : Nat} {s : Store}

theorem ipairsStep_of_set (hset : (s.table id).get (.int (p + 1)) ≠ .nil)
    (hp : (p : Int) + 1 ≤ maxInt) :
    ipairsStep (.table id) (.int p) s =
      .ok [.int (p + 1), (s.table id).get (.int (p + 1))] s := by
  have hread : rawGet (.table id) (.int (p + 1)) s = .ok ((s.table id).get (.int (p + 1))) s := rfl
  show (if maxInt < (p : Int) + 1 then _ else _ : Run (List Value)) s = _
  rw [if_neg (Int.not_lt.mpr hp), bind_of_ok hread, Value.isNil_eq_false_iff.mpr hset]
  rfl

theorem ipairsStep_of_unset (hunset : (s.table id).get (.int (p + 1)) = .nil) :
    ipairsStep (.table id) (.int p) s = .ok [] s := by
  have hread : rawGet (.table id) (.int (p + 1)) s = .ok .nil s :=
    congrArg (EStateM.Result.ok · s) hunset
  show (if maxInt < (p : Int) + 1 then _ else _ : Run (List Value)) s = _
  split
  · rfl
  · rw [bind_of_ok hread]
    rfl

end BasicLibrary

namespace Eval

/-! ## Rounds -/

/-- The body of a loop ends normally, and leaves the entries of the table and the first variable of
the loop as they are. -/
def LeavesPlace (k : Evaluator) (inner : Nat) (xs : List Bytes) (id : Nat) (body : Block)
    (t : Store) : Prop :=
  ∃ r u, runBlock k inner body t = .ok r u ∧ (u.table id).entries = (t.table id).entries ∧
    (u.scope inner).find? (xs.headD []) = (t.scope inner).find? (xs.headD [])

def listing (xs : List Bytes) (id : Nat) : Iteration :=
  { names := xs, iterator := .func ipairsStep.number, state := .table id, closing := .nil }

/-- A loop over positions has come to a position: its first variable holds it. -/
structure ListsAt (xs : List Bytes) (inner p : Nat) (s : Store) : Prop where
  scope : inner < s.scopes.size
  library : s.function? ipairsStep.number = some (.ofBuiltin .ipairsStep)
  control : (s.scope inner).find? (xs.headD []) = some { value := .int p }

section

variable {n scope inner id p : Nat} {xs : List Bytes} {vs : List Value} {body : Block} {s t : Store}

theorem declareValues_of_constant (hinner : inner < s.scopes.size) (hdistinct : xs.Nodup)
    (hconstant : ∃ x ∈ xs, ¬Free s inner x) (hlength : vs.length = xs.length) :
    ∃ t, declareValues inner xs vs s = .error (.error constantError) t := by
  induction xs generalizing s vs with
  | nil =>
    obtain ⟨x, hx, -⟩ := hconstant
    cases hx
  | cons x xs ih =>
    obtain ⟨v, vs, rfl⟩ := exists_cons_of_length_eq_add_one hlength
    obtain ⟨hx, hxs⟩ := nodup_cons.mp hdistinct
    by_cases hfree : Free s inner x
    · obtain ⟨y, hy, hyconstant⟩ := hconstant
      have hyx : y ≠ x := fun h => hyconstant (h ▸ hfree)
      have hyxs : y ∈ xs := (mem_cons.mp hy).resolve_left hyx
      have hlater : ¬Free (s.setVariable inner x { value := v }) inner y := by
        intro hlater
        refine hyconstant fun w hw => hlater w ?_
        rw [find?_setVariable hinner, if_neg fun h => hyx h.2, hw]
      have hsize := (sameShape_setVariable s inner x { value := v }).size
      obtain ⟨t, ht⟩ := ih (hsize.symm ▸ hinner) hxs ⟨y, hyxs, hlater⟩ (Nat.succ.inj hlength)
      exact ⟨t, (bind_of_ok (declare_of_variable hfree)).trans ht⟩
    · unfold Free at hfree
      push Not at hfree
      obtain ⟨old, hold, hconst⟩ := hfree
      exact ⟨s, bind_of_error (declare_of_constant hold (Bool.eq_true_of_not_eq_false hconst))⟩

variable (hnamed : xs ≠ [])
include hnamed

theorem advance_listing (hs : ListsAt xs inner p s)
    (hstep : ipairsStep (.table id) (.int p) s = .ok vs s) (n scope : Nat) :
    advance (withFuel (n + 1)) scope inner (listing xs id) s =
      (do declareValues inner xs (adjust (vs.map .one) xs.length)
          return !(vs.headD .nil).isNil : Run Bool) s := by
  have hcall : (withFuel (n + 1)).call (listing xs id).iterator
      [.one (listing xs id).state, .one (.int p)] (some scope) true s = .ok (.ofList vs) s :=
    call_builtin_of_ok hs.library (bind_of_ok hstep)
  exact advance_eq hnamed hs.control hcall

variable (hdistinct : xs.Nodup)
include hdistinct

theorem round_at_end (hs : ListsAt xs inner p s)
    (hfree : ∀ x ∈ xs, Free s inner x) (hunset : (s.table id).get (.int (p + 1)) = .nil)
    (n scope : Nat) (body : Block) :
    ∃ t, declareValues inner xs (adjust [] xs.length) s = .ok () t ∧
      (listing xs id).round (withFuel (n + 1)) scope inner body () s = .ok (.inr ()) t := by
  obtain ⟨t, hrun, -⟩ := declareValues_adjust hs.scope hdistinct hfree []
  have hadvance := advance_listing hnamed hs (ipairsStep_of_unset hunset) n scope
  exact ⟨t, hrun, bind_of_ok (hadvance.trans (bind_of_ok hrun))⟩

theorem round_at_constant (hs : ListsAt xs inner p s)
    (hconstant : ∃ x ∈ xs, ¬Free s inner x) (hstep : ipairsStep (.table id) (.int p) s = .ok vs s)
    (n scope : Nat) (body : Block) :
    ∃ t, (listing xs id).round (withFuel (n + 1)) scope inner body () s =
      .error (.error constantError) t := by
  obtain ⟨t, hrun⟩ := declareValues_of_constant hs.scope hdistinct hconstant
    (length_adjust (vs.map .one) xs.length)
  have hadvance := advance_listing hnamed hs hstep n scope
  exact ⟨t, bind_of_error (hadvance.trans (bind_of_error hrun))⟩

theorem round_at_position (hs : ListsAt xs inner p s)
    (hfree : ∀ x ∈ xs, Free s inner x) (hset : (s.table id).get (.int (p + 1)) ≠ .nil)
    (hp : (p : Int) + 1 ≤ maxInt)
    (hbody : ∀ t vs, advance (withFuel (n + 1)) scope inner (listing xs id) s = .ok true t →
      Holds t inner xs vs → LeavesPlace (withFuel (n + 1)) inner xs id body t) :
    ∃ t r u, declareValues inner xs (adjust
        [.one (.int (p + 1)), .one ((s.table id).get (.int (p + 1)))] xs.length) s = .ok () t ∧
      Holds t inner xs [.int (p + 1), (s.table id).get (.int (p + 1))] ∧
      runBlock (withFuel (n + 1)) inner body t = .ok r u ∧
      (listing xs id).round (withFuel (n + 1)) scope inner body () s = .ok (.inl ()) u ∧
      ListsAt xs inner (p + 1) u ∧ (u.table id).entries = (s.table id).entries := by
  obtain ⟨t, hrun, hholds, hsize, htables, hfunctions⟩ := declareValues_adjust hs.scope hdistinct
    hfree [.int (p + 1), (s.table id).get (.int (p + 1))]
  have hadvance : advance (withFuel (n + 1)) scope inner (listing xs id) s = .ok true t :=
    (advance_listing hnamed hs (ipairsStep_of_set hset hp) n scope).trans (bind_of_ok hrun)
  obtain ⟨r, u, hblock, hentries, hcontrol⟩ := hbody t _ hadvance hholds
  obtain ⟨hround, hinner, hlibrary, hfirst⟩ :=
    round_of_values hs.scope hnamed hholds hsize hfunctions hadvance hblock hcontrol
  refine ⟨t, r, u, hrun, hholds, hblock, hround, ⟨hinner, hlibrary _ _ hs.library, hfirst⟩, ?_⟩
  rw [hentries, Store.table, htables, ← Store.table]

/-- From a position on, a loop runs its body for the positions up to the border, unless the body
leaves a constant with the name of a variable of the loop: then it fails before the next round. The
induction is on the number of positions that are left. -/
theorem loop_lists {s₀ : Store} {i m fuel : Nat} (hbody : ∀ i s t vs,
      Rounds ((listing xs id).round (withFuel (n + 1)) scope inner body) i () s₀ () s →
      i < n + 1 → advance (withFuel (n + 1)) scope inner (listing xs id) s = .ok true t →
      Holds t inner xs vs → LeavesPlace (withFuel (n + 1)) inner xs id body t)
    (hs : ListsAt xs inner p s) (hborder : (s.table id).IsBorder (p + m))
    (hmax : (p : Int) + m ≤ maxInt)
    (hrounds : Rounds ((listing xs id).round (withFuel (n + 1)) scope inner body) i () s₀ () s)
    (hi : i + m ≤ n) (hfuel : m < fuel) :
    ∃ count v, count ≤ m ∧
      RunsFor (withFuel (n + 1)) inner xs body ((s.table id).listedFrom p count) s v ∧
      ((∀ x ∈ xs, Free v inner x) ∧ count = m ∧
          (∃ t, declareValues inner xs (adjust [] xs.length) v = .ok () t ∧
            loop fuel ((listing xs id).round (withFuel (n + 1)) scope inner body) () s = .ok () t) ∨
        (∃ x ∈ xs, ¬Free v inner x) ∧
          ∃ t, loop fuel ((listing xs id).round (withFuel (n + 1)) scope inner body) () s =
              .error (.error constantError) t) := by
  obtain ⟨fuel, rfl⟩ := Nat.exists_eq_add_one.mpr (Nat.zero_lt_of_lt hfuel)
  induction m generalizing p s i fuel with
  | zero =>
    by_cases hfree : ∀ x ∈ xs, Free s inner x
    · obtain ⟨t, hlast, hround⟩ :=
        round_at_end hnamed hdistinct hs hfree hborder.unset n scope body
      exact ⟨0, s, Nat.le_refl 0, .done, .inl ⟨hfree, rfl, t, hlast, bind_of_ok hround⟩⟩
    · have hconstant : ∃ x ∈ xs, ¬Free s inner x := by simpa using hfree
      obtain ⟨t, hround⟩ := round_at_constant hnamed hdistinct hs hconstant
        (ipairsStep_of_unset hborder.unset) n scope body
      exact ⟨0, s, Nat.le_refl 0, .done, .inr ⟨hconstant, t, bind_of_error hround⟩⟩
  | succ m ih =>
    have hset := hborder.set p (by omega)
    by_cases hfree : ∀ x ∈ xs, Free s inner x
    · obtain ⟨t, r, u, hrun, hholds, hblock, hround, hu, hentries⟩ := round_at_position hnamed
        hdistinct hs hfree hset (by omega) fun t vs => hbody i s t vs hrounds (by omega)
      obtain ⟨fuel, rfl⟩ := Nat.exists_eq_add_one.mpr (show 0 < fuel by omega)
      have hborder' : (u.table id).IsBorder (p + 1 + m) := by
        rw [Nat.add_right_comm]
        exact hborder.of_entries hentries
      obtain ⟨count, v, hcount, hruns, hend⟩ := ih hu hborder' (by push_cast; omega)
        (hrounds.concat hround) (by omega) fuel (by omega)
      rw [Table.listedFrom_congr hentries] at hruns
      refine ⟨count + 1, v, by omega, ?_, ?_⟩
      · exact .next hrun hholds hblock hruns
      · rcases hend with ⟨hfree', rfl, t', hlast, hloop⟩ | ⟨hconstant, t', hloop⟩
        · exact .inl ⟨hfree', rfl, t', hlast, (bind_of_ok hround).trans hloop⟩
        · exact .inr ⟨hconstant, t', (bind_of_ok hround).trans hloop⟩
    · have hconstant : ∃ x ∈ xs, ¬Free s inner x := by simpa using hfree
      obtain ⟨t, hround⟩ := round_at_constant hnamed hdistinct hs hconstant
        (ipairsStep_of_set hset (by omega)) n scope body
      exact ⟨0, s, Nat.zero_le _, .done, .inr ⟨hconstant, t, bind_of_error hround⟩⟩

end

/-! ## Statements -/

abbrev CallsIpairs := CallsBuiltin .ipairs .ipairsStep

section

variable {n scope inner id : Nat} {callee : Expr} {args : List Expr} {names : List Name}
  {xs : List Bytes} {st : Stat} {place : Place} {body : Block} {s w : Store}

/-- A table without metatable has for its length the number of positions before the first one that
has no value. There are not more of them than entries. -/
theorem length_is_first_border (hmetatable : (s.table id).metatable = none) :
    (∀ call raw, Operator.length call (.table id) raw s = .ok (.int (s.table id).border) s) ∧
    (s.table id).IsBorder (s.table id).border ∧
    (s.table id).border ≤ (s.table id).entries.length := by
  have hborder := (s.table id).isBorder_border
  exact ⟨TableLibrary.length_eq_border hmetatable, hborder, Table.le_length_entries hborder.set⟩

/-- Let the body of a loop over `ipairs(t)` end normally and leave the table and the first variable of
the loop alone. Then it is run for the positions before the border and their values, in order, and
the loop ends, unless the body leaves a constant that has the name of a variable of the loop. In this
case the loop fails instead of coming to the next position, or to its end. -/
theorem ipairs_loop_stops_at_constant
    (hform : st.form = .forIn names [.mk place (.call callee args)] body)
    (hhead : CallsIpairs (withFuel n) scope names callee args s inner xs id w)
    (hmetatable : (w.table id).metatable = none)
    (hbody : ∀ i inner body t vs, Iterates (withFuel (n + 1)) scope st.form s i inner body t →
      Holds t inner xs vs → LeavesPlace (withFuel (n + 1)) inner xs id body t) :
    (∀ call raw, Operator.length call (.table id) raw w = .ok (.int (w.table id).border) w) ∧
    (w.table id).IsBorder (w.table id).border ∧
    (w.table id).border ≤ (w.table id).entries.length ∧
    ((w.table id).border ≤ n → (w.table id).border ≤ Number.maxInt →
      ∃ count t u v, pushScope scope s = .ok inner t ∧
        forInHead (withFuel (n + 1)) scope inner names [.mk place (.call callee args)] t =
          .ok (listing xs id) u ∧
        count ≤ (w.table id).border ∧
        RunsFor (withFuel (n + 1)) inner xs body ((w.table id).listed.take count) u v ∧
        ((∀ x ∈ xs, Free v inner x) ∧ count = (w.table id).border ∧
            (∃ t, declareValues inner xs (Results.adjust [] xs.length) v = .ok () t ∧
              (withFuel (n + 2)).stat scope st s = .ok none t) ∨
          (∃ x ∈ xs, ¬Free v inner x) ∧ 0 < count ∧
            ∃ trace t, (withFuel (n + 2)).stat scope st s =
              .error (.error { constantError with trace }) t)) := by
  obtain ⟨hlength, hborder, hentries⟩ := length_is_first_border hmetatable
  refine ⟨hlength, hborder, hentries, fun hfuel hmax => ?_⟩
  obtain ⟨t, u, hpush, hin, hinner, hstep, hcontrol, hfree, htable⟩ := forInHead_of_callsBuiltin hhead
    (fun _ _ _ hf hrs => call_builtin_of_ok hf (by rw [hrs]; rfl)) place
  obtain ⟨-, -, hnamed, hdistinct, -⟩ := hhead
  have hstarts : Starts (withFuel (n + 1)) scope st.form s inner body
      (.guarded (advance (withFuel (n + 1)) scope inner (listing xs id))) u :=
    hform ▸ .inForIn hpush hin
  have hborder' : (u.table id).IsBorder (0 + (w.table id).border) := by
    rw [htable, Nat.zero_add]
    exact hborder
  obtain ⟨count, v, hcount, hruns, hend⟩ := loop_lists hnamed hdistinct
    (fun i s' t' vs hrounds hi hadvance =>
      hbody i inner body t' vs (.intro hstarts hrounds hi hadvance))
    ⟨hinner, hstep, hcontrol⟩ hborder' (by simpa using hmax) .zero (by omega) (Nat.lt_succ_of_le hfuel)
  rw [htable, ← Table.take_listed hcount] at hruns
  refine ⟨count, t, u, v, hpush, hin, hcount, hruns, ?_⟩
  rcases hend with ⟨hfree', hcount', t', hlast, hloop⟩ | ⟨hconstant, t', hloop⟩
  · exact .inl ⟨hfree', hcount', t', hlast, stat_of_loop hform hpush hin rfl hloop⟩
  · have hpos : 0 < count := by
      rcases Nat.eq_zero_or_pos count with rfl | hpos
      · cases hruns
        obtain ⟨x, hx, hnot⟩ := hconstant
        exact absurd (hfree x hx) hnot
      · exact hpos
    obtain ⟨trace, hstat⟩ := stat_of_loop_error hform hpush hin hloop
    exact .inr ⟨hconstant, hpos, trace, t', hstat⟩

end

/-! ### A loop that makes its second variable a constant -/

/-- A session in which `t` has the items 5 and 6. -/
def twoItemStore : Store :=
  storeFor .ipairs { entries := [(.int 1, .int 5), (.int 2, .int 6)] }

/-- The statement `local v <const> = true`. -/
def constantV : Stat :=
  .mk {} (.local [{ name := writtenName "v", attrib := some (writtenName "const") }]
    (some [.mk {} .litTrue]))

/-- The loop `for i, v in ipairs(t) do local v <const> = true end`. -/
def fixingLoop : Stat :=
  .mk {} (.forIn [writtenName "i", writtenName "v"] [callWithT "ipairs"] (.mk {} [constantV] none))

variable {inner : Nat} {t : Store}

theorem runBlock_constantV (hfree : Free t inner (ofAscii "v")) :
    ∃ r, runBlock (withFuel 3) inner (.mk {} [constantV] none) t =
      .ok r (t.setVariable inner (ofAscii "v") { value := .bool true, constant := true }) := by
  have hvalue : (withFuel 2).expr inner (.mk {} .litTrue) t = .ok (.one (.bool true)) t :=
    traced_eq_ok_iff.mpr rfl
  have heach : each (withFuel 2) inner [.mk {} .litTrue] t = .ok [.one (.bool true)] t :=
    bind_of_ok hvalue
  have hvalues : localValues (withFuel 2) inner 1 [.mk {} .litTrue] t = .ok [.bool true] t :=
    bind_of_ok heach
  have hdeclare : declareAll inner false
      [{ name := writtenName "v", attrib := some (writtenName "const") }] [.bool true] t =
      .ok () (t.setVariable inner (ofAscii "v") { value := .bool true, constant := true }) :=
    bind_of_ok (declare_of_variable hfree)
  have hstat : (withFuel 3).stat inner constantV t = .ok (some (.ofList [.bool true]))
      (t.setVariable inner (ofAscii "v") { value := .bool true, constant := true }) := by
    refine traced_eq_ok_iff.mpr ?_
    exact (bind_of_ok hvalues).trans (bind_of_ok hdeclare)
  exact ⟨_, bind_of_ok (runStats_cons_of_ok hstat)⟩

theorem leavesPlace_constantV {vs : List Value}
    (hholds : Holds t inner [ofAscii "i", ofAscii "v"] vs) (id : Nat) :
    LeavesPlace (withFuel 3) inner [ofAscii "i", ofAscii "v"] id
      (.mk {} [constantV] none) t := by
  have hinner : inner < t.scopes.size := lt_size_of_find?_eq_some (hholds 0 _ rfl)
  obtain ⟨r, hrun⟩ := runBlock_constantV (hholds.free (by simp))
  refine ⟨r, _, hrun, rfl, ?_⟩
  rw [find?_setVariable hinner, if_neg fun h => absurd h.2 (by decide)]

/-- The table has two positions with a value, but the loop fails after its body has been run for the
first of them. -/
theorem fixingLoop_fails_after_first_item : ∃ w,
    CallsIpairs (withFuel 2) 0 [writtenName "i", writtenName "v"]
      (.mk {} (.variable (writtenName "ipairs"))) [.mk {} (.variable (writtenName "t"))]
      twoItemStore 1 [Bytes.ofAscii "i", Bytes.ofAscii "v"] 1 w ∧
    (∀ call raw, Operator.length call (.table 1) raw w = .ok (.int 2) w) ∧
    ∃ u v trace t, RunsFor (withFuel 3) 1 [Bytes.ofAscii "i", Bytes.ofAscii "v"]
        (.mk {} [constantV] none) [(.int 1, .int 5)] u v ∧
      (withFuel 4).stat 0 fixingLoop twoItemStore =
        .error (.error { constantError with trace }) t := by
  have hhead : CallsIpairs (withFuel 2) 0 [writtenName "i", writtenName "v"]
      (.mk {} (.variable (writtenName "ipairs"))) [.mk {} (.variable (writtenName "t"))]
      twoItemStore 1 [ofAscii "i", ofAscii "v"] 1 _ :=
    .intro rfl rfl (by decide) (by decide) rfl rfl rfl rfl rfl rfl rfl
  have hbody : ∀ i inner body t vs,
      Iterates (withFuel 3) 0 fixingLoop.form twoItemStore i inner body t →
      Holds t inner [ofAscii "i", ofAscii "v"] vs →
      LeavesPlace (withFuel 3) inner [ofAscii "i", ofAscii "v"] 1 body t := by
    intro i inner body t vs hiterates hholds
    obtain ⟨hstarts, -, -, -⟩ := hiterates
    cases hstarts
    exact leavesPlace_constantV hholds 1
  obtain ⟨hlength, -, -, hloop⟩ := ipairs_loop_stops_at_constant rfl hhead rfl hbody
  obtain ⟨count, _, u, v, hpush, hin, hcount, hruns, hend⟩ := hloop (by decide) (by decide)
  rcases hend with ⟨-, -, t, -, hstat⟩ | ⟨-, hpos, trace, t, hstat⟩
  · cases hstat
  · obtain rfl | rfl : count = 1 ∨ count = 2 := by
      have hborder : count ≤ 2 := hcount
      omega
    · exact ⟨_, hhead, hlength, u, v, trace, t, hruns, hstat⟩
    · -- The second round cannot begin: its second variable is a constant by then.
      cases hpush
      cases hin
      obtain _ | ⟨hdeclare, -, hblock, hrest⟩ := hruns
      cases hdeclare
      cases hblock
      obtain _ | ⟨hdeclare, -, -, -⟩ := hrest
      cases hdeclare

end Eval

end LuaInterpreter
