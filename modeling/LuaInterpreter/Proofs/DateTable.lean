import LuaInterpreter.Proofs.Calendar
import LuaInterpreter.Proofs.MultipleAssignment
import LuaInterpreter.Proofs.ProtectedCall

/-!
# Times as tables

The table of a time has the fields of a date and of a time of day. The time of the table is the one
it was made of, and its days of the week and of the year are in step with the count of days.
-/

namespace LuaInterpreter

open Run Moment Builtin

open Evaluator (withFuel)

variable {s : Store} {id d g : Nat} {m : Moment} {k : Evaluator} {t : Int}

/-- A table without metatable that has the fields of a moment. -/
structure Table.Tells (t : Table) (m : Moment) : Prop where
  metatable : t.metatable = none
  year : t.get (.ascii "year") = .int m.date.year
  month : t.get (.ascii "month") = .int m.date.month
  day : t.get (.ascii "day") = .int m.date.day
  hour : t.get (.ascii "hour") = .int m.hour
  minute : t.get (.ascii "min") = .int m.minute
  second : t.get (.ascii "sec") = .int m.second

namespace TimeFields

theorem integer_of_le {i : Int} (hlow : 0 ≤ i) (hhigh : i ≤ 9999) : integer (.int i) = .ok i := by
  have hsize : ¬(i < Number.minInt ∨ Number.maxInt < i) := by
    rw [Number.minInt, Number.maxInt]
    omega
  simp only [integer, Bool.or_eq_true, decide_eq_true_eq]
  rw [if_neg hsize, if_neg (by omega), if_neg (by omega)]

section

variable (hmetatable : (s.table id).metatable = none)
include hmetatable

theorem read_ascii (name : String) :
    Index.read k.call (.table id) (.ascii name) s = .ok ((s.table id).get (.ascii name)) s := by
  rw [Eval.read_of_metatable_eq_none hmetatable]
  rfl

variable {name : String} {i : Int} (h : (s.table id).get (.ascii name) = .int i)
include h

theorem optionalField_of_get : optionalField k (.table id) name s = .ok (.int i) s :=
  bind_of_ok ((read_ascii hmetatable name).trans (congrArg (EStateM.Result.ok · s) h))

theorem requiredField_of_get : requiredField k (.table id) name s = .ok (.int i) s :=
  bind_of_ok (optionalField_of_get hmetatable h)

end

theorem ofTable_of_tells (h : (s.table id).Tells m) :
    ∃ isdst, ofTable k (.table id) s = .ok { ofMoment m false with isdst := isdst } s := by
  rw [ofTable, bind_of_ok (requiredField_of_get h.metatable h.year),
    bind_of_ok (requiredField_of_get h.metatable h.month),
    bind_of_ok (requiredField_of_get h.metatable h.day),
    bind_of_ok (optionalField_of_get h.metatable h.hour),
    bind_of_ok (optionalField_of_get h.metatable h.minute),
    bind_of_ok (optionalField_of_get h.metatable h.second),
    bind_of_ok (read_ascii h.metatable "isdst")]
  cases (s.table id).get (.ascii "isdst") <;> exact ⟨_, rfl⟩

theorem toMoment_ofMoment (h : m.Valid) (isdst : Foreign) :
    toMoment { ofMoment m false with isdst := isdst } = .ok m := by
  have hyear := h.year
  have hmonth := h.date.month_le
  have hday := h.date.day_le.trans (Date.daysInMonth_le _ _)
  have hhour := h.hour
  have hminute := h.minute
  have hsecond := h.second
  simp only [toMoment, ofMoment, integer_of_le (i := m.date.year) (by omega) (by omega),
    integer_of_le (i := m.date.month) (by omega) (by omega),
    integer_of_le (i := m.date.day) (by omega) (by omega),
    integer_of_le (i := m.hour) (by omega) (by omega),
    integer_of_le (i := m.minute) (by omega) (by omega),
    integer_of_le (i := m.second) (by omega) (by omega), bind, Except.bind]
  exact h.make_eq

end TimeFields

namespace OsLibrary

theorem call_time (hg : s.function? g = some (.ofBuiltin .osTime)) (htells : (s.table id).Tells m)
    (hm : m.Valid) (fuel : Nat) (scope : Option Nat) (traced : Bool) :
    (withFuel (fuel + 1)).call (.func g) [.one (.table id)] scope traced s =
      .ok (.ofList [.float m.timestamp]) s := by
  obtain ⟨isdst, hfields⟩ := TimeFields.ofTable_of_tells (k := withFuel fuel) htells
  have htime : time (withFuel fuel) (.table id) s = .ok (.float m.timestamp) s := by
    have hmoment : Run.ofExcept
        (TimeFields.toMoment { TimeFields.ofMoment m false with isdst := isdst }) s = .ok m s := by
      rw [TimeFields.toMoment_ofMoment hm]
      rfl
    show (_ >>= _ : Run _) s = _
    rw [bind_of_ok hfields, bind_of_ok hmoment]
    rfl
  exact Eval.call_builtin_of_ok hg (bind_of_ok htime)

theorem tells_dateTable (m : Moment) : (dateTable m).Tells m :=
  ⟨rfl, rfl, rfl, rfl, rfl, rfl, rfl⟩

theorem call_date (hd : s.function? d = some (.ofBuiltin .osDate))
    (hfirst : -62135596800 ≤ t) (hlast : t ≤ 253402300799) (fuel : Nat) (scope : Option Nat)
    (traced : Bool) : ∃ (id : Nat) (u : Store),
      (withFuel (fuel + 1)).call (.func d) [.one (.ascii "!*t"), .one (.int t)] scope traced s =
        .ok (.ofList [.table id]) u ∧
      u.table id = dateTable (.ofSeconds t 0) ∧ u.functions = s.functions := by
  have hmoment : momentOf (.int t) s = .ok (.ofSeconds t 0) s := by
    show Run.ofExcept (Moment.ofTimestamp (.int t)) s = _
    rw [ofTimestamp_of_le hfirst hlast]
    rfl
  have hformat : formatOf (.ascii "!*t") s = .ok "*t" s := rfl
  have hdate : date (.ascii "!*t") (.int t) s = .ok (.table s.tables.size)
      { s with tables := s.tables.push (dateTable (.ofSeconds t 0)) } := by
    rw [date, bind_of_ok hmoment, bind_of_ok hformat, if_pos rfl]
    rfl
  refine ⟨_, _, Eval.call_builtin_of_ok hd (bind_of_ok hdate), ?_, rfl⟩
  simp [Store.table]

/-- The table of a time has the fields of a date and a time of day, and the time of the table is
that time. -/
theorem time_of_date_table (hdate : s.function? d = some (.ofBuiltin .osDate))
    (htime : s.function? g = some (.ofBuiltin .osTime)) (hfirst : -62135596800 ≤ t)
    (hlast : t ≤ 253402300799) (fuel : Nat) (scope : Option Nat) (traced : Bool) :
    ∃ (id : Nat) (u : Store) (m : Moment) (x : Number),
      (withFuel (fuel + 1)).call (.func d) [.one (.ascii "!*t"), .one (.int t)] scope traced s =
        .ok (.ofList [.table id]) u ∧
      (u.table id).Tells m ∧ m.Valid ∧
      (withFuel (fuel + 1)).call (.func g) [.one (.table id)] scope traced u =
        .ok (.ofList [.num x]) u ∧
      x.eq (.int t) = true := by
  have hm := valid_ofSeconds hfirst hlast
  obtain ⟨id, u, hcall, hu, hfunctions⟩ := call_date hdate hfirst hlast fuel scope traced
  have htells : (u.table id).Tells (.ofSeconds t 0) := hu ▸ tells_dateTable _
  have hfunction : u.function? g = some (.ofBuiltin .osTime) := by
    rw [Store.function?, hfunctions]
    exact htime
  refine ⟨id, u, _, _, hcall, htells, hm, call_time hfunction htells hm fuel scope traced, ?_⟩
  have heq := hm.eq_timestamp
  rw [seconds_ofSeconds, Binary.mantissaTop] at heq
  exact heq (by omega)

/-- A second before the start of the count, on the last day of a year. -/
theorem last_second_of_1969_is_its_time : ∃ (id : Nat) (u : Store) (m : Moment) (x : Number),
    (withFuel 1).call (.func Builtin.osDate.number) [.one (.ascii "!*t"), .one (.int (-1))] none
      false (Store.initial {}) = .ok (.ofList [.table id]) u ∧
    (u.table id).Tells m ∧ m.Valid ∧
    (withFuel 1).call (.func Builtin.osTime.number) [.one (.table id)] none false u =
      .ok (.ofList [.num x]) u ∧
    x.eq (.int (-1)) = true :=
  time_of_date_table rfl rfl (by decide) (by decide) 0 none false

/-- The day of the week is found from the count of days, and the day of the year leads from the
start of the year to the start of the day. -/
theorem days_of_week_and_year (hdate : s.function? d = some (.ofBuiltin .osDate))
    (hfirst : -62135596800 ≤ t) (hlast : t ≤ 253402300799) (fuel : Nat) (scope : Option Nat)
    (traced : Bool) : ∃ (id : Nat) (u : Store) (year wday yday : Int),
      (withFuel (fuel + 1)).call (.func d) [.one (.ascii "!*t"), .one (.int t)] scope traced s =
        .ok (.ofList [.table id]) u ∧
      (u.table id).get (.ascii "year") = .int year ∧
      (u.table id).get (.ascii "wday") = .int wday ∧ (u.table id).get (.ascii "yday") = .int yday ∧
      1 ≤ wday ∧ wday ≤ 7 ∧ wday = (t.fdiv 86400 + 4) % 7 + 1 ∧ 1 ≤ yday ∧ yday ≤ 366 ∧
      -- whichever table tells the start of the year, and wherever its time is asked for
      ∀ {v : Store} {j g : Nat}, v.function? g = some (.ofBuiltin .osTime) →
        (v.table j).Tells { date := { year, month := 1, day := 1 } } → ∃ (x : Number) (i : Int),
        (withFuel (fuel + 1)).call (.func g) [.one (.table j)] scope traced v =
          .ok (.ofList [.num x]) v ∧
        x.eq (.int i) = true ∧ i + (yday - 1) * 86400 = t.fdiv 86400 * 86400 := by
  have hm := valid_ofSeconds hfirst hlast
  obtain ⟨id, u, hcall, hu, -⟩ := call_date hdate hfirst hlast fuel scope traced
  have hdays : (Moment.ofSeconds t 0).date.dayNumber = t.fdiv 86400 := Date.dayNumber_ofDayNumber _
  obtain ⟨hlow, hhigh⟩ := Date.dayOfYear_ofDayNumber (t.fdiv 86400)
  have hwday : (((Moment.ofSeconds t 0).date.weekday + 1) % 7 + 1 : Nat) =
      (t.fdiv 86400 + 4) % 7 + 1 := by
    rw [Date.weekday, hdays]
    omega
  refine ⟨id, u, _, _, _, hcall, by rw [hu]; rfl, by rw [hu]; rfl, by rw [hu]; rfl,
    by omega, by omega, hwday, by exact_mod_cast hlow, by exact_mod_cast hhigh, fun hg htells => ?_⟩
  have hstart := valid_startOfYear hm.year
  have hsum := seconds_startOfYear (Moment.ofSeconds t 0).date
  refine ⟨_, _, call_time hg htells hstart fuel scope traced, hstart.eq_timestamp ?_, hdays ▸ hsum⟩
  rw [hdays, Int.fdiv_eq_ediv_of_nonneg t (by decide)] at hsum
  have hlow : 1 ≤ (Moment.ofSeconds t 0).date.dayOfYear := hlow
  have hhigh : (Moment.ofSeconds t 0).date.dayOfYear ≤ 366 := hhigh
  rw [Binary.mantissaTop]
  omega

/-- A store with a table that tells the start of the year 2000. -/
def yearStore : Store :=
  { Store.initial {} with
    tables := #[Table.ofPairs [(.ascii "year", .int 2000), (.ascii "month", .int 1),
      (.ascii "day", .int 1), (.ascii "hour", .int 0), (.ascii "min", .int 0),
      (.ascii "sec", .int 0)]] }

/-- The leap day at the end of a century. -/
theorem leap_day_of_2000_is_sixtieth : ∃ (id : Nat) (u : Store) (x : Number) (i : Int),
    (withFuel 1).call (.func Builtin.osDate.number) [.one (.ascii "!*t"), .one (.int 951868799)]
      none false yearStore = .ok (.ofList [.table id]) u ∧
    (u.table id).get (.ascii "wday") = .int 3 ∧ (u.table id).get (.ascii "yday") = .int 60 ∧
    (withFuel 1).call (.func Builtin.osTime.number) [.one (.table 0)] none false yearStore =
      .ok (.ofList [.num x]) yearStore ∧
    x.eq (.int i) = true ∧ i + (60 - 1) * 86400 = 951782400 := by
  obtain ⟨id, u, year, wday, yday, hcall, hyear, hwday, hyday, -, -, rfl, -, -, hstart⟩ :=
    days_of_week_and_year (s := yearStore) (t := 951868799) (d := osDate.number) rfl
      (by decide) (by decide) 0 none false
  obtain ⟨id', u', hcall', hu, -⟩ := call_date (s := yearStore) (d := osDate.number)
    (t := 951868799) rfl (by decide) (by decide) 0 none false
  cases hcall.symm.trans hcall'
  rw [hu] at hyear hyday
  cases hyear
  cases hyday
  obtain ⟨x, i, htime, heq, hsum⟩ := hstart (v := yearStore) (j := 0)
    (g := osTime.number) rfl ⟨rfl, rfl, rfl, rfl, rfl, rfl, rfl⟩
  exact ⟨_, _, x, i, hcall, hwday, by rw [hu]; rfl, htime, heq, hsum⟩

end OsLibrary

end LuaInterpreter
