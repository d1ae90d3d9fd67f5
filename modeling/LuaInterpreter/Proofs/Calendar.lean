import Mathlib.Tactic
import LuaInterpreter.Calendar.Date
import LuaInterpreter.Proofs.FloatValue

/-!
# Counting days and seconds

Days are counted from one of them on. The place of a date in the count and the date at a place are
found in opposite ways, and agree for every day of the calendar. So do the count of seconds and the
moments of a day, and the seconds of the years `1` to `9999` are floats without rounding.
-/

namespace LuaInterpreter

open Int Number

namespace Date

variable {year : Int} {month fuel n : Nat}

def yearLength (year : Int) : Nat := if isLeap year then 366 else 365

structure Valid (d : Date) : Prop where
  month_pos : 1 ≤ d.month
  month_le : d.month ≤ 12
  day_pos : 1 ≤ d.day
  day_le : d.day ≤ daysInMonth d.year d.month

/-! ## Years -/

theorem isLeap_iff (year : Int) :
    isLeap year = true ↔ year % 4 = 0 ∧ (year % 100 ≠ 0 ∨ year % 400 = 0) := by
  simp [isLeap]

theorem daysBeforeYear_eq (year : Int) : daysBeforeYear year =
    (year - 1) * 365 + (year - 1) / 4 - (year - 1) / 100 + (year - 1) / 400 := by
  simp only [daysBeforeYear, fdiv_eq_ediv_of_nonneg _ (show (0 : Int) ≤ 4 by decide),
    fdiv_eq_ediv_of_nonneg _ (show (0 : Int) ≤ 100 by decide),
    fdiv_eq_ediv_of_nonneg _ (show (0 : Int) ≤ 400 by decide)]

/-- A day in cycles of four centuries, centuries, cycles of four years, years and days. Only the
last of four years has a day more, unless it ends one of the first three centuries. -/
theorem exists_yearAndPlace_eq (n : Int) : ∃ (cycles : Int) (centuries fours ones place : Nat),
    yearAndPlace n = (cycles * 400 + centuries * 100 + fours * 4 + ones + 1, place) ∧
    n = cycles * 146097 + centuries * 36524 + fours * 1461 + ones * 365 + place ∧
    centuries ≤ 3 ∧ fours ≤ 24 ∧ ones ≤ 3 ∧ place ≤ 365 ∧
    (place = 365 → ones = 3 ∧ (fours = 24 → centuries = 3)) := by
  have hpos : (0 : Int) < 146097 := by decide
  have hsplit := fdiv_mul_add_fmod n 146097
  have hlt := fmod_lt_of_pos n hpos
  obtain ⟨r, hr⟩ := eq_ofNat_of_zero_le (fmod_nonneg_of_pos n hpos)
  refine ⟨_, _, _, _, _, rfl, ?_⟩
  rw [hr] at hsplit hlt ⊢
  rw [toNat_natCast]
  generalize n.fdiv 146097 = cycles at *
  omega

theorem yearAndPlace_spec (n : Int) :
    daysBeforeYear (yearAndPlace n).1 + (yearAndPlace n).2 = n ∧
      (yearAndPlace n).2 < yearLength (yearAndPlace n).1 := by
  obtain ⟨cycles, centuries, fours, ones, place, heq, hn, hcenturies, hfours, hones, hplace,
    hlast⟩ := exists_yearAndPlace_eq n
  rw [heq, daysBeforeYear_eq, yearLength]
  dsimp only
  constructor
  · omega
  · split
    · omega
    · next hleap =>
      rw [isLeap_iff] at hleap
      omega

/-! ## Months -/

theorem monthAndDay_spec (hmonth : 1 ≤ month) (hfuel : month + fuel = 12)
    (hn : daysBeforeMonth year month + n < yearLength year) :
    Valid ⟨year, (monthAndDay year fuel month n).1, (monthAndDay year fuel month n).2⟩ ∧
      daysBeforeMonth year (monthAndDay year fuel month n).1 + (monthAndDay year fuel month n).2 =
        daysBeforeMonth year month + n + 1 := by
  induction fuel generalizing month n with
  | zero =>
    obtain rfl : month = 12 := hfuel
    rw [monthAndDay]
    refine ⟨⟨Nat.le_add_left 1 11, Nat.le_refl 12, Nat.le_add_left 1 n, ?_⟩, rfl⟩
    cases hleap : isLeap year with
    | true | false =>
      simp [yearLength, daysBeforeMonth, daysInMonth, hleap] at hn ⊢
      omega
  | succ fuel ih =>
    rw [monthAndDay]
    split
    · next hlt => exact ⟨⟨hmonth, by dsimp only; omega, Nat.le_add_left 1 n, hlt⟩, rfl⟩
    · next hle =>
      have hbefore : daysBeforeMonth year (month + 1) =
          daysBeforeMonth year month + daysInMonth year month := by
        rw [daysBeforeMonth, if_neg (by omega)]
      have hnext := @ih (month + 1) (n - daysInMonth year month) (by omega) (by omega) (by omega)
      rw [hbefore] at hnext
      exact ⟨hnext.1, hnext.2.trans (by omega)⟩

/-! ## Days -/

theorem valid_ofDayNumber (n : Int) : (ofDayNumber n).Valid ∧
    (ofDayNumber n).year = (yearAndPlace (n + epoch)).1 ∧
    (ofDayNumber n).dayOfYear = (yearAndPlace (n + epoch)).2 + 1 := by
  obtain ⟨-, hplace⟩ := yearAndPlace_spec (n + epoch)
  obtain ⟨hvalid, hday⟩ := @monthAndDay_spec _ 1 11 _ (Nat.le_refl 1) rfl
    (by rwa [daysBeforeMonth, if_pos rfl, Nat.zero_add])
  rw [daysBeforeMonth, if_pos rfl, Nat.zero_add] at hday
  exact ⟨hvalid, rfl, hday⟩

theorem dayNumber_ofDayNumber (n : Int) : (ofDayNumber n).dayNumber = n := by
  obtain ⟨-, hyear, hday⟩ := valid_ofDayNumber n
  have hspec := (yearAndPlace_spec (n + epoch)).1
  rw [dayNumber, hyear, hday]
  push_cast
  omega

theorem daysInMonth_le (year : Int) (month : Nat) : daysInMonth year month ≤ 31 := by
  unfold daysInMonth
  split
  · split <;> omega
  all_goals omega

theorem dayOfYear_ofDayNumber (n : Int) :
    1 ≤ (ofDayNumber n).dayOfYear ∧ (ofDayNumber n).dayOfYear ≤ 366 := by
  obtain ⟨-, -, hday⟩ := valid_ofDayNumber n
  have hplace := (yearAndPlace_spec (n + epoch)).2
  have hlength : yearLength (yearAndPlace (n + epoch)).1 ≤ 366 := by
    rw [yearLength]
    split <;> omega
  omega

end Date

/-! ## Moments -/

namespace Moment

/-- A moment of the years that can be used, in whole seconds. -/
structure Valid (m : Moment) : Prop where
  year : 1 ≤ m.date.year ∧ m.date.year ≤ 9999
  date : m.date.Valid
  hour : m.hour ≤ 23
  minute : m.minute ≤ 59
  second : m.second ≤ 59
  microsecond : m.microsecond = 0

variable {m : Moment}

theorem seconds_ofSeconds (t : Int) (micros : Nat) : (ofSeconds t micros).seconds = t := by
  have hday : (ofSeconds t micros).date.dayNumber = t / 86400 :=
    (Date.dayNumber_ofDayNumber _).trans (fdiv_eq_ediv_of_nonneg t (by decide))
  rw [seconds, hday]
  dsimp only [ofSeconds]
  omega

theorem valid_ofSeconds {t : Int} (hfirst : -62135596800 ≤ t) (hlast : t ≤ 253402300799) :
    (ofSeconds t 0).Valid := by
  obtain ⟨hvalid, hyear, -⟩ := Date.valid_ofDayNumber (t.fdiv 86400)
  refine ⟨?_, hvalid, ?_, ?_, ?_, rfl⟩
  · obtain ⟨cycles, centuries, fours, ones, place, heq, hn, hbounds⟩ :=
      Date.exists_yearAndPlace_eq (t.fdiv 86400 + Date.epoch)
    rw [heq] at hyear
    rw [Date.epoch, fdiv_eq_ediv_of_nonneg t (by decide)] at hn
    show 1 ≤ (Date.ofDayNumber (t.fdiv 86400)).year ∧ (Date.ofDayNumber (t.fdiv 86400)).year ≤ 9999
    omega
  all_goals
    dsimp only [ofSeconds]
    omega

theorem Valid.make_eq (h : m.Valid) :
    make m.date.year m.date.month m.date.day m.hour m.minute m.second = .ok m := by
  obtain ⟨hfirst, hlast, hfirst', hlast'⟩ := h.date
  have hyear : requireYear m.date.year = .ok () := if_pos (by simpa using h.year)
  have hmonth : ¬((m.date.month : Int) < 1 ∨ 12 < (m.date.month : Int)) := by omega
  have hday : ¬((m.date.day : Int) < 1 ∨
      (Date.daysInMonth m.date.year m.date.month : Int) < m.date.day) := by omega
  have hrange {what : String} {top n : Nat} (hn : n ≤ top) : requireRange what top n = .ok () :=
    if_pos (by simpa using hn)
  have hhour : requireRange "hour" 23 m.hour = .ok () := hrange h.hour
  have hminute : requireRange "minute" 59 m.minute = .ok () := hrange h.minute
  have hsecond : requireRange "second" 59 m.second = .ok () := hrange h.second
  simp only [make, toNat_natCast, Bool.or_eq_true, decide_eq_true_eq, hyear, hmonth, hday,
    hhour, hminute, hsecond, bind, Except.bind, ← h.microsecond]
  rfl

theorem ofTimestamp_of_le {t : Int} (hfirst : -62135596800 ≤ t) (hlast : t ≤ 253402300799) :
    ofTimestamp (.int t) = .ok (ofSeconds t 0) := by
  have hyear : requireYear (ofSeconds t 0).date.year = .ok () :=
    if_pos (by simpa using (valid_ofSeconds hfirst hlast).year)
  have hsystem : ¬(t < minInt ∨ maxInt < t) := by
    rw [minInt, maxInt]
    omega
  have hcount : ¬(t < firstSecond ∨ lastSecond < t) := by
    rw [firstSecond, lastSecond]
    omega
  simp only [ofTimestamp, ofSystem, Bool.or_eq_true, decide_eq_true_eq, hsystem, hcount, hyear, bind,
    Except.bind]
  rfl

theorem valid_startOfYear {year : Int} (h : 1 ≤ year ∧ year ≤ 9999) :
    Valid { date := { year, month := 1, day := 1 } } :=
  ⟨h, ⟨Nat.le_refl 1, Nat.le_add_left 1 11, Nat.le_refl 1, Nat.le_add_left 1 30⟩, Nat.zero_le _,
    Nat.zero_le _, Nat.zero_le _, rfl⟩

/-- The day of the year leads from the start of the year to the start of the day. -/
theorem seconds_startOfYear (d : Date) :
    seconds { date := { year := d.year, month := 1, day := 1 } } + (d.dayOfYear - 1) * 86400 =
      d.dayNumber * 86400 := by
  have hstart : Date.dayNumber { year := d.year, month := 1, day := 1 } =
      Date.daysBeforeYear d.year - Date.epoch := by
    rw [Date.dayNumber, Date.dayOfYear, Date.daysBeforeMonth, if_pos rfl]
    push_cast
    ring
  rw [seconds, hstart, Date.dayNumber]
  push_cast
  ring

/-- The time of a moment in whole seconds is a float, and not only near one. -/
theorem Valid.eq_timestamp (h : m.Valid) (hsize : m.seconds.natAbs < Binary.mantissaTop) :
    eq (.float m.timestamp) (.int m.seconds) = true := by
  have hmicros : m.seconds * 1000000 + m.microsecond = m.seconds * 1000000 := by
    rw [h.microsecond, Nat.cast_zero, add_zero]
  have hfloat : m.timestamp =
      Binary.ofRatio (decide (m.seconds < 0)) (m.seconds.natAbs * 1000000) 1000000 := by
    rw [timestamp, hmicros, natAbs_mul]
    congr 1
    exact decide_eq_decide.mpr (by omega)
  have hsign : (if decide (m.seconds < 0) = true then -(m.seconds.natAbs : Int)
      else m.seconds.natAbs) = m.seconds := by
    simp only [decide_eq_true_eq]
    split <;> omega
  have hwhole : integralOf? m.timestamp = some m.seconds := by
    rw [hfloat, integralOf?_ofRatio_mul _ hsize (by decide), hsign]
  exact (eq_iff_units (units?_of_integralOf? hwhole) rfl).mpr rfl

end Moment

end LuaInterpreter
