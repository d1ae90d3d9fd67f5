import LuaInterpreter.Proofs.NumberReading
import LuaInterpreter.Proofs.StreamReading

/-!
# Numerals in files

To read a numeral, a window of bytes is taken, and ever shorter beginnings of it are tried. What was
taken is not given back: every try moves the stream on by what was missing to a full window. So what
is left to be read does not depend on the numeral.
-/

namespace LuaInterpreter.IoLibrary

open Run List

open Evaluator (withFuel)

variable {m sc file stream p q length : Nat} {content part : Bytes} {s : Store}

/-! ## Tries -/

/-- The number that bytes denote, if they are a numeral that has a value. -/
def denoted? (bs : Bytes) : Option Number :=
  (Bytes.decodeAscii? bs).toOption.bind fun text =>
    (readNumeral text).toOption.bind fun n => n.value.toOption

/-- The number that the longest beginning denotes that denotes one, up to a length. -/
def longest? (part : Bytes) : (length : Nat) → Option Number
  | 0 => none
  | length + 1 => denoted? (part.take (length + 1)) <|> longest? part length

/-- What is found ahead: a number, but nothing where a whole window is left. -/
def found (ahead : Bytes) : Value :=
  if numeralWindow ≤ ahead.length then .nil
  else ((longest? ahead ahead.length).map Value.num).getD .nil

theorem leavesAt_seek (hs : s.world.StandsAt stream content q) {missing : Nat}
    (hmissing : missing ≤ numeralWindow) :
    LeavesAt (world (World.seek stream missing .current)) s stream content (q + missing)
      (q + missing) := by
  have hindex : World.isIndex missing = true := by
    simp only [World.isIndex, numeralWindow, Bool.and_eq_true, decide_eq_true_eq] at hmissing ⊢
    omega
  exact .world hs (hs.seek missing hindex rfl)

section

variable (hquiet : (s.sessionOf sc).verbose = false)
include hquiet

/-- A session that is not verbose does not tell a numeral without a value from no numeral. -/
theorem numeralValue?_apply (bs : Bytes) :
    numeralValue? (withFuel (m + 1)) sc bs s = .ok ((denoted? bs).map .num) s := by
  rw [numeralValue?, denoted?]
  cases (Bytes.decodeAscii? bs).toOption with
  | none => rfl
  | some text =>
    rw [Option.bind_some]
    dsimp only
    cases readNumeral text with
    | error e => rfl
    | ok n =>
      show _ = EStateM.Result.ok (n.value.toOption.map Value.num) s
      cases hvalue : n.value with
      | ok x =>
        have hsingle : Eval.single (withFuel (m + 1)) sc (.mk {} (.numeral n)) s = .ok (.num x) s :=
          BasicLibrary.single_numeral_eq_ok_iff.mpr ⟨x, hvalue, rfl, rfl⟩
        exact handle_of_ok (bind_of_ok (f := fun v => return some v) hsingle)
      | error f =>
        refine handle_of_fault (f := f) (bind_of_error (bind_of_error ?_))
        show traced sc {} _ _ _ (ofExcept n.value >>= fun x => pure (Results.one (.num x))) s = _
        rw [hvalue, traced, get_bind_apply, hquiet]
        rfl

/-- What is taken for less than a window is never given back. The induction is on the length of the
beginning that is tried next. -/
theorem leavesAt_tryNumerals (hs : s.world.StandsAt stream content q)
    (hpart : part.length < numeralWindow) (htaken : part.length ≤ q)
    (hlength : length ≤ part.length) :
    ∃ position, q + length ≤ position + part.length ∧
      LeavesAt (tryNumerals (withFuel (m + 1)) sc stream part length) s stream content
        (((longest? part length).map Value.num).getD .nil) position := by
  induction length generalizing q s with
  | zero =>
    have hindex : World.isIndex (-(part.length : Int)) = true := by
      simp only [World.isIndex, numeralWindow, Bool.and_eq_true, decide_eq_true_eq] at hpart ⊢
      omega
    have hseek := LeavesAt.world hs (hs.seek _ hindex (q := q - part.length) (by omega))
    exact ⟨q - part.length, by omega, hseek.map fun _ => Value.nil⟩
  | succ length ih =>
    obtain ⟨w, hseek, hw⟩ := leavesAt_seek hs (Nat.sub_le numeralWindow part.length)
    have htry := numeralValue?_apply (m := m) hquiet (part.take (length + 1))
    have hwindow : ¬length + 1 = numeralWindow := by omega
    cases hfound : denoted? (part.take (length + 1)) with
    | some x =>
      refine ⟨q + (numeralWindow - part.length), by omega, w, ?_, hw⟩
      refine (bind_of_ok htry).trans ((bind_of_ok hseek).trans ?_)
      rw [if_neg hwindow, longest?, hfound]
      rfl
    | none =>
      obtain ⟨position, hposition, w', hrest, hw'⟩ :=
        ih (s := { s with world := w }) hquiet hw (by omega) (by omega)
      refine ⟨position, by omega, w', ?_, hw'⟩
      refine (bind_of_ok htry).trans ((bind_of_ok hseek).trans ?_)
      rw [if_neg hwindow, longest?, hfound]
      exact hrest

/-- Where a numeral is looked for, the stream is left as if a whole window had been taken. -/
theorem leavesAt_readNumber (hs : s.world.StandsAt stream content p) :
    ∃ position, content.drop position = content.drop (p + numeralWindow) ∧
      LeavesAt (readNumber (withFuel (m + 1)) sc stream) s stream content (found (content.drop p))
        position := by
  obtain ⟨w, hread, hw⟩ := LeavesAt.world hs (hs.read numeralWindow (by decide))
  rcases Nat.lt_or_ge (content.drop p).length numeralWindow with hshort | hlong
  · have hend : content.drop (p + numeralWindow) = [] := by
      rw [← drop_drop, drop_eq_nil_of_le hshort.le]
    rw [take_of_length_le hshort.le] at hread hw
    rw [found, if_neg (Nat.not_le.mpr hshort), hend]
    by_cases hahead : content.drop p = []
    · rw [hahead] at hread hw ⊢
      exact ⟨p, hahead, w, bind_of_ok hread, hw⟩
    · obtain ⟨position, hposition, w', htry, hw'⟩ := leavesAt_tryNumerals (m := m)
        (s := { s with world := w }) hquiet hw hshort (Nat.le_add_left _ _) (Nat.le_refl _)
      refine ⟨position, drop_eq_nil_of_le ?_, w', ?_, hw'⟩
      · rw [length_drop] at hposition
        omega
      · rw [readNumber, bind_of_ok hread, if_neg fun h => hahead (List.isEmpty_iff.mp h)]
        exact htry
  · have hlength : ((content.drop p).take numeralWindow).length = numeralWindow :=
      length_take_of_le hlong
    rw [found, if_pos hlong]
    refine ⟨p + numeralWindow, rfl, ?_⟩
    generalize (content.drop p).take numeralWindow = part at hlength hread hw
    rw [hlength] at hw
    obtain ⟨w', hseek, hw'⟩ :=
      leavesAt_seek (s := { s with world := w }) hw (Nat.sub_le numeralWindow part.length)
    rw [hlength] at hw'
    have htry := numeralValue?_apply (m := m) (s := { s with world := w }) hquiet
      (part.take numeralWindow)
    have hne : ¬part.isEmpty = true := fun h => by
      rw [List.isEmpty_iff.mp h] at hlength
      cases hlength
    refine ⟨w', ?_, hw'⟩
    rw [readNumber, bind_of_ok hread, if_neg hne, hlength]
    exact (bind_of_ok htry).trans (bind_of_ok hseek)

end

/-! ## Calls -/

/-- A numeral is read, and then all the rest. -/
def readNumberThenRest (m g sc file : Nat) (traced : Bool) : Run (Results × Results) := do
  let read (format : String) := (withFuel (m + 2)).call (.func g)
    [.one (.file file), .one (.ascii format)] (some sc) traced
  let number ← read "n"
  return (number, ← read "a")

/-- After a numeral has been read, all the rest is what lies behind a whole window, whatever the
numeral is; so nothing is left if less than a window was. The number that is read is that of the
longest beginning that denotes one. But there is none if a whole window is left. -/
theorem number_takes_whole_window {g : Nat} (file sc : Nat)
    (hg : s.function? g = some (.ofBuiltin .fileRead)) (hfile : (s.file file).stream = some stream)
    (hs : s.world.StandsAt stream content p) (hquiet : (s.sessionOf sc).verbose = false) (m : Nat)
    (traced : Bool) :
    ∃ t, readNumberThenRest m g sc file traced s =
      .ok (.ofList [found (content.drop p)], .ofList [.str (content.drop (p + 201))]) t := by
  obtain ⟨position, hposition, hnumber⟩ := leavesAt_readNumber (m := m) hquiet hs
  have hformat : LeavesAt (read (withFuel (m + 1)) sc (.file file) [.ascii "n"]) s stream content
      [found (content.drop p)] position := by
    show LeavesAt ([Value.ascii "n"].mapM _) s stream content _ _
    rw [mapM_cons]
    exact (leavesAt_streamOf hfile hnumber).map ([·])
  obtain ⟨w, hcall, hw⟩ := leavesAt_call traced hg hformat
  obtain ⟨w', hrest, -⟩ := leavesAt_readCall traced (s := { s with world := w }) hg hfile hw (m + 1)
    sc (cons_ne_nil Portion.rest []) (forall_mem_singleton.mpr trivial)
  rw [answers, Portion.answer, if_neg fun h => h.2 rfl, Portion.part, hposition] at hrest
  exact ⟨_, (bind_of_ok hcall).trans (bind_of_ok hrest)⟩

/-- A numeral with two hundred spaces behind it is not found, and one of the spaces is left. -/
theorem number_before_spaces_is_lost :
    ∃ t, readNumberThenRest 0 Builtin.fileRead.number 0 0 false
        (storeWith (49 :: 50 :: List.replicate 200 32) 0) =
      .ok (.ofList [.nil], .ofList [.str [32]]) t := by
  have hread := number_takes_whole_window (g := Builtin.fileRead.number) 0 0 rfl rfl
    (standsAt_storeWith (49 :: 50 :: List.replicate 200 32) 0) rfl 0 false
  have hfound : found (49 :: 50 :: List.replicate 200 32) = .nil :=
    if_pos (by decide +kernel)
  have hrest : (49 :: 50 :: List.replicate 200 (32 : UInt8)).drop 201 = [32] := by
    decide +kernel
  rwa [drop_zero, hfound, Nat.zero_add, hrest] at hread

end LuaInterpreter.IoLibrary
