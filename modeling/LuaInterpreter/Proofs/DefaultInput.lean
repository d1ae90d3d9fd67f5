import LuaInterpreter.Proofs.StreamReading

/-!
# Reading from the default input

To read from the default input is to read a line from it, whatever formats are given. The method of
the file that is the default input does the same if it is given no format or the one for a line.
-/

namespace LuaInterpreter

open Run List Results Eval

open Evaluator (withFuel)

namespace IoLibrary

open World (lineOf lineOf_eq_nil)

variable {s t : Store} {f g i r m sc stream p : Nat} {content : Bytes} {traced : Bool}
  {b c : Builtin} {k : Evaluator}

/-- Two computations give the same results or raise errors with the same message, and leave the same
world, so that every file stands where it does after the other. -/
inductive EndAlike :
    EStateM.Result Signal Store Results → EStateM.Result Signal Store Results → Prop
  | ok {rs : Results} {s t : Store} : s.world = t.world → EndAlike (.ok rs s) (.ok rs t)
  | error {e e' : LuaError} {s t : Store} : e.message = e'.message → s.world = t.world →
      EndAlike (.error (.error e) s) (.error (.error e') t)

/-- Functions of the library that do the same to the world, or fail for the same reason. -/
theorem endAlike_call (hf : s.function? f = some (.ofBuiltin b))
    (hg : t.function? g = some (.ofBuiltin c)) (hworld : s.world = t.world) {vs ws : List Value}
    (h : (∃ (rs : Results) (w : World),
        runNative k (.ofBuiltin b) vs (some sc) s = .ok rs { s with world := w } ∧
        runNative k (.ofBuiltin c) ws (some sc) t = .ok rs { t with world := w }) ∨
      ∃ fl : Fault, runNative k (.ofBuiltin b) vs (some sc) s = .error (.fault fl) s ∧
        runNative k (.ofBuiltin c) ws (some sc) t = .error (.fault fl) t) :
    EndAlike (call k (.func f) (vs.map .one) (some sc) traced s)
      (call k (.func g) (ws.map .one) (some sc) traced t) := by
  rw [← flatten_map_one vs, ← flatten_map_one ws] at h
  rcases h with ⟨rs, w, hs, ht⟩ | ⟨fl, hs, ht⟩
  · rw [call_builtin_of_ok hf hs, call_builtin_of_ok hg ht]
    exact .ok rfl
  · obtain ⟨e, he, hcall⟩ := call_builtin_of_fault hf traced (text_func_of_builtin hf) hs
    obtain ⟨e', he', hcall'⟩ := call_builtin_of_fault hg traced (text_func_of_builtin hg) ht
    rw [hcall, hcall']
    exact .error (he.trans he'.symm) hworld

/-- The store with a file that is the default input. -/
def withInput (s : Store) (sc : Nat) : Store :=
  { s with files := s.files.push { stream := (s.sessionOf sc).input } }

theorem stream_withInput (s : Store) (sc : Nat) :
    ((withInput s sc).file s.files.size).stream = (s.sessionOf sc).input := by
  simp [withInput, Store.file]

theorem call_input (hi : s.function? i = some (.ofBuiltin .ioInput)) :
    (withFuel (m + 1)).call (.func i) [] (some sc) traced s =
      .ok (.ofList [.file s.files.size]) (withInput s sc) := by
  refine call_builtin_of_ok hi ?_
  rw [runNative_of_check rfl rfl rfl]
  rfl

def lineResult (stream : Nat) : Run Results := do return .ofList [← readLine stream]

theorem runNative_ioRead (formats : List Value) :
    runNative k (.ofBuiltin .ioRead) formats (some sc) s =
      (requireStream (s.sessionOf sc).input "readline" >>= lineResult) s := by
  rw [runNative_of_check rfl rfl rfl]
  rfl

variable {formats : List Value}

theorem runNative_fileRead (hformats : formats = [] ∨ formats = [.ascii "l"]) (file : Value) :
    runNative k (.ofBuiltin .fileRead) (file :: formats) (some sc) t =
      (streamOf file "readline" >>= lineResult) t := by
  have hread : read k sc file formats = do return [← readLine (← streamOf file "readline")] := by
    rcases hformats with rfl | rfl
    · rfl
    · show [Value.ascii "l"].mapM (readFormat k sc file) = _
      rw [mapM_cons]
      exact bind_assoc (m := Run) _ _ _
  rw [runNative_of_check rfl rfl rfl]
  show (read k sc file formats >>= fun vs => return Results.ofList vs) t = _
  rw [hread]
  simp only [bind_assoc, pure_bind]
  rfl

section

variable (hg : s.function? g = some (.ofBuiltin .ioRead))
  (hr : s.function? r = some (.ofBuiltin .fileRead))
include hg hr

theorem endAlike_read (hformats : formats = [] ∨ formats = [.ascii "l"]) (formats' : List Value) :
    EndAlike (call k (.func g) (formats'.map .one) (some sc) traced s)
      (call k (.func r) ((.file s.files.size :: formats).map .one) (some sc) traced
        (withInput s sc)) := by
  refine endAlike_call (t := withInput s sc) hg hr rfl ?_
  have hfile := stream_withInput s sc
  rw [runNative_ioRead, runNative_fileRead hformats]
  cases hinput : (s.sessionOf sc).input with
  | none =>
    have hstream : streamOf (.file s.files.size) "readline" (withInput s sc) =
        .error (.fault (.noAttribute "NoneType" "readline")) (withInput s sc) := by
      simp only [streamOf, get_bind_apply, hfile, hinput]
      rfl
    exact .inr ⟨_, rfl, bind_of_error hstream⟩
  | some stream =>
    have hrequired : requireStream (some stream) "readline" s = .ok stream s := rfl
    rw [bind_of_ok hrequired, bind_of_ok (streamOf_file (hfile.trans hinput) _)]
    cases hline : World.readLine stream s.world with
    | ok x =>
      refine .inl ⟨_, x.2, bind_of_ok (bind_of_ok (world_of_ok hline)), ?_⟩
      exact bind_of_ok (bind_of_ok (world_of_ok (s := withInput s sc) hline))
    | error fl =>
      refine .inr ⟨fl, bind_of_error (bind_of_error (world_of_error hline)), ?_⟩
      exact bind_of_error (bind_of_error (world_of_error (s := withInput s sc) hline))

/-- Of a line that is taken the last byte is not given, but all that is taken for portions is. -/
theorem not_endAlike_read (hinput : (s.sessionOf sc).input = some stream)
    (hs : s.world.StandsAt stream content p) (hleft : p < content.length) {xs : List Portion}
    (hne : xs ≠ []) (hxs : ∀ x ∈ xs, x.Fits) (formats : List Value) :
    ¬EndAlike ((withFuel (m + 1)).call (.func g) (formats.map .one) (some sc) traced s)
      (readCall m r sc s.files.size traced xs (withInput s sc)) := by
  have hahead : content.drop p ≠ [] := drop_eq_nil_iff.not.mpr (Nat.not_le.mpr hleft)
  obtain ⟨w, hline, hw⟩ := (leavesAt_readLine hs).map fun v => Results.ofList [v]
  rw [if_neg hahead] at hline
  have hread : (withFuel (m + 1)).call (.func g) (formats.map .one) (some sc) traced s =
      .ok (.ofList [.str (lineOf (content.drop p)).dropLast]) { s with world := w } := by
    refine call_builtin_of_ok hg ?_
    rw [flatten_map_one, runNative_ioRead, hinput]
    exact hline
  obtain ⟨w', hportions, hw'⟩ := leavesAt_readCall (s := withInput s sc) traced hr
    ((stream_withInput s sc).trans hinput) hs m sc hne hxs
  rw [hread, hportions]
  generalize hresults : Results.ofList (answers content p xs) = rs
  rintro ⟨hworld⟩
  -- The positions are the same, so that the bytes given for the portions are the whole line.
  have hstop : Portion.line.stop content p = stop content p xs := by
    obtain rfl : w = w' := hworld
    exact hw.position_eq.symm.trans hw'.position_eq
  have hwhole := flatMap_bytesOf_answers content p xs
  rw [← hstop, drop_take, Portion.stop, Nat.add_sub_cancel_left, ← Portion.part_eq_take]
    at hwhole
  have hanswers : answers content p xs = [.str (lineOf (content.drop p)).dropLast] := by
    simpa [Results.ofList] using hresults
  rw [hanswers, flatMap_singleton] at hwhole
  have hlength := length_pos_iff.mpr (mt lineOf_eq_nil hahead)
  have hbytes : (lineOf (content.drop p)).length - 1 = (lineOf (content.drop p)).length :=
    length_dropLast.symm.trans (congrArg List.length hwhole)
  omega

end

/-- Whatever the formats are, a read from the default input ends as one of that file with no format
or with the one for a line, and while anything is left it does not end as one of portions. -/
theorem default_input_reads_line (hg : s.function? g = some (.ofBuiltin .ioRead))
    (hi : s.function? i = some (.ofBuiltin .ioInput))
    (hr : s.function? r = some (.ofBuiltin .fileRead))
    (m sc : Nat) (traced : Bool) (formats : List Value) :
    let call (f : Nat) (args : List Value) :=
      (withFuel (m + 1)).call (.func f) (args.map .one) (some sc) traced
    ∃ (file : Value) (t : Store), call i [] s = .ok (.ofList [file]) t ∧ t.world = s.world ∧
      EndAlike (call g formats s) (call r [file] t) ∧
      EndAlike (call g formats s) (call r [file, .ascii "l"] t) ∧
      ∀ (stream : Nat) (content : Bytes) (p : Nat) (xs : List Portion),
        (s.sessionOf sc).input = some stream → s.world.StandsAt stream content p →
        p < content.length → xs ≠ [] → (∀ x ∈ xs, x.Fits) →
        ¬EndAlike (call g formats s) (call r (file :: xs.map Portion.format) t) := by
  intro call
  refine ⟨.file s.files.size, withInput s sc, call_input hi, rfl,
    endAlike_read hg hr (.inl rfl) formats, endAlike_read hg hr (.inr rfl) formats,
    fun stream content p xs hinput hs hleft hne hxs => ?_⟩
  have hnot : ¬EndAlike (call g formats s)
      (readCall m r sc s.files.size traced xs (withInput s sc)) :=
    not_endAlike_read hg hr hinput hs hleft hne hxs formats
  rw [readCall] at hnot
  simp only [call, map_cons, map_map]
  exact hnot

/-- Two lines are left, and of all the rest the first is read. -/
theorem rest_is_not_read_from_default_input :
    let call (b : Builtin) (args : List Value) :=
      (withFuel 1).call (.func b.number) (args.map .one) (some 0) false
    ∃ (file : Value) (t : Store),
      call .ioInput [] (storeWith [97, 10, 98, 10] 0) = .ok (.ofList [file]) t ∧
      EndAlike (call .ioRead [.ascii "a"] (storeWith [97, 10, 98, 10] 0))
        (call .fileRead [file] t) ∧
      ¬EndAlike (call .ioRead [.ascii "a"] (storeWith [97, 10, 98, 10] 0))
        (call .fileRead [file, .ascii "a"] t) := by
  intro call
  obtain ⟨file, t, hinput, -, halike, -, hother⟩ := default_input_reads_line
    (s := storeWith [97, 10, 98, 10] 0) (g := Builtin.ioRead.number) (i := Builtin.ioInput.number)
    (r := Builtin.fileRead.number) rfl rfl rfl 0 0 false [.ascii "a"]
  exact ⟨file, t, hinput, halike, hother 0 _ 0 [.rest] rfl
    (standsAt_storeWith [97, 10, 98, 10] 0) (by decide) (by simp) (by simp [Portion.Fits])⟩

end IoLibrary

end LuaInterpreter
