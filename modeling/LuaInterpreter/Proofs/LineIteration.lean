import LuaInterpreter.Proofs.StreamReading

/-!
# Iterating over lines

A file of lines that all have an end is read line by line: an iterator gives every line without its
end, in order, and then `nil`. The iterator over a named file closes the file at the `nil`, and not
before; the one over an open file goes on giving `nil` and leaves the file open.
-/

namespace LuaInterpreter

open Run List Eval

open Evaluator (withFuel)

/-- The function iterates over the lines of a file. -/
structure Store.IteratesLines (s : Store) (it file stream : Nat) (closing : Bool) : Prop where
  hasStream : (s.file file).stream = some stream
  isReader : ∃ f maker sc formats, s.function? it = some f ∧
    f.code = .reader maker sc (.file file) formats closing ∧
    (formats = [] ∨ formats = [.ascii "l"])

theorem Store.IteratesLines.within {s : Store} {it file stream : Nat} {closing : Bool}
    (h : s.IteratesLines it file stream closing) (w : World) :
    ({ s with world := w } : Store).IteratesLines it file stream closing :=
  ⟨h.hasStream, h.isReader⟩

theorem World.StandsAt.close {w : World} {id p : Nat} {content : Bytes}
    (h : w.StandsAt id content p) :
    ∃ w', World.close id w = .ok ((), w') ∧ (w'.stream id).closed = true := by
  obtain ⟨hid, -⟩ := exists_stream_settleStream (lt_size_of_opened h.opened)
  exact ⟨_, rfl, congrArg Stream.closed (stream_setStream hid _)⟩

namespace IoLibrary

open World (lineOf lineOf_append)

variable (m sc : Nat) (scope : Option Nat) (traced : Bool) {file stream p it : Nat}
  {content : Bytes} {lines : List Bytes} {formats : List Value} {closing : Bool} {s : Store}

/-! ## One step -/

variable {v : Value} {t : Store} {q : Nat} {rest name : Bytes} {number g : Nat}

/-- A call of an iterator over a file. -/
theorem call_iterator_of_ok {sc : Nat} {f : Function} {maker : Builtin} {vs : List Value}
    (hit : s.function? it = some f) (hcode : f.code = .reader maker sc v formats closing)
    (hrun : iterate (withFuel m) sc v formats closing s = .ok vs t) :
    (withFuel (m + 1)).call (.func it) [] scope traced s = .ok (.ofList vs) t := by
  refine (callFunction_of_function hit _ _ _ _).trans (settleCall_eq_ok_iff.mpr ?_)
  rw [runCallee, hcode]
  refine callNative_eq_ok_iff.mpr ?_
  rw [runNative, hcode]
  exact bind_of_ok hrun

theorem leavesAt_iterate (hfile : (s.file file).stream = some stream)
    (hread : LeavesAt (readLine stream) s stream content v q)
    (hformats : formats = [] ∨ formats = [.ascii "l"]) (hopen : closing = false ∨ v.isNil = false) :
    LeavesAt (iterate (withFuel m) sc (.file file) formats closing) s stream content [v] q := by
  refine (leavesAt_read_line _ sc hfile hread hformats).bind fun w hw => ?_
  have hkept : (closing && [v].any Value.isNil) = false := by
    rcases hopen with h | h <;> simp [h]
  rw [hkept]
  exact .pure hw [v]

/-- A call of a function without arguments. -/
def nextCall (m it : Nat) (scope : Option Nat) (traced : Bool) : Run Results :=
  (withFuel (m + 1)).call (.func it) [] scope traced

theorem leavesAt_nextCall (h : s.IteratesLines it file stream closing)
    (hread : LeavesAt (readLine stream) s stream content v q)
    (hopen : closing = false ∨ v.isNil = false) :
    LeavesAt (nextCall m it scope traced) s stream content (.ofList [v]) q := by
  obtain ⟨hfile, f, maker, sc, formats, hit, hcode, hformats⟩ := h
  obtain ⟨w, hiterate, hw⟩ := leavesAt_iterate m sc hfile hread hformats hopen
  exact ⟨w, call_iterator_of_ok m scope traced hit hcode hiterate, hw⟩

theorem leavesAt_nextCall_line (h : s.IteratesLines it file stream closing)
    (hs : s.world.StandsAt stream content p) {line : Bytes} (hline : 10 ∉ line)
    (hahead : content.drop p = line ++ 10 :: rest) :
    LeavesAt (nextCall m it scope traced) s stream content (.ofList [.str line])
      (p + (line ++ [10]).length) := by
  have hread := leavesAt_readLine hs
  have hpart : lineOf (content.drop p) = line ++ [10] := by
    rw [hahead]
    exact lineOf_append hline (10 :: rest)
  rw [if_neg (by simp [hahead]), Portion.stop, Portion.part, hpart, dropLast_concat] at hread
  exact leavesAt_nextCall m scope traced h hread (.inr rfl)

theorem leavesAt_readLine_nil (hs : s.world.StandsAt stream content p)
    (hahead : content.drop p = []) :
    LeavesAt (readLine stream) s stream content .nil p := by
  have hread := leavesAt_readLine hs
  rw [if_pos hahead, Portion.stop, hahead] at hread
  exact hread

/-- At the end, the iterator over a named file closes it. -/
theorem nextCall_closes (h : s.IteratesLines it file stream true)
    (hs : s.world.StandsAt stream content p) (hahead : content.drop p = []) :
    ∃ t, nextCall m it scope traced s = .ok (.ofList [.nil]) t ∧
      (t.world.stream stream).closed = true := by
  obtain ⟨hfile, f, maker, sc, formats, hit, hcode, hformats⟩ := h
  obtain ⟨w, hread, hw⟩ := leavesAt_read_line (withFuel m) sc hfile
    (leavesAt_readLine_nil hs hahead) hformats
  obtain ⟨w', hclose, hclosed⟩ := hw.close
  refine ⟨{ s with world := w' }, call_iterator_of_ok m scope traced hit hcode ?_, hclosed⟩
  refine (bind_of_ok hread).trans ?_
  refine (bind_of_ok (streamOf_file (s := { s with world := w }) hfile "close")).trans ?_
  exact bind_of_ok (world_of_ok hclose)

/-! ## All lines -/

/-- Lines with their ends, one after the other. -/
def written (lines : List Bytes) : Bytes := lines.flatMap (· ++ [10])

/-- The induction is on how many lines are read. -/
theorem leavesAt_lines (h : s.IteratesLines it file stream closing)
    (hs : s.world.StandsAt stream content p) (hlines : ∀ line ∈ lines, 10 ∉ line)
    (hahead : content.drop p = written lines) {count : Nat} (hcount : count ≤ lines.length) :
    LeavesAt ((replicate count (nextCall m it scope traced)).mapM id) s stream content
      ((lines.take count).map fun line => .ofList [.str line])
      (p + (written (lines.take count)).length) := by
  induction count generalizing lines p s with
  | zero => exact .pure hs []
  | succ count ih =>
    obtain ⟨line, lines, rfl⟩ := exists_cons_of_length_pos (Nat.zero_lt_of_lt hcount)
    obtain ⟨hline, hlines⟩ := forall_mem_cons.mp hlines
    rw [written, flatMap_cons] at hahead
    have hfirst : content.drop p = line ++ 10 :: written lines := by simp [hahead, written]
    have hrest : content.drop (p + (line ++ [10]).length) = written lines := by
      rw [← drop_drop, hahead, drop_left]
      rfl
    rw [take_succ_cons, replicate_succ, mapM_cons, written, flatMap_cons,
      length_append, ← Nat.add_assoc]
    refine (leavesAt_nextCall_line m scope traced h hs hline hfirst).bind fun w hw => ?_
    exact (ih (h.within w) hw hlines hrest (Nat.le_of_succ_le_succ hcount)).map _

theorem leavesAt_nils (h : s.IteratesLines it file stream false)
    (hs : s.world.StandsAt stream content p) (hahead : content.drop p = []) (count : Nat) :
    LeavesAt ((replicate count (nextCall m it scope traced)).mapM id) s stream content
      (replicate count (.ofList [.nil])) p := by
  induction count generalizing s with
  | zero => exact .pure hs []
  | succ count ih =>
    rw [replicate_succ, mapM_cons]
    have hfirst := leavesAt_nextCall m scope traced h (leavesAt_readLine_nil hs hahead) (.inl rfl)
    refine hfirst.bind fun w hw => ?_
    exact (ih (h.within w) hw).map _

/-! ## Iterators -/

theorem standsAt_openRead {w : World} (hname : name.contains 0 = false)
    (hopen : w.disk.openRead name = .ok number) :
    ∃ stream w', World.openRead name w = .ok (stream, w') ∧
      w'.StandsAt stream (w.disk.content number) 0 := by
  let x : Stream := { content := number, access := .read, name := .path name }
  have hstream : (w.addStream x).2.stream w.streams.size = x := by
    simp [World.stream, World.addStream]
  refine ⟨w.streams.size, (w.addStream x).2, ?_, .of_stream hstream rfl
    (by decide : Access.read ≠ .write) rfl rfl⟩
  rw [World.openRead, World.onDisk, World.requireName, hname, hopen]
  rfl

theorem iteratesLines_newIterator (maker : Builtin) (closing : Bool)
    (hfile : (s.file file).stream = some stream)
    (hformats : formats = [] ∨ formats = [.ascii "l"]) :
    ∃ it t, newIterator maker sc (.file file) formats closing s = .ok (.func it) t ∧
      t.world = s.world ∧ t.IteratesLines it file stream closing :=
  ⟨s.functions.size, _, rfl, rfl, hfile, _, maker, sc, formats, Array.getElem?_push_size, rfl,
    hformats⟩

/-- The iterator over a named file. -/
theorem call_lines (hg : s.function? g = some (.ofBuiltin .ioLines))
    (hname : name.contains 0 = false) (hopen : s.world.disk.openRead name = .ok number) :
    ∃ it file stream t, (withFuel (m + 1)).call (.func g) [.one (.str name)] (some sc) traced s =
        .ok (.ofList [.func it, .nil, .nil, .file file]) t ∧
      t.IteratesLines it file stream true ∧
      t.world.StandsAt stream (s.world.disk.content number) 0 := by
  obtain ⟨stream, w, hopened, hw⟩ := standsAt_openRead hname hopen
  let opened : Store := { s with world := w, files := s.files.push { stream := some stream } }
  have hfile : (opened.file s.files.size).stream = some stream := by simp [opened, Store.file]
  obtain ⟨it, t, hnew, hworld, hit⟩ :=
    iteratesLines_newIterator sc .ioLines true hfile (.inl rfl)
  have hlines : lines sc (some (.str name)) [] s =
      .ok [.func it, .nil, .nil, .file s.files.size] t := by
    have hadd : newFile { stream := some stream } { s with world := w } =
      .ok (.file s.files.size) opened := rfl
    show (world (World.openRead name) >>= _) s = _
    refine (bind_of_ok (world_of_ok hopened)).trans ((bind_of_ok hadd).trans ?_)
    exact (bind_of_ok (pure_apply _)).trans (bind_of_ok hnew)
  refine ⟨it, s.files.size, stream, t, call_builtin_of_ok hg ?_, hit, hworld ▸ hw⟩
  rw [runNative_of_check rfl rfl rfl]
  exact bind_of_ok hlines

theorem call_fileLines (hg : s.function? g = some (.ofBuiltin .fileLines))
    (hfile : (s.file file).stream = some stream) :
    ∃ it t, (withFuel (m + 1)).call (.func g) [.one (.file file)] (some sc) traced s =
        .ok (.ofList [.func it]) t ∧ t.world = s.world ∧ t.IteratesLines it file stream false := by
  obtain ⟨it, t, hnew, ht⟩ := iteratesLines_newIterator sc .fileLines false hfile (.inr rfl)
  refine ⟨it, t, call_builtin_of_ok hg ?_, ht⟩
  rw [runNative_of_check rfl rfl rfl]
  exact bind_of_ok hnew

theorem mapM_replicate_add {next : Run Results} {i j : Nat} {rs rs' : List Results} {u : Store}
    (h : (replicate i next).mapM id s = .ok rs t)
    (h' : (replicate j next).mapM id t = .ok rs' u) :
    (replicate (i + j) next).mapM id s = .ok (rs ++ rs') u := by
  rw [replicate_add, mapM_append]
  exact (bind_of_ok h).trans (bind_of_ok h')

/-- The iterator over a named file gives the lines of the file in order and then `nil`. The file is
open after each of the lines, and closed after the `nil`. The iterator over an open file gives the
same lines, and `nil` ever after, and the file stays open. -/
theorem lines_written_are_lines_read {h : Nat} (hg : s.function? g = some (.ofBuiltin .ioLines))
    (hh : s.function? h = some (.ofBuiltin .fileLines)) (hlines : ∀ line ∈ lines, 10 ∉ line)
    (m sc : Nat) (scope : Option Nat) (traced : Bool) :
    let call (f : Nat) (args : List Results) :=
      (withFuel (m + 1)).call (.func f) args (some sc) traced
    let next (it count : Nat) := (replicate count (nextCall m it scope traced)).mapM id
    (∀ (name : Bytes) (number : Nat), name.contains 0 = false →
      s.world.disk.openRead name = .ok number → s.world.disk.content number = written lines →
      ∃ it file stream t, call g [.one (.str name)] s =
          .ok (.ofList [.func it, .nil, .nil, .file file]) t ∧
        (t.file file).stream = some stream ∧
        (∀ count ≤ lines.length, ∃ u, next it count t =
            .ok ((lines.take count).map fun line => .ofList [.str line]) u ∧
          (u.world.stream stream).closed = false) ∧
        ∃ u, next it (lines.length + 1) t =
            .ok (lines.map (fun line => .ofList [.str line]) ++ [.ofList [.nil]]) u ∧
          (u.world.stream stream).closed = true) ∧
    ∀ (file stream : Nat), (s.file file).stream = some stream →
      s.world.StandsAt stream (written lines) 0 →
      ∃ it t, call h [.one (.file file)] s = .ok (.ofList [.func it]) t ∧
        ∀ count : Nat, ∃ u, next it count t =
            .ok ((lines.take count).map (fun line => .ofList [.str line]) ++
              replicate (count - lines.length) (.ofList [.nil])) u ∧
          (u.world.stream stream).closed = false := by
  intro call next
  have hend : (written lines).drop (0 + (written (lines.take lines.length)).length) = [] := by
    rw [take_length, Nat.zero_add, drop_length]
  refine ⟨fun name number hname hopen hcontent => ?_, fun file stream hfile hstands => ?_⟩
  · obtain ⟨it, file, stream, t, hcall, hit, ht⟩ :=
      call_lines m sc traced hg hname hopen
    rw [hcontent] at ht
    refine ⟨it, file, stream, t, hcall, hit.hasStream, fun count hcount => ?_, ?_⟩
    · obtain ⟨w, hread, hw⟩ := leavesAt_lines m scope traced hit ht hlines rfl hcount
      exact ⟨_, hread, hw.opened⟩
    · obtain ⟨w, hread, hw⟩ := leavesAt_lines m scope traced hit ht hlines rfl (Nat.le_refl _)
      obtain ⟨u, hlast, hclosed⟩ := nextCall_closes m scope traced (hit.within w) hw hend
      rw [take_length] at hread
      refine ⟨u, mapM_replicate_add hread ?_, hclosed⟩
      exact bind_of_ok hlast
  · obtain ⟨it, t, hcall, hworld, hit⟩ := call_fileLines m sc traced hh hfile
    rw [← hworld] at hstands
    refine ⟨it, t, hcall, fun count => ?_⟩
    rcases Nat.le_total count lines.length with hcount | hcount
    · obtain ⟨w, hread, hw⟩ := leavesAt_lines m scope traced hit hstands hlines rfl hcount
      rw [Nat.sub_eq_zero_of_le hcount, replicate_zero, append_nil]
      exact ⟨_, hread, hw.opened⟩
    · obtain ⟨w, hread, hw⟩ := leavesAt_lines m scope traced hit hstands hlines rfl (Nat.le_refl _)
      obtain ⟨w', hnils, hw'⟩ :=
        leavesAt_nils m scope traced (hit.within w) hw hend (count - lines.length)
      have hall := mapM_replicate_add hread hnils
      rw [take_length, Nat.add_sub_cancel' hcount] at hall
      rw [take_of_length_le hcount]
      exact ⟨_, hall, hw'.opened⟩

/-- A line with one byte and an empty one. -/
theorem line_and_empty_line_are_read :
    (∃ it file stream t u,
        (withFuel 1).call (.func Builtin.ioLines.number) [.one (.str [97])] (some 0) false
          (storeWith [120, 10, 10] 0) = .ok (.ofList [.func it, .nil, .nil, .file file]) t ∧
        (t.file file).stream = some stream ∧
        (List.replicate 3 (nextCall 0 it none false)).mapM id t =
          .ok [.ofList [.str [120]], .ofList [.str []], .ofList [.nil]] u ∧
        (u.world.stream stream).closed = true) ∧
    ∃ it t u, (withFuel 1).call (.func Builtin.fileLines.number) [.one (.file 0)] (some 0) false
          (storeWith [120, 10, 10] 0) = .ok (.ofList [.func it]) t ∧
        (List.replicate 4 (nextCall 0 it none false)).mapM id t =
          .ok [.ofList [.str [120]], .ofList [.str []], .ofList [.nil], .ofList [.nil]] u ∧
        (u.world.stream 0).closed = false := by
  have hlines : ∀ line ∈ [[120], ([] : Bytes)], 10 ∉ line := by
    simp
  obtain ⟨hnamed, hopened⟩ := lines_written_are_lines_read (s := storeWith [120, 10, 10] 0)
    (g := Builtin.ioLines.number) (h := Builtin.fileLines.number) rfl rfl hlines 0 0 none false
  constructor
  · obtain ⟨it, file, stream, t, hcall, hfile, -, u, hread, hclosed⟩ := hnamed [97] 0 rfl rfl rfl
    exact ⟨it, file, stream, t, u, hcall, hfile, hread, hclosed⟩
  · obtain ⟨it, t, hcall, hread⟩ := hopened 0 0 rfl (standsAt_storeWith _ 0)
    obtain ⟨u, hread, hopen⟩ := hread 4
    exact ⟨it, t, u, hcall, hread, hopen⟩

end IoLibrary

end LuaInterpreter
