import LuaInterpreter.Proofs.ArgumentLists
import LuaInterpreter.Proofs.Containment

/-!
# Reading from files

A stream that can be read stands at a position of its content, once what was written to it is handed
on. Reading gives a part of what lies ahead and moves the stream behind that part. So reads that
follow one another give the content piece by piece, whatever their formats, as long as the formats
keep all they take: a line with its end, all the rest, or a number of bytes.

The format for a line without its end drops the last byte of what it takes. That is the line feed,
except in a last line that has none.
-/

namespace LuaInterpreter

open Run List Eval

open Evaluator (withFuel)

/-! ## Positions -/

namespace World

variable {w : World} {id p : Nat} {content : Bytes}

theorem stream_setStream (hid : id < w.streams.size) (x : Stream) :
    (w.setStream id x).stream id = x := by
  simp [stream, setStream, hid]

theorem lt_size_of_opened (h : (w.stream id).closed = false) : id < w.streams.size := by
  by_contra hid
  simp [stream, closedStream, Array.getD, hid] at h

theorem settleStream_of_pending (h : (w.stream id).pending = []) : w.settleStream id = w := by
  simp [settleStream, h]

/-- What is pending changes nothing of a stream but where it stands. -/
theorem exists_stream_settleStream (hid : id < w.streams.size) :
    id < (w.settleStream id).streams.size ∧
      ∃ q, (w.settleStream id).stream id = { w.stream id with position := q, pending := [] } := by
  by_cases hpending : (w.stream id).pending = []
  · rw [settleStream_of_pending hpending]
    exact ⟨hid, (w.stream id).position, by rw [← hpending]⟩
  · simp only [settleStream, List.isEmpty_iff, hpending, if_false]
    exact ⟨by simpa [setStream] using hid, _, stream_setStream hid _⟩

/-- The stream is open and can be read and moved, and stands at a position of its content. -/
structure StandsAt (w : World) (id : Nat) (content : Bytes) (position : Nat) : Prop where
  readable : (w.stream id).access ≠ .write
  opened : (w.stream id).closed = false
  seekable : (w.stream id).seekable = true
  content_eq : (w.settleStream id).disk.content ((w.settleStream id).stream id).content = content
  position_eq : ((w.settleStream id).stream id).position = position

theorem StandsAt.of_stream {x : Stream} (hx : w.stream id = x) (hpending : x.pending = [])
    (hreadable : x.access ≠ .write) (hopened : x.closed = false) (hseekable : x.seekable = true) :
    w.StandsAt id (w.disk.content x.content) x.position := by
  subst hx
  have hsettle := settleStream_of_pending hpending
  exact ⟨hreadable, hopened, hseekable, by rw [hsettle], by rw [hsettle]⟩

def moveTo (w : World) (id position : Nat) : World :=
  (w.settleStream id).setStream id { (w.settleStream id).stream id with position }

theorem get_bind_apply {α : Type} (f : World → Action α) : (get >>= f) w = f w w := rfl

/-- A line with its end: up to and including the next line feed, or all if there is none. -/
def lineOf (ahead : Bytes) : Bytes :=
  ahead.takeWhile (· != 10) ++ (ahead.dropWhile (· != 10)).take 1

theorem take_lineLength (ahead : Bytes) : ahead.take (lineLength ahead) = lineOf ahead := by
  induction ahead with
  | nil => rfl
  | cons b ahead ih =>
    by_cases hb : b = 10
    · simp [lineLength, lineOf, hb]
    · simp [lineLength, lineOf, hb, ih]

theorem lineOf_append {r : Bytes} (hr : 10 ∉ r) (rest : Bytes) :
    lineOf (r ++ rest) = r ++ lineOf rest := by
  have hne : ∀ b ∈ r, (b != 10) = true := fun b hb => bne_iff_ne.mpr fun h => hr (h ▸ hb)
  rw [lineOf, takeWhile_append_of_pos hne, dropWhile_append_of_pos hne, append_assoc]
  rfl

theorem lineOf_eq_nil {ahead : Bytes} (h : lineOf ahead = []) : ahead = [] := by
  cases ahead with
  | nil => rfl
  | cons b ahead => by_cases hb : b = 10 <;> simp [lineOf, hb] at h

namespace StandsAt

variable (h : w.StandsAt id content p)
include h

theorem moveTo (q : Nat) : (w.moveTo id q).StandsAt id content q := by
  obtain ⟨hid, p', hsettled⟩ := exists_stream_settleStream (lt_size_of_opened h.opened)
  have hstream : (w.moveTo id q).stream id = { w.stream id with position := q, pending := [] } := by
    rw [World.moveTo, stream_setStream hid, hsettled]
  have hcontent := h.content_eq
  rw [hsettled] at hcontent
  exact hcontent ▸ .of_stream hstream rfl h.readable h.opened h.seekable

theorem take (count : Nat) :
    World.take id count w = .ok ((content.drop p).take count,
      w.moveTo id (p + ((content.drop p).take count).length)) := by
  simp only [World.take, h.content_eq, h.position_eq, World.moveTo]

theorem requireReadable_eq : requireReadable (w.stream id) = .ok () :=
  if_neg h.readable

theorem requireOpen_eq (complaint : String) : requireOpen (w.stream id) complaint = .ok () := by
  rw [requireOpen, h.opened]
  rfl

theorem read (count : Nat) (hcount : count ≤ 9223372036854775774) :
    World.read id count w = .ok ((content.drop p).take count,
      w.moveTo id (p + ((content.drop p).take count).length)) := by
  have hindex : isIndex count = true := by
    simp only [isIndex, Bool.and_eq_true, decide_eq_true_eq]
    omega
  have hnegative : ¬(count : Int) < -1 := by omega
  have hall : ¬(count : Int) = -1 := by omega
  have hgreat : ¬greatestCount < count := by
    unfold greatestCount
    omega
  rw [← h.take, World.read, get_bind_apply]
  simp only [h.requireReadable_eq, h.requireOpen_eq, hindex, hnegative, hall, hgreat]
  rfl

theorem read_of_lt {count : Nat} (hcount : 9223372036854775774 < count) :
    ∃ f, World.read id count w = .error f := by
  have hnegative : ¬(count : Int) < -1 := by omega
  have hall : ¬(count : Int) = -1 := by omega
  have hgreat : greatestCount < count := Int.ofNat_lt.mpr hcount
  rw [World.read, get_bind_apply]
  simp only [h.requireReadable_eq, h.requireOpen_eq, hnegative, hall, hgreat]
  cases isIndex count with
  | false | true => exact ⟨_, rfl⟩

theorem ahead_eq : w.ahead id = content.drop p := by
  simp only [ahead, h.content_eq, h.position_eq]

theorem readAll :
    World.read id (-1) w = .ok (content.drop p, w.moveTo id (p + (content.drop p).length)) := by
  have htake := h.take (w.ahead id).length
  rw [h.ahead_eq, take_length] at htake
  rw [← htake, ← h.ahead_eq, World.read, get_bind_apply, h.requireReadable_eq]
  simp only [h.requireOpen_eq]
  rfl

theorem readLine :
    World.readLine id w = .ok (lineOf (content.drop p),
      w.moveTo id (p + (lineOf (content.drop p)).length)) := by
  have htake := h.take (lineLength (w.ahead id))
  rw [h.ahead_eq, take_lineLength] at htake
  rw [← htake, ← h.ahead_eq, World.readLine, get_bind_apply, h.requireReadable_eq, h.requireOpen_eq]
  rfl

theorem seek (offset : Int) (hoffset : isIndex offset = true) {q : Nat} (hq : p + offset = q) :
    World.seek id offset .current w = .ok (q, w.moveTo id q) := by
  simp only [World.seek, h.opened, h.seekable, hoffset, h.position_eq, hq, World.moveTo]
  rfl

end StandsAt

end World

namespace Run

variable {α β : Type} {s : Store} {stream p q : Nat} {content : Bytes}

variable {action : World.Action α} {a : α} {m : Run α}

theorem world_of_ok {w : World} (h : action s.world = .ok (a, w)) :
    world action s = .ok a { s with world := w } := by
  rw [world, get_bind_apply, StateT.run, h]
  rfl

theorem world_of_error {f : Fault} (h : action s.world = .error f) :
    world action s = .error (.fault f) s := by
  rw [world, get_bind_apply, StateT.run, h]
  rfl

/-- The computation gives a value, and changes nothing but the world, in which the stream stands at
a position then. -/
def LeavesAt (m : Run α) (s : Store) (stream : Nat) (content : Bytes) (a : α) (position : Nat) :
    Prop :=
  ∃ w, m s = .ok a { s with world := w } ∧ w.StandsAt stream content position

theorem LeavesAt.pure (hs : s.world.StandsAt stream content p) (a : α) :
    LeavesAt (.pure a) s stream content a p :=
  ⟨s.world, rfl, hs⟩

theorem LeavesAt.world (hs : s.world.StandsAt stream content p)
    (h : action s.world = .ok (a, s.world.moveTo stream q)) :
    LeavesAt (.world action) s stream content a q :=
  ⟨_, world_of_ok h, hs.moveTo q⟩

theorem LeavesAt.bind {f : α → Run β} {b : β} (h : LeavesAt m s stream content a p)
    (hf : ∀ w : World, w.StandsAt stream content p →
      LeavesAt (f a) { s with world := w } stream content b q) :
    LeavesAt (m >>= f) s stream content b q := by
  obtain ⟨w, hm, hw⟩ := h
  obtain ⟨w', hfa, hw'⟩ := hf w hw
  exact ⟨w', (bind_of_ok hm).trans hfa, hw'⟩

theorem LeavesAt.map (h : LeavesAt m s stream content a p) (f : α → β) :
    LeavesAt (m >>= fun a => return f a) s stream content (f a) p :=
  h.bind fun _ hw => .pure hw (f a)

end Run

namespace IoLibrary

open World (lineOf lineOf_append lineOf_eq_nil)

variable {k : Evaluator} {sc file stream p : Nat} {content : Bytes} {s : Store}

/-! ## Formats that keep all they take -/

/-- What can be asked for: a line with its end, all the rest, or a number of bytes. -/
inductive Portion where
  | line | rest | bytes (count : Nat)
deriving DecidableEq

namespace Portion

def format : Portion → Value
  | line => .ascii "L"
  | rest => .ascii "a"
  | bytes count => .int count

def Fits : Portion → Prop
  | bytes count => count ≤ 9223372036854775774
  | _ => True

instance : (x : Portion) → Decidable x.Fits
  | line | rest => .isTrue trivial
  | bytes count => inferInstanceAs (Decidable (count ≤ 9223372036854775774))

def part : Portion → Bytes → Bytes
  | line, ahead => lineOf ahead
  | rest, ahead => ahead
  | bytes count, ahead => ahead.take count

/-- What is answered: the part, or `nil` if nothing lies ahead. But all the rest may be nothing. -/
def answer (x : Portion) (ahead : Bytes) : Value :=
  if ahead = [] ∧ x ≠ rest then .nil else .str (x.part ahead)

def stop (x : Portion) (content : Bytes) (p : Nat) : Nat := p + (x.part (content.drop p)).length

variable {x : Portion} {ahead : Bytes}

theorem answer_nil (hx : x ≠ rest) : x.answer [] = .nil := if_pos ⟨rfl, hx⟩

theorem answer_of_ne_nil (x : Portion) (h : ahead ≠ []) : x.answer ahead = .str (x.part ahead) :=
  if_neg fun hnil => h hnil.1

theorem answer_eq_stringOrNil (hx : x ≠ rest) (hpart : x.part ahead = [] → ahead = []) :
    x.answer ahead = stringOrNil (x.part ahead) := by
  by_cases h : ahead = []
  · subst h
    rw [answer_nil hx]
    cases x with
    | line | bytes => simp [part, lineOf, stringOrNil]
    | rest => exact absurd rfl hx
  · rw [answer_of_ne_nil x h, stringOrNil, if_neg]
    rw [List.isEmpty_iff]
    exact fun hnil => h (hpart hnil)

end Portion

variable {count q : Nat} {formats : List Value} {start : Nat} (xs ys : List Portion) (x : Portion)
  (ahead : Bytes)

theorem leavesAt_readCount (hs : s.world.StandsAt stream content p)
    (hcount : count ≤ 9223372036854775774) :
    LeavesAt (readCount stream count) s stream content ((Portion.bytes count).answer (content.drop p))
      ((Portion.bytes count).stop content p) := by
  by_cases hzero : count = 0
  · subst hzero
    -- The byte that is read to see whether there is one is given back.
    refine (LeavesAt.world hs (hs.read 1 (by decide))).bind fun w hw => ?_
    by_cases hahead : content.drop p = []
    · rw [hahead] at hw ⊢
      exact .pure hw _
    · obtain ⟨b, rest, hcons⟩ := exists_cons_of_ne_nil hahead
      rw [hcons] at hw ⊢
      have hseek := hw.seek (-1) (q := p) rfl (by simp)
      exact (LeavesAt.world (s := { s with world := w }) hw hseek).bind fun w' hw' => .pure hw' _
  · have hread := LeavesAt.world hs (hs.read count hcount)
    have hpart (hnil : (content.drop p).take count = []) : content.drop p = [] :=
      (take_eq_nil_iff.mp hnil).resolve_left hzero
    rw [Portion.answer_eq_stringOrNil (x := .bytes count) (by simp) hpart, readCount,
      if_neg (by exact_mod_cast hzero)]
    exact hread.map _

section

variable (hfile : (s.file file).stream = some stream)
include hfile

theorem streamOf_file (operation : String) : streamOf (.file file) operation s = .ok stream s := by
  simp only [streamOf, get_bind_apply, hfile]
  rfl

theorem leavesAt_streamOf {α : Type} {f : Nat → Run α} {a : α} {operation : String}
    (hf : LeavesAt (f stream) s stream content a q) :
    LeavesAt (streamOf (.file file) operation >>= f) s stream content a q := by
  obtain ⟨w, hm, hw⟩ := hf
  exact ⟨w, (bind_of_ok (streamOf_file hfile operation)).trans hm, hw⟩

theorem leavesAt_readFormat (hs : s.world.StandsAt stream content p) {x : Portion} (hx : x.Fits) :
    LeavesAt (readFormat k sc (.file file) x.format) s stream content (x.answer (content.drop p))
      (x.stop content p) := by
  cases x with
  | line =>
    rw [Portion.answer_eq_stringOrNil (x := .line) (by simp) lineOf_eq_nil]
    exact leavesAt_streamOf hfile ((LeavesAt.world hs hs.readLine).map _)
  | rest =>
    rw [Portion.answer, if_neg (by simp)]
    exact leavesAt_streamOf hfile ((LeavesAt.world hs hs.readAll).map _)
  | bytes count => exact leavesAt_streamOf hfile (leavesAt_readCount hs hx)

/-! ## Reads that follow one another -/

def answers (content : Bytes) : Nat → List Portion → List Value
  | _, [] => []
  | p, x :: xs => x.answer (content.drop p) :: answers content (x.stop content p) xs

def stop (content : Bytes) : Nat → List Portion → Nat
  | p, [] => p
  | p, x :: xs => stop content (x.stop content p) xs

omit hfile in
theorem answers_append :
    answers content p (xs ++ ys) =
    answers content p xs ++ answers content (stop content p xs) ys := by
  induction xs generalizing p with
  | nil => rfl
  | cons x xs ih => rw [cons_append, answers, answers, ih, stop, cons_append]

omit hfile in
theorem stop_append : stop content p (xs ++ ys) = stop content (stop content p xs) ys := by
  induction xs generalizing p with
  | nil => rfl
  | cons x xs ih => rw [cons_append, stop, stop, ih]

theorem leavesAt_mapM_readFormat (hs : s.world.StandsAt stream content p) {xs : List Portion}
    (hxs : ∀ x ∈ xs, x.Fits) :
    LeavesAt ((xs.map Portion.format).mapM (readFormat k sc (.file file))) s stream content
      (answers content p xs) (stop content p xs) := by
  induction xs generalizing p s with
  | nil => exact .pure hs []
  | cons x xs ih =>
    obtain ⟨hx, hxs⟩ := forall_mem_cons.mp hxs
    rw [map_cons, mapM_cons]
    refine (leavesAt_readFormat hfile hs hx).bind fun w hw => ?_
    exact (ih (s := { s with world := w }) hfile hw hxs).map _

end

def readCall (m g sc file : Nat) (traced : Bool) (xs : List Portion) : Run Results :=
  (withFuel (m + 1)).call (.func g) (.one (.file file) :: xs.map fun x => .one x.format) (some sc)
    traced

variable {m g : Nat} (traced : Bool)

theorem leavesAt_call (hg : s.function? g = some (.ofBuiltin .fileRead)) {vs : List Value}
    (hread : LeavesAt (read (withFuel m) sc (.file file) formats) s stream content vs q) :
    LeavesAt ((withFuel (m + 1)).call (.func g) (.one (.file file) :: formats.map .one) (some sc) traced)
      s stream content (.ofList vs) q := by
  obtain ⟨w, hrun, hw⟩ := hread.map Results.ofList
  refine ⟨w, call_builtin_of_ok hg ?_, hw⟩
  rw [Results.flatten_one_cons, Results.flatten_map_one, runNative_of_check rfl rfl rfl]
  exact hrun

def callAnswers (content : Bytes) : Nat → List (List Portion) → List (List Value)
  | _, [] => []
  | p, xs :: calls => answers content p xs :: callAnswers content (stop content p xs) calls

theorem flatten_callAnswers (calls : List (List Portion)) :
    (callAnswers content p calls).flatten = answers content p calls.flatten := by
  induction calls generalizing p with
  | nil => rfl
  | cons xs calls ih =>
    rw [callAnswers, flatten_cons, flatten_cons, ih]
    exact (answers_append xs calls.flatten).symm

theorem callAnswers_singletons :
    callAnswers content p (xs.map ([·])) = (answers content p xs).map ([·]) := by
  induction xs generalizing p with
  | nil => rfl
  | cons x xs ih => exact congrArg ([x.answer (content.drop p)] :: ·) ih

section

variable (hg : s.function? g = some (.ofBuiltin .fileRead))
  (hfile : (s.file file).stream = some stream) (hs : s.world.StandsAt stream content p)
include hg hfile hs

theorem leavesAt_readCall (m sc : Nat) {xs : List Portion} (hne : xs ≠ []) (hxs : ∀ x ∈ xs, x.Fits) :
    LeavesAt (readCall m g sc file traced xs) s stream content (.ofList (answers content p xs))
      (stop content p xs) := by
  have hread : LeavesAt (read (withFuel m) sc (.file file) (xs.map Portion.format)) s stream content
      (answers content p xs) (stop content p xs) := by
    obtain ⟨x, xs, rfl⟩ := exists_cons_of_ne_nil hne
    exact leavesAt_mapM_readFormat hfile hs hxs
  have hcall := leavesAt_call traced hg hread
  rwa [map_map] at hcall

theorem leavesAt_calls {calls : List (List Portion)} (hcalls : ∀ xs ∈ calls, xs ≠ [] ∧ ∀ x ∈ xs, x.Fits) :
    LeavesAt (calls.mapM (readCall m g sc file traced)) s stream content
      ((callAnswers content p calls).map .ofList) (stop content p calls.flatten) := by
  induction calls generalizing p s with
  | nil => exact .pure hs []
  | cons xs calls ih =>
    obtain ⟨⟨hne, hxs⟩, hcalls⟩ := forall_mem_cons.mp hcalls
    rw [mapM_cons, flatten_cons, stop_append]
    refine (leavesAt_readCall traced hg hfile hs m sc hne hxs).bind fun w hw => ?_
    exact (ih (s := { s with world := w }) hg hfile hw hcalls).map _

theorem readCall_of_not_fits (m sc : Nat) {x : Portion} (hx : ¬x.Fits) :
    ∃ e : LuaError, readCall m g sc file traced [x] s = .error (.error e) s := by
  cases x with
  | line | rest => exact (hx trivial).elim
  | bytes count =>
    obtain ⟨f, hread⟩ := hs.read_of_lt (Nat.not_le.mp hx)
    have hzero : (count : Int) ≠ 0 := by
      unfold Portion.Fits at hx
      omega
    have hcount : readCount stream count s = .error (.fault f) s := by
      rw [readCount, if_neg hzero]
      exact bind_of_error (world_of_error hread)
    refine Eval.call_builtin_of_failure hg ⟨.fault f, trivial, ?_⟩ traced
    refine (runNative_of_check rfl rfl rfl).trans ?_
    exact bind_of_error (bind_of_error ((bind_of_ok (streamOf_file hfile "read")).trans hcount))

end

/-! ## What the answers say -/

theorem Portion.part_eq_take : x.part ahead = ahead.take (x.part ahead).length := by
  refine prefix_iff_eq_take.mp ?_
  cases x with
  | line =>
    rw [part, ← World.take_lineLength]
    exact take_prefix _ _
  | rest => exact prefix_refl ahead
  | bytes count => exact take_prefix _ _

theorem le_stop (content : Bytes) (p : Nat) (xs : List Portion) : p ≤ stop content p xs := by
  induction xs generalizing p with
  | nil => exact Nat.le_refl p
  | cons x xs ih => exact Nat.le_trans (Nat.le_add_right _ _) (ih (x.stop content p))

def bytesOf : Value → Bytes
  | .str bs => bs
  | _ => []

theorem bytesOf_answer : bytesOf (x.answer ahead) = x.part ahead := by
  by_cases h : ahead = [] ∧ x ≠ .rest
  · rw [Portion.answer, if_pos h, h.1, x.part_eq_take, take_nil]
    rfl
  · rw [Portion.answer, if_neg h]
    rfl

theorem take_append_drop_take {n : Nat} (h : p + n ≤ q) :
    (content.drop p).take n ++ (content.take q).drop (p + n) = (content.take q).drop p := by
  have htake : (content.drop p).take n = ((content.take q).drop p).take n := by
    rw [drop_take, take_take, Nat.min_eq_left (by omega)]
  rw [htake, ← drop_drop, take_append_drop]

/-- The answers, one after the other, are what lies between the first and the last position. -/
theorem flatMap_bytesOf_answers (content : Bytes) (p : Nat) (xs : List Portion) :
    (answers content p xs).flatMap bytesOf = (content.take (stop content p xs)).drop p := by
  induction xs generalizing p with
  | nil => exact (drop_eq_nil_of_le (length_take_le _ _)).symm
  | cons x xs ih =>
    rw [answers, flatMap_cons, ih, bytesOf_answer, x.part_eq_take, stop]
    exact take_append_drop_take (le_stop content _ xs)

theorem answer_eq_nil_iff (content : Bytes) (p : Nat) :
    x.answer (content.drop p) = .nil ↔ x ≠ .rest ∧ content.length ≤ p := by
  rw [← drop_eq_nil_iff, Portion.answer]
  split
  · next h => exact iff_of_true rfl ⟨h.2, h.1⟩
  · next h => exact iff_of_false nofun fun h' => h ⟨h'.2, h'.1⟩

theorem exists_answers_line (content : Bytes) (p : Nat) : ∃ lines : List Bytes,
    lines.flatten = content.drop p ∧
    answers content p (List.replicate (lines.length + 1) .line) = lines.map .str ++ [.nil] := by
  generalize hn : (content.drop p).length = n
  induction n using Nat.strongRecOn generalizing p with
  | ind n ih =>
    by_cases hahead : content.drop p = []
    · refine ⟨[], hahead.symm, ?_⟩
      rw [length_nil, replicate_one, answers, hahead, Portion.answer_nil (by simp)]
      rfl
    · have hline : (lineOf (content.drop p)).length ≠ 0 := fun h =>
        hahead (lineOf_eq_nil (length_eq_zero_iff.mp h))
      have hshorter : (content.drop (p + (lineOf (content.drop p)).length)).length < n := by
        have hpos := length_pos_iff.mpr hahead
        rw [length_drop] at hn hpos ⊢
        omega
      obtain ⟨lines, hflatten, hanswers⟩ := ih _ hshorter _ rfl
      refine ⟨lineOf (content.drop p) :: lines, ?_, ?_⟩
      · have hfirst := Portion.line.part_eq_take (content.drop p)
        rw [flatten_cons, hflatten, ← drop_drop]
        exact (congrArg (· ++ _) hfirst).trans (take_append_drop _ _)
      · rw [length_cons, replicate_succ, answers, Portion.answer_of_ne_nil _ hahead]
        exact congrArg (.str (lineOf (content.drop p)) :: ·) hanswers

/-- Reads that keep all they take lose and repeat nothing, in whichever calls they are made: the bytes
they give are those between the first and the last position, in order. Only a number of bytes that
is greater than any buffer is refused, and nothing has moved then. A read gives `nil` exactly if
nothing is left, except that one of all the rest never does; else it gives as many bytes as it is
asked for, or what is left, or goes up to and including the next line feed. So lines that are read
until there is none make up all that was left. -/
theorem reads_lose_and_repeat_nothing (hg : s.function? g = some (.ofBuiltin .fileRead))
    (hfile : (s.file file).stream = some stream) (hs : s.world.StandsAt stream content start)
    (m sc : Nat) (traced : Bool) : let read := readCall m g sc file traced
    (∀ calls : List (List Portion), (∀ xs ∈ calls, xs ≠ [] ∧ ∀ x ∈ xs, x.Fits) →
      let results := callAnswers content start calls
      let finish := stop content start calls.flatten
      LeavesAt (calls.mapM read) s stream content (results.map .ofList) finish ∧ start ≤ finish ∧
      results.flatten = answers content start calls.flatten ∧
      results.flatten.flatMap bytesOf = (content.take finish).drop start) ∧
    (∀ x : Portion, ¬x.Fits → ∃ e : LuaError, read [x] s = .error (.error e) s) ∧
    (∀ (x : Portion) (p : Nat),
      (x.answer (content.drop p) = .nil ↔ x ≠ .rest ∧ content.length ≤ p) ∧
      (p < content.length → x.answer (content.drop p) = .str (x.part (content.drop p)))) ∧
    (∀ count p : Nat, ((Portion.bytes count).part (content.drop p)).length =
      min count (content.length - p)) ∧
    (∀ line rest : Bytes, 10 ∉ line →
      Portion.line.part line = line ∧ Portion.line.part (line ++ 10 :: rest) = line ++ [10]) ∧
    ∃ lines : List Bytes, lines.flatten = content.drop start ∧
      LeavesAt ((List.replicate (lines.length + 1) [.line]).mapM read) s stream content
        ((lines.map Value.str ++ [Value.nil]).map fun v => .ofList [v])
        (stop content start (List.replicate (lines.length + 1) .line)) := by
  intro read
  have hcalls (calls : List (List Portion)) (h : ∀ xs ∈ calls, xs ≠ [] ∧ ∀ x ∈ xs, x.Fits) :
      LeavesAt (calls.mapM read) s stream content ((callAnswers content start calls).map .ofList)
        (stop content start calls.flatten) :=
    leavesAt_calls traced hg hfile hs h
  refine ⟨fun calls h => ⟨hcalls calls h, le_stop _ _ _, flatten_callAnswers calls, ?_⟩,
    fun x hx => readCall_of_not_fits traced hg hfile hs m sc hx,
    fun x p => ⟨answer_eq_nil_iff x content p, fun hp => x.answer_of_ne_nil ?_⟩,
    fun count p => ?_, fun line rest hline => ⟨?_, ?_⟩, ?_⟩
  · rw [flatten_callAnswers, flatMap_bytesOf_answers]
  · exact drop_eq_nil_iff.not.mpr (Nat.not_le.mpr hp)
  · rw [Portion.part, length_take, length_drop]
  · exact (congrArg lineOf line.append_nil).symm.trans
      ((lineOf_append hline []).trans line.append_nil)
  · exact lineOf_append hline (10 :: rest)
  · obtain ⟨lines, hflatten, hanswers⟩ := exists_answers_line content start
    refine ⟨lines, hflatten, ?_⟩
    have hsingle : List.replicate (lines.length + 1) [.line] =
        (List.replicate (lines.length + 1) Portion.line).map ([·]) := by rw [map_replicate]
    have hread := hcalls (List.replicate (lines.length + 1) [.line]) fun xs hxs => by
      rw [eq_of_mem_replicate hxs]
      exact ⟨cons_ne_nil _ _, forall_mem_singleton.mpr trivial⟩
    rw [hsingle, callAnswers_singletons, hanswers, map_map, ← flatMap_def,
      flatMap_singleton'] at hread
    rw [hsingle]
    exact hread

/-- A store in which the file `0`, named `a`, can be read from a position of a content on. -/
def storeWith (content : Bytes) (position : Nat) : Store :=
  { Store.initial
      { disk := { nodes := [([[97]], .file 0)], contents := #[content] }
        streams := #[{ content := 0, access := .read, name := .unnamed, position }] } with
    files := #[{ stream := some 0 }] }

theorem standsAt_storeWith (content : Bytes) (position : Nat) :
    (storeWith content position).world.StandsAt 0 content position :=
  ⟨(by decide : Access.read ≠ .write), rfl, rfl, rfl, rfl⟩

/-- A part of a line, an empty part, the end of the line, and more than there is. -/
theorem parts_of_line_are_read :
    LeavesAt ([[.bytes 1, .bytes 0], [.line], [.bytes 5, .line]].mapM
        (readCall 0 Builtin.fileRead.number 0 0 false)) (storeWith [97, 98, 10, 99] 0) 0 [97, 98, 10, 99]
      [.ofList [.str [97], .str []], .ofList [.str [98, 10]], .ofList [.str [99], .nil]] 4 :=
  ((reads_lose_and_repeat_nothing rfl rfl (standsAt_storeWith [97, 98, 10, 99] 0) 0 0 false).1
    [[.bytes 1, .bytes 0], [.line], [.bytes 5, .line]] (by decide)).1

/-! ## Lines without their ends -/

theorem leavesAt_readLine (hs : s.world.StandsAt stream content p) :
    LeavesAt (readLine stream) s stream content
      (if content.drop p = [] then .nil else .str (lineOf (content.drop p)).dropLast)
      (Portion.line.stop content p) := by
  have hread := (LeavesAt.world hs hs.readLine).map fun bs =>
    if bs.isEmpty then Value.nil else .str bs.dropLast
  have hempty : (lineOf (content.drop p)).isEmpty = true ↔ content.drop p = [] := by
    refine List.isEmpty_iff.trans ⟨lineOf_eq_nil, fun h => ?_⟩
    rw [h]
    rfl
  simp only [hempty] at hread
  exact hread

theorem leavesAt_read_line (k : Evaluator) (sc : Nat) (hfile : (s.file file).stream = some stream)
    {v : Value} (hread : LeavesAt (readLine stream) s stream content v q)
    (hformats : formats = [] ∨ formats = [.ascii "l"]) :
    LeavesAt (read k sc (.file file) formats) s stream content [v] q := by
  rcases hformats with rfl | rfl
  · exact leavesAt_streamOf hfile (hread.map ([·]))
  · show LeavesAt ([Value.ascii "l"].mapM _) s stream content [v] q
    exact (leavesAt_streamOf hfile hread).map ([·])

theorem lineOf_eq :
    lineOf ahead = ahead.takeWhile (· != 10) ++ if 10 ∈ ahead then [10] else [] := by
  induction ahead with
  | nil => rfl
  | cons b ahead ih =>
    by_cases hb : b = 10
    · simp [lineOf, hb]
    · rw [lineOf] at ih
      simp [lineOf, hb, Ne.symm hb, ih]

/-- A line that ends with a line feed is read without it. But a last line that has none is read
without its last byte: exactly the lines that have an end are read in full. The format that keeps the
end gives the same line with its end, if it has one, and leaves off at the same place. -/
theorem line_format_drops_last_byte (hg : s.function? g = some (.ofBuiltin .fileRead))
    (hfile : (s.file file).stream = some stream) (hs : s.world.StandsAt stream content start)
    (hleft : start < content.length) (m sc : Nat) (traced : Bool) : let ahead := content.drop start
    let line := ahead.takeWhile (· != 10)
    let finish := Portion.line.stop content start
    let read (formats : List Value) := (withFuel (m + 1)).call (.func g)
      (.one (.file file) :: formats.map .one) (some sc) traced
    LeavesAt (read [.ascii "L"]) s stream content
      (.ofList [.str (if 10 ∈ ahead then line ++ [10] else line)]) finish ∧
    ∀ formats : List Value, formats = [] ∨ formats = [.ascii "l"] →
      LeavesAt (read formats) s stream content
        (.ofList [.str (if 10 ∈ ahead then line else line.dropLast)]) finish ∧
      ((∃ t, read formats s = .ok (.ofList [.str line]) t) ↔ 10 ∈ ahead) := by
  intro ahead line finish read
  have hahead : ahead ≠ [] := drop_eq_nil_iff.not.mpr (Nat.not_le.mpr hleft)
  refine ⟨?_, fun formats hformats => ?_⟩
  · have hkept := leavesAt_readCall traced hg hfile hs m sc (cons_ne_nil Portion.line [])
      (forall_mem_singleton.mpr trivial)
    have hline : lineOf ahead = if 10 ∈ ahead then line ++ [10] else line := by
      rw [lineOf_eq]
      split
      · rfl
      · exact append_nil line
    rw [answers, Portion.answer_of_ne_nil _ hahead, Portion.part, hline] at hkept
    exact hkept
  · have hdropped := leavesAt_call traced hg
      (leavesAt_read_line (withFuel m) sc hfile (leavesAt_readLine hs) hformats)
    have hline : (lineOf ahead).dropLast = if 10 ∈ ahead then line else line.dropLast := by
      rw [lineOf_eq]
      split
      · exact dropLast_concat
      · rw [append_nil]
    rw [if_neg hahead, hline] at hdropped
    refine ⟨hdropped, ?_⟩
    obtain ⟨w, hread, -⟩ := hdropped
    constructor
    · rintro ⟨t, ht⟩
      by_contra hend
      rw [if_neg hend] at hread
      have hsame : line.dropLast = line := by
        simpa [Results.ofList] using (EStateM.Result.ok.inj (hread.symm.trans ht)).1
      have hnil : line = [] := by
        have hlength := congrArg List.length hsame
        rw [length_dropLast] at hlength
        exact length_eq_zero_iff.mp (by omega)
      refine hahead (lineOf_eq_nil ?_)
      rw [lineOf_eq, if_neg hend, append_nil]
      exact hnil
    · intro hend
      rw [if_pos hend] at hread
      exact ⟨_, hread⟩

/-- The last byte of a file that does not end with a line feed is lost. -/
theorem last_line_loses_byte :
    LeavesAt ((withFuel 1).call (.func Builtin.fileRead.number) [.one (.file 0), .one (.ascii "l")]
        (some 0) false) (storeWith [97, 98] 0) 0 [97, 98] (.ofList [.str [97]]) 2 :=
  ((line_format_drops_last_byte rfl rfl (standsAt_storeWith [97, 98] 0) (by decide) 0 0 false).2
    [.ascii "l"] (.inr rfl)).1

end IoLibrary

end LuaInterpreter
