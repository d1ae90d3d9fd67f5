import LuaInterpreter.CommandLine.Program
import LuaInterpreter.Proofs.Run

/-!
# Lines at the prompt

The prompt puts the lines that are entered behind each other, with nothing between them, until the
text can be read. If it can be read as a chunk then, it is run once, and the prompt starts anew.
-/

namespace LuaInterpreter.Prompt

open Run List Chunk

/-- The text of some lines: nothing stands between them. -/
def together (lines : List (List Char)) : String := String.ofList lines.flatten

/-- A text has no reading. -/
def unreadable {α : Type} : Except SyntaxError α → Bool
  | .error e => isUnreadable (.syntaxError e)
  | .ok _ => false

/-- Lines that are entered one after the other, where a text has been collected already. -/
inductive Entered (first more : String) : String → List (List Char) → Store → Store → Prop
  | none {collected : String} {s : Store} : Entered first more collected [] s s
  | line {collected : String} {l : List Char} {ls : List (List Char)} {s t u : Store} :
      world (World.promptLine (if collected = "" then first else more)) s = .ok (.line l) t →
      Entered first more (collected ++ String.ofList l) ls t u →
      Entered first more collected (l :: ls) s u

/-- Runs an action and shows its results, or reports its error. -/
def conclude (k : Evaluator) (scope : Nat) (action : Run Results) : Run Unit := do
  let outcome ← (do return .results (← action) : Run Outcome).handle
    (fun e => do
      let _ ← Report.error k scope e true
      return .reported) fault
  match outcome with
  | .results r => showResults r
  | _ => pure ()

variable {k : Evaluator} {scope : Nat} {text first more collected : String} {l : List Char}
  {lines : List (List Char)} {s t : Store}

theorem accept_of_unreadable {α : Type} {reading : Except SyntaxError α}
    (h : unreadable reading = true) :
    ∃ f, isUnreadable f = true ∧ accept reading s = .error (.fault f) s := by
  cases reading with
  | ok => cases h
  | error e =>
    cases e with
    | unreadable => exact ⟨_, rfl, rfl⟩
    | reserved | unsupported => cases h

theorem run_of_unreadable (hchunk : unreadable (readChunk text) = true)
    (hexpr : unreadable (readExpr text) = true) : run k scope text s = .ok .incomplete s := by
  obtain ⟨f, hf, hchunk⟩ := @accept_of_unreadable s _ _ hchunk
  obtain ⟨g, hg, hexpr⟩ := @accept_of_unreadable s _ _ hexpr
  have hexecute : execute k scope text "<exec>" s = .error (.fault f) s :=
    bind_of_error hchunk
  have hevaluate : evaluate k scope text s = .error (.fault g) s := bind_of_error hexpr
  rw [run, orElse, handle_of_fault (bind_of_error hexecute), if_pos hf, orElse,
    handle_of_fault (bind_of_error hevaluate), if_pos hg]
  rfl

/-- A chunk that can be read does not end as if it could not: its own faults become errors. -/
theorem isUnreadable_of_execute {f : Fault} {name : String}
    (hread : unreadable (readChunk text) = false)
    (h : execute k scope text name s = .error (.fault f) t) : isUnreadable f = false := by
  rw [execute] at h
  cases hchunk : readChunk text with
  | error e =>
    rw [hchunk] at h hread
    cases e with
    | unreadable => cases hread
    | reserved => cases h
    | unsupported =>
      cases h
      rfl
  | ok chunk =>
    rw [hchunk] at h
    have hfault : protect (Eval.blockValue k scope (chunk.stamp name).block) s =
      .error (.fault f) t := h
    rw [protect] at hfault
    cases hvalue : Eval.blockValue k scope (chunk.stamp name).block s with
    | ok r u => cases (handle_of_ok hvalue).symm.trans hfault
    | error e u =>
      cases e with
      | error e => cases (handle_of_error hvalue).symm.trans hfault
      | fault f => cases (handle_of_fault hvalue).symm.trans hfault
      | _ => cases (handle_of_control hvalue trivial).symm.trans hfault

/-- One more line. -/
theorem step_of_unreadable
    (hline : world (World.promptLine (if collected = "" then first else more)) s = .ok (.line l) t)
    (hchunk : unreadable (readChunk (collected ++ String.ofList l)) = true)
    (hexpr : unreadable (readExpr (collected ++ String.ofList l)) = true) :
    step k scope first more collected s = .ok (.inl (collected ++ String.ofList l)) t := by
  rw [step, bind_of_ok hline]
  exact bind_of_ok (run_of_unreadable hchunk hexpr)

theorem step_of_chunk
    (hline : world (World.promptLine (if collected = "" then first else more)) s = .ok (.line l) t)
    (hread : unreadable (readChunk (collected ++ String.ofList l)) = false) :
    step k scope first more collected s =
      (conclude k scope (execute k scope (collected ++ String.ofList l) "<exec>") >>=
        fun _ => pure (.inl "")) t := by
  rw [step, bind_of_ok hline]
  show (run k scope (collected ++ String.ofList l) >>= _) t = _
  generalize collected ++ String.ofList l = text at hread ⊢
  rw [run, orElse, conclude, bind_assoc]
  cases hexecute : execute k scope text "<exec>" t with
  | ok r u =>
    have hrun : (do return .results (← execute k scope text "<exec>") : Run Outcome) t =
      .ok (.results r) u := bind_of_ok hexecute
    rw [bind_of_ok (handle_of_ok hrun), bind_of_ok (handle_of_ok hrun)]
  | error e u =>
    have hrun : (do return .results (← execute k scope text "<exec>") : Run Outcome) t =
      .error e u := bind_of_error hexecute
    cases e with
    | error e =>
      rw [bind_of_eq (handle_of_error hrun), bind_of_eq (handle_of_error hrun)]
      simp only [bind_assoc, pure_bind]
    | fault f =>
      rw [bind_of_eq (handle_of_fault hrun), bind_of_eq (handle_of_fault hrun),
        isUnreadable_of_execute hread hexecute]
      rfl
    | _ =>
      rw [bind_of_error (handle_of_control hrun trivial),
        bind_of_error (handle_of_control hrun trivial)]

/-- Lines behind those that were collected before. -/
theorem loop_of_entered {done : List (List Char)} {fuel : Nat} (hlines : lines ≠ [])
    (hentered : Entered first more (together done) lines s t)
    (hparts : ∀ front, front <+: lines → front ≠ [] → front ≠ lines →
      unreadable (readChunk (together (done ++ front))) = true ∧
        unreadable (readExpr (together (done ++ front))) = true)
    (hread : unreadable (readChunk (together (done ++ lines))) = false) :
    loop (fuel + lines.length) (step k scope first more) (together done) s =
      (conclude k scope (execute k scope (together (done ++ lines)) "<exec>") >>=
        fun _ => loop fuel (step k scope first more) "") t := by
  induction lines generalizing done s with
  | nil => exact absurd rfl hlines
  | cons l ls ih =>
    have hnext : together done ++ String.ofList l = together (done ++ [l]) := by simp [together]
    obtain _ | ⟨hline, hentered⟩ := hentered
    rw [length_cons, ← Nat.add_assoc, loop]
    cases ls with
    | nil =>
      cases hentered
      rw [← hnext] at hread
      rw [bind_of_eq (step_of_chunk hline hread), bind_assoc, hnext]
      simp only [pure_bind, length_nil, Nat.add_zero]
    | cons l' ls =>
      obtain ⟨hchunk, hexpr⟩ := hparts [l] (prefix_append [l] _) (cons_ne_nil _ _) (by simp)
      rw [← hnext] at hchunk hexpr
      rw [bind_of_ok (step_of_unreadable hline hchunk hexpr), hnext]
      rw [hnext] at hentered
      rw [append_cons done l (l' :: ls)] at hread ⊢
      refine ih (cons_ne_nil _ _) hentered (fun front hfront hne hne' => ?_) hread
      rw [← append_cons]
      exact hparts (l :: front) (cons_prefix_cons.mpr ⟨rfl, hfront⟩) (cons_ne_nil _ _)
        (mt (cons.inj · |>.2) hne')

/-- Lines of which no beginning can be read, neither as a chunk nor as an expression, but which can be
read as a chunk if nothing is put between them: after the last line that chunk is run, once, and the
prompt goes on with nothing collected. -/
theorem lines_are_run_together {lines : List (List Char)} {s t : Store} (k : Evaluator)
    (scope fuel : Nat) (hlines : lines ≠ []) (hentered : Entered first more "" lines s t)
    (hparts : ∀ front, front <+: lines → front ≠ [] → front ≠ lines →
      unreadable (readChunk (together front)) = true ∧
        unreadable (readExpr (together front)) = true)
    (hread : unreadable (readChunk (together lines)) = false) :
    loop (fuel + lines.length) (step k scope first more) "" s =
      (conclude k scope (Chunk.execute k scope (together lines) "<exec>") >>=
        fun _ => loop fuel (step k scope first more) "") t :=
  @loop_of_entered k scope first more lines s t [] fuel hlines hentered hparts hread

/-- A label whose colons are entered on two lines. -/
theorem label_is_read_across_lines :
    let k := Evaluator.withFuel 1
    let lines := [[':'], [':', 'a', ':', ':']]
    let s : Store :=
      { world := { diverted := true, lookahead := [':', '\n', ':', 'a', ':', ':', '\n'] } }
    ∃ t, Entered "> " ">> " "" lines s t ∧ together lines = "::a::" ∧
      loop 3 (step k 0 "> " ">> ") "" s =
        (conclude k 0 (execute k 0 (together lines) "<exec>") >>=
          fun _ => loop 1 (step k 0 "> " ">> ") "") t := by
  intro k lines s
  obtain ⟨t, hentered⟩ : ∃ t, Entered "> " ">> " "" lines s t :=
    ⟨_, .line (by rw [if_pos rfl]; rfl) (.line (by rw [if_neg (by decide)]; rfl) .none)⟩
  have hparts : ∀ front, front <+: lines → front ≠ [] → front ≠ lines →
      unreadable (readChunk (together front)) = true ∧
        unreadable (readExpr (together front)) = true := by
    intro front hfront hne hne'
    obtain rfl | ⟨rest, rfl, hrest⟩ := prefix_cons_iff.mp hfront
    · exact absurd rfl hne
    · obtain rfl | ⟨last, rfl, hlast⟩ := prefix_cons_iff.mp hrest
      · decide +kernel
      · cases prefix_nil.mp hlast
        exact absurd rfl hne'
  exact ⟨t, hentered, rfl,
    lines_are_run_together k 0 1 (cons_ne_nil _ _) hentered hparts (by decide +kernel)⟩

end LuaInterpreter.Prompt
