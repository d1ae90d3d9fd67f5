import LuaInterpreter.Proofs.Confinement.Evaluation
import LuaInterpreter.Proofs.Congruence.Library

/-!
# Calls are confined

A call of a function of the language runs its block in a scope of its own. Functions of the library
and of the host reach scopes through calls and through functions that they make, by making scopes for
the chunks that they read, or by starting a session for a function that is called from nowhere.
-/

namespace LuaInterpreter

open Run List Convert

variable {α β : Type} {strict : Prop} {n : Nat} {D : Declarable} {k : Evaluator} {scope : Nat}

/-! ## Functions of the host -/

theorem Bytes.isAscii_of_mapM_encodeAscii? {names : List String} {bss : List Bytes}
    (h : names.mapM (fun n => (Bytes.encodeAscii? n).mapError Fault.unencodable) = .ok bss) :
    ∀ bs ∈ bss, bs.IsAscii := by
  induction names generalizing bss with
  | nil =>
    cases h
    exact nofun
  | cons n names ih =>
    rw [mapM_cons] at h
    cases hn : Bytes.encodeAscii? n with
    | error e =>
      rw [hn] at h
      cases h
    | ok bs =>
      cases hrest : names.mapM (fun n => (Bytes.encodeAscii? n).mapError Fault.unencodable) with
      | error e =>
        rw [hn, hrest] at h
        cases h
      | ok rest =>
        rw [hn, hrest] at h
        cases h
        exact forall_mem_cons.mpr ⟨isAscii_of_encodeAscii? hn, ih hrest⟩

variable {f : Function}

/-- A function that calls a host function refers to no scope, and can be written as text. -/
theorem HostFunction.legible_toFunction {h : HostFunction} {id : Nat} {o : AdoptOptions}
    (hf : h.toFunction id o = .ok f) : f.IsLegible ∧ f.scopes = [] := by
  unfold toFunction at hf
  cases hshape : h.shape with
  | error e =>
    rw [hshape] at hf
    cases hf
  | ok shape =>
    rw [hshape] at hf
    cases hnames : o.paramNames shape with
    | error e =>
      simp only [bind, Except.bind, hnames] at hf
      cases hf
    | ok names =>
      simp only [bind, Except.bind, hnames] at hf
      split at hf
      · cases hf
      · next hparams =>
        cases hf
        exact ⟨⟨Bytes.isAscii_of_mapM_encodeAscii? hparams, nofun⟩, rfl⟩

theorem Run.confined_newFunction_of_scopes_eq_nil (hlegible : f.IsLegible) (hf : f.scopes = []) :
    Run.Confined strict n D (newFunction f) := by
  refine confined_newFunction hlegible fun _ id hid => ?_
  rw [hf] at hid
  cases hid

theorem Run.ensures_ofExcept (e : Except Fault α) : Ensures (Run.ofExcept e) fun a => e = .ok a := by
  cases e with
  | ok a => exact ensures_pure rfl
  | error f => exact ensures_throw _

theorem Run.confined_adopt (id : Nat) (o : AdoptOptions) : Run.Confined strict n D (adopt id o) := by
  refine Confined.get.bind fun s => ?_
  split
  · next h _ =>
    refine (Confined.ofExcept _).bind_of (ensures_ofExcept _) fun f hf => ?_
    obtain ⟨hlegible, hscopes⟩ := HostFunction.legible_toFunction hf
    exact confined_newFunction_of_scopes_eq_nil hlegible hscopes
  · exact .fault _

/-- The converter is called from the scope it was defined in. -/
theorem Convert.confined_callConverter (hk : k.Confined strict) (f v : Value) :
    Run.Confined strict n D (callConverter k f v) := by
  refine .get_bind fun s hs => hk.call s.scopes.size D f _ _ true (fun hstrict id hid => ?_) s hs.self
  cases f with
  | func i =>
    obtain ⟨g, hg, hid⟩ := Option.bind_eq_some_iff.mp hid
    have hmem : g ∈ s.functions := Array.mem_of_getElem? hg
    refine (hs hstrict).2.function g hmem id (mem_append_left _ ?_)
    exact Option.mem_toList.mpr hid
  | _ => cases hid

/-! ## The library -/

theorem Run.Confined.catches : (Congruence.confined strict n D scope).Catches := by
  refine fun hm => .tryCatch hm fun e => ?_
  split
  · exact .pure _
  · exact .throw _

namespace BasicLibrary

theorem confined_chunkFunction (hscope : strict → scope < n) (name source : String) :
    Run.Confined strict n D (chunkFunction scope name source) := by
  unfold chunkFunction
  split
  · exact .fault _
  · refine .detached hscope fun own _ => confined_newFunction ⟨nofun, nofun⟩ fun _ id hid => ?_
    cases mem_singleton.mp hid
    exact Nat.lt_succ_self own

end BasicLibrary

theorem Evaluator.Confined.evaluators (hk : k.Confined strict) (hscope : strict → scope < n) :
    (Congruence.confined strict n D scope).Evaluators k k where
  fuel := rfl
  raise hm hFault := .handle hm (fun _ => .throw _) hFault
  apart := hk.call.apart
  within := hk.call.within hscope
  numeral _ := Eval.congr_single hk.evaluates (Eval.inside D hscope) _
  chunk := BasicLibrary.confined_chunkFunction hscope
  detached _ := .detached hscope fun own _ => hk.expr _ _ own _ fun _ => Nat.lt_succ_self own
  iterator _ _ _ _ := confined_newFunction ⟨nofun, nofun⟩ fun hstrict _ hid =>
    mem_singleton.mp hid ▸ hscope hstrict
  adopt id o _ := confined_adopt id o
  relay _ _ := confined_newFunction_of_scopes_eq_nil ⟨nofun, nofun⟩ rfl
  converter := confined_callConverter hk

/-! ## All functions -/

namespace Eval

variable {f : Function}

variable (hk : k.Confined strict)
include hk

theorem confined_runFunction (hf : strict → ∀ id ∈ f.scopes, id < n) (body : Block)
    (args : List Results) : Run.Confined strict n D (runFunction k f body args) := by
  unfold runFunction
  split
  · exact .fault _
  · next parent hparent =>
    refine .newScope (fun hstrict s hwf hn => ?_) fun i _ =>
      confined_blockValue hk (fun _ => Nat.lt_succ_self i) body fun _ _ => .inl rfl
    have hlt : parent < s.scopes.size := by
      refine Nat.lt_of_lt_of_le (hf hstrict parent (mem_append_left _ ?_)) hn
      rw [hparent]
      exact mem_singleton.mpr rfl
    exact .inside hwf hlt rfl rfl

/-- A host function that converts is told nothing about the scope, except in a complaint. -/
theorem confined_callHost (hscope : strict → scope < n) (id : Nat) (converting : Bool)
    (sc : Option Nat) (args : List Value) :
    Run.Confined strict n D (Convert.callHost k id converting sc args) :=
  congr_callHost (hk.evaluators hscope) id converting rfl
    (fun _ _ _ _ _ => (Confined.get.bind fun _ => .ofExcept _ : Run.Confined strict n D _)) args

section

variable {scope : Option Nat} (hf : strict → ∀ id ∈ f.scopes, id < n)
  (hscope : strict → ∀ id ∈ scope, id < n)
include hf hscope

omit hk in
theorem confined_scopeFor {g : Nat → Run β}
    (hg : ∀ m i, (strict → i < m) → Run.Confined strict m D (g i)) :
    Run.Confined strict n D (scopeFor f scope >>= g) := by
  unfold scopeFor
  split
  · next i hi =>
    rw [pure_bind]
    refine hg n i fun hstrict => ?_
    cases scope with
    | some sc =>
      cases hi
      exact hscope hstrict i rfl
    | none => exact hf hstrict i (mem_append_left _ (Option.mem_toList.mpr hi))
  · exact .newRoot fun i _ => hg (i + 1) i fun _ => Nat.lt_succ_self i

theorem confined_runNative (hpos : strict → 0 < n) (args : List Value) :
    Run.Confined strict n D (runNative k f args scope) := by
  unfold runNative
  split
  · refine (Confined.ofExcept _).bind fun _ => .ite ?_ ?_
    · exact confined_scopeFor hf hscope fun _ i hi =>
        congr_runBuiltin (hk.evaluators hi) (fun _ => Confined.catches) args
    · exact congr_runBuiltin (hk.evaluators hpos) (fun _ => .catches) args
  · next maker sc file formats closing hcode =>
    have hsc : sc ∈ f.scopes := by
      rw [Function.scopes, hcode]
      exact mem_append_right _ (mem_singleton.mpr rfl)
    exact (Confined.ofExcept _).bind fun _ => (IoLibrary.congr_iterate
      (hk.evaluators fun hstrict => hf hstrict sc hsc) file formats closing).bind fun _ => .pure _
  · refine .ite ?_ (confined_callHost hk hpos _ _ _ args)
    exact confined_scopeFor hf hscope fun _ _ hi => confined_callHost hk hi _ _ _ args
  · exact congr_callRelay (hk.evaluators hpos) _ args
  · exact (Confined.ofExcept _).bind fun _ => .pure _
  · exact .pure _

theorem confined_callNative (id : Nat) (hpos : strict → 0 < n) (args : List Results) :
    Run.Confined strict n D (callNative k id f args scope) :=
  (confined_runNative hk hf hscope hpos _).handle
    (fun _ => (Confined.text _).bind fun _ => .throw _)
    fun _ => (Confined.text _).bind fun _ => .throw _

end

theorem confined_callFunction (id : Nat) (args : List Results) {scope : Option Nat}
    (hscope : strict → ∀ id ∈ scope, id < n) (traced : Bool) :
    Run.Confined strict n D (callFunction k id args scope traced) := by
  refine .get_bind fun s hs => ?_
  split
  · exact Confined.fault _ s hs
  · next f hf =>
    -- The scopes that the function refers to exist in the store it is called on.
    have hscopes : strict → ∀ i ∈ f.scopes, i < s.scopes.size := fun hstrict =>
      (hs hstrict).2.function f (Array.mem_of_getElem? hf)
    have hscope' : strict → ∀ i ∈ scope, i < s.scopes.size := fun hstrict i hi =>
      Nat.lt_of_lt_of_le (hscope hstrict i hi) (hs hstrict).1
    extract_lets enter run
    have henter (e : LuaError) : Run.Confined strict s.scopes.size D (enter e) :=
      .ite ((Confined.text _).bind fun _ => .pure _) (.pure _)
    have hrun : Run.Confined strict s.scopes.size D run := by
      unfold run
      split
      · exact confined_runFunction hk hscopes _ args
      · exact confined_callNative hk hscopes hscope' id (fun hstrict => (hs hstrict).2.inhabited) args
    refine hrun.handle (fun e => (henter e).bind fun _ => .throw _) (fun f => ?_) s hs.self
    exact .check (.fault _) fun _ => (Confined.text _).bind fun _ => (henter _).bind fun _ => .throw _

theorem confines_call : Confines strict (call k) := by
  intro n D f args scope traced hscope
  unfold call
  split
  · exact confined_callFunction hk _ args hscope traced
  · refine .bind (congr_metavalue? (R := .confined strict n D 0) f _) fun g => ?_
    split
    · exact (Confined.typeName f).bind fun _ => .error _
    · exact confined_callFunction hk _ _ hscope traced
    · exact (Confined.typeName _).bind fun _ => .error _

end Eval

/-- Every evaluator adds names only where statements declare them. -/
theorem Evaluator.confined_withFuel (strict : Prop) (fuel : Nat) :
    (withFuel fuel).Confined strict := by
  induction fuel with
  | zero =>
    exact ⟨fun _ _ _ _ _ => .throw _, fun _ _ _ _ _ _ => .throw _, fun _ _ _ _ _ _ _ => .throw _⟩
  | succ fuel ih =>
    exact ⟨fun _ _ _ e hscope => Eval.confined_expression ih hscope e,
      fun _ _ _ st hscope hD => Eval.confined_statement ih hscope st hD, Eval.confines_call ih⟩

end LuaInterpreter
