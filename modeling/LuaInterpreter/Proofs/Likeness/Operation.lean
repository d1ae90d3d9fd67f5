import LuaInterpreter.Proofs.Likeness

/-!
# Operations on values in two runs

Raw access, metavalues, indexing and operators look at nothing that two runs may differ in, except
through the functions that they call. To end alike is kept by all that computations are put together
with, so this is a case of what holds of all such relations.
-/

namespace LuaInterpreter

open Run

/-- Two ways of calling that end alike: from the same scope, or each from the caller of its run. -/
structure Caller.Alike (l : Leeway) (call call' : Caller) : Prop where
  same : ∀ lax p q f args scope traced,
    Run.Alike l lax p q (call f args scope traced) (call' f args scope traced)
  kin : ∀ lax p q f args traced,
    Run.Alike l lax p q (call f args (some p) traced) (call' f args (some q) traced)

variable {l : Leeway} {lax : Bool} {p q : Nat} {call call' : Caller}

/-! ## What operations look at -/

namespace Store.Alike

variable {s s' : Store}

theorem describeValue (hs : s.Alike l s') (v : Value) : s'.describeValue v = s.describeValue v := by
  unfold Store.describeValue
  split
  any_goals rfl
  · rw [hs.text, hs.table]
    simp only [hs.text]
  · exact hs.functionText _

theorem describe (hs : s.Alike l s') (v : Value) : s'.describe v = s.describe v := by
  have hitem (h : HostValue) : s'.describeItem h = s.describeItem h := by
    cases h with
    | plain | inert | function => rfl
    | lua v | convertible v | callable v _ => exact hs.describeValue v
  have hobject (o : HostObject) : s'.describeObject o = s.describeObject o := by
    have heq : s'.describeItem = s.describeItem := funext hitem
    cases o with
    | list xs | tuple xs => rw [Store.describeObject, heq, Store.describeObject]
    | dict entries => simp only [Store.describeObject, heq]
  unfold Store.describe
  rw [hs.objects]
  split
  · split
    · exact hobject _
    · rfl
  · exact hs.describeValue v

theorem describeScope (hs : s.Alike l s') (id : Nat) :
    s'.describeScope id = s.describeScope id := by
  have hvariable (v : Variable) : s'.describeVariable v = s.describeVariable v := by
    rw [Store.describeVariable, hs.text, Store.describeVariable]
  have htext : s'.text = s.text := funext hs.text
  simp only [Store.describeScope, hs.scope, hvariable, htext]

theorem function?_bind {α : Type} (hs : s.Alike l s') (id : Nat)
    {g : Function → Option α} (hg : ∀ f c, g { f with code := c } = g f) :
    (s'.function? id).bind g = (s.function? id).bind g := by
  cases hf : s.function? id with
  | none => rw [hs.function?_eq_none hf]
  | some f =>
    obtain ⟨f', hf', halike⟩ := hs.function id f hf
    rw [hf', Option.bind_some, Option.bind_some, halike.eq, hg]

theorem agree (hs : s.Alike l s') (hkin : l.Kin s p q) : s.Matches p q s' where
  tables := hs.tables
  files := hs.files
  objects := hs.objects
  hostFunctions := hs.hostFunctions
  world := hs.world
  scope := hs.scope
  getName := hs.getName
  text := hs.text
  describe := hs.describe
  function id hg := hs.function?_bind id hg
  caller := hs.session_of_kin hkin
  settings i := by rw [hs.session, Leeway.silenced_session]

end Store.Alike

theorem Signal.Alike.refl {e : Signal} (he : ∀ r, e = .return r → ∃ vs, r = .ofList vs) :
    e.Alike e := by
  cases e with
  | error e => exact .error e e.trace
  | «return» r =>
    obtain ⟨vs, rfl⟩ := he r rfl
    exact .return vs
  | _ => constructor

def Congruence.alike (l : Leeway) (lax : Bool) (p q : Nat) : Congruence where
  p := p
  q := q
  Rel m m' := Run.Alike l lax p q m m'
  rel_pure := .pure
  rel_throw _ he := .throw (.refl he)
  rel_bind_of hm hP hf := hm.bind_of hP hf
  rel_get_bind hf := .get_bind fun s s' hs hkin => hf s s' (hs.agree hkin)
  rel_world := alike_world
  rel_modifyTable id f _ := alike_modifyTable id f
  rel_newTable _ := alike_newTable _
  rel_newFile := alike_newFile
  rel_newObject := alike_newObject
  rel_modifyObjects _ := alike_modify (fun _ _ _ => rfl) fun _ => .of_scopes_eq rfl
  rel_modifySession _ _ hf _ := alike_modifySession rfl hf

theorem Caller.Alike.calls (hcall : call.Alike l call') (lax : Bool) (p q : Nat) :
    (Congruence.alike l lax p q).Calls call call' :=
  fun f args traced => hcall.same lax p q f args none traced

end LuaInterpreter
