import LuaInterpreter.Proofs.Containment

/-!
# What a metatable can be

`setmetatable` refuses a protected table, and takes `nil` as the wish to have no metatable. It does
not look at its second argument otherwise, so every other value can become a metatable. Look-ups of
metavalues go to the metatable as if it were a table: they fail where it is neither a table nor a
file.
-/

namespace LuaInterpreter

open Run Evaluator Option Builtin

/-! ## Look-ups -/

/-- The metatable of a value: only tables have one. -/
def Store.metatable? (s : Store) : Value → Option Value
  | .table id => (s.table id).metatable
  | _ => none

/-- Asked for a field with a name, a value answers: a table in any case, a file if it is a method
of files. -/
def Value.Answers (name : String) : Value → Prop
  | .table _ => True
  | .file _ => (fileMethod? (Bytes.ofAscii name)).isSome = true
  | _ => False

namespace Run

variable {s : Store} {v mt : Value} {name : String}

theorem hasField_eq_ok_iff :
    (∃ b, hasField mt (.ascii name) s = .ok b s) ↔ isIndexable mt = true := by
  cases mt with
  | table id | file id => exact ⟨fun _ => rfl, fun _ => ⟨_, rfl⟩⟩
  | _ =>
    refine ⟨?_, nofun⟩
    rintro ⟨b, h⟩
    cases h

theorem field?_eq_ok_iff : (∃ r, field? mt (.ascii name) s = .ok r s) ↔ mt.Answers name := by
  cases mt with
  | table id => exact ⟨fun _ => trivial, fun _ => ⟨_, rfl⟩⟩
  | file id =>
    cases hmethod : fileMethod? (Bytes.ofAscii name) with
    | some b =>
      have hfield : fileField (.ascii name) s = .ok (.func b.number) s := by
        simp only [fileField, Value.ascii, hmethod]
        rfl
      simp only [Value.Answers, hmethod, isSome_some, iff_true]
      exact ⟨_, bind_of_ok hfield⟩
    | none =>
      have hfield : ∃ e, fileField (.ascii name) s = .error e s := by
        simp only [fileField, Value.ascii, hmethod]
        exact ⟨_, rfl⟩
      obtain ⟨e, hfield⟩ := hfield
      simp only [Value.Answers, hmethod, isSome_none, Bool.false_eq_true, iff_false]
      rintro ⟨r, h⟩
      cases (bind_of_error hfield).symm.trans h
  | _ =>
    refine ⟨?_, False.elim⟩
    rintro ⟨r, h⟩
    cases h

theorem metatable_eq_ok (hv : ∀ f, v ≠ .foreign f) (operation : String) :
    metatable v operation s = .ok ((s.metatable? v).getD .nil) s := by
  cases v with
  | foreign f => exact absurd rfl (hv f)
  | table id => rfl
  | _ => rfl

/-- A look-up that gives up where there is no metatable, and otherwise goes to the metatable. -/
theorem lookUp_eq_ok_iff {α : Type} {operation : String} {d : α} {g : Value → Run α}
    {P : Value → Prop} (hs : s.MetatablesNotNil) (hv : ∀ f, v ≠ .foreign f)
    (hg : ∀ mt, (∃ a, g mt s = .ok a s) ↔ P mt) :
    (∃ a, (metatable v operation >>= fun mt => if mt.isNil then pure d else g mt) s = .ok a s) ↔
      ∀ mt, s.metatable? v = some mt → P mt := by
  rw [bind_of_ok (metatable_eq_ok hv operation)]
  cases hmt : s.metatable? v with
  | none => exact ⟨fun _ _ => nofun, fun _ => ⟨d, rfl⟩⟩
  | some mt =>
    have hnil : mt.isNil = false := by
      cases mt with
      | nil =>
        cases v with
        | table id => exact absurd hmt (hs id)
        | _ => cases hmt
      | _ => rfl
    simp only [getD_some, hnil, Bool.false_eq_true, if_false, hg, Option.some.injEq,
      forall_eq']

end Run

/-! ## Reachable stores -/

variable {s : Store} {id : Nat} {mt : Value}

theorem Reachable.metatablesNotNil (hs : Reachable s) : s.MetatablesNotNil := by
  obtain ⟨world, hworld⟩ := hs.upholds
  refine hworld.metatables fun id => ?_
  exact nofun

theorem Reachable.function?_number (hs : Reachable s) {b : Builtin} (hb : b ∈ all) :
    s.function? b.number = some (.ofBuiltin b) := by
  obtain ⟨world, hworld⟩ := hs.upholds
  refine hworld.function b.number _ ?_
  have hlt : all.idxOf b < all.length := List.idxOf_lt_length_of_mem hb
  simp [Store.function?, Store.initial, number, hlt]

/-- What `setmetatable` leaves. -/
def Store.withMetatable (s : Store) (id : Nat) (mt : Value) : Store :=
  { s with tables := s.tables.modify id fun t => { t with metatable := some mt } }

theorem Store.metatable_withMetatable (hid : id < s.tables.size) (mt : Value) :
    ((s.withMetatable id mt).table id).metatable = some mt := by
  simp only [Store.table, Store.withMetatable, Array.getD_eq_getD_getElem?, Array.getElem?_modify,
    Array.getElem?_eq_getElem hid, if_true, map_some, getD_some]

theorem BasicLibrary.setmetatable_eq_ok (hmt : mt ≠ .nil)
    (hopen : hasMetavalue (.table id) "__metatable" s = .ok false s) :
    setmetatable (.table id) mt s = .ok () (s.withMetatable id mt) := by
  cases mt with
  | nil => exact absurd rfl hmt
  | _ => exact bind_of_ok hopen

/-- Whatever it is, a value other than `nil` becomes the metatable of a table that is not
protected. -/
theorem Reachable.call_setmetatable (hs : Reachable s) (hmt : mt ≠ .nil)
    (hopen : hasMetavalue (.table id) "__metatable" s = .ok false s) (n : Nat) (traced : Bool) :
    (withFuel (n + 1)).call (.func setmetatable.number) [.one (.table id), .one mt] none
      traced s = .ok (.ofList [.table id]) (s.withMetatable id mt) := by
  have hnumber := hs.function?_number (b := .setmetatable) (by decide)
  have hset := BasicLibrary.setmetatable_eq_ok hmt hopen
  refine (Eval.callFunction_of_function hnumber _ _ _ _).trans ?_
  refine Eval.settleCall_eq_ok_iff.mpr (Eval.callNative_eq_ok_iff.mpr ?_)
  exact bind_of_ok hset

/-- In a reachable store `nil` is no metatable, but every other value can become one, and then be
met by every look-up of a metavalue. A look-up goes through exactly where there is no metatable or
one that can be asked. -/
theorem metatables_are_all_values_but_nil {s : Store} (hs : Reachable s) :
    (∀ id, (s.table id).metatable ≠ some .nil) ∧
    (∀ id mt, id < s.tables.size → mt ≠ .nil →
      hasMetavalue (.table id) "__metatable" s = .ok false s →
      ∀ n traced, ∃ r t, (withFuel (n + 1)).call (.func Builtin.setmetatable.number)
        [.one (.table id), .one mt] none traced s = .ok r t ∧
        Reachable t ∧ (t.table id).metatable = some mt) ∧
    ∀ v name, (∀ f, v ≠ .foreign f) →
      ((∃ b, hasMetavalue v name s = .ok b s) ↔
        ∀ mt, s.metatable? v = some mt → isIndexable mt = true) ∧
      ((∃ r, metavalue? v name s = .ok r s) ↔
        ∀ mt, s.metatable? v = some mt → mt.Answers name) := by
  refine ⟨hs.metatablesNotNil, ?_, ?_⟩
  · intro id mt hid hmt hopen n traced
    have hcall := hs.call_setmetatable hmt hopen n traced
    refine ⟨_, _, hcall, ?_, Store.metatable_withMetatable hid mt⟩
    have hfinal := final_of_ok (bind_of_ok (f := fun _ => pure ()) hcall)
    exact hfinal ▸ hs.step (.call (n + 1) _ _ none traced) nofun
  · intro v name hv
    exact ⟨lookUp_eq_ok_iff hs.metatablesNotNil hv fun _ => hasField_eq_ok_iff,
      lookUp_eq_ok_iff hs.metatablesNotNil hv fun _ => field?_eq_ok_iff⟩

/-- A program that makes a number the metatable of a table of the library has reached a store in
which look-ups fail. -/
theorem number_as_metatable :
    ∃ t, Reachable t ∧ (t.table 0).metatable = some (.int 5) ∧
      (¬∃ b, hasMetavalue (.table 0) "__index" t = .ok b t) ∧
      ¬∃ r, metavalue? (.table 0) "__index" t = .ok r t := by
  obtain ⟨-, hbecomes, -⟩ := metatables_are_all_values_but_nil (.start {})
  obtain ⟨r, t, -, ht, hmt⟩ := hbecomes 0 (.int 5) (by decide) nofun rfl 0 false
  obtain ⟨-, -, hlookUp⟩ := metatables_are_all_values_but_nil ht
  obtain ⟨hhas, hget⟩ := hlookUp (.table 0) "__index" nofun
  refine ⟨t, ht, hmt, fun h => ?_, fun h => hget.mp h (.int 5) hmt⟩
  cases hhas.mp h (.int 5) hmt

end LuaInterpreter
