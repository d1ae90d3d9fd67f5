import LuaInterpreter.Library.Basic
import LuaInterpreter.Proofs.Run

/-!
# Equality and primitive equality

Values that are primitively equal are equal, and nothing is called to find that out, except for one
case: a table whose metatable has `__eq` is compared by that metamethod, also with itself. Where no
operand has that metamethod, equality is primitive equality. Inequality is the opposite of equality.
-/

namespace LuaInterpreter

open Run

variable {s : Store} {v a b f : Value} {call : Caller}

/-- The value has no metamethod for equality. Only tables have metatables. -/
def Store.Uncompared (s : Store) (v : Value) : Prop :=
  ∀ id, v = .table id → metavalue? (.table id) "__eq" s = .ok none s

namespace Operator

/-- What is asked is the metamethod of the first operand, or else that of the second. -/
theorem equal_of_kind_eq (hown : hasOwnEquality a = true) (hkind : a.kind = b.kind) :
    equal call a b false = (binaryMetamethod call a b "__eq" >>= fun found =>
      pure (found.elim (a.rawEq b) Value.truthy)) := by
  have hask : (a.kind == b.kind && hasOwnEquality a && !false) = true := by
    rw [hkind, hown, beq_self_eq_true]
    rfl
  rw [equal]
  refine (if_pos hask).trans (bind_congr fun found => ?_)
  cases found with
  | none => rfl
  | some v => rfl

theorem metavalue?_of_uncompared (h : s.Uncompared v) (hv : ∀ f, v ≠ .foreign f) :
    metavalue? v "__eq" s = .ok none s := by
  cases v with
  | table id => exact h id rfl
  | foreign f => exact absurd rfl (hv f)
  | _ => rfl

/-- Values of the host are of no kind that has an equality of its own. -/
theorem ne_foreign_of_kind_eq (hown : hasOwnEquality a = true) (hkind : a.kind = b.kind)
    (f : Foreign) : b ≠ .foreign f := by
  rintro rfl
  cases a with
  | table | file | userdata => cases f <;> simp [Value.kind, Foreign.kind] at hkind
  | _ => cases hown

theorem equal_of_uncompared (ha : s.Uncompared a) (hb : s.Uncompared b) :
    equal call a b false s = .ok (a.rawEq b) s := by
  by_cases h : hasOwnEquality a = true ∧ a.kind = b.kind
  · have ha := metavalue?_of_uncompared ha (ne_foreign_of_kind_eq h.1 rfl)
    have hb := metavalue?_of_uncompared hb (ne_foreign_of_kind_eq h.1 h.2)
    have hnone : binaryMetamethod call a b "__eq" s = .ok none s := by
      rw [binaryMetamethod, bind_of_ok ha]
      exact bind_of_ok hb
    rw [equal_of_kind_eq h.1 h.2, bind_of_ok hnone]
    rfl
  · have hask : ¬(a.kind == b.kind && hasOwnEquality a && !false) = true := by
      simpa [and_comm] using h
    rw [equal, if_neg hask]
    rfl

theorem eq_table_of_rawEq {id : Nat} (h : a.rawEq b = true) : a = .table id ↔ b = .table id := by
  constructor <;> rintro rfl
  · cases b with
    | table => exact congrArg _ (beq_iff_eq.mp h).symm
    | _ => cases h
  · cases a with
    | table => exact congrArg _ (beq_iff_eq.mp h)
    | _ => cases h

/-- Primitively equal values are equal, without any call, unless they are a table that has a
metamethod for equality: what that answers counts, also if the operands are one and the same table,
and so does an error of looking for it. Without such metamethods equality is primitive equality.
Inequality is its opposite. -/
theorem same_table_is_compared_by_metamethod (call : Caller) (a b : Value) (s : Store) :
    (∀ k scope, BasicLibrary.run k scope .rawequal [a, b] s = .ok (.ofList [.bool (a.rawEq b)]) s) ∧
      binary call .ne a b s = (binary call .eq a b >>= fun v => pure (.bool !v.truthy)) s ∧
      (s.Uncompared a → s.Uncompared b → binary call .eq a b s = .ok (.bool (a.rawEq b)) s) ∧
      (a.rawEq b = true → s.Uncompared a →
        binary call .eq a b s = .ok (.bool true) s ∧ binary call .ne a b s = .ok (.bool false) s) ∧
      ∀ id, (∀ f, metavalue? (.table id) "__eq" s = .ok (some f) s →
          binary call .eq (.table id) (.table id) s =
            (call f [.one (.table id), .one (.table id)] none true >>=
              fun r => pure (.bool r.single.truthy)) s) ∧
        ∀ e t, metavalue? (.table id) "__eq" s = .error e t →
          binary call .eq (.table id) (.table id) s = .error e t := by
  have hequal (ha : s.Uncompared a) (hb : s.Uncompared b) :=
    @equal_of_uncompared s a b call ha hb
  refine ⟨fun _ _ => rfl, ?_, fun ha hb => bind_of_ok (hequal ha hb), fun h ha => ?_,
    fun id => ⟨fun f hfound => ?_, fun e t hfails => ?_⟩⟩
  · show _ = ((equal call a b false >>= _) >>= _) s
    rw [bind_assoc]
    rfl
  · have hb : s.Uncompared b := fun id hid => ha id ((eq_table_of_rawEq h).mpr hid)
    rw [h] at hequal
    exact ⟨bind_of_ok (hequal ha hb), bind_of_ok (hequal ha hb)⟩
  · rw [binary, equal_of_kind_eq rfl rfl, binaryMetamethod, bind_assoc, bind_assoc,
      bind_of_ok hfound]
    simp only [pure_bind, bind_assoc, Option.elim_some]
  · rw [binary, equal_of_kind_eq rfl rfl]
    exact bind_of_error (bind_of_error (bind_of_error hfails))

/-- A table whose metamethod always answers `nil` is not equal to itself. -/
theorem table_differs_from_itself :
    let s : Store :=
      { tables := #[{ entries := [(.ascii "__eq", .bool true)], metatable := some (.table 0) }] }
    (Value.table 0).rawEq (.table 0) = true ∧
      binary (fun _ _ _ _ => pure (.one .nil)) .eq (.table 0) (.table 0) s =
        .ok (.bool false) s := by
  intro s
  exact ⟨rfl, ((same_table_is_compared_by_metamethod _ (.table 0) (.table 0) s).2.2.2.2 0).1 _ rfl⟩

end Operator

end LuaInterpreter
