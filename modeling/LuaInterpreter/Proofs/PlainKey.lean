import LuaInterpreter.Proofs.FloatValue
import LuaInterpreter.Value.Table

/-!
# All keys that data has

Among `nil`, booleans, strings and numbers, NaN is the only one that does not equal itself. On all
others raw equality is equality of the kept forms, also for fractions and infinities.
-/

namespace LuaInterpreter

open List Binary Int Number

/-! ## Numbers -/

theorem Binary.isIntegral_of_units {b : Binary} (h : leastExponent ≤ b.q) {i : Int}
    (hi : i * unitsPerOne = b.units) : b.isIntegral = true := by
  obtain ⟨d, hone, hvalue⟩ := pow_split (by decide) h
  have hmagnitude : i.natAbs * (Nat.pow 2 (-b.q).toNat * Nat.pow 2 d) =
      b.m * (Nat.pow 2 b.q.toNat * Nat.pow 2 d) := by
    have habs := congrArg Int.natAbs hi
    rw [natAbs_mul, natAbs_natCast] at habs
    unfold unitsPerOne at habs
    rw [← hone, habs, ← hvalue]
    unfold units magnitude
    split
    · rw [natAbs_neg, natAbs_natCast]
    · exact natAbs_natCast _
  have hdvd : Nat.pow 2 (-b.q).toNat ∣ b.m := by
    by_cases hq : 0 ≤ b.q
    · rw [toNat_of_nonpos (by omega)]
      exact one_dvd _
    · rw [toNat_of_nonpos (show b.q ≤ 0 by omega), ← mul_assoc, ← mul_assoc] at hmagnitude
      have hcancel := Nat.eq_of_mul_eq_mul_right (Nat.two_pow_pos d) hmagnitude
      exact ⟨i.natAbs, by rw [mul_comm, hcancel]; exact (mul_one _).symm⟩
  simpa [isIntegral] using Nat.mod_eq_zero_of_dvd hdvd

namespace Number

def NotNaN : Number → Prop
  | .int _ => True
  | .float x => x ≠ Float.nan

variable {x : Float} {i : Int} {n m : Number}

theorem asKey_of_integralOf? (h : integralOf? x = some i) : (Number.float x).asKey = .int i := by
  rw [asKey, h]

theorem asKey_of_fractional (h : integralOf? x = none) : (Number.float x).asKey = .float x := by
  rw [asKey, h]

theorem compareIntFloat_ne_eq (h : integralOf? x = none) (i : Int) :
    compareIntFloat i x ≠ some .eq := by
  unfold integralOf? at h
  unfold compareIntFloat
  split at h
  · next b hx =>
    split at h
    · cases h
    · next hint =>
      intro heq
      have hleast := (canonical_of_ofFloat? hx).least_le
      have hunits := (compareInt_eq_iff hleast).mp (Option.some.inj heq)
      exact hint (isIntegral_of_units hleast hunits)
  · split
    · exact nofun
    · split <;> exact nofun

theorem asKey_of_m_eq_zero {b : Binary} (h : Binary.ofFloat? x = some b) (hm : b.m = 0) :
    (Number.float x).asKey = .int 0 := by
  refine asKey_of_integralOf? ?_
  unfold integralOf?
  rw [h]
  simp [Binary.isIntegral, Binary.truncate, hm]

theorem asKey_zero : (Number.float 0).asKey = (Number.float (-0)).asKey := by
  have hpos : Binary.ofFloat? 0 = some ⟨false, 0, Binary.leastExponent⟩ := by decide
  have hneg : Binary.ofFloat? (-0) = some ⟨true, 0, Binary.leastExponent⟩ := by decide
  rw [asKey_of_m_eq_zero hpos rfl, asKey_of_m_eq_zero hneg rfl]

/-- Floats that are equal denote the same integer, or are the same. -/
theorem asKey_eq_of_beq {y : Float} (h : (x == y) = true) :
    (Number.float x).asKey = (Number.float y).asKey := by
  obtain ⟨_, _, rfl | ⟨rfl, rfl⟩ | ⟨rfl, rfl⟩⟩ := Float.beq_iff_ne_nan_and_eq.mp h
  · rfl
  · exact asKey_zero
  · exact asKey_zero.symm

theorem units?_of_asKey (h : n.asKey = .int i) : n.units? = some (i * Binary.unitsPerOne) := by
  cases n with
  | int j =>
    cases h
    rfl
  | float x =>
    cases hx : integralOf? x with
    | some j =>
      rw [asKey_of_integralOf? hx] at h
      cases h
      exact units?_of_integralOf? hx
    | none =>
      rw [asKey_of_fractional hx] at h
      cases h

theorem eq_iff_asKey_eq {j : Int} (hm : m.asKey = .int i) (hn : n.asKey = .int j) :
    m.eq n = true ↔ m.asKey = n.asKey := by
  rw [eq_iff_units (units?_of_asKey hm) (units?_of_asKey hn), hm, hn, Number.int.injEq]
  have hne : (Binary.unitsPerOne : Int) ≠ 0 :=
    Int.natCast_ne_zero.mpr (Nat.ne_of_gt unitsPerOne_pos)
  constructor
  · exact Int.eq_of_mul_eq_mul_right hne
  · rintro rfl
    rfl

theorem eq_iff_asKey_eq_of_ne_nan (hm : m.NotNaN) : m.eq n = true ↔ m.asKey = n.asKey := by
  cases m with
  | int i =>
    cases n with
    | int j => exact eq_iff_asKey_eq rfl rfl
    | float y =>
      cases hy : integralOf? y with
      | some j => exact eq_iff_asKey_eq rfl (asKey_of_integralOf? hy)
      | none =>
        rw [asKey_of_fractional hy, eq]
        simp [compareIntFloat_ne_eq hy i, asKey]
  | float x =>
    cases hx : integralOf? x with
    | some i =>
      cases n with
      | int j => exact eq_iff_asKey_eq (asKey_of_integralOf? hx) rfl
      | float y =>
        cases hy : integralOf? y with
        | some j => exact eq_iff_asKey_eq (asKey_of_integralOf? hx) (asKey_of_integralOf? hy)
        | none =>
          refine ⟨asKey_eq_of_beq, fun h => ?_⟩
          rw [asKey_of_integralOf? hx, asKey_of_fractional hy] at h
          cases h
    | none =>
      cases n with
      | int j =>
        rw [asKey_of_fractional hx, eq]
        simp [compareIntFloat_ne_eq hx j, asKey]
      | float y =>
        -- Fractions and infinities are kept as they are, so only here NaN has to be excluded.
        refine ⟨asKey_eq_of_beq, fun h => ?_⟩
        rw [asKey_of_fractional hx] at h
        have hxy : x = y := by
          cases hy : integralOf? y with
          | some j =>
            rw [asKey_of_integralOf? hy] at h
            cases h
          | none =>
            rw [asKey_of_fractional hy] at h
            exact Number.float.inj h
        exact Float.beq_iff_ne_nan_and_eq.mpr ⟨hm, hxy ▸ hm, .inl hxy⟩

theorem asKey_asKey (n : Number) : n.asKey.asKey = n.asKey := by
  cases n with
  | int i => rfl
  | float x =>
    cases hx : integralOf? x with
    | some i =>
      rw [asKey_of_integralOf? hx]
      rfl
    | none => rw [asKey_of_fractional hx, asKey_of_fractional hx]

theorem notNaN_asKey_iff : n.asKey.NotNaN ↔ n.NotNaN := by
  cases n with
  | int i => exact Iff.rfl
  | float x =>
    cases hx : integralOf? x with
    | some i =>
      have hne : x ≠ Float.nan := by
        unfold integralOf? at hx
        split at hx
        · next b hb => exact ne_nan_of_ofFloat? hb
        · cases hx
      rw [asKey_of_integralOf? hx]
      exact iff_of_true trivial hne
    | none => rw [asKey_of_fractional hx]

theorem eq_comm (m n : Number) : m.eq n = n.eq m := by
  cases m with
  | int i =>
    cases n with
    | int j => exact BEq.comm
    | float y => rfl
  | float x =>
    cases n with
    | int j => rfl
    | float y =>
      rw [Bool.eq_iff_iff, eq, eq, Float.beq_iff_ne_nan_and_eq, Float.beq_iff_ne_nan_and_eq]
      grind

end Number

/-! ## Keys -/

variable {v : Value}

theorem Value.isNil_iff : v.isNil = true ↔ v = .nil := by
  cases v <;> simp [isNil]

theorem Value.isNil_eq_false_iff : v.isNil = false ↔ v ≠ .nil := by
  rw [ne_eq, ← isNil_iff, Bool.not_eq_true]

/-- The keys that are `nil`, booleans, strings or numbers, but not NaN. -/
def Value.IsPlainKey : Value → Prop
  | .nil | .bool _ | .str _ => True
  | .num n => n.NotNaN
  | _ => False

namespace Table

variable {j k v : Value} {es : List (Value × Value)}

theorem isKey_of_isPlainKey (hk : k.IsPlainKey) : k.isKey = true := by
  cases k with
  | nil | bool | num | str => rfl
  | _ => exact hk.elim

theorem rawEq_iff_of_isPlainKey (hk : k.IsPlainKey) : k.rawEq j = true ↔ keyOf k = keyOf j := by
  cases k with
  | num m =>
    cases j with
    | num n =>
      rw [keyOf, keyOf, Value.num.injEq]
      exact eq_iff_asKey_eq_of_ne_nan hk
    | _ => simp [Value.rawEq, keyOf]
  | nil | bool a | str a => cases j <;> simp [Value.rawEq, keyOf]
  | _ => exact hk.elim

theorem isPlainKey_keyOf_iff : (keyOf k).IsPlainKey ↔ k.IsPlainKey := by
  cases k with
  | num n => exact notNaN_asKey_iff
  | _ => exact Iff.rfl

theorem keyOf_idem (k : Value) : keyOf (keyOf k) = keyOf k := by
  cases k with
  | num n => rw [keyOf, keyOf, asKey_asKey]
  | _ => rfl

theorem rawEq_keyOf (hk : k.IsPlainKey) : (keyOf k).rawEq j = k.rawEq j := by
  rw [Bool.eq_iff_iff, rawEq_iff_of_isPlainKey (isPlainKey_keyOf_iff.mpr hk), rawEq_iff_of_isPlainKey hk,
    keyOf_idem]

theorem rawEq_keyOf_right (hk : k.IsPlainKey) : k.rawEq (keyOf j) = k.rawEq j := by
  rw [Bool.eq_iff_iff, rawEq_iff_of_isPlainKey hk, rawEq_iff_of_isPlainKey hk, keyOf_idem]

theorem rawEq_comm_of_isPlainKey (hk : k.IsPlainKey) : j.rawEq k = k.rawEq j := by
  cases k with
  | num m =>
    cases j with
    | num n => exact Number.eq_comm n m
    | _ => rfl
  | nil => cases j <;> rfl
  | bool a =>
    cases j with
    | bool b => exact BEq.comm
    | _ => rfl
  | str a =>
    cases j with
    | str b => exact BEq.comm
    | _ => rfl
  | _ => exact hk.elim

theorem isPlainKey_of_rawEq (hk : k.IsPlainKey) (h : j.rawEq k = true) : j.IsPlainKey := by
  rw [rawEq_comm_of_isPlainKey hk, rawEq_iff_of_isPlainKey hk] at h
  rw [← isPlainKey_keyOf_iff, ← h, isPlainKey_keyOf_iff]
  exact hk

/-- Two keys that find the same are equal, if only one of them is known not to be NaN. -/
theorem rawEq_of_rawEq {k' : Value} (hk' : k'.IsPlainKey) (h : k.rawEq j = true)
    (h' : k'.rawEq j = true) : k.rawEq k' = true := by
  have hj : j.IsPlainKey := isPlainKey_of_rawEq hk' (rawEq_comm_of_isPlainKey hk' ▸ h')
  have hk : k.IsPlainKey := isPlainKey_of_rawEq hj h
  rw [rawEq_iff_of_isPlainKey hk] at h ⊢
  rw [rawEq_iff_of_isPlainKey hk'] at h'
  rw [h, h']

/-! ## One `put` into any table -/

theorem lookup_eq_none_iff {k : Value} {es : List (Value × Value)} :
    lookup k es = none ↔ ∀ e ∈ es, e.1.rawEq k = false := by
  induction es with
  | nil => simp [lookup]
  | cons e es ih =>
    rw [lookup, forall_mem_cons, ← ih]
    by_cases h : e.1.rawEq k = true <;> simp [h]

/-- An entry that is there keeps its place, and a new one comes last. -/
theorem keys_update (k v : Value) (es : List (Value × Value)) :
    (update k v es).map Prod.fst =
      if (lookup k es).isSome then es.map Prod.fst else es.map Prod.fst ++ [k] := by
  induction es with
  | nil => rfl
  | cons e es ih =>
    rw [update, lookup]
    by_cases h : e.1.rawEq k = true
    · simp [h]
    · rw [if_neg h, if_neg h, map_cons, ih]
      split <;> rfl

def keys (t : Table) : List Value := t.entries.map Prod.fst

variable {e : Value × Value} {h : List (Value × Value)} (t : Table)

theorem keys_put (k v : Value) :
    (t.put k v).keys =
      if v.isNil || (lookup (keyOf k) t.entries).isSome then t.keys else t.keys ++ [keyOf k] := by
  unfold put
  cases hv : v.isNil <;> cases hl : lookup (keyOf k) t.entries <;> simp [keys, keys_update, hl]

theorem ofPairs_concat (h : List (Value × Value)) (k v : Value) :
    ofPairs (h ++ [(k, v)]) = (ofPairs h).put k v := by
  rw [ofPairs, foldl_append]
  rfl

theorem has_iff (k : Value) : t.has k = true ↔ t.get k ≠ .nil := by
  rw [has, Bool.not_eq_true', Value.isNil_eq_false_iff]

/-- The entry that is set is found by exactly the keys that find `k`, whatever the other entries
are. -/
theorem lookup_update_of_isPlainKey (hk : k.IsPlainKey) (j v : Value) (es : List (Value × Value)) :
    lookup j (update k v es) = if k.rawEq j then some v else lookup j es := by
  induction es with
  | nil => rfl
  | cons e es ih =>
    rw [update]
    by_cases hek : e.1.rawEq k = true
    · have he := isPlainKey_of_rawEq hk hek
      have hfinds : e.1.rawEq j = k.rawEq j := by
        rw [Bool.eq_iff_iff, rawEq_iff_of_isPlainKey he, rawEq_iff_of_isPlainKey hk,
          (rawEq_iff_of_isPlainKey he).mp hek]
      rw [if_pos hek, lookup, lookup, hfinds]
      split <;> rfl
    · rw [if_neg hek, lookup, ih, lookup]
      by_cases hej : e.1.rawEq j = true
      · rw [if_pos hej, if_neg fun hkj => hek (rawEq_of_rawEq hk hej hkj), if_pos hej]
      · rw [if_neg hej, if_neg hej]

theorem get_put_of_isPlainKey (hk : k.IsPlainKey) (v j : Value) :
    (t.put k v).get j = if k.rawEq j then v else t.get j := by
  rw [put]
  split
  · next hskip =>
    -- A new key is not set to `nil`, which is what it has anyway.
    obtain ⟨hv, hnone⟩ := Bool.and_eq_true_iff.mp hskip
    have habsent := lookup_eq_none_iff.mp (Option.isNone_iff_eq_none.mp hnone)
    split
    · next hkj =>
      have hj : lookup j t.entries = none := by
        refine lookup_eq_none_iff.mpr fun e he => Bool.eq_false_iff.mpr fun hej => ?_
        have hfound := rawEq_of_rawEq (isPlainKey_keyOf_iff.mpr hk) hej ((rawEq_keyOf hk).trans hkj)
        rw [habsent e he] at hfound
        cases hfound
      rw [get, hj]
      exact (Value.isNil_iff.mp hv).symm
    · rfl
  · rw [get, lookup_update_of_isPlainKey (isPlainKey_keyOf_iff.mpr hk), rawEq_keyOf hk]
    split <;> rfl

theorem get_congr (hk : k.IsPlainKey) (h : k.rawEq j = true) (t : Table) : t.get j = t.get k := by
  have hj : j.IsPlainKey := isPlainKey_of_rawEq hk (rawEq_comm_of_isPlainKey hk ▸ h)
  have hfinds (e : Value) : e.rawEq j = e.rawEq k := by
    rw [Bool.eq_iff_iff, rawEq_comm_of_isPlainKey hj, rawEq_comm_of_isPlainKey hk,
      rawEq_iff_of_isPlainKey hj, rawEq_iff_of_isPlainKey hk, (rawEq_iff_of_isPlainKey hk).mp h]
  have hlookup (es : List (Value × Value)) : lookup j es = lookup k es := by
    induction es with
    | nil => rfl
    | cons e es ih => rw [lookup, lookup, hfinds, ih]
  rw [get, get, hlookup]

/-! ## Entries with different keys -/

/-- Entries with keys that are different from each other, none of which is NaN. -/
structure HasPlainKeys (es : List (Value × Value)) : Prop where
  plain : ∀ e ∈ es, e.1.IsPlainKey
  distinct : es.Pairwise fun e e' => e.1.rawEq e'.1 = false

theorem HasPlainKeys.tail (h : HasPlainKeys (e :: es)) : HasPlainKeys es :=
  ⟨fun e' he' => h.plain e' (mem_cons_of_mem e he'), (pairwise_cons.mp h.distinct).2⟩

theorem HasPlainKeys.of_keys_eq {es' : List (Value × Value)} (h : HasPlainKeys es)
    (hkeys : es'.map Prod.fst = es.map Prod.fst) : HasPlainKeys es' := by
  have hplain : ∀ key ∈ es.map Prod.fst, key.IsPlainKey := forall_mem_map.mpr h.plain
  have hdistinct : (es.map Prod.fst).Pairwise fun a b => a.rawEq b = false :=
    pairwise_map.mpr h.distinct
  rw [← hkeys] at hplain hdistinct
  exact ⟨forall_mem_map.mp hplain, pairwise_map.mp hdistinct⟩

theorem lookup_of_mem (h : HasPlainKeys es) (he : e ∈ es) (hj : e.1.rawEq j = true) :
    lookup j es = some e.2 := by
  induction es with
  | nil => cases he
  | cons first rest ih =>
    rw [lookup]
    rcases mem_cons.mp he with rfl | hrest
    · rw [if_pos hj]
    · have hne : first.1.rawEq j ≠ true := by
        intro hfirst
        have hsame := rawEq_of_rawEq (h.plain e he) hfirst hj
        rw [(pairwise_cons.mp h.distinct).1 e hrest] at hsame
        cases hsame
      rw [if_neg hne, ih h.tail hrest]

theorem update_of_absent (h : lookup k es = none) : update k v es = es ++ [(k, v)] := by
  induction es with
  | nil => rfl
  | cons e es ih =>
    rw [lookup] at h
    split at h
    · cases h
    · next hne => rw [update, if_neg hne, ih h, cons_append]

theorem put_of_absent {t : Table} (h : lookup (keyOf k) t.entries = none) (hv : v.isNil = false) :
    t.put k v = { t with entries := t.entries ++ [(keyOf k, v)] } := by
  rw [put, hv, Bool.false_and, if_neg Bool.false_ne_true, update_of_absent h]

theorem HasPlainKeys.put {t : Table} (ht : HasPlainKeys t.entries) (hk : k.IsPlainKey) (v : Value) :
    HasPlainKeys (t.put k v).entries := by
  have hkeys := keys_put t k v
  by_cases hold : (v.isNil || (lookup (keyOf k) t.entries).isSome) = true
  · rw [if_pos hold] at hkeys
    exact ht.of_keys_eq hkeys
  · obtain ⟨hv, hnew⟩ : v.isNil = false ∧ lookup (keyOf k) t.entries = none := by simpa using hold
    rw [put_of_absent hnew hv]
    refine ⟨forall_mem_append.mpr ⟨ht.plain, ?_⟩, pairwise_append.mpr
      ⟨ht.distinct, pairwise_singleton _ _, fun e he e' he' => ?_⟩⟩
    · simpa using isPlainKey_keyOf_iff.mpr hk
    · rw [mem_singleton.mp he']
      exact lookup_eq_none_iff.mp hnew e he

/-- What holds of the empty table and is kept by `put`s holds of all tables that are made by them. -/
theorem ofPairs_of_put {P : Table → Prop} {Q : Value → Prop} (hempty : P {})
    (hput : ∀ t k v, P t → Q k → P (t.put k v)) (hkeys : ∀ p ∈ h, Q p.1) : P (ofPairs h) := by
  induction h using List.reverseRecOn with
  | nil => exact hempty
  | append_singleton h p ih =>
    obtain ⟨hkeys, hp⟩ := forall_mem_append.mp hkeys
    rw [ofPairs_concat]
    exact hput _ _ _ (ih hkeys) (hp p mem_cons_self)

theorem hasPlainKeys_ofPairs (hkeys : ∀ p ∈ h, p.1.IsPlainKey) : HasPlainKeys (ofPairs h).entries :=
  ofPairs_of_put (P := fun t => HasPlainKeys t.entries) ⟨nofun, .nil⟩
    (fun _ _ v ht hk => ht.put hk v) hkeys

end Table

end LuaInterpreter
