import LuaInterpreter.Proofs.PlainKey

/-!
# A table is a finite map up to raw equality

A table keeps an integral float under the integer it denotes, but looks keys up as they are given.
On `nil`, booleans, strings, integers and integral floats both agree: two keys are equal exactly
when they are kept in the same form.
-/

namespace LuaInterpreter

open List

/-! ## Keys -/

/-- The keys that are `nil`, booleans, strings, integers or floats that denote an integer. -/
def Value.isDiscrete : Value → Bool
  | .nil | .bool _ | .str _ | .num (.int _) => true
  | .num (.float x) => (Number.integralOf? x).isSome
  | _ => false

theorem Number.asKey_of_isDiscrete {n : Number} (h : (Value.num n).isDiscrete = true) :
    ∃ i, n.asKey = .int i := by
  cases n with
  | int i => exact ⟨i, rfl⟩
  | float x =>
    obtain ⟨i, hi⟩ := Option.isSome_iff_exists.mp h
    exact ⟨i, asKey_of_integralOf? hi⟩

theorem Value.isPlainKey_of_isDiscrete {k : Value} (hk : k.isDiscrete = true) : k.IsPlainKey := by
  cases k with
  | num n =>
    obtain ⟨i, hi⟩ := Number.asKey_of_isDiscrete hk
    exact Number.notNaN_asKey_iff.mp (hi ▸ trivial)
  | nil | bool | str => trivial
  | _ => cases hk

namespace Table

open Value (isPlainKey_of_isDiscrete)

theorem keyOf_num_of_isDiscrete {n : Number} (h : (Value.num n).isDiscrete = true) :
    ∃ i, keyOf (.num n) = .int i := by
  obtain ⟨i, hi⟩ := Number.asKey_of_isDiscrete h
  exact ⟨i, by rw [keyOf, hi]; rfl⟩

theorem isDiscrete_keyOf {k : Value} (hk : k.isDiscrete = true) : (keyOf k).isDiscrete = true := by
  cases k with
  | num n =>
    obtain ⟨i, hi⟩ := keyOf_num_of_isDiscrete hk
    rw [hi]
    rfl
  | _ => exact hk

theorem keyOf_ne_float {k : Value} (hk : k.isDiscrete = true) (x : Float) :
    keyOf k ≠ .num (.float x) := by
  cases k with
  | num n =>
    obtain ⟨i, hi⟩ := keyOf_num_of_isDiscrete hk
    rw [hi]
    simp [Value.int]
  | _ => simp [keyOf]

/-! ## One `put` -/

/-- All kept keys are in the form in which keys are kept. -/
def HasKeptKeys (t : Table) : Prop := ∀ k ∈ t.keys, k.isDiscrete = true ∧ keyOf k = k

variable {t : Table}

theorem lookup_isSome_iff (ht : t.HasKeptKeys) (k : Value) :
    (lookup k t.entries).isSome ↔ keyOf k ∈ t.keys := by
  rw [← Option.ne_none_iff_isSome, ne_eq, lookup_eq_none_iff, keys, mem_map]
  push Not
  refine exists_congr fun e => and_congr_right fun he => ?_
  have hkept := ht e.1 (mem_map_of_mem he)
  rw [ne_eq, Bool.not_eq_false, rawEq_iff_of_isPlainKey (isPlainKey_of_isDiscrete hkept.1), hkept.2]

theorem mem_keys_put (ht : t.HasKeptKeys) (k v j : Value) :
    j ∈ (t.put k v).keys ↔ j ∈ t.keys ∨ v.isNil = false ∧ keyOf k = j := by
  have hthere := lookup_isSome_iff ht (keyOf k)
  rw [keyOf_idem] at hthere
  rw [keys_put]
  cases hv : v.isNil with
  | true => simp
  | false =>
    by_cases hmem : keyOf k ∈ t.keys
    · rw [hthere.mpr hmem]
      constructor
      · exact Or.inl
      · rintro (hj | ⟨_, rfl⟩)
        · exact hj
        · exact hmem
    · rw [Bool.false_or, if_neg (fun h => hmem (hthere.mp h)), mem_append, mem_singleton]
      simp [eq_comm]

theorem HasKeptKeys.put (ht : t.HasKeptKeys) {k : Value} (hk : k.isDiscrete = true) (v : Value) :
    (t.put k v).HasKeptKeys := by
  intro j hj
  rcases (mem_keys_put ht k v j).mp hj with hj | ⟨_, rfl⟩
  · exact ht j hj
  · exact ⟨isDiscrete_keyOf hk, keyOf_idem k⟩

/-! ## Histories of `put`s -/

variable {h : List (Value × Value)}

/-- The value that was put last at a key, or at one equal to it. -/
def lastPut (h : List (Value × Value)) (k : Value) : Value :=
  ((h.reverse.find? fun p => p.1.rawEq k).map Prod.snd).getD .nil

/-- The position in the history at which a key first got a value other than `nil`. -/
def firstPut (h : List (Value × Value)) (k : Value) : Nat :=
  h.findIdx fun p => !p.2.isNil && p.1.rawEq k

section

variable (hkeys : ∀ p ∈ h, p.1.isDiscrete = true)
include hkeys

theorem hasKeptKeys_ofPairs : (ofPairs h).HasKeptKeys :=
  ofPairs_of_put (by simp [HasKeptKeys, keys]) (fun _ _ v ht hk => ht.put hk v) hkeys

theorem get_ofPairs (k : Value) : (ofPairs h).get k = lastPut h k := by
  induction h using List.reverseRecOn with
  | nil => rfl
  | append_singleton h p ih =>
    obtain ⟨hkeys, hp⟩ := forall_mem_append.mp hkeys
    rw [ofPairs_concat, get_put_of_isPlainKey _ (isPlainKey_of_isDiscrete (hp p mem_cons_self)),
      ih hkeys, lastPut, lastPut, reverse_append]
    by_cases heq : p.1.rawEq k = true <;> simp [heq]

theorem mem_keys_ofPairs (k : Value) :
    k ∈ (ofPairs h).keys ↔ ∃ p ∈ h, p.2.isNil = false ∧ keyOf p.1 = k := by
  induction h using List.reverseRecOn with
  | nil => simp [keys, ofPairs]
  | append_singleton h p ih =>
    obtain ⟨hkeys, hp⟩ := forall_mem_append.mp hkeys
    rw [ofPairs_concat, mem_keys_put (hasKeptKeys_ofPairs hkeys), ih hkeys]
    simp only [mem_append, mem_singleton, or_and_right, exists_or, exists_eq_left]

theorem firstPut_lt_length_iff {k : Value} (hkept : keyOf k = k) :
    firstPut h k < h.length ↔ k ∈ (ofPairs h).keys := by
  rw [mem_keys_ofPairs hkeys, firstPut, findIdx_lt_length]
  refine exists_congr fun p => and_congr_right fun hp => ?_
  rw [Bool.and_eq_true, Bool.not_eq_true',
    rawEq_iff_of_isPlainKey (isPlainKey_of_isDiscrete (hkeys p hp)), hkept]

omit hkeys in
/-- What is put later does not change the position at which a key first got a value, and a key that
has none so far gets it later. -/
theorem firstPut_append (h h' : List (Value × Value)) (k : Value) :
    firstPut (h ++ h') k =
      if firstPut h k < h.length then firstPut h k else firstPut h' k + h.length := by
  rw [firstPut, findIdx_append]
  rfl

theorem keys_ofPairs_ordered :
    (ofPairs h).keys.Pairwise fun a b => firstPut h a < firstPut h b := by
  induction h using List.reverseRecOn with
  | nil => exact List.Pairwise.nil
  | append_singleton h p ih =>
    obtain ⟨hkeys, hp⟩ := forall_mem_append.mp hkeys
    have ht := hasKeptKeys_ofPairs hkeys
    have hlt : ∀ a ∈ (ofPairs h).keys, firstPut h a < h.length := fun a ha =>
      (firstPut_lt_length_iff hkeys (ht a ha).2).mpr ha
    have hold : (ofPairs h).keys.Pairwise
        fun a b => firstPut (h ++ [p]) a < firstPut (h ++ [p]) b := by
      refine (ih hkeys).imp_of_mem fun {a b} ha hb hab => ?_
      rw [firstPut_append, firstPut_append, if_pos (hlt a ha), if_pos (hlt b hb)]
      exact hab
    rw [ofPairs_concat, keys_put]
    split
    · exact hold
    · next hnew =>
      -- The new key gets its first value now, after all that are kept already.
      have habsent : ¬firstPut h (keyOf p.1) < h.length := by
        rw [firstPut_lt_length_iff hkeys (keyOf_idem p.1), ← keyOf_idem p.1, ← lookup_isSome_iff ht]
        exact fun hthere => hnew (by rw [hthere, Bool.or_true])
      rw [pairwise_append]
      refine ⟨hold, pairwise_singleton _ _, ?_⟩
      intro a ha b hb
      rw [mem_singleton.mp hb, firstPut_append, firstPut_append, if_pos (hlt a ha),
        if_neg habsent]
      exact Nat.lt_add_left _ (hlt a ha)

omit hkeys in
theorem keys_ofPairs_append (h h' : List (Value × Value)) :
    (ofPairs h).keys <+: (ofPairs (h ++ h')).keys := by
  induction h' using List.reverseRecOn with
  | nil => simp
  | append_singleton h' p ih =>
    rw [← append_assoc, ofPairs_concat, keys_put]
    split
    · exact ih
    · exact ih.trans (prefix_append _ _)

/-! ## Main result -/

/-- Two kept keys are never equal: they got their first value at different positions. -/
theorem keys_ofPairs_distinct : (ofPairs h).keys.Pairwise fun a b => a.rawEq b = false := by
  refine (keys_ofPairs_ordered hkeys).imp_of_mem fun {a b} ha hb hab => ?_
  have hka := hasKeptKeys_ofPairs hkeys a ha
  have hkb := hasKeptKeys_ofPairs hkeys b hb
  refine Bool.eq_false_iff.mpr fun heq => ?_
  rw [rawEq_iff_of_isPlainKey (isPlainKey_of_isDiscrete hka.1), hka.2, hkb.2] at heq
  exact Nat.lt_irrefl _ (heq ▸ hab)

end

theorem get?_eq_none_iff (t : Table) (k : Value) : t.get? k = none ↔ t.get k = .nil := by
  rw [get?, ← Value.isNil_iff]
  split <;> simp_all

theorem get?_of_ne_nil {k : Value} (h : t.get k ≠ .nil) : t.get? k = some (t.get k) := by
  rw [← Value.isNil_eq_false_iff] at h
  rw [get?, h]
  rfl

/-- A table is a finite map up to raw equality: whatever the history of `put`s from the empty table,
no kept key is a float and no two are equal; a key has the value that was put last at it or at a key
equal to it; and the kept keys are those that ever got a value, in the order in which they first did,
from where no later `put` removes or moves them. -/
theorem ofPairs_is_finite_map (h : List (Value × Value))
    (hkeys : ∀ p ∈ h, p.1.isDiscrete = true) :
    (∀ k ∈ (ofPairs h).keys, ∀ x : Float, k ≠ .num (.float x)) ∧
    (ofPairs h).keys.Pairwise (fun a b => a.rawEq b = false) ∧
    (∀ k : Value, k.isDiscrete = true →
      (ofPairs h).get k = lastPut h k ∧
      ((ofPairs h).has k = true ↔ (ofPairs h).get k ≠ .nil) ∧
      ∀ d : Value,
        ((ofPairs h).get k ≠ .nil → ((ofPairs h).get? k).getD d = (ofPairs h).get k) ∧
        ((ofPairs h).get k = .nil → ((ofPairs h).get? k).getD d = d)) ∧
    (∀ k : Value, k ∈ (ofPairs h).keys ↔ ∃ p ∈ h, p.2 ≠ .nil ∧ keyOf p.1 = k) ∧
    (ofPairs h).keys.Pairwise (fun a b => firstPut h a < firstPut h b) ∧
    ∀ h' : List (Value × Value), (ofPairs h).keys <+: (ofPairs (h ++ h')).keys := by
  refine ⟨?_, keys_ofPairs_distinct hkeys, ?_, ?_, keys_ofPairs_ordered hkeys,
    keys_ofPairs_append h⟩
  · intro k hk x
    obtain ⟨hdiscrete, hkept⟩ := hasKeptKeys_ofPairs hkeys k hk
    rw [← hkept]
    exact keyOf_ne_float hdiscrete x
  · intro k hk
    refine ⟨get_ofPairs hkeys k, has_iff _ k, fun d => ⟨fun hne => ?_, fun hnil => ?_⟩⟩
    · rw [get?_of_ne_nil hne]
      rfl
    · rw [(get?_eq_none_iff _ k).mpr hnil]
      rfl
  · intro k
    simp only [mem_keys_ofPairs hkeys, Value.isNil_eq_false_iff]

/-- A history that writes a slot through both forms of its key, sets a key to `nil` and sets it
again, and keeps booleans and numbers apart. -/
def sampleHistory : List (Value × Value) :=
  [(.num (.float (Float.ofBits 0x3FF0000000000000)), .bool true), (.bool true, .int 7),
   (.nil, .nil), (.int 1, .nil), (.str [97], .int 3), (.int 1, .int 9)]

theorem sampleHistory_is_finite_map :
    (∀ p ∈ sampleHistory, p.1.isDiscrete = true) ∧
    (∀ k ∈ (ofPairs sampleHistory).keys, ∀ x : Float, k ≠ .num (.float x)) ∧
    (ofPairs sampleHistory).keys = [.int 1, .bool true, .str [97]] ∧
    (ofPairs sampleHistory).get (.num (.float (Float.ofBits 0x3FF0000000000000))) = .int 9 := by
  have hkeys : ∀ p ∈ sampleHistory, p.1.isDiscrete = true := by decide
  have hmap := ofPairs_is_finite_map sampleHistory hkeys
  refine ⟨hkeys, hmap.1, ?_, (hmap.2.2.1 _ ?_).1.trans ?_⟩
  · rfl
  · decide
  · rfl

end Table

end LuaInterpreter
