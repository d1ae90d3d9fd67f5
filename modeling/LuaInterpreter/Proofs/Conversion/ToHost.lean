import LuaInterpreter.Host.Convert
import LuaInterpreter.Proofs.DataGraph
import LuaInterpreter.Proofs.Run

/-!
# Data to the host

A graph of tables that hold data and functions becomes a graph of dictionaries, one for each table
that can be reached. Entries that are `nil` are left out.
-/

namespace LuaInterpreter

open Run

namespace Convert

/-! ## What values become -/

/-- The name of a function, if the host can use it. -/
def nameIn (s : Store) (f : Nat) : Except Fault String :=
  hostName ((s.function? f).bind (·.name))

/-- What a value becomes, given the numbers of the dictionaries. -/
def hostOf (s : Store) (φ : Nat → Nat) : Value → HostValue
  | .nil => .plain .none
  | .bool b => .plain (.bool b)
  | .num (.int i) => .plain (.int i)
  | .num (.float x) => .plain (.float x)
  | .str bs => .plain (.bytes bs)
  | .table a => .plain (.object (φ a))
  | .func f => .callable (.func f) ((nameIn s f).toOption.getD "")
  | v => .lua v

/-- What the host takes at once: data other than tables, and functions with a name it can use. -/
def IsHostable (s : Store) : Value → Prop
  | .func f => ∃ name, nameIn s f = .ok name
  | v => v.IsDatum ∅

/-- No key is a table. -/
def hostRendition (s : Store) : Rendition HostValue HostObject where
  key := hostOf s id
  value := hostOf s
  node := .dict
  value_table := fun _ _ => rfl
  value_congr := by
    intro φ ψ v h
    cases v with
    | table a => rw [hostOf, h a rfl, hostOf]
    | num n => cases n <;> rfl
    | _ => rfl

section

variable {s : Store} {G : Set Nat} {root a : Nat} {φ : Nat → Nat} {v key : Value} {n : Number}
  {t : Table}

theorem toHostFrom_of_not_table {k : Evaluator} {fuel : Nat} {memo : HostMemo}
    {objects : Array HostObject} (hv : IsHostable s v) :
    toHostFrom k fuel memo v { s with objects } = .ok (hostOf s φ v, memo) { s with objects } := by
  cases v with
  | nil | bool | str => rw [toHostFrom]; rfl
  | num n => cases n <;> rw [toHostFrom] <;> rfl
  | func f =>
    obtain ⟨name, hname⟩ := hv
    have hgiven : Run.ofExcept (nameIn s f) { s with objects } = .ok name { s with objects } := by
      rw [hname]
      rfl
    rw [toHostFrom, hostOf, hname]
    exact bind_of_ok hgiven
  | _ => exact hv.elim

theorem isHostable_of_isDatum (hv : v.IsDatum ∅) : IsHostable s v := by
  cases v with
  | func => exact hv.elim
  | _ => exact hv

theorem isDatum_of_isPlainKey (hkey : key.IsPlainKey) : key.IsDatum ∅ := by
  cases key with
  | nil | bool | str | num => trivial
  | _ => exact hkey.elim

/-! ## Keys of dictionaries -/

def bit (b : Bool) : Number := .int (if b then 1 else 0)

theorem sameKey_bool_num {b : Bool} :
    sameKey (hostOf s id (.bool b)) (hostOf s id (.num n)) = (bit b).eq n ∧
      sameKey (hostOf s id (.num n)) (hostOf s id (.bool b)) = n.eq (bit b) := by
  cases n <;> exact ⟨rfl, rfl⟩

theorem sameKey_num {m : Number} : sameKey (hostOf s id (.num m)) (hostOf s id (.num n)) = m.eq n := by
  cases m <;> cases n <;> rfl

/-- Keys that the host takes for the same are equal, or a boolean and its number. -/
theorem eq_of_sameKey {j : Value} (hj : j.IsPlainKey) (hkey : key.IsPlainKey)
    (h : sameKey (hostOf s id j) (hostOf s id key) = true) :
    j.rawEq key = true ∨
      ∃ b n, n.eq (bit b) = true ∧ (j = .bool b ∧ key = .num n ∨ j = .num n ∧ key = .bool b) := by
  cases j with
  | nil =>
    cases key with
    | nil => exact .inl rfl
    | num n => cases n <;> cases h
    | bool | str => cases h
    | _ => exact hkey.elim
  | bool b =>
    cases key with
    | bool b' =>
      refine .inl ?_
      cases b <;> cases b' <;> first | rfl | cases h
    | num n =>
      rw [sameKey_bool_num.1] at h
      have hkept := (Number.eq_iff_asKey_eq_of_ne_nan (m := bit b) trivial).mp h
      exact .inr ⟨b, n, (Number.eq_iff_asKey_eq_of_ne_nan hkey).mpr hkept.symm, .inl ⟨rfl, rfl⟩⟩
    | nil | str => cases h
    | _ => exact hkey.elim
  | num m =>
    cases key with
    | bool b =>
      rw [sameKey_bool_num.2] at h
      exact .inr ⟨b, m, h, .inr ⟨rfl, rfl⟩⟩
    | num n =>
      rw [sameKey_num] at h
      exact .inl h
    | nil | str => cases m <;> cases h
    | _ => exact hkey.elim
  | str =>
    cases key with
    | str => exact .inl h
    | num n => cases n <;> cases h
    | nil | bool => cases h
    | _ => exact hkey.elim
  | _ => exact hj.elim

theorem has_of_mem (hkeys : Table.HasPlainKeys t.entries) {e : Value × Value} (he : e ∈ t.entries)
    (hv : e.2.isNil = false) (hkey : e.1.rawEq key = true) : t.has key = true := by
  rw [Table.has, Table.get, Table.lookup_of_mem hkeys he hkey, Option.getD_some, hv]
  rfl

theorem distinct_hostEntries (hkeys : Table.HasPlainKeys t.entries)
    (hapart : ∀ b : Bool, t.has (.bool b) = true → t.has (.num (bit b)) = false) :
    (((hostRendition s).entries id t.entries).map Prod.fst).Pairwise
      fun j key => sameKey j key = false := by
  rw [Rendition.entries, List.map_map, List.pairwise_map]
  refine (hkeys.distinct.filter _).imp_of_mem fun {e e'} he he' hne => ?_
  obtain ⟨hmem, hv⟩ := List.mem_filter.mp he
  obtain ⟨hmem', hv'⟩ := List.mem_filter.mp he'
  rw [Bool.not_eq_true'] at hv hv'
  have hself {k : Value} (hk : k.IsPlainKey) : k.rawEq k = true :=
    (Table.rawEq_iff_of_isPlainKey hk).mpr rfl
  -- A boolean and its number would both have a value.
  have hclash {d d' : Value × Value} (hd : d ∈ t.entries) (hd' : d' ∈ t.entries)
      (hdv : d.2.isNil = false) (hdv' : d'.2.isNil = false) {b : Bool} {n : Number}
      (hb : d.1 = .bool b) (hn : d'.1 = .num n) : n.eq (bit b) ≠ true := by
    intro heq
    have hbool : t.has (.bool b) = true := has_of_mem hkeys hd hdv (hb ▸ hself (hkeys.plain d hd))
    have hnum : t.has (.num (bit b)) = true := has_of_mem hkeys hd' hdv' (by rw [hn]; exact heq)
    rw [hapart b hbool] at hnum
    cases hnum
  rw [← Bool.not_eq_true]
  intro hsame
  rcases eq_of_sameKey (hkeys.plain e hmem) (hkeys.plain e' hmem') hsame with
    heq | ⟨b, n, hn, ⟨hj, hk⟩ | ⟨hj, hk⟩⟩
  · rw [hne] at heq
    cases heq
  · exact hclash hmem hmem' hv hv' hj hk hn
  · exact hclash hmem' hmem hv' hv hk hj hn

theorem putEntry_of_absent {key value : HostValue} {entries : List (HostValue × HostValue)}
    (h : ∀ e ∈ entries, sameKey e.1 key = false) :
    putEntry key value entries = entries ++ [(key, value)] := by
  induction entries with
  | nil => rfl
  | cons e rest ih =>
    obtain ⟨he, hrest⟩ := List.forall_mem_cons.mp h
    rw [putEntry, he, if_neg Bool.false_ne_true, ih hrest, List.cons_append]

/-! ## The conversion -/

variable {k : Evaluator} {fuel : Nat} {memo memo' : HostMemo} {heap heap' : Array HostObject}

theorem toHostFrom_fresh (hmetatable : (s.table a).metatable = none) (hmemo : memo.lookup a = none)
    (hcopy : copyEntries k fuel heap.size ((a, (hostRendition s).name heap.size) :: memo)
      (s.table a).entries { s with objects := heap.push (.dict []) } =
        .ok memo' { s with objects := heap' }) :
    toHostFrom k (fuel + 1) memo (.table a) { s with objects := heap } =
      .ok ((hostRendition s).name heap.size, memo') { s with objects := heap' } := by
  have hnil : metatable (.table a) "get_metatable" { s with objects := heap } =
      .ok .nil { s with objects := heap } := by
    show EStateM.Result.ok ((s.table a).metatable.getD .nil) _ = _
    rw [hmetatable]
    rfl
  rw [toHostFrom, hmemo]
  exact (bind_of_ok hnil).trans (bind_of_ok hcopy)

/-- From a table, only tables without metatables can be reached whose keys the host keeps apart and
whose values it can take. -/
structure IsHostGraph (s : Store) (root : Nat) : Prop where
  lt_size : ∀ a, s.Leads root a → a < s.tables.size
  metatable : ∀ a, s.Leads root a → (s.table a).metatable = none
  keys : ∀ a, s.Leads root a → Table.HasPlainKeys (s.table a).entries
  apart : ∀ a, s.Leads root a → ∀ b : Bool, (s.table a).has (.bool b) = true →
    (s.table a).has (.num (bit b)) = false
  values : ∀ a, s.Leads root a → ∀ e ∈ (s.table a).entries,
    e.2.Within (IsHostable s) {b | s.Leads root b}

theorem isHostGraph_of_isDataGraph (hG : s.IsDataGraph G) (hroot : root ∈ G) :
    IsHostGraph s root where
  lt_size := hG.lt_of_leads hroot
  metatable a ha := hG.metatable a (hG.mem_of_leads hroot ha)
  keys a ha := hG.keys a (hG.mem_of_leads hroot ha)
  apart a ha := hG.apart a (hG.mem_of_leads hroot ha)
  values _ ha _ he := (hG.isDatum_of_leads hroot ha he).within.imp_right
    (And.imp_left isHostable_of_isDatum)

/-- The conversion gives each table a dictionary, and leaves out entries that are `nil`. -/
def toHostConversion (hG : IsHostGraph s root) (k : Evaluator) :
    Conversion (hostRendition s) ((hostRendition s).copying hG.lt_size s.objects.size) where
  store := fun heap => { s with objects := heap }
  convert := toHostFrom k
  fill := copyEntries k
  memoKey := id
  memoKey_inj := fun _ _ _ _ => id
  same := sameKey
  Plain := IsHostable s
  rows := fun a => (s.table a).entries
  Fit := fun e => e.1.IsPlainKey
  fit := fun a ha e he => ⟨hG.values a ha e he, (hG.keys a ha).plain e he⟩
  length_rows := fun a ha => s.length_le_width a (hG.lt_size a ha)
  distinct := fun a ha => distinct_hostEntries (hG.keys a ha) (hG.apart a ha)
  children_rows := fun _ => List.Subset.refl _
  image_rows := fun _ _ => rfl
  convert_plain := fun _ _ _ _ _ => toHostFrom_of_not_table
  convert_known := by
    intro fuel memo a b t hmemo
    rw [toHostFrom, show memo.lookup a = some b from hmemo]
    rfl
  convert_fresh := fun _ _ _ a _ _ ha =>
    toHostFrom_fresh (hG.metatable a ha)
  fill_nil := by
    intro fuel cell memo t
    rw [copyEntries]
    rfl
  fill_skip := by
    intro fuel cell memo e es _ he
    rw [copyEntries, he, if_pos rfl]
  fill_cons := by
    intro fuel cell memo memo' e es φ heap heap' done hkey he hvalue hnew
    have hkeyed : toHostFrom k fuel memo' e.1 { s with objects := heap' } =
        .ok (hostOf s id e.1, memo') { s with objects := heap' } :=
      toHostFrom_of_not_table (isHostable_of_isDatum (isDatum_of_isPlainKey hkey))
    rw [copyEntries, he, if_neg Bool.false_ne_true]
    exact ⟨_, (bind_of_ok hvalue).trans (bind_of_ok hkeyed),
      congrArg HostObject.dict (putEntry_of_absent hnew)⟩

end

end Convert

end LuaInterpreter
