import LuaInterpreter.Proofs.TableSort

/-!
# Table constructors

A constructor evaluates its fields from the first to the last. A field with a key is put under that
key; the values of the others are put at the positions `1`, `2`, …, and the last field gives all its
values if it has no key. The keys do not matter to the positions, and the positions not to the keys,
unless they are equal.
-/

namespace LuaInterpreter

open Run List Table Nat

open Evaluator (withFuel)

/-! ## Two lists of values put -/

/-- A list consists of two others, the items of each in their order. -/
inductive Interleaves {α : Type} : List α → List α → List α → Prop
  | nil : Interleaves [] [] []
  | left {as bs cs : List α} (a : α) :
      Interleaves as bs cs → Interleaves (a :: as) bs (a :: cs)
  | right {as bs cs : List α} (b : α) :
      Interleaves as bs cs → Interleaves as (b :: bs) (b :: cs)

namespace Interleaves

variable {α : Type} {as bs cs : List α}

theorem symm (h : Interleaves as bs cs) : Interleaves bs as cs := by
  induction h with
  | nil => exact .nil
  | left a _ ih => exact .right a ih
  | right b _ ih => exact .left b ih

theorem nil_left (bs : List α) : Interleaves [] bs bs := by
  induction bs with
  | nil => exact .nil
  | cons b bs ih => exact .right b ih

theorem forall_mem {P : α → Prop} (h : Interleaves as bs cs) (ha : ∀ a ∈ as, P a)
    (hb : ∀ b ∈ bs, P b) : ∀ c ∈ cs, P c := by
  induction h with
  | nil => exact ha
  | left a _ ih =>
    obtain ⟨ha, has⟩ := forall_mem_cons.mp ha
    exact forall_mem_cons.mpr ⟨ha, ih has hb⟩
  | right b _ ih =>
    obtain ⟨hb, hbs⟩ := forall_mem_cons.mp hb
    exact forall_mem_cons.mpr ⟨hb, ih ha hbs⟩

end Interleaves

namespace Table

variable {t u : Table} {j : Value} {vs ws : List (Value × Value)}

theorem metatable_putAll (t : Table) (ws : List (Value × Value)) :
    (t.putAll ws).metatable = t.metatable := by
  induction ws generalizing t with
  | nil => rfl
  | cons w ws ih => exact (ih (t.put w.1 w.2)).trans (metatable_put t w.1 w.2)

/-- What is put under other keys, before, after or in between, does not matter. -/
theorem get_putAll_of_interleaves {all : List (Value × Value)} (h : Interleaves ws vs all)
    (hall : ∀ w ∈ all, w.1.IsPlainKey) (hvs : ∀ w ∈ vs, w.1.rawEq j = false)
    (hj : t.get j = u.get j) : (t.putAll all).get j = (u.putAll ws).get j := by
  induction h generalizing t u with
  | nil => exact hj
  | left w _ ih =>
    obtain ⟨hw, hall⟩ := forall_mem_cons.mp hall
    refine ih hall hvs ?_
    rw [get_put_of_isPlainKey t hw, get_put_of_isPlainKey u hw, hj]
  | right w _ ih =>
    obtain ⟨hw, hall⟩ := forall_mem_cons.mp hall
    obtain ⟨hne, hvs⟩ := forall_mem_cons.mp hvs
    refine ih hall hvs ?_
    rw [get_put_of_isPlainKey t hw, if_neg (Bool.eq_false_iff.mp hne), hj]

theorem get_putAll_of_forall_ne (t : Table) (hws : ∀ w ∈ ws, w.1.IsPlainKey)
    (hne : ∀ w ∈ ws, w.1.rawEq j = false) : (t.putAll ws).get j = t.get j :=
  get_putAll_of_interleaves (.nil_left ws) hws hne rfl

theorem get_putAll_of_last (t : Table) {before after : List (Value × Value)} {w : Value × Value}
    (hws : ∀ w' ∈ before ++ w :: after, w'.1.IsPlainKey) (hw : w.1.rawEq j = true)
    (hafter : ∀ w' ∈ after, w'.1.rawEq j = false) :
    (t.putAll (before ++ w :: after)).get j = w.2 := by
  obtain ⟨-, hws⟩ := forall_mem_append.mp hws
  obtain ⟨hplain, hws⟩ := forall_mem_cons.mp hws
  rw [putAll_append]
  refine (get_putAll_of_forall_ne _ hws hafter).trans ?_
  exact (get_put_of_isPlainKey _ hplain w.2 j).trans (if_pos hw)

def numbered : Int → List Value → List (Value × Value)
  | _, [] => []
  | next, v :: vs => (.int next, v) :: numbered (next + 1) vs

variable {next : Int}

theorem forall_mem_numbered {P : Value → Prop} {vs : List Value}
    (h : ∀ i < vs.length, P (.int (next + i))) : ∀ w ∈ numbered next vs, P w.1 := by
  induction vs generalizing next with
  | nil => exact fun w hw => absurd hw not_mem_nil
  | cons v vs ih =>
    refine forall_mem_cons.mpr ⟨?_, ih fun i hi => ?_⟩
    · simpa using h 0 (succ_pos _)
    · have hlater := h (i + 1) (succ_lt_succ hi)
      rwa [cast_succ, add_comm (i : Int), ← add_assoc] at hlater

theorem get_putAll_numbered (t : Table) {vs : List Value} {i : Nat} {v : Value}
    (hv : vs[i]? = some v) : (t.putAll (numbered next vs)).get (.int (next + i)) = v := by
  induction vs generalizing t next i with
  | nil => cases hv
  | cons v' vs ih =>
    cases i with
    | zero =>
      cases hv
      rw [cast_zero, Int.add_zero]
      have hplain : ∀ w ∈ numbered (next + 1) vs, w.1.IsPlainKey :=
        forall_mem_numbered fun i _ => isPlainKey_int _
      have hne : ∀ w ∈ numbered (next + 1) vs, w.1.rawEq (.int next) = false :=
        forall_mem_numbered (P := fun key => key.rawEq (.int next) = false) fun i _ => by
          rw [rawEq_int, decide_eq_false_iff_not]
          omega
      exact (get_putAll_of_forall_ne (t.put (.int next) v) hplain hne).trans
        ((get_put_int t next next v).trans (if_pos rfl))
    | succ i =>
      rw [cast_succ, add_comm (i : Int), ← add_assoc]
      exact ih _ hv

end Table

namespace Eval

/-! ## What fields give -/

/-- What a field gives: a value with a key, or results without one. -/
inductive FieldResult where
  | keyed (key value : Value)
  | positional (r : Results)

def fieldResult (k : Evaluator) (scope : Nat) : Field → Run FieldResult
  | .keyed _ key value => do return .keyed (← fieldKey k scope key) (← single k scope value)
  | .positional _ value => do return .positional (← k.expr scope value)
  | .alien kind => fault (.misplacedConstruct "field" (constructOrigin kind))

/-- Evaluates fields from the first to the last. -/
def fieldResults (k : Evaluator) (scope : Nat) : List Field → Run (List FieldResult)
  | [] => return []
  | f :: fs => do
    let g ← fieldResult k scope f
    return g :: (← fieldResults k scope fs)

namespace FieldResult

def isPositional : FieldResult → Bool
  | .keyed .. => false
  | .positional _ => true

def pair? : FieldResult → Option (Value × Value)
  | .keyed key value => some (key, value)
  | .positional _ => none

def results? : FieldResult → Option Results
  | .keyed .. => none
  | .positional r => some r

/-- The keys that are given, with their values. -/
def explicit (gs : List FieldResult) : List (Value × Value) := gs.filterMap pair?

/-- The values that are given without keys. Each field gives one, unless the last field has no key:
then they are those of an expression list. -/
def listed (gs : List FieldResult) : List Value :=
  if gs.getLast?.any isPositional then Results.flatten (gs.filterMap results?)
  else (gs.filterMap results?).map Results.single

theorem listed_keyed_cons (key value : Value) (gs : List FieldResult) :
    listed (.keyed key value :: gs) = listed gs := by
  cases gs with
  | nil => rfl
  | cons g gs =>
    rfl

theorem listed_positional_cons (r : Results) (g : FieldResult) (gs : List FieldResult) :
    listed (.positional r :: g :: gs) = r.single :: listed (g :: gs) := by
  rw [listed, listed, List.getLast?_cons_cons,
    filterMap_cons_some (show results? (.positional r) = some r from rfl)]
  split
  · next hlast =>
    have hne : (g :: gs).filterMap results? ≠ [] := by
      intro hnil
      obtain ⟨g', hg', hpositional⟩ := (Option.any_eq_true _ _).mp hlast
      have hnone := filterMap_eq_nil_iff.mp hnil g' (mem_of_getLast? hg')
      cases g' with
      | keyed => cases hpositional
      | positional => cases hnone
    obtain ⟨r', rs, hrs⟩ := exists_cons_of_ne_nil hne
    rw [hrs, Results.flatten, Results.flatten, Results.spread, map_cons]
  · rfl

end FieldResult

open FieldResult

/-! ## What a constructor puts -/

variable {n scope : Nat} {s t : Store}

variable {r : Results} {f : Field} {g : FieldResult}

theorem single_of_ok {e : Expr} (h : (withFuel n).expr scope e s = .ok r t) :
    single (withFuel n) scope e s = .ok r.single t := by
  cases hform : e.form with
  | alien kind =>
    cases n with
    | zero => cases h
    | succ n =>
      change expression (withFuel n) scope e s = _ at h
      simp only [expression, hform] at h
      cases h
  | _ =>
    simp only [single, hform]
    exact bind_of_ok h

theorem table_putAll (d : Draft) (vs : List Value) :
    (d.putAll vs).table = d.table.putAll (Table.numbered d.next vs) := by
  induction vs generalizing d with
  | nil => rfl
  | cons v vs ih => exact ih (d.putNext v)

/-- A list in the last place gives all its values, and a value that has no items gives itself. -/
theorem lastValues_eq_flatten (hr : ∀ v, r = .one v → s.itemsOf? r = none) :
    lastValues s r = Results.flatten [r] := by
  cases r with
  | many items => rfl
  | one v =>
    simp only [lastValues, hr v rfl]
    rfl

/-- A draft with what a field gives that stands before others. -/
def FieldResult.put (d : Draft) : FieldResult → Draft
  | .keyed key value => { d with table := d.table.put key value }
  | .positional r => d.putNext r.single

theorem putField_of_fieldResult (h : fieldResult (withFuel n) scope f s = .ok g t)
    (hplain : ∀ p ∈ g.pair?, p.1.IsPlainKey) (d : Draft) :
    putField (withFuel n) scope d f s = .ok (g.put d) t := by
  cases f with
  | keyed _ key value =>
    obtain ⟨kv, u, hkey, hrest⟩ := bind_eq_ok_iff.mp h
    obtain ⟨v, u', hv, hpure⟩ := bind_eq_ok_iff.mp hrest
    cases hpure
    have hput : d.putKey kv v t = .ok { d with table := d.table.put kv v } t := by
      rw [Draft.putKey, requireKey, isKey_of_isPlainKey (hplain _ rfl)]
      rfl
    exact (bind_of_ok hkey).trans ((bind_of_ok hv).trans hput)
  | positional _ value =>
    obtain ⟨r, u, hr, hpure⟩ := bind_eq_ok_iff.mp h
    cases hpure
    exact bind_of_ok (single_of_ok hr)
  | alien => cases h

theorem putLast_of_fieldResult (h : fieldResult (withFuel n) scope f s = .ok g t)
    (hplain : ∀ p ∈ g.pair?, p.1.IsPlainKey)
    (hvalue : ∀ v, g = .positional (.one v) → t.itemsOf? (.one v) = none) (d : Draft) :
    ∃ d' ws, putLast (withFuel n) scope d f s = .ok d' t ∧ d'.table = d.table.putAll ws ∧
      Interleaves (explicit [g]) (Table.numbered d.next (listed [g])) ws := by
  cases f with
  | keyed _ key value =>
    obtain ⟨kv, u, hkey, hrest⟩ := bind_eq_ok_iff.mp h
    obtain ⟨v, u', hv, hpure⟩ := bind_eq_ok_iff.mp hrest
    cases hpure
    exact ⟨_, [(kv, v)], putField_of_fieldResult h hplain d, rfl, .left _ .nil⟩
  | positional _ value =>
    obtain ⟨r, u, hr, hpure⟩ := bind_eq_ok_iff.mp h
    cases hpure
    refine ⟨d.putAll (lastValues t r), _, bind_of_ok hr, table_putAll d _, ?_⟩
    rw [lastValues_eq_flatten fun v hv => hv ▸ hvalue v (congrArg _ hv)]
    exact .nil_left _
  | alien => cases h

/-- The fields put what they give, keys and positions in between each other. The induction is on the
fields; the last one is a case of its own. -/
theorem putFields_of_fieldResults {fields : List Field} {gs : List FieldResult}
    (h : fieldResults (withFuel n) scope fields s = .ok gs t)
    (hplain : ∀ p ∈ explicit gs, p.1.IsPlainKey)
    (hvalue : ∀ v, gs.getLast? = some (.positional (.one v)) → t.itemsOf? (.one v) = none)
    (d : Draft) :
    ∃ d' ws, putFields (withFuel n) scope d fields s = .ok d' t ∧ d'.table = d.table.putAll ws ∧
      Interleaves (explicit gs) (Table.numbered d.next (listed gs)) ws := by
  induction fields generalizing s gs d with
  | nil =>
    cases h
    exact ⟨d, [], rfl, rfl, .nil⟩
  | cons f fields ih =>
    obtain ⟨g, u, hg, hrest⟩ := bind_eq_ok_iff.mp h
    obtain ⟨gs, t', hgs, hpure⟩ := bind_eq_ok_iff.mp hrest
    cases hpure
    have hg' : ∀ p ∈ g.pair?, p.1.IsPlainKey := fun p hp =>
      hplain p (mem_filterMap.mpr ⟨g, mem_cons_self, hp⟩)
    cases fields with
    | nil =>
      cases hgs
      exact putLast_of_fieldResult hg hg' (fun v hv => hvalue v (congrArg some hv)) d
    | cons f' fields =>
      have hgs' := hgs
      obtain ⟨g', _, -, hrest'⟩ := bind_eq_ok_iff.mp hgs
      obtain ⟨gs', _, -, hpure'⟩ := bind_eq_ok_iff.mp hrest'
      cases hpure'
      obtain ⟨d', ws, hput, htable, hws⟩ := ih hgs'
        (fun p hp => hplain p (filterMap_subset _ (subset_cons_self _ _) hp))
        (fun v => List.getLast?_cons_cons ▸ hvalue v) (g.put d)
      have hfields : putFields (withFuel n) scope d (f :: f' :: fields) s = .ok d' t :=
        (bind_of_ok (putField_of_fieldResult hg hg' d)).trans hput
      cases g with
      | keyed key value =>
        exact ⟨d', (key, value) :: ws, hfields, htable,
          (listed_keyed_cons key value (g' :: gs')).symm ▸ .left (key, value) hws⟩
      | positional r =>
        exact ⟨d', (.int d.next, r.single) :: ws, hfields, htable,
          (listed_positional_cons r g' gs').symm ▸ .right _ hws⟩

/-! ## Constructors -/

/-- A constructor numbers the values that have no keys. Let its fields be evaluated, so that each of
them gives a value with a key, or results without one; let no single value in the last place be one
of the host that has items. Let the keys be `nil`, booleans, strings and numbers other than NaN,
none of which equals a position that a value gets. Then there is a new table, without metatable. At
the positions `1`, `2`, … it has the values of the fields without keys: those of an expression list
if the last field of all has no key, and one of each field otherwise. Under each key it has the
value that was given last, and it has nothing else. -/
theorem constructor_numbers_values {n scope : Nat} {e : Expr} {fields : List Field}
    {gs : List FieldResult} {s t : Store} (hform : e.form = .table fields)
    (hfields : fieldResults (withFuel n) scope fields s = .ok gs t)
    (hplain : ∀ p ∈ explicit gs, p.1.IsPlainKey)
    (hapart : ∀ p ∈ explicit gs, ∀ i < (listed gs).length, (Value.int (i + 1)).rawEq p.1 = false)
    (hvalue : ∀ v, gs.getLast? = some (.positional (.one v)) → t.itemsOf? (.one v) = none) :
    ∃ table : Table,
      (withFuel (n + 1)).expr scope e s =
        .ok (.one (.table t.tables.size)) { t with tables := t.tables.push table } ∧
      table.metatable = none ∧
      (∀ (i : Nat) (v key : Value), (listed gs)[i]? = some v →
        (Value.int (i + 1)).rawEq key = true → table.get key = v) ∧
      (∀ (before after : List (Value × Value)) (p : Value × Value) (key : Value),
        explicit gs = before ++ p :: after → (∀ q ∈ after, q.1.rawEq p.1 = false) →
        p.1.rawEq key = true → table.get key = p.2) ∧
      (∀ key, (∀ i < (listed gs).length, (Value.int (i + 1)).rawEq key = false) →
        (∀ p ∈ explicit gs, p.1.rawEq key = false) → table.get key = .nil) := by
  obtain ⟨d, ws, hput, htable, hws⟩ := putFields_of_fieldResults hfields hplain hvalue {}
  have hall : ∀ w ∈ ws, w.1.IsPlainKey :=
    hws.forall_mem hplain (forall_mem_numbered fun i _ => isPlainKey_int _)
  have hnumbered {j : Value} (h : ∀ i < (listed gs).length, (Value.int (i + 1)).rawEq j = false) :
      ∀ w ∈ Table.numbered 1 (listed gs), w.1.rawEq j = false :=
    forall_mem_numbered (P := fun key => key.rawEq j = false) fun i hi =>
      add_comm (1 : Int) i ▸ h i hi
  refine ⟨d.table, ?_, ?_, fun i v key hv hkey => ?_,
    fun before after p key hsplit hafter hkey => ?_, fun key hpositions hkeys => ?_⟩
  · show expression (withFuel n) scope e s = _
    simp only [expression, hform]
    exact traced_eq_ok_iff.mpr (bind_of_ok hput)
  · rw [htable, metatable_putAll]
  · rw [get_congr (isPlainKey_int _) hkey, htable]
    have hne : ∀ p ∈ explicit gs, p.1.rawEq (.int (i + 1)) = false := fun p hp => by
      rw [rawEq_comm_of_isPlainKey (isPlainKey_int _)]
      exact hapart p hp i (List.getElem?_eq_some_iff.mp hv).1
    rw [get_putAll_of_interleaves hws.symm hall hne rfl, add_comm (i : Int)]
    exact get_putAll_numbered _ hv
  · have hp : p ∈ explicit gs := hsplit ▸ mem_append_right _ mem_cons_self
    rw [get_congr (hplain p hp) hkey, htable,
      get_putAll_of_interleaves hws hall (hnumbered (hapart p hp)) rfl, hsplit]
    exact get_putAll_of_last _ (hsplit ▸ hplain)
      ((rawEq_iff_of_isPlainKey (hplain p hp)).mpr rfl) hafter
  · rw [htable]
    exact get_putAll_of_forall_ne _ hall (hws.forall_mem hkeys (hnumbered hpositions))

/-- A store with one scope, in which `...` stands for three values. -/
def dottedStore : Store :=
  { scopes := #[{ session := 0, parent := none, varargs := some [.int 7, .nil, .int 8] }]
    sessions := #[{ globals := 0, root := 0 }] }

/-- The constructor `{..., x = true, x = false, ...}`. -/
def mixedFields : List Field :=
  [.positional {} (.mk {} .vararg),
    .keyed {} (.name { lexeme := { text := "x" } }) (.mk {} .litTrue),
    .keyed {} (.name { lexeme := { text := "x" } }) (.mk {} .litFalse),
    .positional {} (.mk {} .vararg)]

def mixedResults : List FieldResult :=
  [.positional (.ofList [.int 7, .nil, .int 8]), .keyed (.ascii "x") (.bool true),
    .keyed (.ascii "x") (.bool false), .positional (.ofList [.int 7, .nil, .int 8])]

/-- One value of the first field and all values of the last one are numbered. -/
theorem mixedFields_numbered : ∃ table : Table,
    (withFuel 2).expr 0 (.mk {} (.table mixedFields)) dottedStore =
      .ok (.one (.table 0)) { dottedStore with tables := #[table] } ∧
    table.get (.int 1) = .int 7 ∧ table.get (.int 2) = .int 7 ∧ table.get (.int 3) = .nil ∧
    table.get (.int 4) = .int 8 ∧ table.get (.ascii "x") = .bool false ∧
    table.get (.int 5) = .nil := by
  have hkeys : ∀ p ∈ explicit mixedResults, p.1 = .ascii "x" := by
    intro p hp
    obtain rfl | rfl := mem_pair.mp hp <;> rfl
  have hpositions (i : Nat) (hi : i < 4) : (Value.int (i + 1)).rawEq (.int 5) = false := by
    rw [rawEq_int, decide_eq_false_iff_not]
    omega
  have hfields : fieldResults (withFuel 1) 0 mixedFields dottedStore =
      .ok mixedResults dottedStore := rfl
  obtain ⟨table, hexpr, -, hlisted, hexplicit, hother⟩ := constructor_numbers_values
    (e := .mk {} (.table mixedFields)) rfl hfields (fun p hp => hkeys p hp ▸ trivial)
    (fun p hp i _ => hkeys p hp ▸ rfl) (fun v hv => by cases hv)
  exact ⟨table, hexpr, hlisted 0 _ _ rfl rfl, hlisted 1 _ _ rfl rfl, hlisted 2 _ _ rfl rfl,
    hlisted 3 _ _ rfl rfl, hexplicit [_] [] _ _ rfl (fun q hq => absurd hq not_mem_nil) rfl,
    hother _ hpositions fun p hp => hkeys p hp ▸ rfl⟩

end Eval

end LuaInterpreter
