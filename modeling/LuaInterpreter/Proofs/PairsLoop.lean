import LuaInterpreter.Proofs.IntegerLoop
import LuaInterpreter.Proofs.MultipleAssignment
import LuaInterpreter.Proofs.Traversal

/-!
# Loops over the fields of a table

A loop over `pairs(t)` calls `next` with the key that its first variable holds, so it is a traversal
with a body between the steps. Of the entries of a table it comes to those that are not `nil`, but to
the very first one in any case.
-/

namespace LuaInterpreter

open Run BasicLibrary List Store Results Table Builtin Bytes

open Evaluator (withFuel)

/-! ## Fields -/

namespace Table

variable {t : Table} {h : List (Value × Value)} {k : Value}

def fields (t : Table) : List (Value × Value) := t.entries.filter isSet

theorem mem_fields {e : Value × Value} : e ∈ t.fields ↔ e ∈ t.entries ∧ e.2 ≠ .nil := by
  rw [fields, mem_filter, isSet, Bool.not_eq_true', Value.isNil_eq_false_iff]

/-- The entries that a loop comes to: those that are set, after the first one if that is not set. -/
def visited (t : Table) : List (Value × Value) := (t.entries.take 1).filter (·.2.isNil) ++ t.fields

theorem visited_eq_fields_iff : t.visited = t.fields ↔ ∀ e ∈ t.entries.head?, e.2 ≠ .nil := by
  rw [visited, append_left_eq_self, filter_eq_nil_iff]
  obtain ⟨_ | ⟨e, es⟩, _⟩ := t
  · simp
  · simp [Value.isNil_iff]

/-- The fields are the keys with values other than `nil`, each of them once. -/
theorem countP_fields (ht : HasPlainKeys t.entries) (hk : t.get k ≠ .nil) :
    t.fields.countP (·.1.rawEq k) = 1 := by
  obtain ⟨e, he, hek⟩ := exists_mem_of_get_ne_nil hk
  have hfield : e ∈ t.fields := mem_fields.mpr ⟨he, get_of_mem ht he hek ▸ hk⟩
  have hcount := countP_rawEq (l := t.fields.map Prod.fst) (k := e.1) (j := k) ?_ ?_
    (mem_map_of_mem hfield) hek
  · rwa [countP_map] at hcount
  · intro key hkey
    obtain ⟨e', he', rfl⟩ := mem_map.mp hkey
    exact ht.plain e' (mem_fields.mp he').1
  · exact pairwise_map.mpr (ht.distinct.sublist filter_sublist)

theorem Traversable.put (ht : Traversable t.entries) (hk : k.IsPlainKey) (hnil : k ≠ .nil)
    (v : Value) : Traversable (t.put k v).entries where
  toHasPlainKeys := ht.toHasPlainKeys.put hk v
  not_nil := by
    have hold : ∀ key ∈ t.keys, key ≠ .nil := forall_mem_map.mpr ht.not_nil
    have hnew : ∀ key ∈ (t.put k v).keys, key ≠ .nil := by
      rw [keys_put]
      split
      · exact hold
      · refine forall_mem_append.mpr ⟨hold, forall_mem_singleton.mpr ?_⟩
        cases k with
        | nil => exact absurd rfl hnil
        | _ => exact nofun
    exact fun e he => hnew e.1 (mem_map_of_mem he)

theorem traversable_ofPairs (hkeys : ∀ p ∈ h, p.1.IsPlainKey ∧ p.1 ≠ .nil) :
    Traversable (ofPairs h).entries :=
  ofPairs_of_put (P := fun t => Traversable t.entries) (Q := fun k => k.IsPlainKey ∧ k ≠ .nil)
    ⟨⟨nofun, .nil⟩, nofun⟩
    (fun _ _ v ht hk => ht.put hk.1 hk.2 v) hkeys

theorem metatable_ofPairs (h : List (Value × Value)) : (ofPairs h).metatable = none :=
  ofPairs_of_put (P := (·.metatable = none)) (Q := fun _ => True) rfl
    (fun t k v ht _ => (t.metatable_put k v).trans ht) fun _ _ => trivial

end Table

namespace BasicLibrary

theorem upcoming_nil (t : Table) : upcoming t .nil = t.visited := by
  obtain ⟨_ | ⟨e, es⟩, _⟩ := t
  · rfl
  · show e :: es.filter isSet = [e].filter (·.2.isNil) ++ (e :: es).filter isSet
    cases he : e.2.isNil <;> simp [isSet, he]

/-- The first step of a traversal leads nowhere only in a table without entries. -/
theorem next_nil_eq_nil_iff {t : Table} (ht : Table.Traversable t.entries) :
    (Results.ofList (next t .nil)).single = .nil ↔ t.entries = [] := by
  obtain ⟨_ | ⟨e, es⟩, _⟩ := t
  · exact iff_of_true rfl rfl
  · exact iff_of_false (ht.not_nil e mem_cons_self) (cons_ne_nil e es)

end BasicLibrary

/-! ## Variables of a loop -/

namespace Store

theorem getName_of_find? {s : Store} {scope : Nat} {x : Bytes} {v : Variable}
    (h : (s.scope scope).find? x = some v) : s.getName scope x = v.value := by
  have howner : s.owner? scope x = some scope := by simp only [owner?, ownerFrom, h]
  simp only [getName, howner, localValue, h]

end Store

namespace Eval

section

variable {inner : Nat} {xs : List Bytes} {vs : List Value} {s t : Store}

/-- The variables of a loop hold values in turn, and `nil` where there are no more values. -/
def Holds (t : Store) (inner : Nat) (xs : List Bytes) (vs : List Value) : Prop :=
  ∀ i x, xs[i]? = some x → (t.scope inner).find? x = some { value := vs.getD i .nil }

theorem Holds.free (h : Holds t inner xs vs) {x : Bytes} (hx : x ∈ xs) : Free t inner x := by
  obtain ⟨i, hi⟩ := mem_iff_getElem?.mp hx
  intro v hv
  cases (h i x hi).symm.trans hv
  rfl

/-- Names that are no constants can all be given values. Nothing but the variables with these names
changes. -/
theorem declareValues_of_free (hinner : inner < s.scopes.size) (hdistinct : xs.Nodup)
    (hfree : ∀ x ∈ xs, Free s inner x) (hlength : vs.length = xs.length) :
    ∃ t, declareValues inner xs vs s = .ok () t ∧ Holds t inner xs vs ∧
      (∀ x, x ∉ xs → (t.scope inner).find? x = (s.scope inner).find? x) ∧
      t.scopes.size = s.scopes.size ∧ t.tables = s.tables ∧ t.functions = s.functions := by
  induction xs generalizing s vs with
  | nil => exact ⟨s, rfl, nofun, fun _ _ => rfl, rfl, rfl, rfl⟩
  | cons x xs ih =>
    obtain ⟨v, vs, rfl⟩ := exists_cons_of_length_eq_add_one hlength
    obtain ⟨hx, hxs⟩ := nodup_cons.mp hdistinct
    obtain ⟨hfirst, hrest⟩ := forall_mem_cons.mp hfree
    have hset (y : Bytes) := find?_setVariable hinner inner x y { value := v }
    have hshape := sameShape_setVariable s inner x { value := v }
    have hrest' (y : Bytes) (hy : y ∈ xs) : Free (s.setVariable inner x { value := v }) inner y := by
      intro w hw
      rw [hset y, if_neg fun h : inner = inner ∧ y = x => hx (h.2 ▸ hy)] at hw
      exact hrest y hy w hw
    obtain ⟨t, hrun, hholds, hother, hsize, htables, hfunctions⟩ :=
      ih (hshape.size.symm ▸ hinner) hxs hrest' (Nat.succ.inj hlength)
    refine ⟨t, (bind_of_ok (declare_of_variable hfirst)).trans hrun, ?_, ?_, hsize.trans hshape.size,
      htables, hfunctions⟩
    · rintro (_ | i) y hy
      · cases hy
        rw [hother x hx, hset x, if_pos ⟨rfl, rfl⟩]
        rfl
      · exact hholds i y hy
    · intro y hy
      rw [mem_cons, not_or] at hy
      rw [hother y hy.2, hset y, if_neg fun h => hy.1 h.2]

theorem declareValues_adjust (hinner : inner < s.scopes.size) (hdistinct : xs.Nodup)
    (hfree : ∀ x ∈ xs, Free s inner x) (vs : List Value) :
    ∃ t, declareValues inner xs (Results.adjust (vs.map .one) xs.length) s = .ok () t ∧
      Holds t inner xs vs ∧ t.scopes.size = s.scopes.size ∧ t.tables = s.tables ∧
      t.functions = s.functions := by
  obtain ⟨t, hrun, hholds, -, hunchanged⟩ :=
    declareValues_of_free hinner hdistinct hfree (length_adjust (vs.map .one) xs.length)
  refine ⟨t, hrun, fun i x hx => ?_, hunchanged⟩
  have hi : i < xs.length := (List.getElem?_eq_some_iff.mp hx).1
  rw [hholds i x hx, getD_eq_getElem?_getD, getElem?_adjust _ hi,
    flatten_map_one, Option.getD_some]

end

/-! ## Steps -/

/-- A loop goes through a table with `next`. -/
structure Iteration.Traverses (it : Iteration) (id : Nat) : Prop where
  iterator : it.iterator = .func next.number
  state : it.state = .table id
  closing : it.closing = .nil
  named : it.names ≠ []
  distinct : it.names.Nodup

/-- A loop can go on from a key: its first variable holds the key, and none of its variables is a
constant. -/
structure Iteration.IsAt (it : Iteration) (inner : Nat) (key : Value) (s : Store) : Prop where
  scope : inner < s.scopes.size
  library : s.function? next.number = some (.ofBuiltin .next)
  control : (s.scope inner).find? it.control = some { value := key }
  free : ∀ x ∈ it.names, Free s inner x

section

variable {n scope inner id : Nat} {it : Iteration} {key : Value} {body : Block}
  {e : Value × Value} {later : List (Value × Value)} {s t : Store}

theorem advance_eq {vs : List Value} (hnamed : it.names ≠ [])
    (hcontrol : (s.scope inner).find? it.control = some { value := key })
    (hcall : (withFuel n).call it.iterator [.one it.state, .one key] (some scope) true s =
      .ok (.ofList vs) s) :
    advance (withFuel n) scope inner it s =
      (do declareValues inner it.names (Results.adjust (vs.map .one) it.names.length)
          return !(vs.headD .nil).isNil : Run Bool) s := by
  have hpos : 0 < it.names.length := length_pos_iff.mpr hnamed
  have hhead : (Results.adjust (vs.map .one) it.names.length).headD .nil = vs.headD .nil := by
    rw [headD_eq_head?_getD, List.head?_eq_getElem?, getElem?_adjust _ hpos,
      flatten_map_one, Option.getD_some, headD_eq_head?_getD, List.head?_eq_getElem?,
      getD_eq_getElem?_getD]
  rw [advance, get_bind_apply, getName_of_find? hcontrol, bind_of_ok hcall, ← hhead]
  rfl

theorem advance_of_upcoming (hit : it.Traverses id) (hs : it.IsAt inner key s) (n scope : Nat) :
    ∃ t, declareValues inner it.names (Results.adjust
        ((given (upcoming (s.table id) key)).map .one) it.names.length) s = .ok () t ∧
      Holds t inner it.names (given (upcoming (s.table id) key)) ∧
      t.scopes.size = s.scopes.size ∧ t.tables = s.tables ∧ t.functions = s.functions ∧
      advance (withFuel (n + 1)) scope inner it s =
        .ok (!((given (upcoming (s.table id) key)).headD .nil).isNil) t := by
  obtain ⟨t, hrun, hholds, hsize, htables, hfunctions⟩ :=
    declareValues_adjust hs.scope hit.distinct hs.free (given (upcoming (s.table id) key))
  have hcall := call_next (n := n) hs.library id key (some scope) true
  rw [next_eq, ← hit.iterator, ← hit.state] at hcall
  exact ⟨t, hrun, hholds, hsize, htables, hfunctions,
    (advance_eq hit.named hs.control hcall).trans (bind_of_ok hrun)⟩

/-! ## Rounds -/

abbrev Iteration.round (it : Iteration) (k : Evaluator) (scope inner : Nat) (body : Block) :
    Unit → Run (Unit ⊕ Unit) :=
  fun () => guardedRound k inner (advance k scope inner it) body

/-- The body of a loop is run to its end once for each entry of a list, in the order of the list;
each time the variables of the loop have just been given the key and the value. -/
inductive RunsFor (k : Evaluator) (inner : Nat) (xs : List Bytes) (body : Block) :
    List (Value × Value) → Store → Store → Prop
  | done {s : Store} : RunsFor k inner xs body [] s s
  | next {e : Value × Value} {rest : List (Value × Value)} {s t u v : Store} {r : Results} :
      declareValues inner xs (Results.adjust [.one e.1, .one e.2] xs.length) s = .ok () t →
      Holds t inner xs [e.1, e.2] → runBlock k inner body t = .ok r u →
      RunsFor k inner xs body rest u v → RunsFor k inner xs body (e :: rest) s v

/-- The body of a loop is run for the entries of a list, and in the end its variables are given
`nil`. -/
def Visits (k : Evaluator) (inner : Nat) (xs : List Bytes) (body : Block)
    (es : List (Value × Value)) (s t : Store) : Prop :=
  ∃ u, RunsFor k inner xs body es s u ∧
    declareValues inner xs (Results.adjust [.one .nil] xs.length) u = .ok () t

/-- The body of a loop ends normally, and the loop can go on from the same place: the table has the
same entries, the first variable holds what it held, and no variable has become a constant. -/
def EndsInPlace (k : Evaluator) (inner : Nat) (xs : List Bytes) (id : Nat) (body : Block)
    (t : Store) : Prop :=
  ∃ r u, runBlock k inner body t = .ok r u ∧ (u.table id).entries = (t.table id).entries ∧
    (u.scope inner).find? (xs.headD []) = (t.scope inner).find? (xs.headD []) ∧
    ∀ x ∈ xs, Free t inner x → Free u inner x

def KeepsPlace (k : Evaluator) (scope : Nat) (form : StatForm) (xs : List Bytes) (id : Nat)
    (s : Store) : Prop :=
  ∀ i inner body t, Iterates k scope form s i inner body t → EndsInPlace k inner xs id body t

/-- A round in which the variables of a loop are given values and the body ends normally. If the body
leaves the first variable alone, that holds the first of the values afterwards. -/
theorem round_of_values {vs : List Value} {r : Results} {u : Store}
    (hinner : inner < s.scopes.size) (hnamed : it.names ≠ []) (hholds : Holds t inner it.names vs)
    (hsize : t.scopes.size = s.scopes.size) (hfunctions : t.functions = s.functions)
    (hadvance : advance (withFuel n) scope inner it s = .ok true t)
    (hblock : runBlock (withFuel n) inner body t = .ok r u)
    (hcontrol : (u.scope inner).find? it.control = (t.scope inner).find? it.control) :
    it.round (withFuel n) scope inner body () s = .ok (.inl ()) u ∧
      inner < u.scopes.size ∧ (∀ f b, s.function? f = some b → u.function? f = some b) ∧
      (u.scope inner).find? it.control = some { value := vs.getD 0 .nil } := by
  have hlasts : t.Lasts False u := Run.Confined.onward_of_ok (confined_runBlock
    (Evaluator.confined_withFuel False n) False.elim body fun _ _ => trivial) hblock
  refine ⟨(bind_of_ok hadvance).trans (bind_of_ok hblock), hlasts.lt_size (hsize ▸ hinner), ?_, ?_⟩
  · intro f b hf
    refine hlasts.retain.function _ _ ?_
    rw [Store.function?, hfunctions]
    exact hf
  · have hfirst : it.names[0]? = some it.control := by
      obtain ⟨x, xs, hnames⟩ := exists_cons_of_ne_nil hnamed
      rw [Iteration.control, hnames]
      rfl
    exact hcontrol.trans (hholds 0 _ hfirst)

theorem round_of_upcoming_nil (hit : it.Traverses id) (hs : it.IsAt inner key s)
    (hupcoming : upcoming (s.table id) key = []) (n scope : Nat) (body : Block) :
    ∃ t, declareValues inner it.names (Results.adjust [.one .nil] it.names.length) s = .ok () t ∧
      it.round (withFuel (n + 1)) scope inner body () s = .ok (.inr ()) t := by
  obtain ⟨t, hrun, -, -, -, -, hadvance⟩ := advance_of_upcoming hit hs n scope
  rw [hupcoming] at hrun hadvance
  exact ⟨t, hrun, bind_of_ok hadvance⟩

theorem round_of_upcoming_cons (hit : it.Traverses id) (hs : it.IsAt inner key s)
    (ht : Table.Traversable (s.table id).entries) (hupcoming : upcoming (s.table id) key = e :: later)
    (hbody : ∀ t, advance (withFuel (n + 1)) scope inner it s = .ok true t →
      EndsInPlace (withFuel (n + 1)) inner it.names id body t) :
    ∃ t r u, declareValues inner it.names (Results.adjust [.one e.1, .one e.2] it.names.length) s =
        .ok () t ∧ Holds t inner it.names [e.1, e.2] ∧
      runBlock (withFuel (n + 1)) inner body t = .ok r u ∧
      it.round (withFuel (n + 1)) scope inner body () s = .ok (.inl ()) u ∧
      it.IsAt inner e.1 u ∧ (u.table id).entries = (s.table id).entries := by
  obtain ⟨t, hrun, hholds, hsize, htables, hfunctions, hadvance⟩ :=
    advance_of_upcoming hit hs n scope
  have hkey : e.1.isNil = false :=
    Value.isNil_eq_false_iff.mpr (ht.not_nil e (mem_of_upcoming_cons hupcoming))
  rw [hupcoming] at hrun hholds hadvance
  simp only [given, headD_cons, hkey, Bool.not_false] at hadvance
  obtain ⟨r, u, hblock, hentries, hcontrol, hfree⟩ := hbody t hadvance
  obtain ⟨hround, hinner, hlibrary, hfirst⟩ :=
    round_of_values hs.scope hit.named hholds hsize hfunctions hadvance hblock hcontrol
  refine ⟨t, r, u, hrun, hholds, hblock, hround, ?_, ?_⟩
  · exact ⟨hinner, hlibrary _ _ hs.library, hfirst, fun x hx => hfree x hx (hholds.free hx)⟩
  · rw [hentries, Store.table, htables, ← Store.table]

/-- From a key on, a loop runs its body for all entries that the traversal comes to. The induction is
on these entries; before each, the rounds so far are those of the loop. -/
theorem loop_visits (hit : it.Traverses id) {s₀ : Store} {i fuel : Nat}
    (hbody : ∀ i s t,
      Rounds (it.round (withFuel (n + 1)) scope inner body) i () s₀ () s →
      i < n + 1 → advance (withFuel (n + 1)) scope inner it s = .ok true t →
      EndsInPlace (withFuel (n + 1)) inner it.names id body t)
    (hs : it.IsAt inner key s) (ht : Table.Traversable (s.table id).entries)
    (hupcoming : upcoming (s.table id) key = later)
    (hrounds :
      Rounds (it.round (withFuel (n + 1)) scope inner body) i () s₀ () s)
    (hi : i + later.length ≤ n) (hfuel : later.length < fuel) :
    ∃ t, Visits (withFuel (n + 1)) inner it.names body later s t ∧
      loop fuel (it.round (withFuel (n + 1)) scope inner body) () s = .ok () t := by
  obtain ⟨fuel, rfl⟩ := Nat.exists_eq_add_one.mpr (Nat.zero_lt_of_lt hfuel)
  induction later generalizing key s i fuel with
  | nil =>
    obtain ⟨t, hrun, hround⟩ := round_of_upcoming_nil hit hs hupcoming n scope body
    exact ⟨t, ⟨s, .done, hrun⟩, bind_of_ok hround⟩
  | cons e later ih =>
    rw [length_cons] at hi hfuel
    obtain ⟨t, r, u, hrun, hholds, hblock, hround, hu, hentries⟩ :=
      round_of_upcoming_cons hit hs ht hupcoming fun t => hbody i s t hrounds (by omega)
    obtain ⟨fuel, rfl⟩ := Nat.exists_eq_add_one.mpr (show 0 < fuel by omega)
    have hnext : upcoming (u.table id) e.1 = later := by
      rw [upcoming, hentries, ← upcoming]
      exact upcoming_next ht hupcoming
    obtain ⟨v, ⟨w, hruns, hdone⟩, hloop⟩ := ih hu (hentries ▸ ht) hnext (hrounds.concat hround)
      (by omega) fuel (by omega)
    exact ⟨v, ⟨w, .next hrun hholds hblock hruns, hdone⟩, (bind_of_ok hround).trans hloop⟩

end

/-! ## Heads -/

/-- The head of a loop is a call of a function of the library with a table, and another one makes the
steps. The names of the head, which are different from each other, are declared in the new scope;
then the function and the table are evaluated, which leaves that scope as it is. -/
inductive CallsBuiltin (b step : Builtin) (k : Evaluator) (scope : Nat) (names : List Name)
    (callee : Expr) (args : List Expr) (s : Store) (inner : Nat) (xs : List Bytes) (id : Nat)
    (w : Store) : Prop
  | intro {f : Nat} {rs : List Results} {t u v : Store} :
      pushScope scope s = .ok inner t → names.mapM nameString t = .ok xs t → xs ≠ [] → xs.Nodup →
      declareValues inner xs (List.replicate xs.length .nil) t = .ok () u →
      single k scope callee u = .ok (.func f) v → each k scope args v = .ok rs w →
      Results.flatten rs = [.table id] → w.scope inner = u.scope inner →
      w.function? f = some (.ofBuiltin b) → w.function? step.number = some (.ofBuiltin step) →
      CallsBuiltin b step k scope names callee args s inner xs id w

abbrev CallsPairs := CallsBuiltin .pairs .next

section

variable {n scope inner id f : Nat} {callee : Expr} {args : List Expr} {names : List Name}
  {xs : List Bytes} {rs : List Results} {s u v w : Store}

theorem call_pairs (hf : w.function? f = some (.ofBuiltin .pairs))
    (hrs : Results.flatten rs = [.table id]) (hmetatable : (w.table id).metatable = none) :
    (withFuel (n + 1)).call (.func f) rs (some scope) false w =
      .ok (.ofList [.func next.number, .table id, .nil]) w := by
  refine call_builtin_of_ok hf ?_
  rw [hrs]
  exact bind_of_ok (metavalue?_of_metatable_eq_none hmetatable _)

theorem expr_of_call (place : Place) {r : Results}
    (hcallee : single (withFuel n) scope callee u = .ok (.func f) v)
    (hargs : each (withFuel n) scope args v = .ok rs w)
    (hcall : ∀ m, (withFuel (m + 1)).call (.func f) rs (some scope) false w = .ok r w) :
    (withFuel (n + 1)).expr scope (.mk place (.call callee args)) u = .ok r w := by
  cases n with
  | zero =>
    obtain ⟨place, form⟩ := callee
    cases form <;> cases hcallee
  | succ n =>
    refine traced_eq_ok_iff.mpr ?_
    refine (bind_of_ok hcallee).trans ((bind_of_ok hargs).trans ?_)
    exact handle_of_ok (hcall n)

/-- The names of a head are declared in the new scope; then its expression gives an iterator, a
state and the first value of the first variable, and leaves that scope as it is. -/
theorem forInHead_of_expr {e : Expr} {t : Store} {iterator state control : Value}
    (hpush : pushScope scope s = .ok inner t) (hnames : names.mapM nameString t = .ok xs t)
    (hnamed : xs ≠ []) (hdistinct : xs.Nodup)
    (hdeclare : declareValues inner xs (List.replicate xs.length .nil) t = .ok () u)
    (hexpr : (withFuel n).expr scope e u = .ok (.ofList [iterator, state, control]) w)
    (hscope : w.scope inner = u.scope inner) :
    ∃ v, forInHead (withFuel n) scope inner names [e] t = .ok ⟨xs, iterator, state, .nil⟩ v ∧
      inner < v.scopes.size ∧ (v.scope inner).find? (xs.headD []) = some { value := control } ∧
      (∀ x ∈ xs, Free v inner x) ∧ v.tables = w.tables ∧ v.functions = w.functions := by
  have hinner := lt_size_of_parent_eq_some (congrArg Scope.parent (scope_of_pushScope hpush))
  obtain ⟨u', hdeclare', hholds, -⟩ := declareValues_of_free hinner hdistinct
    (fun x _ => free_of_pushScope hpush) (length_replicate (a := .nil) (n := xs.length))
  cases hdeclare.symm.trans hdeclare'
  have hholds' : Holds w inner xs (List.replicate xs.length .nil) := by
    intro i x hx
    rw [hscope]
    exact hholds i x hx
  have heach : each (withFuel n) scope [e] u = .ok [.ofList [iterator, state, control]] w :=
    bind_of_ok hexpr
  obtain ⟨x, rest, rfl⟩ := exists_cons_of_ne_nil hnamed
  have hcontrol := declare_of_variable (v := { value := control })
    (hholds'.free (x := x) mem_cons_self)
  have hlt : inner < w.scopes.size := lt_size_of_find?_eq_some (hholds' 0 x rfl)
  have hset (y : Bytes) := find?_setVariable hlt inner x y { value := control }
  refine ⟨w.setVariable inner x { value := control }, ?_, ?_, (hset x).trans (if_pos ⟨rfl, rfl⟩),
    fun y hy => ?_, rfl, rfl⟩
  · refine (bind_of_ok hnames).trans ((bind_of_ok hdeclare).trans ?_)
    exact (bind_of_ok heach).trans (bind_of_ok hcontrol)
  · rw [(sameShape_setVariable w inner x { value := control }).size]
    exact hlt
  · intro v hv
    rw [hset y] at hv
    split at hv
    · cases hv
      rfl
    · exact hholds'.free hy v hv

theorem forInHead_of_callsBuiltin {b step : Builtin} {control : Value}
    (h : CallsBuiltin b step (withFuel n) scope names callee args s inner xs id w)
    (hcall : ∀ m f rs, w.function? f = some (.ofBuiltin b) → Results.flatten rs = [.table id] →
      (withFuel (m + 1)).call (.func f) rs (some scope) false w =
        .ok (.ofList [.func step.number, .table id, control]) w) (place : Place) :
    ∃ t v, pushScope scope s = .ok inner t ∧
      forInHead (withFuel (n + 1)) scope inner names [.mk place (.call callee args)] t =
        .ok ⟨xs, .func step.number, .table id, .nil⟩ v ∧ inner < v.scopes.size ∧
      v.function? step.number = some (.ofBuiltin step) ∧
      (v.scope inner).find? (xs.headD []) = some { value := control } ∧
      (∀ x ∈ xs, Free v inner x) ∧ v.table id = w.table id := by
  obtain @⟨f, rs, t, u, v, hpush, hnames, hnamed, hdistinct, hdeclare, hcallee, hargs, hrs, hscope,
    hf, hstep⟩ := h
  obtain ⟨v', hin, hinner, hcontrol, hfree, htables, hfunctions⟩ := forInHead_of_expr hpush hnames
    hnamed hdistinct hdeclare (expr_of_call place hcallee hargs fun m => hcall m f rs hf hrs) hscope
  refine ⟨t, v', hpush, hin, hinner, ?_, hcontrol, hfree, ?_⟩
  · rw [Store.function?, hfunctions]
    exact hstep
  · rw [Store.table, htables, ← Store.table]

section

variable {st : Stat} {exprs : List Expr} {body : Block} {it : Iteration} {t : Store}
  (hform : st.form = .forIn names exprs body) (hpush : pushScope scope s = .ok inner t)
  (hin : forInHead (withFuel (n + 1)) scope inner names exprs t = .ok it u)

include hform hpush hin

theorem stat_of_loop (hclosing : it.closing = .nil)
    (hloop : loop (n + 1) (it.round (withFuel (n + 1)) scope inner body) () u = .ok () v) :
    (withFuel (n + 2)).stat scope st s = .ok none v := by
  have hforIn : forInLoop (withFuel (n + 1)) scope names exprs body s = .ok () v := by
    refine breakable_of_ok ((bind_of_ok hpush).trans ((bind_of_ok hin).trans ?_))
    refine (bind_of_ok hloop).trans ?_
    rw [hclosing]
    rfl
  show statement (withFuel (n + 1)) scope st s = .ok none v
  rw [statement, hform]
  exact traced_eq_ok_iff.mpr (bind_of_ok hforIn)

theorem stat_of_loop_error {e : LuaError}
    (hloop : loop (n + 1) (it.round (withFuel (n + 1)) scope inner body) () u =
      .error (.error e) v) :
    ∃ trace, (withFuel (n + 2)).stat scope st s = .error (.error { e with trace }) v := by
  have hforIn : forInLoop (withFuel (n + 1)) scope names exprs body s = .error (.error e) v := by
    refine tryCatch_of_error (e := .error e) ?_
    exact (bind_of_ok hpush).trans ((bind_of_ok hin).trans (bind_of_error hloop))
  show ∃ trace, statement (withFuel (n + 1)) scope st s = .error (.error { e with trace }) v
  rw [statement, hform]
  exact traced_of_error (bind_of_error hforIn)

end

/-- A loop over `pairs(t)` runs its body for the entries that a traversal of the table comes to, and
then it ends. -/
theorem statement_visits {st : Stat} {place : Place} {body : Block}
    (hform : st.form = .forIn names [.mk place (.call callee args)] body)
    (hhead : CallsPairs (withFuel n) scope names callee args s inner xs id w)
    (hmetatable : (w.table id).metatable = none) (ht : Table.Traversable (w.table id).entries)
    (hbody : KeepsPlace (withFuel (n + 1)) scope st.form xs id s)
    (hfuel : (w.table id).visited.length ≤ n) :
    ∃ u v, Visits (withFuel (n + 1)) inner xs body (w.table id).visited u v ∧
      (withFuel (n + 2)).stat scope st s = .ok none v := by
  obtain ⟨t, u, hpush, hin, hinner, hnext, hcontrol, hfree, htable⟩ := forInHead_of_callsBuiltin hhead
    (fun _ _ _ hf hrs => call_pairs hf hrs hmetatable) place
  obtain ⟨-, -, hnamed, hdistinct, -⟩ := hhead
  have hstarts : Starts (withFuel (n + 1)) scope st.form s inner body
      (.guarded (advance (withFuel (n + 1)) scope inner ⟨xs, .func next.number, .table id, .nil⟩)) u :=
    hform ▸ .inForIn hpush hin
  rw [← htable] at ht hfuel ⊢
  obtain ⟨v, hvisits, hloop⟩ := loop_visits ⟨rfl, rfl, rfl, hnamed, hdistinct⟩
    (fun i s' t' hrounds hi hadvance => hbody i inner body t' (.intro hstarts hrounds hi hadvance))
    ⟨hinner, hnext, hcontrol, hfree⟩ ht (upcoming_nil _) .zero (Nat.zero_add _ ▸ hfuel)
    (Nat.lt_succ_of_le hfuel)
  exact ⟨u, v, hvisits, stat_of_loop hform hpush hin rfl hloop⟩

end

/-! ## Tables -/

/-- A loop over `pairs(t)` comes to every field of the table that is set, once and in order, but
first of all to the very first entry, even if that has been set to `nil`. Let the table be made by
any writes under keys that are neither `nil` nor NaN, and let the body of the loop leave the table
and the first variable of the loop alone. Then the body is run for the fields that are set exactly
if the first entry is one of them, and otherwise once more before them, with `nil` for the value.
For the same reason `next(t)` gives `nil` exactly if nothing has ever been set in the table; this
differs from there being no field that is set if all fields have been set to `nil` again. -/
theorem pairs_loop_always_visits_first_entry {n scope inner id : Nat} {st : Stat} {place : Place}
    {names : List Name} {callee : Expr} {args : List Expr} {body : Block} {xs : List Bytes}
    {h : List (Value × Value)} {s w : Store}
    (hform : st.form = .forIn names [.mk place (.call callee args)] body)
    (hhead : CallsPairs (withFuel n) scope names callee args s inner xs id w)
    (htable : w.table id = Table.ofPairs h) (hkeys : ∀ p ∈ h, p.1.IsPlainKey ∧ p.1 ≠ .nil)
    (hbody : KeepsPlace (withFuel (n + 1)) scope st.form xs id s) :
    ((∀ e ∈ (w.table id).fields, (w.table id).get e.1 = e.2 ∧ e.2 ≠ .nil) ∧
      ∀ k, (w.table id).get k ≠ .nil → (w.table id).fields.countP (·.1.rawEq k) = 1) ∧
    ((w.table id).visited.length ≤ n → ∃ u v,
      Visits (withFuel (n + 1)) inner xs body (w.table id).visited u v ∧
      (withFuel (n + 2)).stat scope st s = .ok none v) ∧
    ((w.table id).visited = (w.table id).fields ↔ ∀ e ∈ (w.table id).entries.head?, e.2 ≠ .nil) ∧
    ∀ m caller traced, ∃ r,
      (withFuel (m + 1)).call (.func Builtin.next.number) [.one (.table id)] caller traced w =
        .ok r w ∧
      (r.single = .nil ↔ (w.table id).entries = []) ∧
      ((r.single = .nil ↔ (w.table id).fields = []) ↔
        ((w.table id).fields = [] → (w.table id).entries = [])) := by
  have ht : Table.Traversable (w.table id).entries := htable ▸ traversable_ofPairs hkeys
  have hmetatable : (w.table id).metatable = none := htable ▸ metatable_ofPairs h
  refine ⟨⟨fun e he => ?_, fun k => countP_fields ht.toHasPlainKeys⟩,
    statement_visits hform hhead hmetatable ht hbody, visited_eq_fields_iff,
    fun m caller traced => ?_⟩
  · obtain ⟨hmem, hset⟩ := Table.mem_fields.mp he
    exact ⟨get_key_of_mem ht.toHasPlainKeys hmem, hset⟩
  · have hnext := next_nil_eq_nil_iff ht
    obtain ⟨-, -, -, -, -, -, -, -, -, -, hlibrary⟩ := hhead
    have hnone (hempty : (w.table id).entries = []) : (w.table id).fields = [] := by
      rw [Table.fields, hempty]
      rfl
    refine ⟨_, call_builtin_of_ok hlibrary rfl, hnext, fun hright hfields => ?_, fun hempty => ?_⟩
    · exact hnext.mp (hright.mpr hfields)
    · exact hnext.trans ⟨hnone, hempty⟩

/-- The field `a` is set and set to `nil` again after `b` has been set. -/
def clearingHistory : List (Value × Value) :=
  [(.str [97], .int 1), (.str [98], .int 2), (.str [97], .nil)]

/-- A session with a function of the library, and a table `t`. -/
def storeFor (b : Builtin) (table : Table) : Store :=
  { tables := #[{}, table], functions := (all.map Function.ofBuiltin).toArray
    scopes :=
      #[{ session := 0, parent := none
          locals := [(ofAscii b.profile.name, { value := .func b.number }),
            (ofAscii "t", { value := .table 1 })] }]
    sessions := #[{ globals := 0, root := 0 }] }

def clearedStore : Store := storeFor .pairs (Table.ofPairs clearingHistory)

def writtenName (text : String) : Name := { lexeme := { text } }

/-- The head `f(t)`. -/
def callWithT (f : String) : Expr :=
  .mk {} (.call (.mk {} (.variable (writtenName f))) [.mk {} (.variable (writtenName "t"))])

/-- The loop `for k, v in pairs(t) do end`. -/
def clearedLoop : Stat :=
  .mk {} (.forIn [writtenName "k", writtenName "v"] [callWithT "pairs"] (.mk {} [] none))

/-- The loop comes to the cleared field `a`, though `b` is the only field that is set. -/
theorem clearedLoop_visits_two_entries : ∃ u v,
    Visits (withFuel 3) 1 [Bytes.ofAscii "k", Bytes.ofAscii "v"] (.mk {} [] none)
      [(.str [97], .nil), (.str [98], .int 2)] u v ∧
    (withFuel 4).stat 0 clearedLoop clearedStore = .ok none v ∧
    (clearedStore.table 1).fields = [(.str [98], .int 2)] := by
  have hhead : CallsPairs (withFuel 2) 0 [writtenName "k", writtenName "v"]
      (.mk {} (.variable (writtenName "pairs"))) [.mk {} (.variable (writtenName "t"))] clearedStore
      1 [ofAscii "k", ofAscii "v"] 1 _ :=
    .intro rfl rfl (by decide) (by decide) rfl rfl rfl rfl rfl rfl rfl
  have hkeys : ∀ p ∈ clearingHistory, p.1.IsPlainKey ∧ p.1 ≠ .nil := by
    simp [clearingHistory, Value.IsPlainKey]
  have hbody : KeepsPlace (withFuel 3) 0 clearedLoop.form
      [ofAscii "k", ofAscii "v"] 1 clearedStore := by
    intro i inner body t hiterates
    obtain ⟨hstarts, -, -, -⟩ := hiterates
    cases hstarts
    exact ⟨_, t, rfl, rfl, rfl, fun _ _ => id⟩
  obtain ⟨-, hloop, -, -⟩ := pairs_loop_always_visits_first_entry rfl hhead rfl hkeys hbody
  obtain ⟨u, v, hvisits, hstat⟩ := hloop (by decide)
  exact ⟨u, v, hvisits, hstat, rfl⟩

end Eval

end LuaInterpreter
