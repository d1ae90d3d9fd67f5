import LuaInterpreter.Proofs.Constants
import Mathlib.Data.List.Forall2

/-!
# Assignments to several targets

An assignment evaluates its values first, but where a target leads is made out when its turn comes,
after the values before it have been stored. So a store can turn a later target away from the place
that it led to at first.
-/

namespace LuaInterpreter

open Run Store Index Bytes Results

open Evaluator (withFuel)

def ExprForm.literal? : ExprForm → Option (Except Fault Value)
  | .litNil => some (.ok .nil)
  | .litTrue => some (.ok (.bool true))
  | .litFalse => some (.ok (.bool false))
  | .numeral n => some (n.value.map .num)
  | .string t => some ((Literal.value t.text).map .str)
  | .fieldName bs => some (.ok (.str bs))
  | _ => none

namespace Eval

/-! ## Locations -/

/-- Where a value can be stored: under a name, or in a table. -/
inductive Location where
  | name (x : Bytes)
  | field (table : Nat) (key : Value)

def Location.put (scope : Nat) (value : Value) : Location → Run Unit
  | .name x => assign scope x value
  | .field table key => rawPut (.table table) key value

def putAll (scope : Nat) : List Location → List Value → Run Unit
  | loc :: locs, v :: vs => do
    loc.put scope v
    putAll scope locs vs
  | _, _ => pure ()

/-- A target leads to a location: it is a name, or its parts evaluate to a table without metatable
and a key, and change nothing. -/
inductive Leads (k : Evaluator) (scope : Nat) (s : Store) (target : Expr) : Location → Prop
  | name {n : Name} {x : Bytes} :
      target.form = .variable n → encodeAscii? n.text = .ok x →
      Leads k scope s target (.name x)
  | field {b i : Expr} {id : Nat} {key : Value} :
      target.form = .index b i → single k scope b s = .ok (.table id) s →
      single k scope i s = .ok key s → (s.table id).metatable = none →
      Leads k scope s target (.field id key)

/-- The values are stored one after the other, each where its target leads at its turn. -/
inductive Performs (k : Evaluator) (scope : Nat) :
    List Expr → List Value → Store → List Location → Store → Prop
  | done {s : Store} : Performs k scope [] [] s [] s
  | next {target : Expr} {targets : List Expr} {v : Value} {vs : List Value} {loc : Location}
      {locs : List Location} {s t u : Store} :
      Leads k scope s target loc → loc.put scope v s = .ok () t →
      Performs k scope targets vs t locs u →
      Performs k scope (target :: targets) (v :: vs) s (loc :: locs) u

section

variable {k : Evaluator} {scope : Nat} {s t : Store} {target : Expr} {loc : Location}

section

variable {id : Nat} (h : (s.table id).metatable = none)
include h

theorem metatable_of_eq_none (operation : String) :
    metatable (.table id) operation s = .ok .nil s := by
  rw [metatable, get_bind_apply, h]
  rfl

theorem metavalue?_of_metatable_eq_none (name : String) :
    metavalue? (.table id) name s = .ok none s :=
  bind_of_ok (metatable_of_eq_none h _)

variable (call : Caller) (key : Value)

theorem write_of_metatable_eq_none (v : Value) :
    write call (.table id) key v s = rawPut (.table id) key v s := by
  rw [write, get_bind_apply, chainFuel, follow,
    bind_of_ok (metavalue?_of_metatable_eq_none h _)]
  rfl

theorem read_of_metatable_eq_none :
    read call (.table id) key s = rawGet (.table id) key s := by
  rw [Index.read, get_bind_apply, chainFuel, follow,
    bind_of_ok (metavalue?_of_metatable_eq_none h _)]
  rfl

end

theorem assignTo_of_leads (h : Leads k scope s target loc) (v : Value) :
    assignTo k scope target v s = loc.put scope v s := by
  cases h with
  | name hform hname =>
    simp only [assignTo, hform]
    rw [bind_of_ok (nameString_eq_ok_iff.mpr ⟨hname, rfl⟩)]
    rfl
  | field hform hbase hkey hmetatable =>
    simp only [assignTo, hform]
    rw [bind_of_ok hbase]
    exact (bind_of_ok hkey).trans (write_of_metatable_eq_none hmetatable k.call _ v)

theorem assignTo_of_not_indexable {b i : Expr} {base : Value} (hform : target.form = .index b i)
    (hbase : single k scope b s = .ok base s) (hindex : isIndexable base = false) :
    ∃ e, ∀ v, assignTo k scope target v s = .error e s := by
  have herror (text : String) : ∃ e, (error text : Run Unit) s = .error e s := by
    rw [error]
    cases asciiMessage text with
    | ok message => exact ⟨_, bind_of_ok (pure_apply message)⟩
    | error f => exact ⟨_, bind_of_error (fault_apply f)⟩
  have hassign (v : Value) : assignTo k scope target v s =
      (do error ("attempt to index " ++ (← typeName base) ++ " value") : Run Unit) s := by
    simp only [assignTo, hform]
    rw [bind_of_ok hbase, hindex]
    rfl
  cases hname : base.typeName? with
  | ok name =>
    obtain ⟨e, he⟩ := herror ("attempt to index " ++ name ++ " value")
    have htypeName : typeName base s = .ok name s := by
      rw [typeName, hname]
      rfl
    exact ⟨e, fun v => (hassign v).trans ((bind_of_ok htypeName).trans he)⟩
  | error f =>
    have htypeName : typeName base s = .error (.fault f) s := by
      rw [typeName, hname]
      rfl
    exact ⟨_, fun v => (hassign v).trans (bind_of_error htypeName)⟩

theorem Performs.assignAll {targets : List Expr} {values : List Value} {locs : List Location}
    (h : Performs k scope targets values s locs t) :
    assignAll k scope targets values s = .ok () t ∧ putAll scope locs values s = .ok () t := by
  induction h with
  | done => exact ⟨rfl, rfl⟩
  | next hleads hput _ ih =>
    exact ⟨(bind_of_ok ((assignTo_of_leads hleads _).trans hput)).trans ih.1,
      (bind_of_ok hput).trans ih.2⟩

end

/-! ## Parts that stores do not change -/

/-- A literal, or a name that leads to a local variable and is not stored under. -/
inductive Steady (s : Store) (scope : Nat) (stored : Bytes → Prop) (e : Expr) : Prop
  | literal {value : Except Fault Value} : e.form.literal? = some value → Steady s scope stored e
  | name {n : Name} {x : Bytes} {owner : Nat} :
      e.form = .variable n → encodeAscii? n.text = .ok x → s.Resolves x scope (some owner) →
      ¬stored x → Steady s scope stored e

/-- A name, or a field whose table and key are given by such expressions. -/
inductive Settled (s : Store) (scope : Nat) (stored : Bytes → Prop) (target : Expr) : Prop
  | name {n : Name} : target.form = .variable n → Settled s scope stored target
  | field {b i : Expr} :
      target.form = .index b i → Steady s scope stored b → Steady s scope stored i →
      Settled s scope stored target

/-- A store after values have been stored, as names only under some. -/
structure Apart (stored : Bytes → Prop) (s t : Store) : Prop where
  wellFormed : s.WellFormed → t.WellFormed
  parent : ∀ id, (t.scope id).parent = (s.scope id).parent
  find? : ∀ id x, ¬stored x → (t.scope id).find? x = (s.scope id).find? x
  metatable : ∀ id, (t.table id).metatable = (s.table id).metatable

section

variable {k : Evaluator} {scope : Nat} {s t u : Store} {stored : Bytes → Prop}

theorem Apart.refl (s : Store) : Apart stored s s :=
  ⟨id, fun _ => rfl, fun _ _ _ => rfl, fun _ => rfl⟩

theorem Apart.trans (hst : Apart stored s t) (htu : Apart stored t u) : Apart stored s u where
  wellFormed := fun hs => htu.wellFormed (hst.wellFormed hs)
  parent := fun id => (htu.parent id).trans (hst.parent id)
  find? := fun id x hx => (htu.find? id x hx).trans (hst.find? id x hx)
  metatable := fun id => (htu.metatable id).trans (hst.metatable id)

/-! ### One store -/

theorem apart_putTable (s : Store) (id : Nat) (key v : Value) :
    Apart stored s { s with tables := s.tables.modify id fun t => t.put key v } where
  wellFormed := fun hs => hs.of_sameShape
    (aside_modifyTable s id fun t ht => (t.metatable_put key v).symm ▸ ht).toSameShape
  parent := fun _ => rfl
  find? := fun _ _ _ => rfl
  metatable := by
    intro i
    simp only [Store.table, Array.getD_eq_getD_getElem?, Array.getElem?_modify]
    cases s.tables[i]? with
    | none => split <;> rfl
    | some t =>
      split
      · exact t.metatable_put key v
      · rfl

theorem apart_setVariable (owner : Nat) {x : Bytes} (v : Variable) (hx : stored x) :
    Apart stored s (s.setVariable owner x v) where
  wellFormed := fun hs => hs.of_sameShape (sameShape_setVariable s owner x v)
  parent := fun id => parent_setVariable s owner id x v
  find? := by
    intro id y hy
    have hne : y ≠ x := fun h => hy (h ▸ hx)
    rw [scope_setVariable]
    split
    · exact (Scope.lookup_setLocal x y v _).trans (if_neg hne)
    · rfl
  metatable := fun _ => rfl

variable {loc : Location} {v : Value} {e : Expr} {n : Nat}

theorem Location.put_apart (hs : s.WellFormed) (hstored : ∀ x, loc = .name x → stored x)
    (h : loc.put scope v s = .ok () t) : Apart stored s t := by
  cases loc with
  | name x =>
    have hresolves := resolves_owner? hs x scope
    cases howner : s.owner? scope x with
    | none =>
      rw [howner] at hresolves
      cases (assign_of_none hs hresolves).symm.trans h
      exact apart_putTable s _ _ v
    | some owner =>
      rw [howner] at hresolves
      obtain ⟨old, hold⟩ := hresolves.declared
      cases hconstant : old.constant with
      | true => cases (assign_of_constant hs ⟨owner, old, hresolves, hold, hconstant⟩).symm.trans h
      | false =>
        cases (assign_of_variable hs hresolves hold hconstant).symm.trans h
        exact apart_setVariable owner _ (hstored x rfl)
  | field table key =>
    obtain ⟨_, _, hkey, hmodify⟩ := bind_eq_ok_iff.mp h
    rw [requireKey] at hkey
    split at hkey
    · cases hkey
      cases hmodify
      exact apart_putTable s table key v
    · cases hkey

/-! ### Targets after stores -/

theorem form_of_literal {f : ExprForm} {value : Except Fault Value} (h : f.literal? = some value)
    (run : Nat → Block → Run Results) (place : Place) :
    form k run scope place f = (do return .one (← ofExcept value)) := by
  cases f with
  | litNil | litTrue | litFalse | fieldName =>
    cases h
    rfl
  | numeral n =>
    cases h
    rw [form]
    cases n.value <;> rfl
  | string t =>
    cases h
    rw [form]
    cases Literal.value t.text <;> rfl
  | _ => cases h

theorem Apart.getName (hst : Apart stored s t) (hs : s.WellFormed) {x : Bytes} {owner : Nat}
    (hresolves : s.Resolves x scope (some owner)) (hx : ¬stored x) :
    t.getName scope x = s.getName scope x := by
  obtain ⟨v, hv⟩ := hresolves.declared
  have hresolves' : t.Resolves x scope (some owner) :=
    hresolves.of_agree hst.parent fun id => by rw [hst.find? id x hx]
  rw [getName_of_some hs hresolves hv, getName_of_some (hst.wellFormed hs) hresolves'
    ((hst.find? owner x hx).trans hv)]

theorem Steady.expression (he : Steady s scope stored e) (hs : s.WellFormed)
    (hst : Apart stored s t) {r : Results} (h : expression k scope e s = .ok r s) :
    Eval.expression k scope e t = .ok r t := by
  obtain ⟨place, f⟩ := e
  cases he with
  | @literal value hform =>
    have hvalue (u : Store) : Eval.expression k scope (.mk place f) u = .ok r u ↔
        (do return .one (← ofExcept value) : Run Results) u = .ok r u := by
      rw [← form_of_literal hform (innerValue k) place]
      cases f with
      | alien kind => cases hform
      | _ => exact traced_eq_ok_iff
    rw [hvalue] at h ⊢
    cases value with
    | ok v =>
      cases h
      rfl
    | error e => cases h
  | @name n x owner hform hname hresolves hfree =>
    cases hform
    have hstring (u : Store) : nameString n u = .ok x u := nameString_eq_ok_iff.mpr ⟨hname, rfl⟩
    refine traced_eq_ok_iff.mpr ((bind_of_ok (hstring t)).trans ?_)
    cases (bind_of_ok (hstring s)).symm.trans (traced_eq_ok_iff.mp h)
    rw [get_bind_apply, hst.getName hs hresolves hfree]
    rfl

theorem Steady.single (he : Steady s scope stored e) (hs : s.WellFormed) (hst : Apart stored s t)
    (h : single (withFuel n) scope e s = .ok v s) :
    Eval.single (withFuel n) scope e t = .ok v t := by
  have hexpr : Eval.single (withFuel n) scope e =
      (do return (← (withFuel n).expr scope e).single) := by
    rw [Eval.single]
    split
    · next kind halien =>
      cases he with
      | literal hform => simp [halien, ExprForm.literal?] at hform
      | name hform => cases halien.symm.trans hform
    · rfl
  rw [hexpr] at h ⊢
  cases n with
  | zero => cases h
  | succ n =>
    obtain ⟨r, u, hr, hpure⟩ := bind_eq_ok_iff.mp h
    cases hpure
    exact bind_of_ok (he.expression hs hst hr)

theorem Leads.of_apart {target : Expr} (h : Leads (withFuel n) scope s target loc)
    (htarget : Settled s scope stored target) (hs : s.WellFormed) (hst : Apart stored s t) :
    Leads (withFuel n) scope t target loc := by
  cases h with
  | name hform hname => exact .name hform hname
  | @field b i id key hform hbase hkey hmetatable =>
    cases htarget with
    | name hform' => cases hform.symm.trans hform'
    | field hform' hb hi =>
      cases hform.symm.trans hform'
      exact .field hform (hb.single hs hst hbase) (hi.single hs hst hkey)
        ((hst.metatable id).trans hmetatable)

/-- The values go where the targets led at first if all targets are settled. -/
theorem assignAll_of_settled {targets : List Expr} {locs : List Location} (values : List Value)
    (hs : s.WellFormed) (hleads : List.Forall₂ (Leads (withFuel n) scope s) targets locs)
    (htargets : ∀ target ∈ targets, Settled s scope stored target)
    (hstored : ∀ x, .name x ∈ locs → stored x) (hst : Apart stored s t) :
    assignAll (withFuel n) scope targets values t = putAll scope locs values t := by
  -- The targets lead on `s`, where the assignment started; `t` is where it has got to.
  induction hleads generalizing values t with
  | nil => rfl
  | @cons target loc targets locs hlead _ ih =>
    cases values with
    | nil => rfl
    | cons v values =>
      obtain ⟨htarget, hrest⟩ := List.forall_mem_cons.mp htargets
      have hassign := assignTo_of_leads (hlead.of_apart htarget hs hst) v
      cases hput : loc.put scope v t with
      | error e u =>
        rw [assignAll, putAll, bind_of_error (hassign.trans hput), bind_of_error hput]
      | ok _ u =>
        have happart := Location.put_apart (hst.wellFormed hs)
          (fun x hx => hstored x (hx ▸ List.mem_cons_self)) hput
        have hothers := ih values hrest (fun x hx => hstored x (List.mem_cons_of_mem _ hx))
          (hst.trans happart)
        rw [assignAll, putAll, bind_of_ok (hassign.trans hput), bind_of_ok hput]
        exact hothers

end

/-! ## The statement -/

section

variable {k : Evaluator} {scope : Nat} {st : Stat} {exprs : List Expr} {rs : List Results}
  {s t u : Store}

theorem statement_assign_eq_ok_iff {targets : List Expr} (hform : st.form = .assign targets exprs)
    (hexprs : each k scope exprs s = .ok rs u) :
    statement k scope st s = .ok (some (.ofList (adjust rs targets.length))) t ↔
      assignAll k scope targets (adjust rs targets.length) u = .ok () t := by
  simp only [statement, hform]
  rw [traced_eq_ok_iff, statForm, bind_of_ok hexprs]
  constructor
  · intro h
    obtain ⟨_, _, hassign, hpure⟩ := bind_eq_ok_iff.mp h
    cases hpure
    exact hassign
  · intro h
    exact bind_of_ok h

theorem statement_assign_of_error {before after : List Expr} {target : Expr} {e : Signal}
    (hform : st.form = .assign (before ++ target :: after) exprs)
    (hexprs : each k scope exprs s = .ok rs s)
    (hbefore : assignAll k scope before
      ((adjust rs (before ++ target :: after).length).take before.length) s = .ok () u)
    (htarget : ∀ v, assignTo k scope target v u = .error e u) :
    ∃ e, statement k scope st s = .error e u := by
  simp only [statement, hform]
  refine traced_eq_error (e := e) ?_
  rw [statForm, bind_of_ok hexprs]
  exact bind_of_error (assignAll_of_error (length_adjust rs _) hbefore htarget)

end

/-- An assignment finds out where a target leads when its turn comes. Let the values and the targets
of an assignment be evaluated without an error and without a change on a store, where the targets
are names and fields of tables without metatables. The adjusted values are stored from left to
right, each where its target leads on the store as it is then. So the assignment ends with the
stores at the locations of the beginning if every target still leads there at its turn, and it fails
if at its turn a target has nothing to index. All targets still lead there if they are settled: the
table and the key of a field are given by literals, or by names of local variables that the
assignment does not store under. -/
theorem targets_lead_in_turn {n scope : Nat} {st : Stat} {targets exprs : List Expr}
    {rs : List Results} {values : List Value} {locs : List Location} {s : Store} (hs : s.WellFormed)
    (hform : st.form = .assign targets exprs) (hexprs : each (withFuel n) scope exprs s = .ok rs s)
    (hvalues : values = Results.adjust rs targets.length)
    (hleads : List.Forall₂ (Leads (withFuel n) scope s) targets locs) :
    (∀ locs' t, Performs (withFuel n) scope targets values s locs' t →
      statement (withFuel n) scope st s = .ok (some (.ofList values)) t ∧
      putAll scope locs' values s = .ok () t) ∧
    (∀ before target after b i base locs' u, targets = before ++ target :: after →
      Performs (withFuel n) scope before (values.take before.length) s locs' u →
      target.form = .index b i → single (withFuel n) scope b u = .ok base u →
      isIndexable base = false → ∃ e, statement (withFuel n) scope st s = .error e u) ∧
    ((∀ target ∈ targets, Settled s scope (fun x => .name x ∈ locs) target) →
      ∀ t, statement (withFuel n) scope st s = .ok (some (.ofList values)) t ↔
        putAll scope locs values s = .ok () t) := by
  subst hvalues
  refine ⟨fun locs' t hperforms => ?_, ?_, fun htargets t => ?_⟩
  · obtain ⟨hassign, hput⟩ := hperforms.assignAll
    exact ⟨(statement_assign_eq_ok_iff hform hexprs).mpr hassign, hput⟩
  · rintro before target after b i base locs' u rfl hperforms htarget hbase hindex
    obtain ⟨e, he⟩ := assignTo_of_not_indexable htarget hbase hindex
    exact statement_assign_of_error hform hexprs hperforms.assignAll.1 he
  · rw [statement_assign_eq_ok_iff hform hexprs,
      assignAll_of_settled _ hs hleads htargets (fun _ => id) (.refl s)]

def indexI : Expr := .mk {} (.variable { lexeme := { text := "i" } })

/-- The targets `i` and `t[i]`. -/
def indexedTargets : List Expr :=
  [indexI, .mk {} (.index (.mk {} (.variable { lexeme := { text := "t" } })) indexI)]

/-- The statement `i, t[i] = true, true`. -/
def indexedAssignment : Stat :=
  .mk {} (.assign indexedTargets [.mk {} .litTrue, .mk {} .litTrue])

/-- A session with the local variables `i`, which is `false`, and `t`, an empty table. -/
def indexedStore : Store :=
  { tables := #[{}, {}]
    scopes := #[{ session := 0, parent := none
                  locals := [(ofAscii "i", { value := .bool false }),
                    (ofAscii "t", { value := .table 1 })] }]
    sessions := #[{ globals := 0, root := 0 }] }

theorem wellFormed_indexedStore : indexedStore.WellFormed where
  inhabited := by decide
  parent := by
    intro id p hp
    match id with
    | 0 | _ + 1 => cases hp
  session := by decide
  root := by decide
  globals := by decide
  function := by
    intro f hf
    exact absurd hf (Array.not_mem_empty f)

/-- The second value is stored in the table under `true`, where the second target leads once `i` has
been assigned, and not under `false`, where it led at first. -/
theorem indexedAssignment_turns_away :
    List.Forall₂ (Leads (withFuel 2) 0 indexedStore) indexedTargets
      [.name (Bytes.ofAscii "i"), .field 1 (.bool false)] ∧
    ∃ r t, statement (withFuel 2) 0 indexedAssignment indexedStore = .ok r t ∧
      (t.table 1).get (.bool false) = .nil ∧ (t.table 1).get (.bool true) = .bool true := by
  have hleads : List.Forall₂ (Leads (withFuel 2) 0 indexedStore) indexedTargets
      [.name (ofAscii "i"), .field 1 (.bool false)] :=
    .cons (.name rfl rfl) (.cons (.field rfl rfl rfl rfl) .nil)
  have hperforms : Performs (withFuel 2) 0 indexedTargets [.bool true, .bool true] indexedStore
      [.name (ofAscii "i"), .field 1 (.bool true)] _ :=
    .next (.name rfl rfl) rfl (.next (.field rfl rfl rfl rfl) rfl .done)
  have hform : indexedAssignment.form = .assign indexedTargets [.mk {} .litTrue, .mk {} .litTrue] :=
    rfl
  have hexprs : each (withFuel 2) 0 [.mk {} .litTrue, .mk {} .litTrue] indexedStore =
      .ok [.one (.bool true), .one (.bool true)] indexedStore := rfl
  obtain ⟨hturns, -⟩ := targets_lead_in_turn wellFormed_indexedStore hform hexprs rfl hleads
  exact ⟨hleads, _, _, (hturns _ _ hperforms).1, rfl, rfl⟩

end Eval

end LuaInterpreter
