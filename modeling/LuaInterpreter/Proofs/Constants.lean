import LuaInterpreter.Proofs.History

/-!
# Constants never change

A constant stays in its scope with its value, whatever is done with the store. An assignment to a
name that leads to a constant fails: the name still leads there when its turn comes, for no
expression and no other assignment declares anything.
-/

namespace LuaInterpreter

open List Bytes

/-! ## Names that lead to constants -/

namespace Store

variable {s t : Store} {x : Bytes} {D : Declarable}

variable {id : Nat}

theorem Extends.find?_eq_none (h : Extends D s t) (hD : ∀ id, ¬D id x) (hid : id < s.scopes.size)
    (hx : (s.scope id).find? x = none) : (t.scope id).find? x = none := by
  obtain ⟨added, hnames, hadded⟩ := h.names id hid
  rw [Scope.find?_eq_none_iff, hnames, mem_append]
  rintro (hold | hnew)
  · exact Scope.find?_eq_none_iff.mp hx hold
  · exact hD id (hadded x hnew)

theorem Extends.resolves (h : Extends D s t) (hD : ∀ id, ¬D id x) {owner : Nat} {v : Variable}
    (hx : s.Resolves x id (some owner)) (hv : (t.scope owner).find? x = some v) :
    t.Resolves x id (some owner) := by
  generalize ho : some owner = o at hx
  induction hx with
  | here =>
    cases ho
    exact .here hv
  | outside hnone hp _ ih =>
    have hid := lt_size_of_parent_eq_some hp
    exact .outside (h.find?_eq_none hD hid hnone) ((h.parent _ hid).trans hp) (ih ho)
  | nowhere => cases ho

theorem LeadsToConstant.of_extends (hx : s.LeadsToConstant x id) (h : Extends D s t)
    (hD : ∀ id, ¬D id x) : t.LeadsToConstant x id := by
  obtain ⟨owner, v, hresolves, hv, hconstant⟩ := hx
  have hv' := h.constant owner x v hv hconstant
  exact ⟨owner, v, h.resolves hD hresolves hv', hv', hconstant⟩

end Store

/-! ## Assignments to several targets -/

def Expr.Spells (e : Expr) (x : Bytes) : Prop :=
  ∃ n, e.form = .variable n ∧ encodeAscii? n.text = .ok x

namespace Eval

open Run

variable {k : Evaluator} {scope : Nat} {s t u : Store} {x : Bytes} {target : Expr}
  {before after : List Expr}

variable {values : List Value} {name : FuncName} {n : Name}

theorem assignAll_append (hlength : values.length = (before ++ after).length) :
    assignAll k scope (before ++ after) values = (do
      assignAll k scope before (values.take before.length)
      assignAll k scope after (values.drop before.length)) := by
  induction before generalizing values with
  | nil => exact (pure_bind _ _).symm
  | cons e before ih =>
    cases values with
    | nil => cases hlength
    | cons v values =>
      simp only [cons_append, length_cons, take_succ_cons, drop_succ_cons,
        assignAll, bind_assoc]
      rw [ih (Nat.succ.inj hlength)]

theorem assignTo_of_constant (hs : s.WellFormed) (htarget : target.Spells x)
    (hx : s.LeadsToConstant x scope) (v : Value) :
    assignTo k scope target v s = .error (.error constantError) s := by
  obtain ⟨name, hform, hname⟩ := htarget
  have hstring : nameString name s = .ok x s := nameString_eq_ok_iff.mpr ⟨hname, rfl⟩
  simp only [assignTo, hform]
  rw [bind_of_ok hstring]
  exact assign_of_constant hs hx

/-- Assignments before the turn of a name that leads to a constant do not change where it leads. -/
theorem leadsToConstant_of_assignAll (hk : k.Confined False)
    (h : assignAll k scope before values s = .ok () t) (hx : s.LeadsToConstant x scope) :
    t.LeadsToConstant x scope := by
  have hconfined : Run.Confined False 0 (fun _ _ => False) (assignAll k scope before values) :=
    confined_assignAll hk False.elim before values
  exact hx.of_extends (hconfined.extends_of_ok h) fun _ => not_false

/-- Once the targets before one that fails are assigned, the assignment fails and changes nothing
more. -/
theorem assignAll_of_error {e : Signal}
    (hlength : values.length = (before ++ target :: after).length)
    (hbefore : assignAll k scope before (values.take before.length) s = .ok () t)
    (htarget : ∀ v, assignTo k scope target v t = .error e t) :
    assignAll k scope (before ++ target :: after) values s = .error e t := by
  obtain ⟨v, rest, hdrop⟩ : ∃ v rest, values.drop before.length = v :: rest := by
    refine exists_cons_of_length_pos ?_
    rw [length_drop, hlength, length_append, length_cons]
    omega
  rw [assignAll_append hlength, bind_of_ok hbefore, hdrop]
  exact bind_of_error (htarget v)

/-- An assignment comes to the target after some others: its values have been evaluated and the
others assigned. -/
def ComesTo (k : Evaluator) (scope : Nat) (before : List Expr) (count : Nat) (values : List Expr)
    (s u : Store) : Prop :=
  ∃ rs t, each k scope values s = .ok rs t ∧
    assignAll k scope before ((Results.adjust rs count).take before.length) t = .ok () u

/-- On the way there, a name that leads to a constant goes on leading to it. -/
theorem ComesTo.keeps_constant {count : Nat} {values : List Expr} (hk : ∀ strict, k.Confined strict)
    (h : ComesTo k scope before count values s u) (hs : s.WellFormed)
    (hx : s.LeadsToConstant x scope) : u.WellFormed ∧ u.LeadsToConstant x scope := by
  obtain ⟨rs, t, hvalues, hbefore⟩ := h
  have hscope : scope < s.scopes.size := by
    obtain ⟨_, _, hresolves, _⟩ := hx
    exact hresolves.lt_size
  have hextends := (confined_each (D := fun _ _ => False) (hk False) False.elim values).extends_of_ok
    hvalues
  have ht : t.WellFormed := (confined_each (D := fun _ _ => False) (hk True) (fun _ => hscope)
    values).wellFormed_of_ok hs (Nat.le_refl _) hvalues
  have hx' : t.LeadsToConstant x scope := hx.of_extends hextends fun _ => not_false
  refine ⟨?_, leadsToConstant_of_assignAll (hk False) hbefore hx'⟩
  exact (confined_assignAll (D := fun _ _ => False) (hk True)
    (fun _ => Nat.lt_of_lt_of_le hscope hextends.size) before _).wellFormed_of_ok ht (Nat.le_refl _)
    hbefore

section

variable {st : Stat} {values : List Expr} (hk : ∀ strict, k.Confined strict)
  (hform : st.form = .assign (before ++ target :: after) values) (htarget : target.Spells x)
  (hs : s.WellFormed) (hx : s.LeadsToConstant x scope)
include hk hform htarget hs hx

theorem statement_assign_of_constant
    (hcomes : ComesTo k scope before (before ++ target :: after).length values s u) :
    ∃ trace, statement k scope st s = .error (.error { constantError with trace }) u := by
  obtain ⟨hu, hxu⟩ := hcomes.keeps_constant hk hs hx
  obtain ⟨rs, t, hvalues, hbefore⟩ := hcomes
  simp only [statement, hform]
  refine traced_of_error ?_
  rw [statForm, bind_of_ok hvalues]
  exact bind_of_error (assignAll_of_error (Results.length_adjust rs _) hbefore
    (assignTo_of_constant hu htarget hxu))

theorem statement_assign_ne_ok (r : Option Results) (t : Store) :
    statement k scope st s ≠ .ok r t := by
  intro h
  have hstat := h
  simp only [statement, hform] at hstat
  obtain ⟨rs, u, hvalues, hrest⟩ := bind_eq_ok_iff.mp (traced_eq_ok_iff.mp hstat)
  obtain ⟨_, w, hassign, -⟩ := bind_eq_ok_iff.mp hrest
  rw [assignAll_append (Results.length_adjust rs _)] at hassign
  obtain ⟨_, w', hbefore, -⟩ := bind_eq_ok_iff.mp hassign
  obtain ⟨trace, herror⟩ :=
    statement_assign_of_constant hk hform htarget hs hx ⟨rs, u, hvalues, hbefore⟩
  rw [herror] at h
  cases h

end

/-! ## Definitions of functions -/

theorem final_nameString (name : Name) (s : Store) : (nameString name).final s = s := by
  unfold nameString
  cases encodeAscii? name.text with
  | ok x => rfl
  | error u => rfl

theorem final_closure (scope : Nat) (b : FuncBody) (s : Store) : (closure scope b).final s = s := by
  rw [closure, final_traced, final_bind_pure]
  induction b.params with
  | nil => rfl
  | cons name names ih =>
    have hfirst := final_nameString name s
    rw [mapM_cons]
    cases hname : nameString name s with
    | ok x t =>
      rw [final_of_ok hname] at hfirst
      rw [final_bind_of_ok hname, final_bind_pure, hfirst, ih]
    | error e t =>
      rw [final_of_error hname] at hfirst
      rw [final_bind_of_error hname, hfirst]

theorem newFunction_assign_of_constant {α : Type} (hs : s.WellFormed)
    (hx : s.LeadsToConstant x scope) {f : Function} (hlegible : f.IsLegible)
    (hf : f.scopes = [scope]) (rest : Value → Run α) :
    (do
      let v ← newFunction f
      assign scope x v
      rest v : Run α) s =
      .error (.error constantError) { s with functions := s.functions.push f } := by
  have hnew : newFunction f s =
      .ok (.func s.functions.size) { s with functions := s.functions.push f } := rfl
  have hscopes : True → ∀ id ∈ f.scopes, id < s.scopes.size := by
    intro _ id hid
    obtain ⟨_, _, hresolves, _⟩ := hx
    rw [hf, mem_singleton] at hid
    exact hid ▸ hresolves.lt_size
  rw [bind_of_ok hnew]
  refine bind_of_error (assign_of_constant ?_ ?_)
  · exact (confined_newFunction (D := fun _ _ => False) hlegible hscopes).wellFormed_of_ok hs
      (Nat.le_refl _) hnew
  · exact hx.of_extends (D := fun _ _ => False)
      ((confined_newFunction hlegible False.elim).extends_of_ok hnew) fun _ => not_false

/-- The definition of a function under a name that leads to a constant fails like the assignment
that it is. Before that, at most the function has been made. -/
theorem defineFunction_of_constant (hs : s.WellFormed) (hx : s.LeadsToConstant x scope)
    (hnames : name.names = [n]) (hn : encodeAscii? n.text = .ok x) (body : FuncBody) :
    ∃ e functions, defineFunction k scope name body s = .error e { s with functions } := by
  have hclosed := final_closure scope body s
  cases hclosure : closure scope body s with
  | error e t =>
    rw [final_of_error hclosure] at hclosed
    subst hclosed
    exact ⟨e, t.functions, bind_of_error hclosure⟩
  | ok f t =>
    rw [final_of_ok hclosure] at hclosed
    subst hclosed
    have hf := ensures_closure scope body t f t hclosure
    have hname : nameString n t = .ok x t := nameString_eq_ok_iff.mpr ⟨hn, rfl⟩
    have hascii := isAscii_of_encodeAscii? hn
    rw [defineFunction, bind_of_ok hclosure]
    simp only [hnames]
    rw [bind_of_ok hname]
    refine ⟨_, _, newFunction_assign_of_constant hs hx ?_ ?_ _⟩
    · cases name.method with
      | true => exact (hf.legible.withParam (by decide)).named hascii
      | false => exact hf.legible.named hascii
    · cases name.method with
      | true | false => exact hf.scopes

theorem statement_function_of_constant {st : Stat} {body : FuncBody}
    (hform : st.form = .function name body) (hnames : name.names = [n])
    (hn : encodeAscii? n.text = .ok x) (hs : s.WellFormed) (hx : s.LeadsToConstant x scope) :
    ∃ e functions, statement k scope st s = .error e { s with functions } := by
  obtain ⟨e, functions, hdefine⟩ := defineFunction_of_constant (k := k) hs hx hnames hn body
  have hstat : statForm k scope (.function name body) s = .error e { s with functions } :=
    bind_of_error hdefine
  obtain ⟨e', he'⟩ := traced_eq_error hstat
  simp only [statement, hform]
  exact ⟨e', functions, he'⟩

end Eval

/-! ## Whole histories -/

/-- A constant never changes, and its name cannot be assigned. Whatever is asked of a store, any
number of times and however it ends, a constant is still in its scope, is still a constant and has
the same value. An assignment to a name that leads to a constant fails and changes nothing. So does
a statement that has the name among its targets: it never ends normally, and once it comes to that
target it ends with the error on the store it came to it with. A definition of a function under the
name fails too, and changes no variable and no table. -/
theorem constants_never_change (s : Store) :
    (∀ id x v, (s.scope id).find? x = some v → v.constant = true →
      ∀ history, ((s.after history).scope id).find? x = some v) ∧
    (s.WellFormed → ∀ scope x, s.LeadsToConstant x scope →
      (∀ v, Run.assign scope x v s = .error (.error Run.constantError) s) ∧
      ∀ fuel st,
        (∀ before target after values, st.form = .assign (before ++ target :: after) values →
          target.Spells x →
          (∀ r t, (Evaluator.withFuel (fuel + 1)).stat scope st s ≠ .ok r t) ∧
          ∀ u, Eval.ComesTo (Evaluator.withFuel fuel) scope before
              (before ++ target :: after).length values s u →
            ∃ trace, (Evaluator.withFuel (fuel + 1)).stat scope st s =
              .error (.error { Run.constantError with trace }) u) ∧
        ∀ name n body, st.form = .function name body → name.names = [n] →
          Bytes.encodeAscii? n.text = .ok x →
          ∃ e functions, (Evaluator.withFuel (fuel + 1)).stat scope st s =
            .error e { s with functions }) := by
  have hk (fuel : Nat) (strict : Prop) := Evaluator.confined_withFuel strict fuel
  refine ⟨fun id x v hv hconstant history => ?_, fun hs scope x hx => ⟨fun v => ?_, fun fuel st => ?_⟩⟩
  · exact (s.extends_after history).constant id x v hv hconstant
  · exact Run.assign_of_constant hs hx
  · refine ⟨fun before target after values hform htarget => ⟨fun r t => ?_, fun u hcomes => ?_⟩, ?_⟩
    · exact Eval.statement_assign_ne_ok (hk fuel) hform htarget hs hx r t
    · exact Eval.statement_assign_of_constant (hk fuel) hform htarget hs hx hcomes
    · intro name n body hform hnames hn
      exact Eval.statement_function_of_constant hform hnames hn hs hx

/-- `c = true` -/
def constantAssignment : Stat :=
  .mk {} (.assign [.mk {} (.variable { lexeme := { text := "c" } })] [.mk {} .litTrue])

/-- The constant `c` of the first of two scopes outlives attempts to declare it anew and to assign
it from the scope within; the statement that assigns it ends with the error on the same store. -/
theorem constantAssignment_fails :
    ((Run.siblingScopes.after
        [.declaration 1 (Bytes.ofAscii "c") { value := .bool true },
          .assignment 2 (Bytes.ofAscii "c") (.bool true),
          .statement 4 2 constantAssignment]).scope 1).find? (Bytes.ofAscii "c") =
      some { value := .nil, constant := true } ∧
    ∃ trace, (Evaluator.withFuel 4).stat 2 constantAssignment Run.siblingScopes =
      .error (.error { Run.constantError with trace }) Run.siblingScopes := by
  obtain ⟨hkept, hassign⟩ := constants_never_change Run.siblingScopes
  refine ⟨hkept 1 _ _ rfl rfl _, ?_⟩
  have hconstant : Run.siblingScopes.LeadsToConstant (ofAscii "c") 2 :=
    ⟨1, _, .outside rfl rfl (.here rfl), rfl, rfl⟩
  have hstat := (hassign Run.wellFormed_siblingScopes 2 _ hconstant).2 3 constantAssignment
  exact (hstat.1 [] _ [] _ rfl ⟨_, rfl, rfl⟩).2 _ ⟨_, _, rfl, rfl⟩

end LuaInterpreter
