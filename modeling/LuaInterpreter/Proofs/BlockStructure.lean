import LuaInterpreter.Proofs.Confinement.Call
import LuaInterpreter.Proofs.FunctionEnd

/-!
# Locals stay in their blocks

A statement gives names to the scope it runs in, and only those that it declares itself. All other
scopes that exist when it starts have exactly the names they had when it ends, however it ends.
Locals of functions that are called, of blocks within the statement, of loops and of chunks that are
loaded are in scopes that did not exist before.
-/

namespace LuaInterpreter

open Run List Bytes

/-- However a computation ends, a scope has exactly the names it had before, in their order. -/
def Run.KeepsNames {α : Type} (m : Run α) (s : Store) (id : Nat) : Prop :=
  ((m.final s).scope id).names = (s.scope id).names

section

variable {α : Type} {D : Declarable} {m : Run α} {s : Store} {id : Nat}

/-- What a computation adds to a scope comes after what is there. -/
theorem Run.Confined.names_added (h : Run.Confined False 0 D m) (hid : id < s.scopes.size) :
    ∃ added, ((m.final s).scope id).names = (s.scope id).names ++ added ∧ ∀ x ∈ added, D id x :=
  (h.extend s).names id hid

theorem Run.Confined.keepsNames (h : Run.Confined False 0 D m) (hid : id < s.scopes.size)
    (hD : ∀ x, ¬D id x) : m.KeepsNames s id := by
  obtain ⟨added, hnames, hadded⟩ := h.names_added hid
  cases added with
  | nil => rw [KeepsNames, hnames, append_nil]
  | cons x added => exact absurd (hadded x mem_cons_self) (hD x)

end

/-! ## What a declaration adds -/

theorem Run.mem_names_of_declare {s t : Store} {scope : Nat} {x : Bytes} {v : Variable}
    (hscope : scope < s.scopes.size) (h : declare scope x v s = .ok () t) :
    x ∈ (t.scope scope).names := by
  have hold : ∀ old, (s.scope scope).find? x = some old → old.constant = false := by
    intro old hold
    rw [← Bool.not_eq_true]
    intro hconstant
    rw [declare_of_constant hold hconstant] at h
    cases h
  rw [declare_of_variable hold] at h
  cases h
  rw [Store.names_setVariable hscope]
  by_cases hx : x ∈ (s.scope scope).names
  · exact mem_append_left _ hx
  · rw [if_pos ⟨rfl, hx⟩]
    exact mem_append_right _ (mem_singleton.mpr rfl)

namespace Eval

variable {k : Evaluator} {scope : Nat} {s t : Store}

variable {x : Bytes} {closing : Bool} {a : AttribName} {names : List AttribName}
  {values : List Value}

theorem mem_names_of_extends {D : Declarable} (h : Store.Extends D s t)
    (hscope : scope < s.scopes.size) (hx : x ∈ (s.scope scope).names) :
    x ∈ (t.scope scope).names := by
  obtain ⟨added, hnames, -⟩ := h.names scope hscope
  rw [hnames]
  exact mem_append_left added hx

/-- A declaration that ends normally declares its first name, and goes on with the others. -/
theorem declareAll_cons {v : Value}
    (h : declareAll scope closing (a :: names) (v :: values) s = .ok () t) :
    ∃ x w u closing', encodeAscii? a.name.text = .ok x ∧ declare scope x w s = .ok () u ∧
      declareAll scope closing' names values u = .ok () t := by
  obtain ⟨x, _, hname, hbody⟩ := bind_eq_ok_iff.mp h
  obtain ⟨hx, rfl⟩ := nameString_eq_ok_iff.mp hname
  refine ⟨x, ?_⟩
  -- Only an unknown attribute and a second variable to be closed end the declaration early.
  cases hattrib : a.attrib with
  | none =>
    rw [hattrib] at hbody
    obtain ⟨_, u, hdeclare, hrest⟩ := bind_eq_ok_iff.mp hbody
    exact ⟨_, u, closing, hx, hdeclare, hrest⟩
  | some attrib =>
    rw [hattrib] at hbody
    obtain ⟨word, _, hword, hkind⟩ := bind_eq_ok_iff.mp hbody
    obtain ⟨-, rfl⟩ := nameString_eq_ok_iff.mp hword
    cases hclose : word == ofAscii "close" with
    | true =>
      rw [hclose] at hkind
      cases closing with
      | true => cases hkind
      | false =>
        obtain ⟨_, u, hdeclare, hrest⟩ := bind_eq_ok_iff.mp hkind
        exact ⟨_, u, true, hx, hdeclare, hrest⟩
    | false =>
      rw [hclose] at hkind
      cases hconst : word == ofAscii "const" with
      | true =>
        rw [hconst] at hkind
        obtain ⟨_, u, hdeclare, hrest⟩ := bind_eq_ok_iff.mp hkind
        exact ⟨_, u, closing, hx, hdeclare, hrest⟩
      | false =>
        rw [hconst] at hkind
        obtain ⟨_, _, _, hthrow⟩ := bind_eq_ok_iff.mp hkind
        cases hthrow

theorem mem_names_of_declareAll (hlength : names.length ≤ values.length)
    (hscope : scope < s.scopes.size) (h : declareAll scope closing names values s = .ok () t)
    (ha : a ∈ names) (hx : encodeAscii? a.name.text = .ok x) : x ∈ (t.scope scope).names := by
  induction names generalizing closing values s with
  | nil => cases ha
  | cons b names ih =>
    cases values with
    | nil => cases hlength
    | cons v values =>
      obtain ⟨y, w, u, closing', hy, hdeclare, hrest⟩ := declareAll_cons h
      have hscope' : scope < u.scopes.size := Nat.lt_of_lt_of_le hscope
        ((confined_declare (D := fun _ _ => True) w trivial).extends_of_ok hdeclare).size
      rcases mem_cons.mp ha with rfl | ha
      · have hothers := Confined.extends_of_ok (congr_declareAll (F := .confined False)
          (i := (0, fun _ _ => True)) closing' names values fun _ _ _ _ => trivial) hrest
        cases hx.symm.trans hy
        exact mem_names_of_extends hothers hscope' (mem_names_of_declare hscope hdeclare)
      · exact ih (Nat.le_of_succ_le_succ hlength) hscope' hrest ha

theorem mem_names_of_defineLocal {name : Name} {body : FuncBody} {r : Results}
    (hscope : scope < s.scopes.size) (h : defineLocal scope name body s = .ok r t)
    (hx : encodeAscii? name.text = .ok x) : x ∈ (t.scope scope).names := by
  obtain ⟨y, _, hname, hdefine⟩ := bind_eq_ok_iff.mp h
  obtain ⟨hy, rfl⟩ := nameString_eq_ok_iff.mp hname
  cases hx.symm.trans hy
  -- The name is declared twice, before the function is made and after that.
  obtain ⟨_, s₁, hfirst, hdefine⟩ := bind_eq_ok_iff.mp hdefine
  obtain ⟨f, s₂, hclosure, hdefine⟩ := bind_eq_ok_iff.mp hdefine
  obtain ⟨v, s₃, hnew, hdefine⟩ := bind_eq_ok_iff.mp hdefine
  obtain ⟨_, t', hsecond, hpure⟩ := bind_eq_ok_iff.mp hdefine
  cases hpure
  have hscope₁ := Nat.lt_of_lt_of_le hscope
    ((confined_declare (D := fun _ _ => True) _ trivial).extends_of_ok hfirst).size
  have hscope₂ := Nat.lt_of_lt_of_le hscope₁
    (Confined.extends_of_ok (congr_closure (F := .confined False) (i := (0, fun _ _ => True))
      trivial scope body) hclosure).size
  have hlegible := (ensures_closure scope body _ f _ hclosure).legible.named
    (isAscii_of_encodeAscii? hy)
  have hscope₃ := Nat.lt_of_lt_of_le hscope₂
    ((confined_newFunction (D := fun _ _ => True) hlegible False.elim).extends_of_ok hnew).size
  exact mem_names_of_declare hscope₃ hsecond

theorem mem_names_of_statement (hk : k.Confined False) {st : Stat} {r : Option Results}
    (hscope : scope < s.scopes.size) (h : statement k scope st s = .ok r t) (hx : st.Declares x) :
    x ∈ (t.scope scope).names := by
  obtain ⟨place, form⟩ := st
  cases form with
  | «local» names exprs =>
    obtain ⟨a, ha, hx⟩ := hx
    obtain ⟨values, u, hvalues, hrest⟩ := bind_eq_ok_iff.mp (traced_eq_ok_iff.mp h)
    obtain ⟨_, t', hdeclare, hpure⟩ := bind_eq_ok_iff.mp hrest
    cases hpure
    have hscope' : scope < u.scopes.size := Nat.lt_of_lt_of_le hscope
      (Confined.extends_of_ok (congr_localValues hk.evaluates (inside (fun _ _ => False) False.elim)
        _ _) hvalues).size
    have hlength := ensures_localValues _ _ _ _ _ hvalues
    exact mem_names_of_declareAll (Nat.le_of_eq hlength.symm) hscope' hdeclare ha hx
  | localFunction name body =>
    obtain ⟨_, t', hdefine, hpure⟩ := bind_eq_ok_iff.mp (traced_eq_ok_iff.mp h)
    cases hpure
    exact mem_names_of_defineLocal hscope hdefine hx
  | _ => cases hx

/-- In every store, and whatever a statement, an expression, a call or a block within another one
ends with: a statement leaves the names in all other scopes as they are, and to those in its own
scope it adds at most the names that it declares itself, all of them if it ends normally;
expressions, calls and inner blocks leave the names in all scopes that exist as they are. -/
theorem locals_stay_in_their_blocks (fuel : Nat) (s : Store) :
    (∀ scope st,
      (∀ id < s.scopes.size, id ≠ scope →
        ((Evaluator.withFuel fuel).stat scope st).KeepsNames s id) ∧
      (scope < s.scopes.size →
        (∃ added, ((((Evaluator.withFuel fuel).stat scope st).final s).scope scope).names =
          (s.scope scope).names ++ added ∧ ∀ x ∈ added, st.Declares x) ∧
        ∀ r t, (Evaluator.withFuel fuel).stat scope st s = .ok r t →
          ∀ x, st.Declares x → x ∈ (t.scope scope).names)) ∧
    (∀ scope e, ∀ id < s.scopes.size, ((Evaluator.withFuel fuel).expr scope e).KeepsNames s id) ∧
    (∀ f args scope traced, ∀ id < s.scopes.size,
      ((Evaluator.withFuel fuel).call f args scope traced).KeepsNames s id) ∧
    ∀ scope b, ∀ id < s.scopes.size,
      (innerBlock (Evaluator.withFuel fuel) scope b).KeepsNames s id := by
  have hk := Evaluator.confined_withFuel False fuel
  refine ⟨fun scope st => ?_, fun scope e id hid => ?_, fun f args scope traced id hid => ?_,
    fun scope b id hid => ?_⟩
  · have hst := hk.stat 0 (fun id x => id = scope ∧ st.Declares x) scope st False.elim
      fun x hx => ⟨rfl, hx⟩
    refine ⟨fun id hid hne => hst.keepsNames hid fun x hx => hne hx.1, fun hscope => ⟨?_, ?_⟩⟩
    · obtain ⟨added, hnames, hadded⟩ := hst.names_added hscope
      exact ⟨added, hnames, fun x hx => (hadded x hx).2⟩
    · intro r t h x hx
      cases fuel with
      | zero => cases h
      | succ fuel =>
        exact mem_names_of_statement (Evaluator.confined_withFuel False fuel) hscope h hx
  -- Everything else is confined to no names at all.
  · exact (hk.expr 0 (fun _ _ => False) scope e False.elim).keepsNames hid fun _ => not_false
  · exact (hk.call 0 (fun _ _ => False) f args scope traced False.elim).keepsNames hid
      fun _ => not_false
  · exact (confined_innerBlock (D := fun _ _ => False) hk False.elim b).keepsNames hid
      fun _ => not_false

/-- An outermost scope with a function `f` that declares a local `t`, and a scope within it. -/
def functionInScope : Store :=
  { tables := #[{}]
    functions :=
      #[{ params := [], variadic := false, scope := some 0
          code := .block (.mk {} [.mk {} (.local [{ name := { lexeme := { text := "t" } } }]
            (some [.mk {} .litTrue]))] none) }]
    scopes :=
      #[{ session := 0, parent := none, locals := [(ofAscii "f", { value := .func 0 })] },
        { session := 0, parent := some 0 }]
    sessions := #[{ globals := 0, root := 0 }] }

/-- `local y = f()` -/
def declaredCall : Stat :=
  .mk {} (.local [{ name := { lexeme := { text := "y" } } }]
    (some [.mk {} (.call (.mk {} (.variable { lexeme := { text := "f" } })) [])]))

/-- The call leaves the scope of the function alone and its local is in the scope made for it; the
scope of the statement has the one name that it declares. -/
theorem declaredCall_names :
    ((((Evaluator.withFuel 6).stat 1 declaredCall).final functionInScope).scope 0).names =
      [Bytes.ofAscii "f"] ∧
    ((((Evaluator.withFuel 6).stat 1 declaredCall).final functionInScope).scope 2).names =
      [Bytes.ofAscii "t"] ∧
    Bytes.ofAscii "y" ∈
      ((((Evaluator.withFuel 6).stat 1 declaredCall).final functionInScope).scope 1).names := by
  obtain ⟨hothers, hown⟩ := (locals_stay_in_their_blocks 6 functionInScope).1 1 declaredCall
  refine ⟨hothers 0 (by decide) (by decide), rfl, ?_⟩
  exact (hown (by decide)).2 _ _ rfl _ ⟨_, mem_singleton.mpr rfl, rfl⟩

end Eval

end LuaInterpreter
