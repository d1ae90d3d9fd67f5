import LuaInterpreter.Eval.Statement
import LuaInterpreter.Proofs.Congruence
import LuaInterpreter.Proofs.Legibility

/-!
# Two evaluations, side by side

The rules for expressions and statements put computations together and work on scopes. A relation
between computations that is kept by all of this holds between the evaluation of a construct and
itself, if it does so for the parts of the construct. Which scopes exist, and which names may be added
to them, changes on the way: there is one relation for each situation.
-/

namespace LuaInterpreter

open List Index Bytes

def Stat.Declares (st : Stat) (x : Bytes) : Prop :=
  match st.form with
  | .local names _ => ∃ a ∈ names, encodeAscii? a.name.text = .ok x
  | .localFunction name _ => encodeAscii? name.text = .ok x
  | _ => False

def Block.Declares (b : Block) (x : Bytes) : Prop :=
  (∃ st ∈ b.stats, st.Declares x) ∨ ∃ st ∈ b.ret, st.Declares x

def Signal.IsJump : Signal → Prop
  | .break | .goto _ | .return _ => True
  | _ => False

structure Function.IsClosure (scope : Nat) (body : Block) (f : Function) : Prop where
  legible : f.IsLegible
  code : f.code = .block body
  scope : f.scope = some scope

/-- Relations between computations, one for each situation that a construct can be evaluated in. A
situation says which scopes exist, which names may be added to them, and whether the relation is kept
where traces are entered; where faults are handled, the relation of a stricter situation is needed. -/
structure Scoping where
  Situation : Type
  rel : Situation → Congruence
  Inside : Situation → Nat → Prop
  MayDeclare : Situation → Nat → Bytes → Prop
  Traces : Situation → Prop
  stricter : Situation → Situation
  inside_stricter : ∀ {i scope}, Inside i scope → Inside (stricter i) scope
  rel_consuming : ∀ {i} {α : Type} {m m' : Run α}, (rel (stricter i)).Holds m m' →
    (rel i).Holds (Eval.consuming m) (Eval.consuming m')
  rel_catch : ∀ {i} {α : Type} {m m' : Run α} {h : Signal → Run α}, (rel i).Holds m m' →
    (∀ e, h e = throw e ∨ e.IsJump ∧ (rel i).Holds (h e) (h e)) →
    (rel i).Holds (tryCatch m h) (tryCatch m' h)
  rel_traced : ∀ {i} {α : Type} {m m' : Run α} {scope : Nat} {place : Place} {role kind : String}
    {silent : Bool}, Traces i → (rel i).Holds m m' →
    (rel i).Holds (Run.traced scope place role kind silent m)
      (Run.traced scope place role kind silent m')
  rel_pushScope : ∀ {i} {α : Type} {f f' : Nat → Run α} {scope : Nat}, Inside i scope →
    (∀ inner j, (∀ sc, Inside i sc → Inside j sc) → Inside j inner → (∀ x, MayDeclare j inner x) →
      (Traces i → Traces j) → (rel j).Holds (f inner) (f' inner)) →
    (rel i).Holds (Run.pushScope scope >>= f) (Run.pushScope scope >>= f')
  rel_declare : ∀ {i scope x} (v : Variable), MayDeclare i scope x →
    (rel i).Holds (Run.declare scope x v) (Run.declare scope x v)
  rel_assign : ∀ {i} (scope : Nat) (x : Bytes) (v : Value),
    (rel i).Holds (Run.assign scope x v) (Run.assign scope x v)
  rel_newFunction : ∀ {i scope} {body : Block} {f : Function}, Inside i scope →
    f.IsClosure scope body → (rel i).Holds (Run.newFunction f) (Run.newFunction f)

/-- Two evaluators between which the relations hold for the parts of a construct. -/
structure Scoping.Evaluates (F : Scoping) (k k' : Evaluator) : Prop where
  fuel : k'.fuel = k.fuel
  expr : ∀ {i scope}, F.Inside i scope → ∀ e, (F.rel i).Holds (k.expr scope e) (k'.expr scope e)
  stat : ∀ {i scope}, F.Inside i scope → ∀ st, (∀ x, st.Declares x → F.MayDeclare i scope x) →
    (F.rel i).Holds (k.stat scope st) (k'.stat scope st)
  apart : ∀ i, (F.rel i).Calls k.call k'.call
  within : ∀ {i scope}, F.Inside i scope → ∀ f args traced,
    (F.rel i).Holds (k.call f args (some scope) traced) (k'.call f args (some scope) traced)
  callFrom : ∀ {i scope}, F.Inside i scope → ∀ place what f args,
    (F.rel i).Holds (Eval.callFrom k scope place what f args)
      (Eval.callFrom k' scope place what f args)

/-! ## Names and functions -/

namespace Run

open Congruence

theorem congr_nameString {R : Congruence} (name : Name) :
    R.Keeps (nameString name) := by
  unfold nameString
  split
  · exact .pure _
  · exact .fault _

theorem nameString_eq_ok_iff {name : Name} {x : Bytes} {s t : Store} :
    nameString name s = .ok x t ↔ encodeAscii? name.text = .ok x ∧ t = s := by
  unfold nameString
  cases encodeAscii? name.text with
  | ok y =>
    constructor
    · intro h
      cases h
      exact ⟨rfl, rfl⟩
    · rintro ⟨h, rfl⟩
      cases h
      rfl
  | error u =>
    constructor
    · intro h
      cases h
    · rintro ⟨h, -⟩
      cases h

theorem ensures_nameString (name : Name) :
    Ensures (nameString name) fun x => encodeAscii? name.text = .ok x :=
  fun _ _ _ h => (nameString_eq_ok_iff.mp h).1

theorem ensures_mapM_nameString (names : List Name) : Ensures (names.mapM nameString)
    fun xs => ∀ x ∈ xs, ∃ name ∈ names, encodeAscii? name.text = .ok x :=
  ensures_mapM names fun name hname s x t h => ⟨name, hname, ensures_nameString name s x t h⟩

end Run

namespace Eval

open Run Congruence

/-- A function refers to the scope it is defined in, and the names of its parameters can be
written. -/
theorem ensures_closure (scope : Nat) (b : FuncBody) :
    Ensures (closure scope b) (Function.IsClosure scope b.body) := by
  intro s f t h
  obtain ⟨params, u, hparams, h⟩ := bind_eq_ok_iff.mp (traced_eq_ok_iff.mp h)
  cases h
  refine ⟨⟨fun x hx => ?_, nofun⟩, rfl, rfl⟩
  obtain ⟨name, -, hname⟩ := ensures_mapM_nameString _ s params t hparams x hx
  exact isAscii_of_encodeAscii? hname

variable {F : Scoping} {i : F.Situation} {k k' : Evaluator} {scope : Nat}

/-! ## Parts -/

theorem congr_closure (htraces : F.Traces i) (scope : Nat) (b : FuncBody) :
    (F.rel i).Holds (closure scope b) (closure scope b) :=
  F.rel_traced htraces ((Holds.mapM congr_nameString _).giving _)

theorem lastValues_of_matches {p q : Nat} {s s' : Store} (hs : s.Matches p q s') (r : Results) :
    lastValues s' r = lastValues s r := by
  unfold lastValues
  rw [hs.itemsOf?]

section

variable (k : Evaluator) (scope : Nat) (d : Draft)

theorem ensures_putField (f : Field) :
    Ensures (putField k scope d f) fun d' => d'.table.metatable = d.table.metatable := by
  cases f with
  | keyed place key value =>
    refine ensures_bind fun key => ensures_bind fun value => ensures_bind fun _ => ?_
    exact ensures_pure (d.table.metatable_put key value)
  | positional place value => exact ensures_bind fun v => ensures_pure (d.table.metatable_put _ v)
  | alien kind => exact ensures_throw _

theorem ensures_putLast (f : Field) :
    Ensures (putLast k scope d f) fun d' => d'.table.metatable = d.table.metatable := by
  unfold putLast
  split
  · exact ensures_bind fun _ => ensures_bind fun _ => ensures_pure (d.metatable_putAll _)
  · exact ensures_putField k scope d f

theorem ensures_putFields (fs : List Field) :
    Ensures (putFields k scope d fs) fun d' => d'.table.metatable = d.table.metatable := by
  fun_induction putFields k scope d fs with
  | case1 d => exact ensures_pure rfl
  | case2 d f => exact ensures_putLast k scope d f
  | case3 d f g fs ih =>
    intro s d' t h
    obtain ⟨d₁, s₁, hfield, hrest⟩ := bind_eq_ok_iff.mp h
    exact (ih d₁ s₁ d' t hrest).trans (ensures_putField k scope d f s d₁ s₁ hfield)

end

theorem congr_varargs {R : Congruence} (scope : Nat) : R.Keeps (varargs scope) := by
  refine .get_bind fun s s' hs => ?_
  rw [hs.scope]
  split
  · exact .pure _
  · exact .error _

theorem congr_declareAll (closing : Bool) (names : List AttribName) (values : List Value)
    (hdeclare : ∀ a ∈ names, ∀ x, encodeAscii? a.name.text = .ok x → F.MayDeclare i scope x) :
    (F.rel i).Holds (declareAll scope closing names values)
      (declareAll scope closing names values) := by
  induction names generalizing closing values with
  | nil => exact .pure _
  | cons a names ih =>
    cases values with
    | nil => exact .pure _
    | cons v values =>
      refine (congr_nameString a.name).bind_of (ensures_nameString a.name) fun x hx => ?_
      have hrest (closing : Bool) (v : Variable) : (F.rel i).Holds
          (declare scope x v >>= fun _ => declareAll scope closing names values)
          (declare scope x v >>= fun _ => declareAll scope closing names values) :=
        .bind (F.rel_declare v (hdeclare a mem_cons_self x hx)) fun _ =>
          ih closing values fun b hb => hdeclare b (mem_cons_of_mem _ hb)
      split
      · exact hrest closing _
      · refine (congr_nameString _).bind fun attrib => .ite ?_ (.ite ?_ (.error _))
        · exact .check (.fault _) fun _ => hrest true _
        · exact hrest closing _

theorem congr_declareValues (names : List Bytes) (values : List Value)
    (hdeclare : ∀ x ∈ names, F.MayDeclare i scope x) :
    (F.rel i).Holds (declareValues scope names values) (declareValues scope names values) := by
  induction names generalizing values with
  | nil => exact .pure _
  | cons x names ih =>
    cases values with
    | nil => exact .pure _
    | cons v values =>
      exact .bind (F.rel_declare _ (hdeclare x mem_cons_self)) fun _ =>
        ih values fun y hy => hdeclare y (mem_cons_of_mem _ hy)

theorem congr_breakable {m m' : Run Unit} (hm : (F.rel i).Holds m m') :
    (F.rel i).Holds (breakable m) (breakable m') := by
  refine F.rel_catch hm fun e => ?_
  cases e with
  | «break» => exact .inr ⟨trivial, .pure _⟩
  | _ => exact .inl rfl

theorem congr_requireNumber {R : Congruence} (what : String) (v : Value) :
    R.Keeps (requireNumber what v) := by
  unfold requireNumber
  split
  · exact .pure _
  · exact .error _

theorem congr_followNames (hk : F.Evaluates k k') (base : Value) (names : List Name) :
    (F.rel i).Holds (followNames k base names) (followNames k' base names) := by
  induction names generalizing base with
  | nil => exact .pure base
  | cons name names ih =>
    exact (congr_nameString name).bind fun x =>
      (congr_read (hk.apart i) base (.str x)).bind ih

theorem congr_newNamed (hscope : F.Inside i scope) {body : Block} {f : Function}
    (hf : f.IsClosure scope body) (name : Name) {g g' : Bytes → Value → Run Results}
    (hg : ∀ x v, encodeAscii? name.text = .ok x → (F.rel i).Holds (g x v) (g' x v)) :
    (F.rel i).Holds
      (do
        let x ← nameString name
        g x (← newFunction { f with name := some (.string x) }))
      (do
        let x ← nameString name
        g' x (← newFunction { f with name := some (.string x) })) := by
  refine (congr_nameString name).bind_of (ensures_nameString name) fun x hx => ?_
  have hnamed : Function.IsClosure scope body { f with name := some (.string x) } :=
    ⟨hf.legible.named (isAscii_of_encodeAscii? hx), hf.code, hf.scope⟩
  exact .bind (F.rel_newFunction hscope hnamed) fun v => hg x v hx

theorem congr_defineLocal (hscope : F.Inside i scope) (htraces : F.Traces i) (name : Name)
    (body : FuncBody)
    (hdeclare : ∀ x, encodeAscii? name.text = .ok x → F.MayDeclare i scope x) :
    (F.rel i).Holds (defineLocal scope name body) (defineLocal scope name body) := by
  refine (congr_nameString name).bind_of (ensures_nameString name) fun x hx => ?_
  refine .bind (F.rel_declare _ (hdeclare x hx)) fun _ => ?_
  refine (congr_closure htraces scope body).bind_of (ensures_closure scope body) fun f hf => ?_
  have hnamed : Function.IsClosure scope body.body { f with name := some (.string x) } :=
    ⟨hf.legible.named (isAscii_of_encodeAscii? hx), hf.code, hf.scope⟩
  exact .bind (F.rel_newFunction hscope hnamed) fun v =>
    .bind (F.rel_declare _ (hdeclare x hx)) fun _ => .pure _

theorem flattenAll_of_matches {p q : Nat} {s s' : Store} (hs : s.Matches p q s') (r : Results) :
    flattenAll s' r = flattenAll s r := by
  fun_induction flattenAll s r with
  | case1 items ih =>
    rw [flattenAll]
    rw [flatMap_def, flatMap_def, map_congr_left ih]
  | case2 r hr =>
    rw [flattenAll, lastValues_of_matches hs]
    exact hr

section

variable {inner : Nat} (hk : F.Evaluates k k') (hscope : F.Inside i scope)

include hk hscope

/-! ## Expressions -/

theorem congr_single (e : Expr) : (F.rel i).Holds (single k scope e) (single k' scope e) := by
  unfold single
  split
  · exact .fault _
  · exact (hk.expr hscope e).giving _

theorem congr_each (es : List Expr) : (F.rel i).Holds (each k scope es) (each k' scope es) := by
  induction es with
  | nil => exact .pure _
  | cons e es ih => exact (hk.expr hscope e).bind fun _ => ih.giving _

theorem congr_consuming (es : List Expr) :
    (F.rel i).Holds (consuming (each k scope es)) (consuming (each k' scope es)) :=
  F.rel_consuming (congr_each hk (F.inside_stricter hscope) es)

theorem congr_fieldKey (key : FieldKey) :
    (F.rel i).Holds (fieldKey k scope key) (fieldKey k' scope key) := by
  cases key with
  | name x => exact (congr_nameString x).giving _
  | expr e => exact congr_single hk hscope e
  | alien kind => exact .fault _

theorem congr_putField (d : Draft) (f : Field) :
    (F.rel i).Holds (putField k scope d f) (putField k' scope d f) := by
  cases f with
  | keyed place key value =>
    exact (congr_fieldKey hk hscope key).bind fun key => (congr_single hk hscope value).bind
      fun value => (congr_requireKey key).giving _
  | positional place value => exact (congr_single hk hscope value).giving _
  | alien kind => exact .fault _

theorem congr_putLast (d : Draft) (f : Field) :
    (F.rel i).Holds (putLast k scope d f) (putLast k' scope d f) := by
  unfold putLast
  split
  · exact (hk.expr hscope _).bind fun _ =>
      .read (fun _ _ hs => by rw [lastValues_of_matches hs]) fun _ => .pure _
  · exact congr_putField hk hscope d f

theorem congr_putFields (d : Draft) (fs : List Field) :
    (F.rel i).Holds (putFields k scope d fs) (putFields k' scope d fs) := by
  induction fs generalizing d with
  | nil => exact .pure d
  | cons f fs ih =>
    cases fs with
    | nil => exact congr_putLast hk hscope d f
    | cons g fs => exact (congr_putField hk hscope d f).bind ih

theorem congr_binary (op : BinaryOp) (l r : Expr) :
    (F.rel i).Holds (binary k scope op l r) (binary k' scope op l r) := by
  refine (congr_single hk hscope l).bind fun a => ?_
  split
  · exact .ite (congr_single hk hscope r) (.pure _)
  · exact .ite (.pure _) (congr_single hk hscope r)
  · exact (congr_single hk hscope r).bind fun b => Operator.congr_binary (hk.apart i) op a b

theorem congr_form (htraces : F.Traces i) {inner inner' : Nat → Block → Run Results}
    (hinner : ∀ b, (F.rel i).Holds (inner scope b) (inner' scope b)) (place : Place)
    (f : ExprForm) :
    (F.rel i).Holds (form k inner scope place f) (form k' inner' scope place f) := by
  cases f with
  | litNil | litTrue | litFalse | fieldName => exact .pure _
  | numeral | string => exact .giving (.ofExcept _) _
  | vararg => exact congr_varargs scope
  | paren e => exact (congr_single hk hscope e).giving _
  | «variable» x =>
    exact (congr_nameString x).bind fun _ =>
      .read (fun _ _ hs => by rw [hs.getName]) fun _ => .pure _
  | index base key =>
    exact (congr_single hk hscope base).bind fun base => (congr_single hk hscope key).bind
      fun key => (congr_read (hk.apart i) base key).giving _
  | table fields =>
    exact (congr_putFields hk hscope _ fields).bind_of (ensures_putFields k scope _ fields)
      fun d hd => .giving (.newTable hd) _
  | function body =>
    exact (congr_closure htraces scope body).bind_of (ensures_closure scope body) fun f hf =>
      .giving (F.rel_newFunction hscope hf) _
  | call callee args =>
    exact (congr_single hk hscope callee).bind fun f =>
      (congr_each hk hscope args).bind fun args => hk.callFrom hscope place _ f args
  | method object name args =>
    exact (congr_single hk hscope object).bind fun v => (congr_nameString name).bind fun x =>
      (congr_read (hk.apart i) v (.str x)).bind fun f =>
        (congr_consuming hk hscope args).bind fun args =>
          hk.callFrom hscope place _ f (.one v :: args)
  | unary op e =>
    exact (congr_single hk hscope e).bind fun v =>
      (Operator.congr_unary (hk.apart i) op v).giving _
  | binary op l r => exact (congr_binary hk hscope op l r).giving _
  | block b => exact hinner b
  | alien kind => exact .fault _

/-! ## Blocks -/

theorem congr_runStats (labels : List String) (last : Option Results) (stats : List Stat)
    (hdeclare : ∀ st ∈ stats, ∀ x, st.Declares x → F.MayDeclare i scope x) :
    (F.rel i).Holds (runStats k scope labels last stats) (runStats k' scope labels last stats) := by
  induction stats generalizing last with
  | nil => exact .pure last
  | cons st rest ih =>
    have hst := (hk.stat hscope st (hdeclare st mem_cons_self)).bind fun r =>
      .pure (.inl r : Option Results ⊕ Unit)
    refine .bind (F.rel_catch hst fun e => ?_) fun outcome => ?_
    · cases e with
      | goto label => exact .inr ⟨trivial, .ite (.pure _) (.throw nofun)⟩
      | _ => exact .inl rfl
    · cases outcome with
      | inl r => exact ih r fun st hst => hdeclare st (mem_cons_of_mem _ hst)
      | inr _ => exact .pure last

theorem congr_runBlock (b : Block) (hdeclare : ∀ x, b.Declares x → F.MayDeclare i scope x) :
    (F.rel i).Holds (runBlock k scope b) (runBlock k' scope b) := by
  have hstats := congr_runStats hk hscope (labelsOf b) none b.stats
    fun st hst x hx => hdeclare x (.inl ⟨st, hst, hx⟩)
  refine hstats.bind fun last => ?_
  split
  · next r hr =>
    exact (hk.stat hscope r fun x hx => hdeclare x (.inr ⟨r, hr, hx⟩)).giving _
  · exact .pure _

theorem congr_blockValue (b : Block) (hdeclare : ∀ x, b.Declares x → F.MayDeclare i scope x) :
    (F.rel i).Holds (blockValue k scope b) (blockValue k' scope b) := by
  refine F.rel_catch (congr_runBlock hk hscope b hdeclare) fun e => ?_
  cases e with
  | «return» values => exact .inr ⟨trivial, .pure _⟩
  | _ => exact .inl rfl

theorem congr_innerBlock (htraces : F.Traces i) (b : Block) :
    (F.rel i).Holds (innerBlock k scope b) (innerBlock k' scope b) :=
  F.rel_traced htraces (F.rel_pushScope hscope fun _ _ _ hinner hopen _ =>
    congr_runBlock hk hinner b fun x _ => hopen x)

/-! ## Assignment and declaration -/

theorem congr_assignTo (target : Expr) (value : Value) :
    (F.rel i).Holds (assignTo k scope target value) (assignTo k' scope target value) := by
  unfold assignTo
  split
  · exact (congr_nameString _).bind fun x => F.rel_assign scope x value
  · refine (congr_single hk hscope _).bind fun base => .ite ?_ ?_
    · exact (congr_single hk hscope _).bind fun key =>
        congr_write (hk.apart i) base key value
    · exact .bind (.typeName base) fun _ => .error _
  · exact .fault _

theorem congr_assignAll (targets : List Expr) (values : List Value) :
    (F.rel i).Holds (assignAll k scope targets values) (assignAll k' scope targets values) := by
  induction targets generalizing values with
  | nil => exact .pure _
  | cons t ts ih =>
    cases values with
    | nil => exact .pure _
    | cons v vs => exact (congr_assignTo hk hscope t v).bind fun _ => ih vs

theorem congr_localValues (count : Nat) (es : List Expr) :
    (F.rel i).Holds (localValues k scope count es) (localValues k' scope count es) := by
  cases es with
  | nil => exact .pure _
  | cons e es => exact (congr_each hk hscope (e :: es)).giving _

/-! ## Loops -/

theorem congr_guardedRound (hopen : ∀ x, F.MayDeclare i scope x) {goesOn goesOn' : Run Bool}
    (hgoesOn : (F.rel i).Holds goesOn goesOn') (body : Block) :
    (F.rel i).Holds (guardedRound k scope goesOn body) (guardedRound k' scope goesOn' body) :=
  hgoesOn.bind fun _ => .ite
    ((congr_runBlock hk hscope body fun x _ => hopen x).giving _) (.pure _)

theorem congr_holds (cond : Expr) : (F.rel i).Holds (holds k scope cond) (holds k' scope cond) :=
  (congr_single hk hscope cond).giving _

theorem congr_whileLoop (cond : Expr) (body : Block) :
    (F.rel i).Holds (whileLoop k scope cond body) (whileLoop k' scope cond body) := by
  unfold whileLoop
  rw [hk.fuel]
  exact F.rel_pushScope hscope fun _ _ hkept hinner hopen _ => congr_breakable
    (.loop (fun _ => congr_guardedRound hk hinner hopen (congr_holds hk (hkept _ hscope) cond) body) _ _)

theorem congr_repeatRound (hopen : ∀ x, F.MayDeclare i scope x) (body : Block) (cond : Expr) :
    (F.rel i).Holds (repeatRound k scope body cond) (repeatRound k' scope body cond) :=
  (congr_runBlock hk hscope body fun x _ => hopen x).bind fun _ =>
    (congr_holds hk hscope cond).giving _

theorem congr_repeatLoop (body : Block) (cond : Expr) :
    (F.rel i).Holds (repeatLoop k scope body cond) (repeatLoop k' scope body cond) := by
  unfold repeatLoop
  rw [hk.fuel]
  exact F.rel_pushScope hscope fun _ _ _ hinner hopen _ => congr_breakable
    (.loop (fun _ => congr_repeatRound hk hinner hopen body cond) _ _)

theorem congr_countRound (hopen : ∀ x, F.MayDeclare i scope x) (x : Bytes) (p : Progression)
    (body : Block) (value : Number) :
    (F.rel i).Holds (countRound k scope x p body value) (countRound k' scope x p body value) := by
  refine .ite (.bind (F.rel_declare _ (hopen x)) fun _ => ?_) (.pure _)
  exact (congr_runBlock hk hscope body fun x _ => hopen x).bind fun _ =>
    .giving (.ofExcept _) _

theorem congr_countLoop (x : Bytes) (p : Progression) (body : Block) :
    (F.rel i).Holds (countLoop k scope x p body) (countLoop k' scope x p body) := by
  unfold countLoop
  rw [hk.fuel]
  exact .check (.error _) fun _ => F.rel_pushScope hscope fun _ _ _ hinner hopen _ =>
    .loop (congr_countRound hk hinner hopen x p body) _ _

theorem congr_forHead (name : Name) (start stop : Expr) (step : Option Expr) :
    (F.rel i).Holds (forHead k scope name start stop step)
      (forHead k' scope name start stop step) := by
  refine (congr_nameString name).bind fun x => ?_
  refine (congr_single hk hscope start).bind fun v => ?_
  refine (congr_requireNumber _ v).bind fun start => ?_
  refine (congr_single hk hscope stop).bind fun v => ?_
  refine (congr_requireNumber _ v).bind fun limit => ?_
  cases step with
  | none => exact .giving (.ofExcept _) _
  | some e =>
    exact (congr_single hk hscope e).bind fun v =>
      (congr_requireNumber _ v).bind fun _ => .giving (.ofExcept _) _

theorem congr_forLoop (name : Name) (start stop : Expr) (step : Option Expr) (body : Block) :
    (F.rel i).Holds (forLoop k scope name start stop step body)
      (forLoop k' scope name start stop step body) :=
  congr_breakable ((congr_forHead hk hscope name start stop step).bind fun head =>
    congr_countLoop hk hscope head.1 head.2 body)

theorem congr_forInHead (names : List Name) (exprs : List Expr)
    (hdeclare : ∀ name ∈ names, ∀ x, encodeAscii? name.text = .ok x → F.MayDeclare i inner x) :
    (F.rel i).Holds (forInHead k scope inner names exprs)
      (forInHead k' scope inner names exprs) := by
  refine (Holds.mapM congr_nameString names).bind_of (ensures_mapM_nameString names)
    fun xs hxs => ?_
  have hdeclare' : ∀ x ∈ xs, F.MayDeclare i inner x := by
    intro x hx
    obtain ⟨name, hname, hencode⟩ := hxs x hx
    exact hdeclare name hname x hencode
  cases xs with
  | nil => exact (Holds.fault _).bind_of (P := fun _ => False) (ensures_throw _) nofun
  | cons x xs =>
    refine .check (.fault _) fun _ => (congr_declareValues _ _ hdeclare').bind fun _ => ?_
    exact (congr_each hk hscope exprs).bind fun _ =>
      .bind (F.rel_declare _ (hdeclare' x mem_cons_self)) fun _ => .pure _

theorem congr_advance (it : Iteration) (hdeclare : ∀ x ∈ it.names, F.MayDeclare i inner x) :
    (F.rel i).Holds (advance k scope inner it) (advance k' scope inner it) := by
  refine .get_bind fun s s' hs => ?_
  rw [hs.getName]
  exact (hk.within hscope _ _ _).bind fun r => (congr_itemsOf r).bind fun _ =>
    (congr_declareValues _ _ hdeclare).giving _

theorem congr_forInLoop (names : List Name) (exprs : List Expr) (body : Block) :
    (F.rel i).Holds (forInLoop k scope names exprs body) (forInLoop k' scope names exprs body) := by
  unfold forInLoop
  rw [hk.fuel]
  refine congr_breakable (F.rel_pushScope hscope fun _ _ hkept hinner hopen _ => ?_)
  refine (congr_forInHead hk (hkept _ hscope) names exprs fun _ _ x _ => hopen x).bind fun it => ?_
  refine .bind (.loop (fun _ => ?_) _ _) fun _ => .ite (.fault _) (.pure _)
  exact congr_guardedRound hk hinner hopen
    (congr_advance hk (hkept _ hscope) it fun x _ => hopen x) body

/-! ## Definitions of functions -/

theorem congr_defineFunction (htraces : F.Traces i) (name : FuncName) (body : FuncBody) :
    (F.rel i).Holds (defineFunction k scope name body) (defineFunction k' scope name body) := by
  refine (congr_closure htraces scope body).bind_of (ensures_closure scope body) fun f hf => ?_
  generalize hmethod : (if name.method then _ else f) = g
  have hg : g.IsClosure scope body.body := by
    rw [← hmethod]
    split
    · exact ⟨hf.legible.withParam (by decide), hf.code, hf.scope⟩
    · exact hf
  split
  · exact .fault _
  · exact congr_newNamed hscope hg _ fun x v _ => .bind (F.rel_assign scope x v) fun _ => .pure _
  · refine .get_bind fun s s' hs => (congr_nameString _).bind fun first => ?_
    rw [hs.getName]
    exact (congr_followNames hk _ _).bind fun base => congr_newNamed hscope hg _ fun x v _ =>
      (congr_write (hk.apart i) base (.str x) v).giving _

/-! ## All forms -/

theorem congr_branch (otherwise : Option Block) (branches : List (Expr × Block)) :
    (F.rel i).Holds (branch k scope otherwise branches) (branch k' scope otherwise branches) := by
  induction branches with
  | nil => exact .pure _
  | cons b branches ih => exact (congr_single hk hscope b.1).bind fun _ => .ite (.pure _) ih

theorem congr_statForm (htraces : F.Traces i) (place : Place) (f : StatForm)
    (hdeclare : ∀ x, (Stat.mk place f).Declares x → F.MayDeclare i scope x) :
    (F.rel i).Holds (statForm k scope f) (statForm k' scope f) := by
  cases f with
  | empty | label => exact .pure _
  | assign targets values =>
    exact (congr_each hk hscope values).bind fun values =>
      (congr_assignAll hk hscope targets _).giving _
  | expr e => exact .ite ((hk.expr hscope e).giving _) (.fault _)
  | «break» | goto => exact .throw nofun
  | «do» b => exact (congr_innerBlock hk hscope htraces b).giving _
  | «while» cond body => exact (congr_whileLoop hk hscope cond body).giving _
  | «repeat» body cond => exact (congr_repeatLoop hk hscope body cond).giving _
  | «if» branches otherwise =>
    refine (congr_branch hk hscope otherwise branches).bind fun taken => ?_
    split
    · exact (congr_innerBlock hk hscope htraces _).giving _
    · exact .pure _
  | «for» name start stop step body =>
    exact (congr_forLoop hk hscope name start stop step body).giving _
  | forIn names exprs body =>
    exact (congr_forInLoop hk hscope names exprs body).giving _
  | function name body =>
    exact (congr_defineFunction hk hscope htraces name body).giving _
  | localFunction name body =>
    exact (congr_defineLocal hscope htraces name body hdeclare).giving _
  | «local» names exprs =>
    exact (congr_localValues hk hscope names.length _).bind fun values =>
      (congr_declareAll false names values fun a ha x hx => hdeclare x ⟨a, ha, hx⟩).giving _
  | «return» values =>
    cases values with
    | none => exact .fault _
    | some values =>
      refine (congr_consuming hk hscope values).bind fun rs => .get_bind fun s s' hs => ?_
      rw [flattenAll_of_matches hs]
      refine .throw fun r hr => ?_
      cases hr
      exact ⟨_, rfl⟩
  | block b =>
    exact F.rel_pushScope hscope fun _ _ _ hinner hopen _ =>
      (congr_runBlock hk hinner b fun x _ => hopen x).giving _
  | alien kind => exact .fault _

theorem congr_expression (htraces : F.Traces i) (e : Expr) :
    (F.rel i).Holds (expression k scope e) (expression k' scope e) := by
  unfold expression
  split
  · exact .fault _
  · refine F.rel_traced htraces (congr_form hk hscope htraces (fun b => ?_) e.place _)
    exact F.rel_pushScope hscope fun _ _ _ hinner hopen _ =>
      congr_blockValue hk hinner b fun x _ => hopen x

theorem congr_statement (htraces : F.Traces i) (st : Stat)
    (hdeclare : ∀ x, st.Declares x → F.MayDeclare i scope x) :
    (F.rel i).Holds (statement k scope st) (statement k' scope st) := by
  have hform := congr_statForm hk hscope htraces st.place st.form hdeclare
  unfold statement
  split
  · exact .fault _
  · exact .ite (F.rel_traced htraces hform) (.fault _)
  · exact F.rel_traced htraces hform

end

end Eval

end LuaInterpreter
