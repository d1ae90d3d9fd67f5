import LuaInterpreter.Eval.Expression
import LuaInterpreter.Proofs.Run

/-!
# Two computations, side by side

Several relations between computations are kept by all that computations are put together with, and
hold between each operation of the store and itself. Such a relation then holds between each operation
on values and itself, and between each function of the library and itself. This is said once, for an
arbitrary relation of this kind. A property of single computations is the case of a relation that
looks at one of the two only.
-/

namespace LuaInterpreter

theorem Table.metatable_put (t : Table) (key v : Value) :
    (t.put key v).metatable = t.metatable := by
  rw [Table.put]
  split <;> rfl

theorem Eval.Draft.metatable_putAll (d : Draft) (values : List Value) :
    (d.putAll values).table.metatable = d.table.metatable := by
  induction values generalizing d with
  | nil => rfl
  | cons v vs ih => exact (ih _).trans (Table.metatable_put _ _ _)

/-- A numeral, or one with a minus sign: its value depends on no variable. -/
inductive Expr.IsNumeral : Expr → Prop
  | plain (place : Place) (n : Numeral) : Expr.IsNumeral (.mk place (.numeral n))
  | negated (place : Place) (e : Expr) :
      e.IsNumeral → Expr.IsNumeral (.mk place (.unary .negate e))

def Session.silenced (x : Session) : Session := { x with verbose := false }

/-- Two stores that agree in all that operations and the library look at, where calls come from `p` in
the one and from `q` in the other. They may differ in the code of functions and in whether sessions
are verbose. -/
structure Store.Matches (p q : Nat) (s s' : Store) : Prop where
  tables : s'.tables = s.tables
  files : s'.files = s.files
  objects : s'.objects = s.objects
  hostFunctions : s'.hostFunctions = s.hostFunctions
  world : s'.world = s.world
  scope : ∀ id, s'.scope id = s.scope id
  getName : ∀ id x, s'.getName id x = s.getName id x
  text : ∀ v, s'.text v = s.text v
  describe : ∀ v, s'.describe v = s.describe v
  function : ∀ {α : Type} {g : Function → Option α} (id : Nat), (∀ f c, g { f with code := c } = g f) →
    (s'.function? id).bind g = (s.function? id).bind g
  caller : (s'.scope q).session = (s.scope p).session
  settings : ∀ i, (s'.session i).silenced = (s.session i).silenced

namespace Store.Matches

variable {p q : Nat} {s s' : Store}

theorem refl (p : Nat) (s : Store) : s.Matches p p s where
  tables := rfl
  files := rfl
  objects := rfl
  hostFunctions := rfl
  world := rfl
  scope := fun _ => rfl
  getName := fun _ _ => rfl
  text := fun _ => rfl
  describe := fun _ => rfl
  function := fun _ _ => rfl
  caller := rfl
  settings := fun _ => rfl

variable (h : s.Matches p q s')
include h

theorem table (id : Nat) : s'.table id = s.table id := by
  rw [Store.table, h.tables, Store.table]

theorem file (id : Nat) : s'.file id = s.file id := by
  rw [Store.file, h.files, Store.file]

theorem itemsOf? (r : Results) : s'.itemsOf? r = s.itemsOf? r := by
  unfold Store.itemsOf?
  simp only [Store.items, h.objects]

theorem describeResults (r : Results) : s'.describeResults r = s.describeResults r := by
  cases r with
  | one v => exact h.describe v
  | many items => simp only [Store.describeResults, h.describe]

theorem setting {α : Type} {g : Session → α} (hg : ∀ x, g x.silenced = g x) :
    g (s'.sessionOf q) = g (s.sessionOf p) := by
  rw [Store.sessionOf, Store.sessionOf, h.caller, ← hg, h.settings, hg]

end Store.Matches

/-- A relation between computations that is kept by what computations are put together with, and that
holds between the operations of the store. Calls come from `p` in the first run and from `q` in the
second. -/
structure Congruence where
  p : Nat
  q : Nat
  Rel : {α : Type} → Run α → Run α → Prop
  rel_pure : ∀ {α : Type} (v : α), Rel (pure v) (pure v)
  rel_throw : ∀ {α : Type} (e : Signal), (∀ r, e = .return r → ∃ vs, r = .ofList vs) →
    Rel (throw e : Run α) (throw e)
  rel_bind_of : ∀ {α β : Type} {m m' : Run α} {f f' : α → Run β} {P : α → Prop}, Rel m m' →
    Run.Ensures m P → (∀ v, P v → Rel (f v) (f' v)) → Rel (m >>= f) (m' >>= f')
  rel_get_bind : ∀ {α : Type} {f f' : Store → Run α},
    (∀ s s', s.Matches p q s' → Rel (f s) (f' s')) → Rel (get >>= f) (get >>= f')
  rel_world : ∀ {α : Type} (action : World.Action α), Rel (Run.world action) (Run.world action)
  rel_modifyTable : ∀ (id : Nat) {f : Table → Table},
    (∀ t, t.metatable ≠ some .nil → (f t).metatable ≠ some .nil) →
    Rel (Run.modifyTable id f) (Run.modifyTable id f)
  rel_newTable : ∀ {t : Table}, t.metatable = none → Rel (Run.newTable t) (Run.newTable t)
  rel_newFile : ∀ f : File, Rel (Run.newFile f) (Run.newFile f)
  rel_newObject : ∀ o : HostObject, Rel (Run.newObject o) (Run.newObject o)
  rel_modifyObjects : ∀ f : Array HostObject → Array HostObject,
    Rel (modify fun s => { s with objects := f s.objects } : Run Unit)
      (modify fun s => { s with objects := f s.objects })
  rel_modifySession : ∀ (id : Nat) {f : Session → Session},
    (∀ x, f x.silenced = (f x).silenced) → (∀ x, (f x).root = x.root ∧ (f x).globals = x.globals) →
    Rel (Run.modifySession id f) (Run.modifySession id f)

namespace Congruence

def Holds (R : Congruence) {α : Type} (m m' : Run α) : Prop := R.Rel m m'

abbrev Keeps (R : Congruence) {α : Type} (m : Run α) : Prop := R.Holds m m

variable {R : Congruence} {α β : Type} {m m' : Run α}

namespace Holds

theorem pure (v : α) : R.Holds (pure v : Run α) (pure v) := R.rel_pure v

theorem throw {e : Signal} (he : ∀ r, e = .return r → ∃ vs, r = .ofList vs) :
    R.Holds (throw e : Run α) (throw e) :=
  R.rel_throw e he

variable {f f' : α → Run β} {c : Prop} (v : Value)

theorem bind_of {P : α → Prop} (hm : R.Holds m m') (hP : Run.Ensures m P)
    (hf : ∀ v, P v → R.Holds (f v) (f' v)) : R.Holds (m >>= f) (m' >>= f') :=
  R.rel_bind_of hm hP hf

theorem bind (hm : R.Holds m m') (hf : ∀ v, R.Holds (f v) (f' v)) : R.Holds (m >>= f) (m' >>= f') :=
  hm.bind_of (P := fun _ => True) (fun _ _ _ _ => trivial) fun v _ => hf v

theorem giving (hm : R.Holds m m') (f : α → β) :
    R.Holds (m >>= fun v => .pure (f v)) (m' >>= fun v => .pure (f v)) :=
  hm.bind fun v => .pure (f v)

theorem get_bind {f f' : Store → Run α}
    (hf : ∀ s s', s.Matches R.p R.q s' → R.Holds (f s) (f' s')) :
    R.Holds (get >>= f) (get >>= f') :=
  R.rel_get_bind hf

theorem read {g g' : Store → α} (hg : ∀ s s', s.Matches R.p R.q s' → g' s' = g s)
    (hf : ∀ v, R.Holds (f v) (f' v)) :
    R.Holds (get >>= fun s => f (g s)) (get >>= fun s => f' (g' s)) := by
  refine .get_bind fun s s' hs => ?_
  rw [hg s s' hs]
  exact hf _

theorem fault (f : Fault) : R.Holds (Run.fault f : Run α) (Run.fault f) := .throw nofun

theorem outOfFuel : R.Keeps (MonadExcept.throw .outOfFuel : Run α) := .throw nofun

theorem ofExcept (r : Except Fault α) : R.Keeps (Run.ofExcept r) := by
  cases r with
  | ok v => exact .pure v
  | error f => exact .fault f

theorem error (message : String) : R.Holds (Run.error message : Run α) (Run.error message) :=
  (ofExcept _).bind fun _ => .throw nofun

theorem errorValue : R.Holds (Run.errorValue v : Run α) (Run.errorValue v) :=
  .throw nofun

theorem typeName : R.Keeps (Run.typeName v) := .ofExcept _

theorem typeError (message : String → String) :
    R.Keeps (.typeName v >>= fun x => .error (message x) : Run α) :=
  (typeName v).bind fun _ => .error _

theorem text : R.Keeps (Run.text v) :=
  .read (fun _ _ hs => hs.text v) fun _ => .ofExcept _

theorem world (action : World.Action α) : R.Keeps (Run.world action) :=
  R.rel_world action

theorem newTable {t : Table} (ht : t.metatable = none) : R.Keeps (Run.newTable t) :=
  R.rel_newTable ht

theorem newFile (f : File) : R.Keeps (Run.newFile f) := R.rel_newFile f

theorem newObject (o : HostObject) : R.Keeps (Run.newObject o) :=
  R.rel_newObject o

theorem ite [Decidable c] {n n' : Run α} (hm : R.Holds m m') (hn : R.Holds n n') :
    R.Holds (if c then m else n) (if c then m' else n') := by
  split
  · exact hm
  · exact hn

theorem check [Decidable c] {m m' : Run Unit} {f f' : Unit → Run α} (hm : R.Holds m m')
    (hf : ∀ r, R.Holds (f r) (f' r)) :
    R.Holds (if c then m >>= f else f ()) (if c then m' >>= f' else f' ()) :=
  .ite (hm.bind hf) (hf ())

theorem loop {σ : Type} {step step' : σ → Run (σ ⊕ α)} (hstep : ∀ y, R.Holds (step y) (step' y))
    (fuel : Nat) (y : σ) : R.Holds (.loop fuel step y) (.loop fuel step' y) := by
  induction fuel generalizing y with
  | zero => exact .outOfFuel
  | succ fuel ih =>
    refine (hstep y).bind fun next => ?_
    cases next with
    | inl z => exact ih z
    | inr result => exact .pure result

theorem mapM (hf : ∀ v, R.Holds (f v) (f' v)) (vs : List α) : R.Holds (vs.mapM f) (vs.mapM f') := by
  induction vs with
  | nil => exact .pure []
  | cons v vs ih =>
    rw [List.mapM_cons, List.mapM_cons]
    exact (hf v).bind fun _ => ih.giving _

theorem forIn {f f' : α → β → Run (ForInStep β)} (hf : ∀ v c, R.Holds (f v c) (f' v c))
    (vs : List α) (c : β) : R.Holds (forIn vs c f) (forIn vs c f') := by
  induction vs generalizing c with
  | nil => exact .pure c
  | cons v vs ih =>
    rw [List.forIn_cons, List.forIn_cons]
    refine (hf v c).bind fun next => ?_
    cases next with
    | done c => exact .pure c
    | yield c => exact ih c

end Holds

/-- The relation holds between calls that are made from no scope. -/
def Calls (R : Congruence) (call call' : Caller) : Prop :=
  ∀ f args traced, R.Holds (call f args none traced) (call' f args none traced)

end Congruence

variable {R : Congruence} {call call' : Caller}

/-! ## Raw access and metavalues -/

namespace Run

open Congruence

theorem congr_fileField (key : Value) : R.Keeps (fileField key) := by
  unfold fileField
  split
  · split
    · exact .pure _
    · exact .error _
  · exact .error _

theorem congr_requireKey (k : Value) : R.Keeps (requireKey k) :=
  .ite (.pure _) (.fault _)

variable (v k : Value)

theorem congr_atField {α : Type} {operation : String} {ofTable : Nat → Run α} {ofFile : Run α}
    (htable : ∀ id, R.Keeps (ofTable id)) (hfile : R.Keeps ofFile) :
    R.Keeps (atField operation v k ofTable ofFile) := by
  unfold atField
  split
  · exact (congr_requireKey k).bind fun _ => htable _
  · exact hfile
  · exact .fault _

theorem congr_rawGet : R.Keeps (rawGet v k) :=
  congr_atField v k (fun _ => .read (fun _ _ hs => by rw [hs.table]) fun _ => .pure _)
    (congr_fileField k)

theorem congr_rawPut (value : Value) : R.Keeps (rawPut v k value) :=
  congr_atField v k (fun _ => R.rel_modifyTable _ fun t ht => (t.metatable_put _ _).symm ▸ ht)
    (.error _)

theorem congr_hasField : R.Keeps (hasField v k) := by
  refine congr_atField v k (fun _ => .read (fun _ _ hs => by rw [hs.table]) fun _ => .pure _) ?_
  split <;> exact .pure _

theorem congr_field? : R.Keeps (field? v k) :=
  congr_atField v k (fun _ => .read (fun _ _ hs => by rw [hs.table]) fun _ => .pure _)
    ((congr_fileField k).giving _)

variable (name : String)

theorem congr_metatable (operation : String) : R.Keeps (metatable v operation) := by
  unfold metatable
  split
  · exact .read (fun _ _ hs => by rw [hs.table]) fun _ => .pure _
  · exact .fault _
  · exact .pure _

theorem congr_hasMetavalue : R.Keeps (hasMetavalue v name) :=
  (congr_metatable v _).bind fun mt => .ite (.pure _) (congr_hasField mt _)

theorem congr_metavalue? : R.Keeps (metavalue? v name) :=
  (congr_metatable v _).bind fun mt => .ite (.pure _) (congr_field? mt _)

theorem congr_unaryMetamethod (hcall : R.Calls call call') (v : Value) (name : String) :
    R.Holds (unaryMetamethod call v name) (unaryMetamethod call' v name) := by
  refine (congr_metavalue? v name).bind fun found => ?_
  split
  · exact .pure _
  · exact (hcall _ _ _).giving _

theorem congr_binaryMetamethod (hcall : R.Calls call call') (a b : Value) (name : String) :
    R.Holds (binaryMetamethod call a b name) (binaryMetamethod call' a b name) := by
  have hfound (f : Value) : R.Holds
      (do return some (← call f [.one a, .one b] none true).single : Run (Option Value))
      (do return some (← call' f [.one a, .one b] none true).single) :=
    (hcall _ _ _).giving _
  refine (congr_metavalue? a name).bind fun found => ?_
  cases found with
  | some f => exact hfound f
  | none =>
    refine (congr_metavalue? b name).bind fun found => ?_
    cases found with
    | none => exact .pure _
    | some f => exact hfound f

end Run

open Run Congruence

variable (r : Results)

theorem Run.congr_itemsOr (complaint : String → Fault) : R.Keeps (itemsOr complaint r) := by
  refine .get_bind fun s s' hs => ?_
  rw [hs.itemsOf?]
  split
  · exact .pure _
  · exact .fault _
  · exact .pure _

theorem Run.congr_itemsOf : R.Keeps (itemsOf r) := congr_itemsOr r .notIterable

/-! ## Indexing -/

namespace Index

theorem congr_canDelegate (v : Value) (event : String) : R.Keeps (canDelegate v event) := by
  unfold canDelegate
  split
  any_goals exact .pure _
  exact congr_hasMetavalue v event

theorem congr_follow {α : Type} {a : Access α} {ask ask' : Value → Value → Run α}
    (hraw : ∀ v, R.Keeps (a.raw v)) (hask : ∀ f v, R.Holds (ask f v) (ask' f v)) (fuel : Nat)
    (v : Value) : R.Holds (follow a ask fuel v) (follow a ask' fuel v) := by
  induction fuel generalizing v with
  | zero => exact .outOfFuel
  | succ fuel ih =>
    refine (congr_metavalue? v _).bind fun mv => ?_
    cases mv with
    | none => exact .ite (hraw v) (.typeError v _)
    | some mv =>
      have howns : R.Keeps (owns v a.key) := .ite (congr_hasField v _) (.pure _)
      refine howns.bind fun _ => .ite (hraw v) ?_
      refine (congr_canDelegate mv _).bind fun _ => .ite ?_ (.error _)
      split
      · exact hask _ v
      · exact ih _

theorem chainFuel_of_matches {p q : Nat} {s s' : Store} (hs : s.Matches p q s') :
    chainFuel s' = chainFuel s := by
  rw [chainFuel, hs.tables, chainFuel]

variable (hcall : R.Calls call call')
include hcall

theorem congr_read (v k : Value) : R.Holds (read call v k) (read call' v k) := by
  refine .get_bind fun s s' hs => ?_
  rw [chainFuel_of_matches hs]
  exact congr_follow (congr_rawGet · k) (fun f v => (hcall f _ _).giving _) _ v

theorem congr_write (v k value : Value) :
    R.Holds (write call v k value) (write call' v k value) := by
  refine .get_bind fun s s' hs => ?_
  rw [chainFuel_of_matches hs]
  exact congr_follow (congr_rawPut · k value) (fun f v => (hcall f _ _).giving _) _ v

end Index

/-! ## Operators -/

namespace Operator

variable (hcall : R.Calls call call')
include hcall

theorem congr_equal (a b : Value) (raw : Bool) :
    R.Holds (equal call a b raw) (equal call' a b raw) := by
  refine .ite ((congr_binaryMetamethod hcall a b _).bind fun found => ?_) (.pure _)
  split
  · exact .pure _
  · exact .pure _

theorem congr_compare (order : Number → Number → Bool) (event : String) (a b : Value) :
    R.Holds (compare call order event a b) (compare call' order event a b) := by
  unfold compare
  split
  · exact .pure _
  · exact .fault _
  · refine (congr_binaryMetamethod hcall a b event).bind fun found => ?_
    split
    · exact .pure _
    · exact .bind (.typeName a) fun _ => .typeError b _

theorem congr_onNumbers (naming : Naming) {f : Number → Number → Run Value}
    (hf : ∀ x y, R.Keeps (f x y)) (a b : Value) :
    R.Holds (onNumbers call naming f a b) (onNumbers call' naming f a b) := by
  unfold onNumbers
  split
  · exact hf _ _
  · refine (congr_binaryMetamethod hcall a b naming.event).bind fun found => ?_
    split
    · exact .pure _
    · exact .bind (.typeName a) fun _ => .typeError b _

theorem congr_arithmetic (naming : Naming) (f : Number → Number → Except Fault Number)
    (a b : Value) : R.Holds (arithmetic call naming f a b) (arithmetic call' naming f a b) :=
  congr_onNumbers hcall naming (fun _ _ => .giving (.ofExcept _) _) a b

omit hcall in
theorem congr_toInteger (x : Number) : R.Keeps (toInteger x) := by
  unfold toInteger
  split
  · exact .pure _
  · exact .error _

theorem congr_concat (a b : Value) : R.Holds (concat call a b) (concat call' a b) := by
  unfold concat
  split
  · exact .bind (.ofExcept _) fun _ => .giving (.ofExcept _) _
  · refine (congr_binaryMetamethod hcall a b _).bind fun found => ?_
    split
    · exact .pure _
    · exact .bind (.typeName a) fun _ => .typeError b _

theorem congr_length (v : Value) (raw : Bool) :
    R.Holds (length call v raw) (length call' v raw) := by
  unfold length
  split
  · exact .pure _
  · refine (congr_hasMetavalue v _).bind fun _ => ?_
    extract_lets own
    have hown (found : Option Value) : R.Keeps (own found) := by
      unfold own
      split
      · exact .pure _
      · split
        · exact .read (fun _ _ hs => by rw [hs.table]) fun _ => .pure _
        · exact .pure _
        · exact .typeError v _
    exact .ite ((congr_unaryMetamethod hcall v _).bind hown) (hown none)

theorem congr_onNumber (naming : Naming) {f : Number → Run Value} (hf : ∀ x, R.Keeps (f x))
    (v : Value) : R.Holds (onNumber call naming f v) (onNumber call' naming f v) := by
  unfold onNumber
  split
  · exact hf _
  · refine (congr_unaryMetamethod hcall v naming.event).bind fun found => ?_
    split
    · exact .pure _
    · exact .typeError v _

theorem congr_unary (op : UnaryOp) (v : Value) : R.Holds (unary call op v) (unary call' op v) := by
  cases op with
  | negate => exact congr_onNumber hcall _ (fun _ => .pure _) v
  | not => exact .pure _
  | length => exact congr_length hcall v false
  | bitNot =>
    exact congr_onNumber hcall _ (fun x => (congr_toInteger x).giving _) v

theorem congr_binary (op : BinaryOp) (a b : Value) :
    R.Holds (binary call op a b) (binary call' op a b) := by
  cases op with
  | and | or => exact .pure _
  | lt | le => exact (congr_compare hcall _ _ a b).giving _
  | gt | ge => exact (congr_compare hcall _ _ b a).giving _
  | eq | ne => exact (congr_equal hcall a b false).giving _
  | bitOr | bitXor | bitAnd | shiftLeft | shiftRight =>
    exact congr_onNumbers hcall _ (fun x y => (congr_toInteger x).bind fun _ =>
      (congr_toInteger y).giving _) a b
  | concat => exact congr_concat hcall a b
  | _ =>
    exact congr_arithmetic hcall _ _ a b

end Operator

end LuaInterpreter
