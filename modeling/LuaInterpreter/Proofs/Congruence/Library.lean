import LuaInterpreter.Eval.Call
import LuaInterpreter.Proofs.Congruence

/-!
# The library, side by side

The functions of the library look at the scope that they are called from in few ways only: they call
functions from it, they evaluate numerals in it, and they ask for its session. So a relation that holds
between calls from the two scopes holds between the functions of the library.
-/

namespace LuaInterpreter

open Argument Operator Index

/-- The relation holds between all that the library asks of two evaluators, and between the functions
that the library makes. -/
structure Congruence.Evaluators (R : Congruence) (k k' : Evaluator) : Prop where
  fuel : k'.fuel = k.fuel
  raise : ∀ {α : Type} {m m' : Run α} {onFault : Fault → Run α}, R.Holds m m' →
    (∀ f, R.Holds (onFault f) (onFault f)) →
    R.Holds (m.handle (fun e => throw (.error e)) onFault)
      (m'.handle (fun e => throw (.error e)) onFault)
  apart : R.Calls k.call k'.call
  within : ∀ f args traced,
    R.Holds (k.call f args (some R.p) traced) (k'.call f args (some R.q) traced)
  numeral : ∀ {e : Expr}, e.IsNumeral → R.Holds (Eval.single k R.p e) (Eval.single k' R.q e)
  chunk : ∀ name source,
    R.Holds (BasicLibrary.chunkFunction R.p name source) (BasicLibrary.chunkFunction R.q name source)
  detached : ∀ e : Expr, R.Holds
    (do k.expr (← Run.newScope { session := ((← get).scope R.p).session, parent := none }) e)
    (do k'.expr (← Run.newScope { session := ((← get).scope R.q).session, parent := none }) e)
  iterator : ∀ maker file formats closing,
    R.Holds (IoLibrary.newIterator maker R.p file formats closing)
      (IoLibrary.newIterator maker R.q file formats closing)
  adopt : ∀ id {o : AdoptOptions}, o.getsScope = false →
    R.Holds (Run.adopt id o) (Run.adopt id o)
  relay : ∀ f name, R.Holds
    (Run.newFunction { params := [], variadic := true, scope := none, code := .relay f
                       name := some (.text name), minRequired := some 0 })
    (Run.newFunction { params := [], variadic := true, scope := none, code := .relay f
                       name := some (.text name), minRequired := some 0 })
  converter : ∀ f v, R.Holds (Convert.callConverter k f v) (Convert.callConverter k' f v)

/-- The relation is kept where the message of an error is made a result. -/
def Congruence.Catches (R : Congruence) : Prop :=
  ∀ {m m' : Run (Except Value Results)}, R.Holds m m' → R.Holds
    (tryCatch m fun | .error e => return .error e.message | e => throw e)
    (tryCatch m' fun | .error e => return .error e.message | e => throw e)

open Run Congruence

variable {α : Type} {R : Congruence} {k k' : Evaluator} (hk : R.Evaluators k k')

/-! ## Arguments -/

namespace Argument

variable (v : Value)

theorem congr_content : R.Keeps (content v) := by
  unfold content
  split
  · exact .pure _
  · exact .fault _

theorem congr_number : R.Keeps (number v) := by
  unfold number
  split
  · exact .pure _
  · exact .fault _

theorem congr_string (complaint : String) (v : Value) : R.Keeps (string complaint v) := by
  unfold string
  split
  · exact .pure _
  · exact .error _

theorem congr_wrongType (which function expected : String) (v : Value) :
    R.Keeps (wrongType which function expected v : Run α) :=
  .typeError v _

end Argument

/-! ## The basic library -/

namespace BasicLibrary

variable (base : Value) (args : List Value) (v : Value) (filename : Option Value)

theorem congr_baseDigits (cs : List Char) : R.Keeps (baseDigits base cs) := by
  induction cs with
  | nil => exact .pure _
  | cons c cs ih =>
    unfold baseDigits
    split
    · exact .pure _
    · exact (congr_number base).bind fun _ => .ite (.pure _) (ih.giving _)

theorem congr_digitsNumber (digits : List Nat) : R.Keeps (digitsNumber base digits) := by
  unfold digitsNumber
  split
  · exact .pure _
  · exact .pure _
  · exact .ite (.fault _) (.pure _)
  · exact .fault _

theorem congr_tonumberIn (e base : Value) : R.Keeps (tonumberIn e base) := by
  unfold tonumberIn
  split
  · refine .bind (.ofExcept _) fun text => ?_
    split
    · exact .fault _
    · refine (congr_baseDigits base _).bind fun digits => ?_
      split
      · exact .pure _
      · exact (congr_digitsNumber base _).giving _
  · exact .typeError e _

theorem congr_writeWarning {session session' : Session} (h : session'.warnings = session.warnings)
    (pieces : List Value) :
    R.Holds (writeWarning session pieces) (writeWarning session' pieces) := by
  unfold writeWarning
  rw [h]
  refine .ite (.bind (.world _) fun _ => ?_) (.pure _)
  refine .bind (.forIn (fun v _ => ?_) pieces _) fun _ => .world _
  exact .bind (.text v) fun _ => .giving (.world _) _

theorem congr_warn : R.Holds (warn R.p args) (warn R.q args) := by
  unfold warn
  split
  · exact congr_wrongType _ _ _ _
  · refine .get_bind fun s s' hs => ?_
    split
    · rw [hs.caller]
      have hset (on : Bool) : R.Keeps
          (modifySession (s.scope R.p).session fun session => { session with warnings := on }) :=
        R.rel_modifySession _ (fun _ => rfl) fun _ => ⟨rfl, rfl⟩
      exact .ite (hset false) (.ite (hset true) (.pure _))
    · exact congr_writeWarning (hs.setting (g := Session.warnings) fun _ => rfl) _

theorem congr_setmetatable (mt : Value) : R.Keeps (setmetatable v mt) := by
  refine (congr_hasMetavalue v _).bind fun _ => .check (.error _) fun _ => ?_
  split
  · exact R.rel_modifyTable _ fun _ _ => nofun
  · next hmt => exact R.rel_modifyTable _ fun _ _ h => hmt (Option.some.inj h)
  · exact .pure _
  · exact .typeError v _

theorem congr_ipairsStep (state control : Value) : R.Keeps (ipairsStep state control) := by
  refine (congr_number control).bind fun x => ?_
  split
  · exact .ite (.pure _) (.fault _)
  · exact .ite (.pure _) ((congr_rawGet state _).giving _)

theorem congr_select (index : Value) (args : List Value) : R.Keeps (select index args) := by
  unfold select
  split
  · exact .error _
  · exact .check (.error _) fun _ => .pure _
  · exact .ite (.pure _) (.error _)

theorem congr_withStatus (ok : Bool) (r : Results) : R.Keeps (withStatus ok r) :=
  (congr_itemsOr r _).giving _

theorem congr_inputLine : R.Keeps inputLine := by
  refine .bind (.world _) fun line => ?_
  split
  · exact .pure _
  · exact .throw nofun
  · exact .fault _

theorem congr_sourceOf : R.Keeps (sourceOf filename) := by
  unfold sourceOf
  split
  · exact .giving (.world _) _
  · exact .bind (.world _) fun _ => .giving (.ofExcept _) _
  · exact .error _

include hk

theorem congr_tostring : R.Holds (tostring k R.p v) (tostring k' R.q v) := by
  refine (congr_metavalue? v _).bind fun f => ?_
  split
  · exact hk.within _ _ _
  · refine (congr_metavalue? v _).bind fun name => ?_
    split
    · exact .bind (.ofExcept _) fun _ => .giving (.text v) _
    · exact .giving (.text v) _

theorem congr_numeralValue (bs : Bytes) :
    R.Holds (numeralValue k R.p bs) (numeralValue k' R.q bs) := by
  unfold numeralValue
  extract_lets read
  have hread (digits : String) {f f' : Expr → Run Value}
      (hf : ∀ e : Expr, e.IsNumeral → R.Holds (f e) (f' e)) :
      R.Holds (read digits >>= f) (read digits >>= f') := by
    unfold read
    split
    · exact hf _ (.plain _ _)
    · exact .fault _
  refine .bind (.ofExcept _) fun text => ?_
  split
  · exact .fault _
  · exact hread _ fun e he => hk.numeral (.negated _ e he)
  · exact hread _ fun e he => hk.numeral he
  · exact hread _ fun e he => hk.numeral he

theorem congr_tonumber (e : Value) : R.Holds (tonumber k R.p e) (tonumber k' R.q e) := by
  unfold tonumber
  split
  · exact .pure _
  · exact hk.raise (congr_numeralValue hk _) fun _ => .pure _
  · exact congr_tonumberIn e .nil

theorem congr_printed : R.Holds (printed k R.p v) (printed k' R.q v) := by
  refine (congr_tostring hk v).bind fun r => (congr_itemsOf r).bind fun strings => ?_
  refine .giving (.mapM (fun r => ?_) strings) _
  exact (congr_content _).bind fun bs => .ofExcept _

theorem congr_compile (source : Bytes) (name : Value) :
    R.Holds (compile R.p source name) (compile R.q source name) := by
  refine hk.raise ?_ fun _ => .pure _
  exact (congr_content name).bind fun name => .bind (.ofExcept _)
    fun name => .bind (.ofExcept _) fun source =>
      (hk.chunk name source).giving _

theorem congr_pieces (f : Value) : R.Holds (pieces k f) (pieces k' f) := by
  unfold pieces
  rw [hk.fuel]
  refine .loop (fun acc => (hk.apart f [] true).bind fun r => ?_) _ _
  split
  · exact .pure _
  · split
    any_goals exact .pure _
    exact .error _
  · exact .fault _

theorem congr_load (chunk : Value) (name : Option Value) :
    R.Holds (load k R.p chunk name) (load k' R.q chunk name) := by
  unfold load
  split
  · exact congr_compile hk _ _
  · exact (congr_pieces hk _).bind fun source => congr_compile hk source _
  · exact .error _

theorem congr_loadfile : R.Holds (loadfile R.p filename) (loadfile R.q filename) := by
  unfold loadfile
  split
  · exact hk.raise (congr_inputLine.bind fun _ => congr_compile hk _ _) fun _ => .pure _
  · exact hk.raise (.bind (.world _) fun source => congr_compile hk source _) fun _ => .pure _
  · exact .error _

theorem congr_dofile : R.Holds (dofile k R.p filename) (dofile k' R.q filename) := by
  refine (congr_sourceOf filename).bind fun ⟨name, source⟩ => ?_
  dsimp only
  split
  · exact .fault _
  · exact hk.detached _

theorem congr_protectedCall (hR : R.Catches) (f : Value) (args : List Value)
    {onError onError' : Value → Run Results}
    (hError : ∀ message, R.Holds (onError message) (onError' message)) :
    R.Holds (protectedCall k R.p f args onError) (protectedCall k' R.q f args onError') := by
  refine (hR ((hk.within f _ true).giving _)).bind fun outcome => ?_
  cases outcome with
  | ok r => exact congr_withStatus true r
  | error message => exact hError message

theorem congr_run {b : Builtin} (hb : b = .pcall ∨ b = .xpcall → R.Catches) (args : List Value) :
    R.Holds (run k R.p b args) (run k' R.q b args) := by
  unfold run
  split
  · exact .ite (.pure _) (.ite (.error _) (.errorValue _))
  · exact .fault _
  · exact congr_dofile hk _
  · exact .errorValue _
  · exact ((congr_metatable _ _).bind fun mt =>
      .ite (.pure _) ((congr_field? mt _).giving _)).giving _
  · exact .pure _
  · exact (congr_ipairsStep _ _).giving _
  · exact congr_load hk _ _
  · exact congr_loadfile hk _
  · split
    · exact .read (fun _ _ hs => by rw [hs.table]) fun _ => .pure _
    · exact congr_wrongType _ _ _ _
  · refine (congr_metavalue? _ _).bind fun f => ?_
    split
    · exact hk.within _ _ _
    · exact .pure _
  · exact congr_protectedCall hk (hb (.inl rfl)) _ _ fun _ => .pure _
  · exact .giving (.bind (.mapM (congr_printed hk) _) fun _ => .world _) _
  · exact .pure _
  · split
    · exact (congr_rawGet _ _).giving _
    · exact .error _
  · split
    · exact (congr_length hk.apart _ true).giving _
    · exact (congr_length hk.apart _ true).giving _
    · exact .error _
  · exact (congr_rawPut _ _ _).giving _
  · exact (congr_select _ _).giving _
  · exact (congr_setmetatable _ _).giving _
  · exact (congr_tonumber hk _).giving _
  · exact (congr_tonumberIn _ _).giving _
  · exact congr_tostring hk _
  · exact .giving (.typeName _) _
  · exact (congr_warn _).giving _
  · exact congr_protectedCall hk (hb (.inr rfl)) _ _ fun _ =>
      (hk.within _ _ _).bind fun r => congr_withStatus false r
  · exact .pure _

end BasicLibrary

/-! ## The table library -/

namespace TableLibrary

theorem congr_bound (which function : String) (v : Value) : R.Keeps (bound which function v) := by
  unfold bound
  split
  · exact .pure _
  · exact congr_wrongType _ _ _ _

include hk

variable (list sep source comp : Value)

theorem congr_item (i : Int) : R.Holds (item k list i) (item k' list i) :=
  congr_read hk.apart list _

theorem congr_put (i : Int) (v : Value) : R.Holds (put k list i v) (put k' list i v) :=
  congr_write hk.apart list _ v

theorem congr_joinFrom (count : Nat) (i : Int) (joined : Option Value) :
    R.Holds (joinFrom k list sep count i joined) (joinFrom k' list sep count i joined) := by
  induction count generalizing i joined with
  | zero => exact .pure _
  | succ count ih =>
    refine (congr_item hk list i).bind fun v => ?_
    split
    · exact .bind (.typeName v) fun _ => .bind (.ofExcept _) fun _ => .error _
    · refine .bind ?_ fun front => (congr_concat hk.apart front v).bind fun _ => ih _ _
      cases joined with
      | none => exact .pure _
      | some s => exact congr_concat hk.apart s sep

theorem congr_concat (i j : Value) : R.Holds (concat k list sep i j) (concat k' list sep i j) := by
  refine (congr_compare hk.apart _ _ j i).bind fun _ => .ite (.pure _) ?_
  exact (congr_bound _ _ i).bind fun i => (congr_bound _ _ j).bind fun j =>
    .bind (.ofExcept _) fun i => .bind (.ofExcept _) fun _ =>
      (congr_joinFrom hk list sep _ i none).giving _

theorem congr_copyFrom (target : Value) (step : Int) (count : Nat) (f t : Int) :
    R.Holds (copyFrom k source target step count f t) (copyFrom k' source target step count f t) := by
  induction count generalizing f t with
  | zero => exact .pure _
  | succ count ih =>
    exact (congr_item hk source f).bind fun v => (congr_put hk target t v).bind fun _ => ih _ _

theorem congr_insert (first second : Value) :
    R.Holds (insert k list first second) (insert k' list first second) := by
  refine (congr_length hk.apart list false).bind fun length => ?_
  have hput (pos value : Value) : R.Holds (do
      let m ← bound "#2" "insert" pos
      let last ← Argument.integer (← Argument.number length)
      let i ← Argument.integer m
      copyFrom k list list (-1) (span i last) last (last + 1)
      Index.write k.call list pos value) (do
      let m ← bound "#2" "insert" pos
      let last ← Argument.integer (← Argument.number length)
      let i ← Argument.integer m
      copyFrom k' list list (-1) (span i last) last (last + 1)
      Index.write k'.call list pos value) :=
    (congr_bound _ _ pos).bind fun m => (congr_number length).bind fun last =>
      .bind (.ofExcept _) fun last => .bind (.ofExcept _) fun _ =>
        (congr_copyFrom hk list list _ _ last _).bind fun _ => congr_write hk.apart list pos value
  exact .ite ((congr_arithmetic hk.apart _ _ length _).bind fun pos => hput pos first)
    (hput first second)

theorem congr_move (f e t target : Value) :
    R.Holds (move k source f e t target) (move k' source f e t target) :=
  (congr_bound _ _ f).bind fun _ => (congr_bound _ _ e).bind fun _ =>
    (congr_bound _ _ t).bind fun _ => .bind (.ofExcept _) fun f =>
      .bind (.ofExcept _) fun _ => .bind (.ofExcept _) fun t =>
        (congr_copyFrom hk source _ _ _ f t).giving _

theorem congr_remove (pos : Value) : R.Holds (remove k list pos) (remove k' list pos) := by
  refine (congr_length hk.apart list false).bind fun length => ?_
  refine (congr_read hk.apart list _).bind fun old => ?_
  refine (congr_write hk.apart list _ .nil).bind fun _ => ?_
  split
  · refine .ite ?_ (.pure _)
    exact .bind (.ofExcept _) fun i => .bind (.ofExcept _) fun _ =>
      (congr_copyFrom hk list list _ _ _ i).bind fun _ =>
        (congr_write hk.apart list _ .nil).giving _
  · exact .pure _

theorem congr_outOfOrder (later earlier : Value) :
    R.Holds (outOfOrder k comp later earlier) (outOfOrder k' comp later earlier) := by
  refine .ite (congr_compare hk.apart _ _ earlier later) ?_
  refine (hk.apart comp _ true).bind fun r => ?_
  split
  · exact .pure _
  · exact .pure _

theorem congr_pass (comp : Value) (count : Nat) (i : Int) (swapped : Bool) :
    R.Holds (pass k list comp count i swapped) (pass k' list comp count i swapped) := by
  induction count generalizing i swapped with
  | zero => exact .pure _
  | succ count ih =>
    refine (congr_item hk list _).bind fun later => (congr_item hk list i).bind fun earlier => ?_
    refine (congr_outOfOrder hk comp later earlier).bind fun _ => .ite ?_ (ih _ _)
    exact (congr_item hk list _).bind fun later => (congr_item hk list i).bind fun earlier =>
      (congr_put hk list _ earlier).bind fun _ => (congr_put hk list i later).bind fun _ =>
        ih _ _

theorem congr_sort : R.Holds (sort k list comp) (sort k' list comp) := by
  unfold sort
  rw [hk.fuel]
  exact (congr_length hk.apart list false).bind fun length =>
    (congr_number length).bind fun m => .bind (.ofExcept _) fun _ =>
      .loop (fun _ => (congr_pass hk list comp _ 1 false).giving _) _ _

theorem congr_valuesFrom (count : Nat) (i : Int) :
    R.Holds (valuesFrom k list count i) (valuesFrom k' list count i) := by
  induction count generalizing i with
  | zero => exact .pure _
  | succ count ih => exact (congr_item hk list i).bind fun _ => (ih _).giving _

theorem congr_unpack (i j : Value) : R.Holds (unpack k list i j) (unpack k' list i j) := by
  refine (congr_bound _ _ _).bind fun i => ?_
  have hvalues (j : Value) : R.Holds (do
      let j ← bound "#3" "unpack" j
      let i ← Argument.integer i
      let j ← Argument.integer j
      valuesFrom k list (span i j) i) (do
      let j ← bound "#3" "unpack" j
      let i ← Argument.integer i
      let j ← Argument.integer j
      valuesFrom k' list (span i j) i) :=
    (congr_bound _ _ j).bind fun j => .bind (.ofExcept _) fun i =>
      .bind (.ofExcept _) fun _ => congr_valuesFrom hk list _ i
  exact .ite ((congr_length hk.apart list false).bind hvalues) (hvalues j)

theorem congr_run (b : Builtin) (args : List Value) : R.Holds (run k b args) (run k' b args) := by
  unfold run
  split
  · have hjoin (list sep i j : Value) : R.Holds
        (do return .ofList [← concat k list sep i j])
        (do return Results.ofList [← concat k' list sep i j]) :=
      (congr_concat hk list sep i j).giving _
    split
    · exact hjoin _ _ _ _
    · exact (congr_length hk.apart _ false).bind fun j => hjoin _ _ _ j
  · exact (congr_insert hk _ _ _).giving _
  · exact (congr_move hk _ _ _ _ _).giving _
  · exact .giving (.newTable ((Table.metatable_put _ _ _).trans
      (Eval.Draft.metatable_putAll _ _))) _
  · exact (congr_remove hk _ _).giving _
  · exact (congr_sort hk _ _).giving _
  · exact (congr_unpack hk _ _ _).giving _
  · exact .pure _

end TableLibrary

/-! ## The operating system library -/

namespace TimeFields

include hk

variable (table : Value) (name : String)

theorem congr_optionalField :
    R.Holds (optionalField k table name) (optionalField k' table name) := by
  refine (congr_read hk.apart table _).bind fun v => ?_
  split
  · exact .pure _
  · exact .pure _
  · exact .error _

theorem congr_requiredField :
    R.Holds (requiredField k table name) (requiredField k' table name) := by
  refine (congr_optionalField hk table name).bind fun f => ?_
  split
  · exact .error _
  · exact .pure _

theorem congr_ofTable : R.Holds (ofTable k table) (ofTable k' table) := by
  refine (congr_requiredField hk table _).bind fun year => ?_
  refine (congr_requiredField hk table _).bind fun month => ?_
  refine (congr_requiredField hk table _).bind fun day => ?_
  refine (congr_optionalField hk table _).bind fun hour => ?_
  refine (congr_optionalField hk table _).bind fun minute => ?_
  refine (congr_optionalField hk table _).bind fun second => ?_
  refine (congr_read hk.apart table _).bind fun isdst => ?_
  split
  · exact .pure _
  · exact .pure _

end TimeFields

namespace OsLibrary

theorem congr_momentOf (time : Value) : R.Keeps (momentOf time) := by
  unfold momentOf
  split
  · exact .read (fun _ _ hs => by rw [hs.world]) fun _ => .ofExcept _
  · exact .ofExcept _
  · exact .typeError time _

theorem congr_formatOf (format : Value) : R.Keeps (formatOf format) := by
  unfold formatOf
  split
  · exact .pure _
  · refine .bind (.ofExcept _) fun text => ?_
    split
    · exact .pure _
    · exact .pure _
  · exact .typeError format _

theorem congr_instant (which : String) (v : Value) : R.Keeps (instant which v) := by
  unfold instant
  split
  · exact .pure _
  · exact congr_wrongType _ _ _ _

theorem congr_difftime (later earlier : Value) : R.Keeps (difftime later earlier) := by
  refine (congr_instant _ later).bind fun a => (congr_instant _ earlier).bind fun b => ?_
  split
  · exact .pure _
  · exact .giving (.ofExcept _) _

theorem congr_execute (command : Value) : R.Keeps (execute command) :=
  (congr_string _ command).bind fun _ => .bind (.ofExcept _) fun _ =>
    .bind (.world _) fun _ => .bind (.world _) fun _ =>
      .giving (.world _) _

variable (code : Option Value) (name : Value) (change : Disk → Except Nat Disk)

theorem congr_exitCode : R.Keeps (exitCode code) := by
  unfold exitCode
  split
  any_goals exact .pure _
  exact .error _

theorem congr_exit (close : Option Value) : R.Keeps (exit code close) := by
  refine (congr_exitCode code).bind fun code => ?_
  split
  · exact .throw nofun
  · split
    · exact .ite (.fault _) (.throw nofun)
    · exact .fault _

theorem congr_getenv : R.Keeps (getenv name) := by
  refine (congr_string _ name).bind fun bs => .bind (.ofExcept _)
    fun text => .get_bind fun s s' hs => ?_
  rw [hs.world]
  split
  · exact .pure _
  · exact .ofExcept _

theorem congr_setlocale (locale : Value) (category : Option Value) :
    R.Keeps (setlocale locale category) := by
  unfold setlocale
  extract_lets choose
  have hchoose (r : Unit) : R.Keeps (choose r) :=
    .ite (.pure _) ((congr_string _ locale).bind fun bs =>
      .giving (.ofExcept _) _)
  split
  · exact hchoose ()
  · exact (congr_content _).bind fun bs => .bind (.ofExcept _) fun _ =>
      .check (.fault _) hchoose

theorem changeDisk_eq_world :
    changeDisk change = .world (fun w => match change w.disk with
      | .ok disk => .ok ([.bool true], { w with disk })
      | .error code => .ok (refused code, w)) := by
  funext s
  simp only [changeDisk, Run.world, StateT.run, get_bind_apply]
  cases change s.world.disk with
  | ok disk => rfl
  | error code => rfl

theorem congr_changeDisk : R.Keeps (changeDisk change) :=
  changeDisk_eq_world change ▸ .world _

theorem congr_rename (old new : Value) : R.Keeps (rename old new) :=
  (congr_string _ old).bind fun _ => (congr_string _ new).bind fun _ =>
    .bind (.ofExcept _) fun _ => .bind (.ofExcept _) fun _ => congr_changeDisk _

theorem congr_tmpname : R.Keeps tmpname :=
  .get_bind fun _ _ hs => by
    rw [hs.world]
    exact (congr_changeDisk _).giving _

include hk

theorem congr_time (table : Value) : R.Holds (time k table) (time k' table) := by
  unfold time
  split
  · exact .read (fun _ _ hs => by rw [hs.world]) fun _ => .pure _
  · exact (TimeFields.congr_ofTable hk table).bind fun _ =>
      .giving (.ofExcept _) _

theorem congr_run (b : Builtin) (args : List Value) : R.Holds (run k b args) (run k' b args) := by
  unfold run
  split
  · exact .read (fun _ _ hs => by rw [hs.world]) fun _ => .pure _
  · exact ((congr_momentOf _).bind fun _ => (congr_formatOf _).bind fun _ =>
      .ite (.newTable rfl) (.pure _)).giving _
  · exact (congr_difftime _ _).giving _
  · exact .pure _
  · exact (congr_execute _).giving _
  · exact congr_exit _ _
  · exact (congr_getenv _).giving _
  · exact ((congr_string _ _).bind fun _ => .bind (.ofExcept _) fun _ =>
      congr_changeDisk _).giving _
  · exact (congr_rename _ _).giving _
  · exact (congr_setlocale _ _).giving _
  · exact (congr_time hk _).giving _
  · exact congr_tmpname.giving _
  · exact .pure _

end OsLibrary

/-! ## The input and output library -/

namespace IoLibrary

theorem congr_streamOf (v : Value) (operation : String) : R.Keeps (streamOf v operation) := by
  unfold streamOf
  split
  · refine .get_bind fun s s' hs => ?_
    rw [hs.file]
    split
    · exact .pure _
    · exact .fault _
  · exact .fault _

theorem congr_requireStream (stream : Option Nat) (operation : String) :
    R.Keeps (requireStream stream operation) := by
  unfold requireStream
  split
  · exact .pure _
  · exact .fault _

variable (stream : Nat) (bs : Bytes) (file : Value) (formats : List Value) (function : String)
  (b : Builtin) (args : List Value)

theorem congr_readCount (count : Int) : R.Keeps (readCount stream count) :=
  .ite (.bind (.world _) fun _ => .ite (.pure _) (.giving (.world _) _)) (.giving (.world _) _)

theorem congr_writeAll {stream stream' : Run Nat} (hstream : R.Holds stream stream')
    (values : List Value) :
    R.Holds (writeAll stream values) (writeAll stream' values) := by
  induction values with
  | nil => exact .pure _
  | cons v values ih =>
    unfold writeAll
    split
    · exact hstream.bind fun _ => .bind (.ofExcept _) fun _ => .bind (.world _) fun _ => ih
    · exact ih

theorem congr_seek (origin offset : Option Value) : R.Keeps (seek file origin offset) :=
  (congr_content _).bind fun _ =>
    .bind (.ite (.pure _) (.ite (.pure _) (.ite (.pure _) (.error _)))) fun _ =>
    (congr_streamOf file _).bind fun _ => (congr_number _).bind fun _ =>
      .bind (.ofExcept _) fun _ => .giving (.world _) _

theorem congr_close : R.Keeps (close file) := by
  refine (congr_streamOf file _).bind fun stream => .bind (.world _) fun _ => ?_
  split
  · refine .get_bind fun s s' hs => ?_
    rw [hs.file]
    split
    · exact .pure _
    · exact .pure _
  · exact .pure _

theorem congr_openFile (name : Value) (mode : Option Value) : R.Keeps (openFile name mode) := by
  refine (congr_string _ _).bind fun mode => ?_
  split
  · exact .error _
  · exact (congr_content name).bind fun _ => .bind (.world _) fun _ =>
      .newFile _

theorem congr_popen (command : Value) (mode : Option Value) : R.Keeps (popen command mode) := by
  unfold popen
  extract_lets withCommand
  have hwithCommand (bs : Bytes) : R.Keeps (withCommand bs) := by
    unfold withCommand
    extract_lets withMode
    have hwithMode (mode : Bytes) : R.Keeps (withMode mode) := by
      refine .check (.error _) fun _ => ?_
      refine .bind (.ofExcept _) fun text => .bind (.world _) fun outcome => ?_
      exact .ite (.bind (.world _) fun _ => .newFile _) (.newFile _)
    split
    · exact .bind (.pure _) hwithMode
    · exact .bind (.pure _) hwithMode
    · exact (congr_wrongType _ _ _ _).bind hwithMode
  split
  · exact .bind (.pure _) hwithCommand
  · exact (congr_wrongType _ _ _ _).bind hwithCommand

theorem congr_sessionNumber : R.Holds (sessionNumber R.p) (sessionNumber R.q) :=
  .read (fun _ _ hs => hs.caller) fun _ => .pure _

theorem congr_currentOutput (operation : String) :
    R.Holds (currentOutput R.p operation) (currentOutput R.q operation) := by
  refine .get_bind fun s s' hs => ?_
  rw [hs.setting (g := Session.output) fun _ => rfl]
  exact congr_requireStream _ operation

include hk

theorem congr_numeralValue? : R.Holds (numeralValue? k R.p bs) (numeralValue? k' R.q bs) := by
  unfold numeralValue?
  split
  · exact .pure _
  · split
    · exact .pure _
    · exact hk.raise ((hk.numeral (.plain _ _)).giving _) fun _ => .pure _

theorem congr_tryNumerals (part : Bytes) (length : Nat) :
    R.Holds (tryNumerals k R.p stream part length) (tryNumerals k' R.q stream part length) := by
  induction length with
  | zero => exact .giving (.world _) _
  | succ length ih =>
    refine (congr_numeralValue? hk _).bind fun found => ?_
    refine .bind (.world _) fun _ => .ite (.pure _) ?_
    split
    · exact .pure _
    · exact ih

theorem congr_readFormat (format : Value) :
    R.Holds (readFormat k R.p file format) (readFormat k' R.q file format) := by
  unfold readFormat
  split
  · exact .bind (.ofExcept _) fun count => (congr_streamOf file _).bind fun stream =>
      congr_readCount stream count
  · refine .ite ?_ (.ite ?_ (.ite ?_ (.ite ?_ (.error _))))
    · exact (congr_streamOf file _).bind fun stream => .bind (.world _) fun part =>
        .ite (.pure _) (congr_tryNumerals hk stream part _)
    all_goals exact (congr_streamOf file _).bind fun _ => .giving (.world _) _

theorem congr_read : R.Holds (read k R.p file formats) (read k' R.q file formats) := by
  unfold read
  split
  · exact (congr_streamOf file _).bind fun _ => .giving (.giving (.world _) _) _
  · exact .mapM (congr_readFormat hk file) _

theorem congr_iterate (closing : Bool) :
    R.Holds (iterate k R.p file formats closing) (iterate k' R.q file formats closing) := by
  refine (congr_read hk file formats).bind fun values => .ite ?_ (.pure _)
  exact (congr_streamOf file _).bind fun _ => .giving (.world _) _

theorem congr_defaultStream (file : Option Value) {current : Session → Option Nat}
    {change : Option Nat → Session → Session}
    (hcurrent : ∀ y : Session, current y.silenced = current y)
    (hchange : ∀ stream y, change stream y.silenced = (change stream y).silenced)
    (hkeep : ∀ stream y, (change stream y).root = y.root ∧ (change stream y).globals = y.globals) :
    R.Holds (defaultStream function R.p file current change)
      (defaultStream function R.q file current change) := by
  have hset (id : Nat) (stream : Option Nat) :
      R.Keeps (modifySession id (change stream)) :=
    R.rel_modifySession id (hchange stream) (hkeep stream)
  refine congr_sessionNumber.bind fun id => ?_
  split
  · exact (hk.raise (.world _) fun _ => .error _).bind fun _ => (hset id _).giving _
  · refine .get_bind fun s s' hs => ?_
    rw [hs.file]
    exact (hset id _).giving _
  · exact .pure _
  · refine .get_bind fun s s' hs => ?_
    rw [← hcurrent (s'.session id), hs.settings, hcurrent]
    exact .giving (.newFile _) _

theorem congr_input (file : Option Value) : R.Holds (input R.p file) (input R.q file) :=
  congr_defaultStream hk _ file (fun _ => rfl) (fun _ _ => rfl) fun _ _ => ⟨rfl, rfl⟩

theorem congr_output (file : Option Value) : R.Holds (output R.p file) (output R.q file) :=
  congr_defaultStream hk _ file (fun _ => rfl) (fun _ _ => rfl) fun _ _ => ⟨rfl, rfl⟩

theorem congr_lines (name : Option Value) (formats : List Value) :
    R.Holds (lines R.p name formats) (lines R.q name formats) := by
  unfold lines
  split
  · refine .get_bind fun s s' hs => ?_
    rw [hs.setting (g := Session.input) fun _ => rfl]
    exact .bind (.newFile _) fun file => .bind (.pure (file, false)) fun source =>
      (hk.iterator _ source.1 formats source.2).giving _
  · exact (congr_content _).bind fun _ => .bind (.world _) fun _ =>
      .bind (.newFile _) fun file => .bind (.pure (file, true)) fun source =>
        (hk.iterator _ source.1 formats source.2).giving _

theorem congr_runMethod : R.Holds (runMethod k R.p b args) (runMethod k' R.q b args) := by
  unfold runMethod
  split
  · exact (congr_close _).giving _
  · exact (congr_streamOf _ _).bind fun _ => .giving (.world _) _
  · exact (hk.iterator _ _ _ _).giving _
  · exact (congr_read hk _ _).giving _
  · exact (congr_seek _ _ _).giving _
  · refine .get_bind fun s s' hs =>
      (BasicLibrary.congr_writeWarning ?_ _).giving _
    exact hs.setting (g := Session.warnings) fun _ => rfl
  · exact (congr_writeAll (congr_streamOf _ _) _).giving _
  · exact .pure _

theorem congr_run : R.Holds (run k R.p b args) (run k' R.q b args) := by
  unfold run
  split
  · exact (congr_currentOutput _).bind fun _ => .giving (.world _) _
  · exact (congr_streamOf _ _).bind fun _ => .giving (.world _) _
  · exact (congr_currentOutput _).bind fun _ => .giving (.world _) _
  · exact (congr_input hk _).giving _
  · exact (congr_lines hk _ _).giving _
  · exact (congr_openFile _ _).giving _
  · exact (congr_output hk _).giving _
  · exact (congr_popen _ _).giving _
  · refine .get_bind fun s s' hs => ?_
    rw [hs.setting (g := Session.input) fun _ => rfl]
    exact (congr_requireStream _ _).bind fun _ => .giving (.giving (.world _) _) _
  · exact .bind (.world _) fun _ => .giving (.newFile _) _
  · split
    · exact (congr_streamOf _ _).bind fun _ => .get_bind fun _ _ hs => by
        rw [hs.world]
        exact .pure _
    · exact .pure _
  · refine .get_bind fun s s' hs => ?_
    rw [hs.setting (g := Session.output) fun _ => rfl]
    exact (congr_writeAll (congr_requireStream _ _) _).bind
      fun _ => .giving (.newFile _) _
  · exact congr_runMethod hk _ _

end IoLibrary

/-! ## Conversion -/

namespace Convert

variable (id : Nat) (r : HostResult) (f : Value)

theorem congr_plainResults : R.Keeps (plainResults r) := by
  unfold plainResults
  split
  any_goals exact .pure _
  exact .giving (.newObject _) _

theorem congr_settle {results results' : HostResult → Run Results}
    (hresults : ∀ r, R.Holds (results r) (results' r)) (o : HostOutcome) :
    R.Holds (settle results o) (settle results' o) := by
  cases o with
  | returned r => exact hresults r
  | raised f => exact .fault f
  | failed message => exact .error message
  | exited code => exact .throw nofun

include hk

/-- The three functions call each other with less fuel. -/
theorem congr_toLuaFrom_fill (fuel : Nat) :
    (∀ memo h, R.Keeps (toLuaFrom fuel memo h)) ∧
    (∀ table memo entries, R.Keeps (fillEntries fuel table memo entries)) ∧
    ∀ table memo i items, R.Keeps (fillItems fuel table memo i items) := by
  induction fuel using Nat.strongRecOn with
  | ind fuel ih =>
    refine ⟨fun memo h => ?_, fun table memo entries => ?_, fun table memo i items => ?_⟩
    · unfold toLuaFrom
      split
      any_goals exact .pure _
      · refine .get_bind fun s s' hs => ?_
        rw [hs.describe]
        exact .bind (.ofExcept _) fun _ => .fault _
      · exact .fault _
      · exact (hk.adopt _ rfl).giving _
      · exact (hk.relay _ _).giving _
      · exact .outOfFuel
      · obtain ⟨-, hentries, hitems⟩ := ih _ (Nat.lt_succ_self _)
        split
        · exact .pure _
        · refine .bind (.newTable rfl) fun v => .get_bind fun s s' hs => ?_
          rw [hs.objects]
          split
          · exact (hentries _ _ _).giving _
          · exact (hitems _ _ _ _).giving _
          · exact (hitems _ _ _ _).giving _
          · exact .pure _
    · unfold fillEntries
      split
      · exact .pure _
      · exact .outOfFuel
      · obtain ⟨hto, hentries, -⟩ := ih _ (Nat.lt_succ_self _)
        exact (hto _ _).bind fun key => (hto _ _).bind fun value =>
          (congr_rawPut _ _ _).bind fun _ => hentries _ _ _
    · unfold fillItems
      split
      · exact .pure _
      · exact .outOfFuel
      · obtain ⟨hto, -, hitems⟩ := ih _ (Nat.lt_succ_self _)
        exact (hto _ _).bind fun value => (congr_rawPut _ _ _).bind fun _ => hitems _ _ _ _

theorem congr_toLua (h : HostValue) : R.Holds (toLua k h) (toLua k' h) := by
  unfold toLua
  rw [hk.fuel]
  exact ((congr_toLuaFrom_fill hk k.fuel).1 [] h).giving _

theorem congr_converter? (mt : Value) : R.Holds (converter? k mt) (converter? k' mt) := by
  refine .ite (.pure _) ((congr_read hk.apart mt _).bind fun v => ?_)
  split
  · exact .pure _
  · exact .pure _
  · exact .bind (.typeName _) fun _ => .error _

theorem congr_toHostFrom_copy (fuel : Nat) :
    (∀ memo v, R.Holds (toHostFrom k fuel memo v) (toHostFrom k' fuel memo v)) ∧
    ∀ dict memo entries, R.Holds (copyEntries k fuel dict memo entries)
      (copyEntries k' fuel dict memo entries) := by
  induction fuel using Nat.strongRecOn with
  | ind fuel ih =>
    refine ⟨fun memo v => ?_, fun dict memo entries => ?_⟩
    · unfold toHostFrom
      split
      any_goals exact .pure _
      · refine .get_bind fun s s' hs => ?_
        rw [hs.function _ (fun _ _ => rfl)]
        exact .giving (.ofExcept _) _
      · exact .outOfFuel
      · obtain ⟨hto, hcopy⟩ := ih _ (Nat.lt_succ_self _)
        split
        · exact .pure _
        · refine (congr_metatable _ _).bind fun mt => (congr_converter? hk mt).bind fun f => ?_
          split
          · refine (hk.converter _ _).bind fun r => ?_
            split
            · exact (hto _ _).giving _
            · refine .get_bind fun s s' hs => ?_
              rw [hs.describeResults]
              exact .bind (.ofExcept _) fun _ => .fault _
          · refine .get_bind fun s s' hs => ?_
            rw [hs.table]
            refine .bind (.newObject _) fun o => ?_
            split
            · exact (hcopy _ _ _).giving _
            · exact .pure _
      · refine .get_bind fun s s' hs => ?_
        rw [hs.describe]
        exact .bind (.ofExcept _) fun _ => .fault _
    · unfold copyEntries
      split
      · exact .pure _
      · exact .outOfFuel
      · obtain ⟨hto, hcopy⟩ := ih _ (Nat.lt_succ_self _)
        exact .ite (hcopy _ _ _) ((hto _ _).bind fun value => (hto _ _).bind fun key =>
          .bind (R.rel_modifyObjects fun objects => objects.modify dict _) fun _ =>
            hcopy _ _ _)

theorem congr_toHost (v : Value) : R.Holds (toHost k v) (toHost k' v) := by
  unfold toHost
  rw [hk.fuel]
  exact ((congr_toHostFrom_copy hk k.fuel).1 [] v).giving _

theorem congr_callCallable (args : List HostValue) :
    R.Holds (callCallable k f args) (callCallable k' f args) :=
  .bind (.mapM (congr_toLua hk) args) fun _ => (hk.apart f _ true).bind
    fun r => (congr_itemsOf r).bind fun results =>
      .mapM (fun r => congr_toHost hk r.single) results

theorem congr_convertedResults : R.Holds (convertedResults k r) (convertedResults k' r) := by
  unfold convertedResults
  split
  · exact (congr_toLua hk _).giving _
  · exact .giving (.mapM (congr_toLua hk) _) _
  · exact .giving (.mapM (congr_toLua hk) _) _

/-- A function that converts its arguments refuses to be told about a scope, and writes the scope into
the complaint. -/
theorem congr_callHost (converting : Bool) {scope scope' : Option Nat}
    (hscope : scope'.isSome = scope.isSome)
    (hdescribe : converting = true → ∀ a ∈ scope, ∀ b ∈ scope', R.Holds
      (do .ofExcept ((← get).describeScope a)) (do .ofExcept ((← get).describeScope b)))
    (args : List Value) :
    R.Holds (callHost k id converting scope args) (callHost k' id converting scope' args) := by
  refine .get_bind fun s s' hs => ?_
  rw [hs.hostFunctions]
  split
  · exact .fault _
  · next f _ =>
    rw [hscope]
    have hconvert := (Holds.mapM (congr_toHost hk) args).bind fun hs =>
      .bind (.ofExcept (f.positional.check f.label scope.isSome hs.length)) fun _ =>
        congr_settle (congr_convertedResults hk) (f.behaviour (fillArguments f (.plain .none) hs))
    split
    · next hc =>
      cases scope with
      | none =>
        cases Option.isNone_iff_eq_none.mp (Option.isSome_eq_false_iff.mp hscope)
        exact hconvert
      | some a =>
        obtain ⟨b, rfl⟩ := Option.isSome_iff_exists.mp hscope
        exact (hdescribe hc a rfl b rfl).bind fun _ => .bind (.fault _) fun _ => hconvert
    · exact .bind (.ofExcept _) fun _ => congr_settle congr_plainResults _

theorem congr_callRelay (args : List Value) : R.Holds (callRelay k f args) (callRelay k' f args) :=
  .bind (.mapM (congr_toHost hk) args) fun hs => (congr_callCallable hk f hs).bind
    fun results => .giving (.mapM (congr_toLua hk) results) _

end Convert

include hk in
theorem Eval.congr_runBuiltin {b : Builtin} (hb : b = .pcall ∨ b = .xpcall → R.Catches)
    (args : List Value) :
    R.Holds (runBuiltin k R.p b args) (runBuiltin k' R.q b args) :=
  .ite (TableLibrary.congr_run hk b args) (.ite (OsLibrary.congr_run hk b args)
    (.ite (IoLibrary.congr_run hk b args) (BasicLibrary.congr_run hk hb args)))

end LuaInterpreter
