import LuaInterpreter.CommandLine.Program
import LuaInterpreter.Proofs.Call
import LuaInterpreter.Proofs.ReachedScopes

/-!
# What `...` stands for

The extra arguments of a call are kept with the scope of the call. A name is looked up in one scope
after the other, but `...` in the scope at hand only, and every construct runs its blocks in a scope
of its own. So `...` stands for the extra arguments among the statements of the body itself, and for
nothing as soon as a single `do`, `if` or loop is around it.
-/

namespace LuaInterpreter

open Run

open Evaluator (withFuel)

/-- A scope of a store, with what `...` stands for in it, if for anything. -/
structure Store.Knows (s : Store) (id : Nat) (xs : Option (List Value)) : Prop where
  lt_size : id < s.scopes.size
  varargs : (s.scope id).varargs = xs

theorem Store.Knows.of_lasts {s t : Store} {id : Nat} {xs : Option (List Value)}
    (h : s.Knows id xs) (hst : s.Lasts False t) : t.Knows id xs :=
  ⟨hst.lt_size h.lt_size, (hst.retain.varargs id h.lt_size).trans h.varargs⟩

namespace CommandLine

theorem mapM_argumentString {arguments : List String} {strings : List Bytes}
    (h : arguments.map Bytes.encodeAscii? = strings.map .ok) (s : Store) :
    arguments.mapM argumentString s = .ok (strings.map .str) s := by
  induction arguments generalizing strings with
  | nil =>
    obtain rfl := List.map_eq_nil_iff.mp h.symm
    rfl
  | cons a rest ih =>
    obtain ⟨b, strings, rfl, hb, hrest⟩ := List.map_eq_cons_iff.mp h.symm
    have ha : argumentString a s = .ok (.str b) s := by
      rw [argumentString, ← hb]
      rfl
    rw [List.mapM_cons, bind_of_ok ha, bind_of_ok (ih hrest.symm)]
    rfl

theorem knows_passArguments {session : Session} {command : List String} {o : Options}
    {script : String} {strings : List Bytes} {s t : Store}
    (hscript : present o.script = some script)
    (hstrings : o.arguments.map Bytes.encodeAscii? = strings.map .ok)
    (hroot : session.root < s.scopes.size) (h : passArguments session command o s = .ok () t) :
    t.Knows session.root (some (strings.map .str)) := by
  simp only [passArguments, hscript] at h
  obtain ⟨table, u, htable, h⟩ := bind_eq_ok_iff.mp h
  rw [bind_of_ok (mapM_argumentString hstrings u)] at h
  obtain ⟨_, v, hset, h⟩ := bind_eq_ok_iff.mp h
  obtain ⟨globals, w, hnew, h⟩ := bind_eq_ok_iff.mp h
  have hsu : s.Lasts False u := by
    refine Run.Confined.onward_of_ok (.bind (.mapM (fun a => ?_) _) fun _ => .pure _) htable
    rw [argumentString]
    split
    · exact .pure _
    · exact .fault _
  have hv : v.Knows session.root (some (strings.map .str)) := by
    cases hset
    have hlt : session.root < u.scopes.size := hsu.lt_size hroot
    refine ⟨Nat.lt_of_lt_of_eq hlt Array.size_modify.symm, ?_⟩
    exact (congrArg Scope.varargs (scope_setVarargs _ _ u _)).trans (if_pos ⟨rfl, hlt⟩)
  exact (hv.of_lasts (final_of_ok hnew ▸ lasts_newTable v table)).of_lasts
    ((confined_setGlobal _ _ _).onward_of_ok h)

end CommandLine

namespace Eval

/-! ## Bodies with extra arguments -/

/-- A body is about to be run in a scope, with extra arguments for `...`. It is that of a variadic
function, the script of a command line, or a chunk run in a new session. -/
inductive Given : List Value → Nat → Block → Store → Prop
  | called {s : Store} {id parent : Nat} {f : Function} {body : Block} (args : List Results) :
      s.function? id = some f → f.code = .block body → f.scope = some parent →
      f.variadic = true →
      Given ((Results.flatten args).drop f.params.length) s.scopes.size body (entry s f parent args)
  | script {session : Session} {command : List String} {o : Options}
      {script text name : String} {strings : List Bytes} {chunk : Chunk} {s t u : Store} :
      CommandLine.present o.script = some script →
      o.arguments.map Bytes.encodeAscii? = strings.map Except.ok → session.root < s.scopes.size →
      CommandLine.passArguments session command o s = .ok () t → t.Onward u →
      readChunk text = .ok chunk →
      Given (strings.map .str) session.root (chunk.stamp name).block u
  | chunk {text name : String} {chunk : Chunk} {root : Nat} {s t u : Store} :
      newRoot s = .ok root t → t.Onward u → readChunk text = .ok chunk →
      Given [] root (chunk.stamp name).block u

theorem Given.varargs {xs : List Value} {scope : Nat} {body : Block} {s : Store}
    (h : Given xs scope body s) : s.Knows scope (some xs) := by
  cases h with
  | @called s id parent f _ args _ _ _ hvariadic =>
    refine ⟨by rw [entry, Array.size_push]; exact Nat.lt_succ_self _, ?_⟩
    rw [scope_entry, frame, bind_varargs, if_pos hvariadic]
  | script hscript hstrings hroot hpass honward _ =>
    exact (CommandLine.knows_passArguments hscript hstrings hroot hpass).of_lasts honward.lasts
  | @chunk _ _ _ _ s t _ hroot honward _ =>
    obtain ⟨_, hnew, hopens⟩ := newRoot_eq s
    cases hnew.symm.trans hroot
    refine .of_lasts ⟨?_, ?_⟩ honward.lasts
    · rw [hopens.size_scopes]
      exact Nat.lt_succ_self _
    · rw [hopens.scope, if_pos rfl]

/-! ## Scopes of blocks -/

section

variable {k : Evaluator} {scope inner : Nat} {b : Block} {s t : Store}

/-- What a construct runs a block in is a scope of its own, in which `...` stands for nothing. -/
theorem Enters.bare (hk : k.Confined False) {form : StatForm}
    (h : Enters k scope form s inner b t) : t.Knows inner none := by
  obtain ⟨u, v, -, hpush, hlasts⟩ := h.lasts hk False.elim
  have hinner := scope_of_pushScope hpush
  exact .of_lasts ⟨Store.lt_size_of_parent_eq_some (congrArg Scope.parent hinner),
    congrArg Scope.varargs hinner⟩ hlasts

/-- A statement is reached in the scope that the run of the block started in, or in one that knows
no extra arguments either. -/
theorem Reaches.bare {n : Nat} {p : Point} (h : Reaches n scope b s p) (hs : s.Knows scope none) :
    p.store.Knows p.scope none := by
  induction h with
  | @here n _ _ _ _ _ hin =>
    exact hs.of_lasts (hin.lasts (Evaluator.confined_withFuel False n) False.elim)
  | @inside n _ _ _ _ _ _ _ _ _ _ henter _ ih =>
    exact ih (henter.bare (Evaluator.confined_withFuel False n))

/-! ## The value of `...` -/

theorem expression_of_some {e : Expr} (he : e.form = .vararg) {xs : List Value}
    (hs : s.Knows scope (some xs)) : expression k scope e s = .ok (.ofList xs) s := by
  rw [expression, he]
  refine traced_eq_ok_iff.mpr ?_
  rw [form, varargs, get_bind_apply, hs.varargs]
  rfl

theorem expression_of_none {e : Expr} (he : e.form = .vararg) (hs : s.Knows scope none) :
    ∃ err : LuaError, err.message = .ascii "cannot use '...' outside a vararg function" ∧
      expression k scope e s = .error (.error err) s := by
  have hfail : form k (innerValue k) scope e.place .vararg s =
      .error (.error { message := .ascii "cannot use '...' outside a vararg function" }) s := by
    rw [form, varargs, get_bind_apply, hs.varargs]
    rfl
  rw [expression, he]
  obtain ⟨trace, htraced⟩ := traced_of_error hfail
  exact ⟨_, rfl, htraced⟩

end

/-- `...` stands for the extra arguments in the body itself, but not in the blocks within it. Take
the body of a variadic function called with extra arguments, the script of a command line, or a
chunk. From the time a statement of the body is reached on, `...` evaluated in the scope of the body
gives exactly the extra arguments, whatever has happened since. From the time on that a statement of
the body has entered a block of its own, be it `do`, `if`, `while`, `repeat` or one of the `for`
loops, evaluating `...` in the scope of that block is always the same error, and so it is in the
scope of every statement that is reached in the block at whatever depth. -/
theorem varargs_known_in_own_scope_only {xs : List Value} {scope : Nat} {body : Block} {s : Store}
    (hgiven : Given xs scope body s) {e : Expr} (he : e.form = .vararg) (k : Evaluator) :
    (∀ n st t u, InBlock (withFuel n) scope body s st t → t.Onward u →
      expression k scope e u = .ok (.ofList xs) u) ∧
    ∀ n st t inner b v, InBlock (withFuel (n + 1)) scope body s st t →
      Enters (withFuel n) scope st.form t inner b v →
      (∀ u, v.Onward u →
        ∃ err : LuaError, err.message = .ascii "cannot use '...' outside a vararg function" ∧
          expression k inner e u = .error (.error err) u) ∧
      ∀ p, Reaches n inner b v p → ∀ u, p.store.Onward u →
        ∃ err : LuaError, err.message = .ascii "cannot use '...' outside a vararg function" ∧
          expression k p.scope e u = .error (.error err) u := by
  have hk (n : Nat) := Evaluator.confined_withFuel False n
  constructor
  · intro n st t u hin honward
    have hlasts := (hin.lasts (hk n) False.elim).trans honward.lasts
    exact expression_of_some he (hgiven.varargs.of_lasts hlasts)
  · intro n st t inner b v _ henter
    have hbare := henter.bare (hk n)
    exact ⟨fun u honward => expression_of_none he (hbare.of_lasts honward.lasts),
      fun p hreach u honward =>
        expression_of_none he ((hreach.bare hbare).of_lasts honward.lasts)⟩

def dots : Expr := .mk {} .vararg

def returnDots : Stat := .mk {} (.return (some [dots]))

def doReturnDots : Stat := .mk {} (.do (.mk {} [] (some returnDots)))

/-- A function of all its arguments, with the block `do return ... end`. -/
def dotsSample : Function :=
  { params := [], variadic := true, scope := some 0, code := .block (.mk {} [doReturnDots] none) }

/-- A store with one scope and the function. -/
def dotsStore : Store :=
  { functions := #[dotsSample], scopes := #[{ session := 0, parent := none }] }

/-- The store on which the block of the function starts when it is called with `1` and `2`. -/
def dotsCalled : Store := entry dotsStore dotsSample 0 [.one (.int 1), .one (.int 2)]

/-- The store after the `do` has been entered. -/
def dotsEntered : Store :=
  { dotsCalled with scopes := dotsCalled.scopes.push { session := 0, parent := some 1 } }

/-- Called with `1` and `2`, the function has both of them as `...` in the scope of the call, but
where it comes to return them, in the scope of the `do`, `...` is an error. -/
theorem dotsSample_loses_arguments :
    expression (withFuel 1) 1 dots dotsEntered =
      .ok (.ofList [.int 1, .int 2]) dotsEntered ∧
    Reaches 1 2 (.mk {} [] (some returnDots)) dotsEntered ⟨1, 2, returnDots, dotsEntered⟩ ∧
    ∃ err : LuaError, err.message = .ascii "cannot use '...' outside a vararg function" ∧
      expression (withFuel 1) 2 dots dotsEntered = .error (.error err) dotsEntered := by
  have hfunction : dotsStore.function? 0 = some dotsSample := rfl
  have hgiven : Given [.int 1, .int 2] 1 (.mk {} [doReturnDots] none) dotsCalled :=
    .called [.one (.int 1), .one (.int 2)] hfunction rfl rfl rfl
  have hin (n : Nat) :
      InBlock (withFuel n) 1 (.mk {} [doReturnDots] none) dotsCalled doReturnDots dotsCalled :=
    .stat (List.nil_append _).symm .done
  have hreach : Reaches 1 2 (.mk {} [] (some returnDots)) dotsEntered
      ⟨1, 2, returnDots, dotsEntered⟩ :=
    .here (.ret rfl .done)
  have hentered : dotsCalled.Onward dotsEntered := .scope 1 .refl
  obtain ⟨hown, hinner⟩ := varargs_known_in_own_scope_only hgiven (e := dots) rfl (withFuel 1)
  exact ⟨hown 0 _ _ _ (hin 0) hentered, hreach,
    (hinner 1 _ _ _ _ _ (hin 2) (.inDo rfl)).2 _ hreach _ .refl⟩

end Eval

end LuaInterpreter
