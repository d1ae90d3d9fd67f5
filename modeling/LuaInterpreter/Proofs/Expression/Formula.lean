import LuaInterpreter.Syntax.Reader

/-!
# Formulas

The expressions that are made of constants, names, parentheses and operators, each with its syntax
tree and with its spelling as tokens between single blanks.
-/

namespace LuaInterpreter

open Option List

/-! ## Formulas -/

structure Digits where
  chars : List Char
  ne_nil : chars ≠ []
  isDigit : ∀ c ∈ chars, c.isDigit = true

inductive Sign where
  | plus | minus

def Sign.char : Sign → Char
  | .plus => '+' | .minus => '-'

structure Exponent where
  capital : Bool
  sign : Option Sign
  digits : Digits

def Exponent.mark (x : Exponent) : Char := if x.capital then 'E' else 'e'

def Exponent.signChars (x : Exponent) : List Char := x.sign.toList.map Sign.char

structure DecimalNumeral where
  whole : Digits
  fraction : Option Digits
  exponent : Option Exponent

namespace DecimalNumeral

def fractionChars (n : DecimalNumeral) : List Char :=
  match n.fraction with
  | none => []
  | some f => '.' :: f.chars

def exponentChars (n : DecimalNumeral) : List Char :=
  match n.exponent with
  | none => []
  | some x => x.mark :: (x.signChars ++ x.digits.chars)

def chars (n : DecimalNumeral) : List Char := n.whole.chars ++ (n.fractionChars ++ n.exponentChars)

end DecimalNumeral

/-- A name that does not begin with a reserved word. -/
structure Identifier where
  first : Char
  rest : List Char
  isNameStart : Scan.isNameStart first = true
  isNameChar : ∀ c ∈ rest, Scan.isNameChar c = true
  free : ∀ w ∈ reservedWords, ¬w.toList <+: first :: rest

def Identifier.chars (x : Identifier) : List Char := x.first :: x.rest

inductive Atom where
  | litNil | litTrue | litFalse
  | numeral (n : DecimalNumeral)
  | name (x : Identifier)

inductive Formula where
  | atom (a : Atom)
  | paren (e : Formula)
  | unary (op : UnaryOp) (e : Formula)
  | binary (op : BinaryOp) (l r : Formula)

/-! ### Syntax trees -/

def lexeme (cs : List Char) : Lexeme := { text := String.ofList cs, line := 1 }

def DecimalNumeral.toNumeral (n : DecimalNumeral) : Numeral :=
  .decimal (lexeme n.whole.chars) (n.fraction.map fun f => lexeme f.chars)
    (n.exponent.bind fun x => x.sign.map fun s => lexeme [s.char])
    (n.exponent.map fun x => lexeme x.digits.chars)

def Atom.toForm : Atom → ExprForm
  | .litNil => .litNil
  | .litTrue => .litTrue
  | .litFalse => .litFalse
  | .numeral n => .numeral n.toNumeral
  | .name x => .variable { place := { line := 1 }, lexeme := { text := String.ofList x.chars } }

/-- The syntax tree of a formula that is written on one line. -/
def Formula.toExpr : Formula → Expr
  | .atom a => .mk { line := 1 } a.toForm
  | .paren e => .mk { line := 1 } (.paren e.toExpr)
  | .unary op e => .mk { line := 1 } (.unary op e.toExpr)
  | .binary op l r => .mk { line := 1 } (.binary op l.toExpr r.toExpr)

/-! ### Spelling -/

inductive Formula.Token where
  | atom (a : Atom)
  | lparen | rparen
  | unary (op : UnaryOp)
  | binary (op : BinaryOp)

def Atom.chars : Atom → List Char
  | .litNil => "nil".toList
  | .litTrue => "true".toList
  | .litFalse => "false".toList
  | .numeral n => n.chars
  | .name x => x.chars

namespace Formula

def Token.chars : Token → List Char
  | .atom a => a.chars
  | .lparen => ['(']
  | .rparen => [')']
  | .unary op => op.symbol.toList
  | .binary op => op.symbol.toList

def tokens : Formula → List Token
  | .atom a => [.atom a]
  | .paren e => .lparen :: (e.tokens ++ [.rparen])
  | .unary op e => .unary op :: e.tokens
  | .binary op l r => l.tokens ++ .binary op :: r.tokens

def spell (ts : List Token) : List Char := [' '].intercalate (ts.map Token.chars)

def write (e : Formula) : String := String.ofList (spell e.tokens)

/-! ### Precedence -/

end Formula

/-- How tight a binary operator binds. Unary operators are at level 11. -/
def BinaryOp.level : BinaryOp → Nat
  | .or => 1
  | .and => 2
  | .lt | .le | .gt | .ge | .eq | .ne => 3
  | .bitOr => 4
  | .bitXor => 5
  | .bitAnd => 6
  | .shiftLeft | .shiftRight => 7
  | .concat => 8
  | .add | .subtract => 9
  | .multiply | .divide | .floorDivide | .modulo => 10
  | .power => 12

def UnaryOp.level : Nat := 11

namespace Formula

def level : Formula → Nat
  | .atom _ | .paren _ => 13
  | .unary _ _ => UnaryOp.level
  | .binary op _ _ => op.level

/-- Every operand binds tighter than its operator, except that unary operators may follow each
other. -/
def Tight : Formula → Prop
  | .atom _ => True
  | .paren e => e.Tight
  | .unary _ e => e.Tight ∧ UnaryOp.level ≤ e.level
  | .binary op l r => l.Tight ∧ r.Tight ∧ op.level < l.level ∧ op.level < r.level

def Token.names : Token → Nat
  | .atom (.name _) => 1
  | _ => 0

def names : List Token → Nat
  | [] => 0
  | t :: ts => t.names + names ts

@[simp] theorem names_nil : names [] = 0 := rfl

@[simp] theorem names_cons (t : Token) (ts : List Token) :
    names (t :: ts) = t.names + names ts := rfl

@[simp] theorem names_append (ts us : List Token) : names (ts ++ us) = names ts + names us := by
  induction ts with
  | nil => exact (Nat.zero_add _).symm
  | cons t ts ih => rw [cons_append, names_cons, names_cons, ih, Nat.add_assoc]

/-! ## Where operands and operators are due -/

inductive Mode where
  | operand | operator
deriving DecidableEq

/-- What is due after a token, and inside of how many parentheses. -/
def Token.next? : Token → Mode × Nat → Option (Mode × Nat)
  | .atom _, (.operand, d) => some (.operator, d)
  | .lparen, (.operand, d) => some (.operand, d + 1)
  | .rparen, (.operator, d + 1) => some (.operator, d)
  | .unary _, (.operand, d) => some (.operand, d)
  | .binary _, (.operator, d) => some (.operand, d)
  | _, _ => none

def run : List Token → Mode × Nat → Option (Mode × Nat)
  | [], s => some s
  | t :: ts, s => (t.next? s).bind (run ts)

variable {t : Token} {ts us : List Token} {m m' : Mode} {d d' : Nat} {s s' : Mode × Nat}

@[simp] theorem run_nil : run [] s = some s := rfl

theorem run_append : run (ts ++ us) s = (run ts s).bind (run us) := by
  induction ts generalizing s with
  | nil => rfl
  | cons t ts ih =>
    rw [cons_append, run, run, bind_assoc]
    exact Option.bind_congr fun s' _ => ih

theorem run_append_of_eq_some (h : run ts s = some s') : run (ts ++ us) s = run us s' := by
  rw [run_append, h, bind_some]

theorem Token.next?_deeper (h : t.next? (m, d) = some (m', d')) :
    t.next? (m, d + 1) = some (m', d' + 1) := by
  cases t <;> cases m <;> cases d <;> simp_all [next?]

theorem run_deeper (h : run ts (m, d) = some (m', d')) : run ts (m, d + 1) = some (m', d' + 1) := by
  induction ts generalizing m d with
  | nil =>
    cases h
    rfl
  | cons t ts ih =>
    obtain ⟨⟨m₁, d₁⟩, hnext, hrun⟩ := bind_eq_some_iff.mp h
    rw [run, Token.next?_deeper hnext]
    exact ih hrun

theorem run_deep (h : run ts (m, 0) = some (m', 0)) (d : Nat) : run ts (m, d) = some (m', d) := by
  induction d with
  | zero => exact h
  | succ d ih => exact run_deeper ih

theorem run_tokens (e : Formula) (d : Nat) : run e.tokens (.operand, d) = some (.operator, d) := by
  induction e generalizing d with
  | atom a => rfl
  | paren e ih =>
    rw [tokens, run, Token.next?, bind_some, run_append_of_eq_some (ih (d + 1))]
    rfl
  | unary op e ih =>
    rw [tokens, run, Token.next?, bind_some, ih]
  | binary op l r ihl ihr =>
    rw [tokens, run_append_of_eq_some (ihl d), run, Token.next?, bind_some, ihr]

/-- What is due before the tokens, if a formula ends with them. -/
def Due (m : Mode) (ts : List Token) : Prop := ∃ d, run ts (m, d) = some (.operator, 0)

theorem Due.of_append (h : Due m (ts ++ us)) (hrun : run ts (m, 0) = some (m', 0)) : Due m' us := by
  obtain ⟨d, h⟩ := h
  rw [run_append_of_eq_some (run_deep hrun d)] at h
  exact ⟨d, h⟩

theorem Due.of_cons (h : Due m (t :: ts)) : ∃ d m' d', t.next? (m, d) = some (m', d') ∧ Due m' ts := by
  obtain ⟨d, h⟩ := h
  obtain ⟨⟨m', d'⟩, hnext, hrun⟩ := bind_eq_some_iff.mp h
  exact ⟨d, m', d', hnext, d', hrun⟩

def Token.isOperand : Token → Bool
  | .atom _ | .lparen | .unary _ => true
  | .rparen | .binary _ => false

theorem Due.isOperand (h : Due .operand (t :: ts)) : t.isOperand = true := by
  obtain ⟨d, m', d', hnext, -⟩ := h.of_cons
  cases t with
  | atom _ | lparen | unary _ => rfl
  | rparen | binary _ => cases hnext

/-- Where an operator is due, a parenthesis or a binary operator stands, or nothing. -/
theorem Due.operator (h : Due .operator (t :: ts)) :
    t = .rparen ∧ Due .operator ts ∨ (∃ op, t = .binary op) ∧ Due .operand ts := by
  obtain ⟨d, m', d', hnext, hdue⟩ := h.of_cons
  cases t with
  | rparen =>
    cases d with
    | zero => cases hnext
    | succ d =>
      cases hnext
      exact .inl ⟨rfl, hdue⟩
  | binary op =>
    cases hnext
    exact .inr ⟨⟨op, rfl⟩, hdue⟩
  | _ => cases hnext

/-! ## The outermost operator -/

theorem level_ne_unary (op : BinaryOp) : op.level ≠ UnaryOp.level := by
  cases op <;> decide

/-- What the part of a formula before an operator says about the operator. -/
theorem Tight.cut {e : Formula} {mid more : List Token} {op : BinaryOp} (he : e.Tight)
    (htokens : mid ++ .binary op :: more = e.tokens)
    (hmid : run mid (.operand, 0) = some (.operator, 0)) :
    e.level ≤ op.level ∧ (op.level = e.level → ∃ l r, e = .binary op l r ∧ mid = l.tokens) := by
  induction e generalizing mid more with
  | atom a =>
    cases mid with
    | nil => cases hmid
    | cons t mid => simp [tokens] at htokens
  | paren e ih =>
    cases mid with
    | nil => cases hmid
    | cons t mid =>
      obtain ⟨rfl, hinner⟩ := List.cons.inj htokens
      -- what stands before the operator is a part of `e`, which is inside of the parenthesis
      obtain ⟨more', hinner⟩ : ∃ more', mid ++ .binary op :: more' = e.tokens := by
        rcases List.append_eq_append_iff.mp hinner with ⟨cs, he', hcs⟩ | ⟨cs, -, hcs⟩
        · cases cs with
          | nil => cases hcs
          | cons c cs =>
            obtain ⟨rfl, -⟩ := List.cons.inj hcs
            exact ⟨cs, he'.symm⟩
        · cases cs with
          | nil => cases hcs
          | cons c cs => simp at hcs
      have hrun := run_tokens e 0
      rw [← hinner, run_append] at hrun
      obtain ⟨⟨m, d⟩, hprefix, -⟩ := bind_eq_some_iff.mp hrun
      rw [run, Token.next?, bind_some, run_deeper hprefix] at hmid
      cases hmid
  | unary u e ih =>
    cases mid with
    | nil => cases hmid
    | cons t mid =>
      obtain ⟨rfl, hinner⟩ := List.cons.inj htokens
      have hlevel := (ih he.1 hinner hmid).1
      have hle : UnaryOp.level ≤ op.level := Nat.le_trans he.2 hlevel
      exact ⟨hle, fun heq => absurd heq (level_ne_unary op)⟩
  | binary o l r ihl ihr =>
    obtain ⟨hl, hr, hlevell, hlevelr⟩ := he
    rcases List.append_eq_append_iff.mp htokens with ⟨cs, hl', hcs⟩ | ⟨cs, hmid', hcs⟩
    · cases cs with
      | nil =>
        cases hcs
        exact ⟨Nat.le_refl _, fun _ => ⟨l, r, rfl, by rw [hl', append_nil]⟩⟩
      | cons c cs =>
        obtain ⟨rfl, -⟩ := List.cons.inj hcs
        have hle := (ihl hl hl'.symm hmid).1
        have hlt : (Formula.binary o l r).level < op.level := Nat.lt_of_lt_of_le hlevell hle
        exact ⟨Nat.le_of_lt hlt, fun heq => absurd heq (Nat.ne_of_gt hlt)⟩
    · cases cs with
      | nil =>
        cases hcs
        exact ⟨Nat.le_refl _, fun _ => ⟨l, r, rfl, by rw [hmid', append_nil]⟩⟩
      | cons c cs =>
        obtain ⟨rfl, hr'⟩ := List.cons.inj hcs
        rw [hmid', run_append_of_eq_some (run_tokens l 0)] at hmid
        have hle := (ihr hr hr'.symm hmid).1
        have hlt : (Formula.binary o l r).level < op.level := Nat.lt_of_lt_of_le hlevelr hle
        exact ⟨Nat.le_of_lt hlt, fun heq => absurd heq (Nat.ne_of_gt hlt)⟩

end Formula

end LuaInterpreter
