import LuaInterpreter.Proofs.Chart.Rigid
import LuaInterpreter.Proofs.Expression.Readings

/-!
# Alternatives to the reading of a formula

The text of a formula can be read in other ways than as the formula, but none of them is better. A
reading that weighs as much takes every operator for what it is. Its outermost operator stands
outside of all parentheses, so it binds at least as tight as that of the formula.
-/

namespace LuaInterpreter

open Scan List Production

def Atom.rule : Atom → Production
  | .litNil => .exprNil
  | .litTrue => .exprTrue
  | .litFalse => .exprFalse
  | .numeral _ => .exprNumeral
  | .name _ => .exprPrefix

namespace Formula

def rule : Formula → Production
  | .atom a => a.rule
  | .paren _ => .exprPrefix
  | .unary _ _ => .exprUnary
  | .binary op _ _ => op.rule

theorem category_rule (e : Formula) : e.rule.category = .expr := by
  rcases e with ⟨_ | _ | _ | _ | _⟩ | _ | _ | ⟨op, _, _⟩
  any_goals rfl
  cases op <;> rfl

/-! ## Ranks follow levels -/

variable {op op' : BinaryOp} {x : Production} {b : Nat}

theorem rank_le_of_op_level_le (h : op.level ≤ op'.level) : op.rule.rank ≤ op'.rule.rank := by
  revert op op'
  decide

theorem op_level_eq_of_rule_eq (h : op.rule = op'.rule) : op.level = op'.level := by
  revert op op'
  decide

theorem op_level_lt (op : BinaryOp) : op.level < 13 := by
  cases op <;> decide

theorem rank_unary_le (h : UnaryOp.level ≤ op.level) :
    exprUnary.rank ≤ op.rule.rank := by
  revert h
  cases op <;> decide

theorem rank_op_le_unary (h : op.level ≤ UnaryOp.level) :
    op.rule.rank ≤ exprUnary.rank := by
  revert h
  cases op <;> decide

theorem rank_le_of_level_le {e : Formula} (h : e.level ≤ op.level) :
    e.rule.rank ≤ op.rule.rank := by
  cases e with
  | atom a | paren e => exact absurd h (Nat.not_le_of_lt (op_level_lt op))
  | unary u e => exact rank_unary_le h
  | binary op' l r => exact rank_le_of_op_level_le h

/-- Only a formula that is no tighter than a unary operation begins with a unary operator. -/
theorem Tight.level_le_unary {e : Formula} {u : UnaryOp} {ts : List Token} (he : e.Tight)
    (h : e.tokens = .unary u :: ts) : e.level ≤ UnaryOp.level := by
  induction e generalizing ts with
  | atom a => cases h
  | paren e => cases h
  | unary op e => exact Nat.le_refl _
  | binary op l r ihl =>
    obtain ⟨ts', hl⟩ : ∃ ts', l.tokens = .unary u :: ts' := by
      cases hl : l.tokens with
      | nil =>
        rw [tokens, hl] at h
        cases h
      | cons t ts' =>
        rw [tokens, hl] at h
        exact ⟨ts', by rw [(List.cons.inj h).1]⟩
    exact Nat.le_of_lt (Nat.lt_of_lt_of_le he.2.2.1 (ihl he.1 hl))

theorem rank_le_unary {e : Formula} (h : e.level ≤ UnaryOp.level) :
    e.rule.rank ≤ exprUnary.rank := by
  cases e with
  | atom a | paren e => exact absurd (show 13 ≤ UnaryOp.level from h) (by decide)
  | unary u e => exact Nat.le_refl _
  | binary op l r => exact rank_op_le_unary h

theorem rank_le_exprPrefix {r : Production} (h : r.category = .expr) :
    r.rank ≤ exprPrefix.rank := by
  revert h
  cases r <;> decide

theorem eq_atom_of_tokens {e : Formula} {a : Atom} (h : e.tokens = [.atom a]) : e = .atom a := by
  cases e with
  | atom b =>
    cases h
    rfl
  | paren e => cases h
  | unary op e => cases h
  | binary op l r =>
    rw [tokens] at h
    cases hl : l.tokens with
    | nil =>
      rw [hl] at h
      cases h
    | cons t ts =>
      rw [hl] at h
      simp at h

/-! ## Where a formula stands -/

variable {text : List Char} {s j q k : Nat} {u v w : Int} {m : Mode} {e : Formula} {t : Token}
  {ts us mid : List Token}

theorem After.not_inNumeral (h : After text j us) : ¬InNumeral (text.drop j) := by
  rintro ⟨c, cs, hcs, hc⟩
  have hspace : c = ' ' := (plain_trail us).2 c (by rw [← h.drop_eq, hcs]; rfl)
  subst hspace
  rcases hc with hc | hc | ⟨hc, -⟩ <;> cases hc

/-- Balanced tokens stand between two positions. -/
structure Span (text : List Char) (ts : List Token) (s j : Nat) (us : List Token) : Prop where
  before : At text s (ts ++ us)
  after : After text j us
  due : Due .operator us
  balanced : run ts (.operand, 0) = some (.operator, 0)

namespace Span

section

variable (h : Span text ts s j us)
include h

theorem due_operand : Due .operand (ts ++ us) := by
  obtain ⟨d, hd⟩ := h.due
  exact ⟨d, by rw [run_append_of_eq_some (run_deep h.balanced d), hd]⟩

variable (htext : Plain text)
include htext

theorem of_gap (hgap : Gap text s k) : Span text ts k j us :=
  { h with before := h.before.of_gap htext hgap }

omit htext in
/-- A reading to the end takes every token for what it is, or pays for it. -/
theorem reading {us' : List Token} (hreading : Reading text (ts ++ us) j v m mid us') :
    mid = ts ∧ m = .operator ∧ v ≤ -(names ts : Int) := by
  obtain ⟨rfl, rfl⟩ := h.after.split hreading.after hreading.split
  have hruns := hreading.runs
  rw [h.balanced] at hruns
  cases hruns
  have hweight := hreading.weight
  rw [Mode.penalty] at hweight
  exact ⟨rfl, rfl, by omega⟩

variable {x : Production} {op : BinaryOp}

theorem weight_le (hx : x.category = .expr) (hderives : Derives text x.symbols s j v) :
    v ≤ -(names ts : Int) := by
  rcases (known_of_production htext hx hderives).2 _ h.before h.due_operand with
    ⟨m, mid, us', hreading⟩ | hdead
  · exact (h.reading hreading).2.2
  · exact absurd hdead h.after.not_inNumeral

/-- How an operation divides the tokens, whatever text is skipped behind its operator. -/
theorem operation (hlink : Derives text [.category .expr, op.link] s q u) (hgap : Gap text q k)
    (hx : x.category = .expr) (hderives : Derives text x.symbols k j v) :
    ∃ m mid t mid', ts = mid ++ t :: mid' ∧ Linked text op.rule (ts ++ us) q u m mid t (mid' ++ us) ∧
      u + v + m.penalty ≤ -(names ts : Int) := by
  obtain ⟨hbegun, hspec⟩ := known_of_production htext hx hderives
  rcases linked_of_steps htext (known_of_derives htext hlink) h.before h.due_operand with
    ⟨m, mid, t, us₁, hlinked⟩ | ⟨c, cs, hcs, hc⟩
  · rcases hspec us₁ (hlinked.after.at.of_gap htext hgap) (hlinked.due h.due_operand) with
      ⟨m', mid', us₂, hreading⟩ | hdead
    · have hsplit : ts ++ us = (mid ++ t :: mid') ++ us₂ := by
        rw [hlinked.split, hreading.split, append_assoc, cons_append]
      obtain ⟨rfl, rfl⟩ := h.after.split hreading.after hsplit
      refine ⟨m, mid, t, mid', rfl, ?_, ?_⟩
      · rw [← hreading.split]
        exact hlinked
      · have hweight := hlinked.weight
        have hweight' := hreading.weight
        have hnames := hlinked.names_eq
        rw [names_append, names_cons]
        omega
    · exact absurd hdead h.after.not_inNumeral
  · -- nothing is skipped inside of an operator
    obtain rfl := gap_eq htext hcs (isBlank_of_class (by decide) hc) hgap
    exact absurd hbegun (InOperator.not_begun htext ⟨c, cs, hcs, hc⟩)

end

variable {x : Production} {op : BinaryOp} (htext : Plain text)

include htext

/-- The operator of an operation that reads the text of a formula binds at least as tight, unless
the reading pays for it. -/
theorem level_le (he : e.Tight) (h : Span text e.tokens s j us)
    (hderives : Derives text op.rule.symbols s j v) :
    v < -(names e.tokens : Int) ∨ e.level ≤ op.level := by
  rw [op.symbols_rule] at hderives
  obtain ⟨q, u, v', hlink, hlast, rfl⟩ :=
    @Derives.of_append text [.category .expr, op.link] [.category .expr] s j v hderives
  obtain ⟨x, j', u', v'', hx, hchild, hnil, rfl⟩ := hlast.of_category
  cases hnil
  obtain ⟨m, mid, t, mid', htokens, hlinked, hweight⟩ :=
    h.operation htext hlink (.refl q) hx hchild
  cases m with
  | operand =>
    simp only [Mode.penalty] at hweight
    exact .inl (by omega)
  | operator =>
    obtain ⟨op', rfl, hrule⟩ := hlinked.binary rfl
    rw [← op_level_eq_of_rule_eq hrule]
    exact .inr (he.cut htokens.symm hlinked.runs).1

theorem eq_of_constant {a : Atom} {w : String} (hw : (Terminal.word w).InGrammar)
    (ha : .atom a ∈ operandTokens) (hchars : a.chars = w.toList) (hzero : w ≠ "0")
    (h : Span text e.tokens s j us) (hderives : Derives text [.terminal (.word w)] s j v) :
    e = .atom a := by
  obtain ⟨us', hreading⟩ := constant_steps htext hw ha hchars hzero (known_of_derives htext hderives)
    h.before h.due_operand
  exact eq_atom_of_tokens (h.reading hreading).1.symm

theorem exists_numeral (h : Span text e.tokens s j us) (hx : x.category = .numeral)
    (hderives : Derives text x.symbols s j v) : ∃ n, e = .atom (.numeral n) := by
  obtain ⟨n, us', htokens, -, hafter | hdead⟩ :=
    (known_of_production htext hx hderives).2 _ h.before h.due_operand
  · have hsplit : e.tokens ++ us = [.atom (.numeral n)] ++ us' := htokens
    exact ⟨n, eq_atom_of_tokens (h.after.split hafter hsplit).1⟩
  · exact absurd hdead h.after.not_inNumeral

theorem level_le_unary (he : e.Tight) (h : Span text e.tokens s j us)
    (hderives : Derives text exprUnary.symbols s j v) : e.level ≤ UnaryOp.level := by
  obtain ⟨p', u, v, ⟨-, -, op, hword⟩, -⟩ := known_of_derives htext hderives
  obtain ⟨us', htokens, -⟩ := hword.unary htext h.before h.due_operand
  cases hfirst : e.tokens with
  | nil =>
    have hbalanced := h.balanced
    rw [hfirst] at hbalanced
    cases hbalanced
  | cons t ts =>
    rw [hfirst] at htokens
    obtain ⟨rfl, -⟩ := List.cons.inj htokens
    exact he.level_le_unary hfirst

end Span

theorem expr_cases (hx : x.category = .expr) :
    x ∈ BinaryOp.all.map BinaryOp.rule ∨
      x ∈ [.exprString, .exprVararg, .exprFunction, .exprTable] ∨ x = .exprNil ∨ x = .exprFalse ∨
      x = .exprTrue ∨ x = .exprNumeral ∨ x = .exprUnary ∨ x = .exprPrefix := by
  revert hx
  cases x <;> decide

theorem not_endsInTerminal {c : Category} (h : x.symbols.getLast? = some (.category c)) :
    ¬x.EndsInTerminal := by
  rintro ⟨t, ht⟩
  cases h.symm.trans ht

theorem Span.best (htext : Plain text) (he : e.Tight) (h : Span text e.tokens s j us) :
    Best text e.rule s j (-(names e.tokens : Int)) := by
  intro x v hx hderives
  have hx : x.category = .expr := hx.trans e.category_rule
  have hle := h.weight_le htext hx hderives
  suffices hrank : (v < -(names e.tokens : Int) ∨ e.rule.rank ≤ x.rank) ∧
      (x.EndsInTerminal → e.rule.EndsInTerminal) from ⟨by omega, hrank.2⟩
  rcases expr_cases hx with hmem | hforeign | rfl | rfl | rfl | rfl | rfl | rfl
  · obtain ⟨op, -, rfl⟩ := List.mem_map.mp hmem
    refine ⟨(h.level_le htext he hderives).imp_right rank_le_of_level_le, fun hends => ?_⟩
    exact absurd hends (not_endsInTerminal (by rw [op.symbols_rule]; rfl))
  · exact absurd (known_of_derives htext hderives)
      (not_foreign_steps hforeign htext h.before h.due_operand)
  · obtain rfl : e = .atom .litNil := h.eq_of_constant htext ⟨.exprNil, by decide⟩
      (by simp [operandTokens]) rfl (by decide) hderives
    exact ⟨.inr (Nat.le_refl _), id⟩
  · obtain rfl : e = .atom .litFalse := h.eq_of_constant htext ⟨.exprFalse, by decide⟩
      (by simp [operandTokens]) rfl (by decide) hderives
    exact ⟨.inr (Nat.le_refl _), id⟩
  · obtain rfl : e = .atom .litTrue := h.eq_of_constant htext ⟨.exprTrue, by decide⟩
      (by simp [operandTokens]) rfl (by decide) hderives
    exact ⟨.inr (Nat.le_refl _), id⟩
  · obtain ⟨x, j', u', v', hnumeral, hchild, hnil, -⟩ := hderives.of_category
    cases hnil
    obtain ⟨n, rfl⟩ := h.exists_numeral htext hnumeral hchild
    exact ⟨.inr (Nat.le_refl _), id⟩
  · refine ⟨.inr (rank_le_unary (h.level_le_unary htext he hderives)), fun hends => ?_⟩
    exact absurd hends (not_endsInTerminal rfl)
  · exact ⟨.inr (rank_le_exprPrefix e.category_rule), fun hends => absurd hends (not_endsInTerminal rfl)⟩

/-! ## Where the operands end -/

theorem After.not_inOperator (h : After text j us) : ¬InOperator (text.drop j) := by
  rintro ⟨c, cs, hcs, hc⟩
  have hspace : c = ' ' := (plain_trail us).2 c (by rw [← h.drop_eq, hcs]; rfl)
  rw [hspace] at hc
  cases hc

theorem operand_end (htext : Plain text) (hat : At text s (ts ++ .binary op :: us))
    (hdue : Due .operand (ts ++ .binary op :: us)) (hb : After text b (.binary op :: us))
    (hj : After text j us) (hleft : Derives text [.category .expr] s q v)
    (hword : WordRead text op'.symbol q j) : q = b := by
  have hend {mid us' : List Token} {t : Token} (hafter : After text j us')
      (hsplit : ts ++ .binary op :: us = mid ++ t :: us') : ts = mid ∧ .binary op = t ∧ us = us' := by
    rw [append_cons, append_cons mid] at hsplit
    obtain ⟨htokens, rfl⟩ := hj.split hafter hsplit
    have hlast := append_inj' htokens rfl
    exact ⟨hlast.1, (List.cons.inj hlast.2).1, rfl⟩
  rcases (steps_unit (known_of_derives htext hleft)).2 _ hat hdue with ⟨m, mid, us', hreading⟩ | hdead
  · cases m with
    | operand =>
      obtain ⟨u, us'', rfl, hafter⟩ :=
        hword.exists_unary htext hreading.after.at (hreading.due hdue)
      cases (hend hafter hreading.split).2.1
    | operator =>
      rcases hword.operator htext hreading.after.at (hreading.due hdue) with
        ⟨us'', rfl, hafter⟩ | hin
      · obtain ⟨-, hop, rfl⟩ := hend hafter hreading.split
        rw [← hop] at hreading
        exact hreading.after.eq hb
      · exact absurd hin hj.not_inOperator
  · exact absurd hword (hdead.not_wordRead htext (by cases op' <;> decide))

/-- An operation is not divided at another operator, unless the reading pays for it. -/
theorem Span.right_begin {l r : Formula} (htext : Plain text) (he : (Formula.binary op l r).Tight)
    (h : Span text (Formula.binary op l r).tokens s j us) (hb : After text b (r.tokens ++ us))
    (hlink : Derives text [.category .expr, op.link] s q u) (hgap : Gap text q k)
    (hx : x.category = .expr) (hderives : Derives text x.symbols k j v)
    (hweight : -(names l.tokens : Int) + -(names r.tokens : Int) ≤ u + v) : q = b := by
  obtain ⟨m, mid, t, mid', htokens, hlinked, hle⟩ := h.operation htext hlink hgap hx hderives
  have hnames : names (Formula.binary op l r).tokens = names l.tokens + names r.tokens := by
    rw [tokens, names_append, names_cons]
    exact congrArg _ (Nat.zero_add _)
  cases m with
  | operand =>
    simp only [Mode.penalty] at hle
    omega
  | operator =>
    obtain ⟨op', rfl, hrule⟩ := hlinked.binary rfl
    obtain ⟨l', r', heq, rfl⟩ := (he.cut htokens.symm hlinked.runs).2 (op_level_eq_of_rule_eq hrule)
    obtain ⟨rfl, rfl, rfl⟩ := Formula.binary.inj heq
    obtain rfl : r.tokens = mid' := (List.cons.inj (append_cancel_left htokens)).2
    exact hlinked.after.eq hb

end Formula

end LuaInterpreter
