import LuaInterpreter.Proofs.Expression.Tokens

/-!
# Reading numerals

A decimal numeral in a formula can be read by one production only: the one for the parts that it
has. Productions for fewer parts end inside of it, from where no reading goes on.
-/

namespace LuaInterpreter

open Scan List Terminal DecimalNumeral Exponent

def Sign.word : Sign → String
  | .plus => "+"
  | .minus => "-"

def DecimalNumeral.rule (n : DecimalNumeral) : Production :=
  match n.fraction, n.exponent.map sign with
  | some _, some (some _) => .decimalFractionSigned
  | some _, some none => .decimalFractionExponent
  | some _, none => .decimalFraction
  | none, some (some _) => .decimalSigned
  | none, some none => .decimalExponent
  | none, none => .decimalPlain

namespace Formula

variable {text cs : List Char} {p q k m : Nat} {w : Int} {t : Token} {ts us : List Token}
  {ds : Digits} {n : DecimalNumeral} {x : Exponent}

/-! ## What follows a part of a numeral -/

/-- The characters that an operator or a closing parenthesis begins with. -/
def operatorHeads : List Char :=
  [')', 'o', 'a', '<', '>', '=', '~', '|', '&', '.', '+', '-', '*', '/', '%', '^']

theorem Due.head_mem (h : Due .operator (t :: ts)) : ∀ c ∈ t.chars.head?, c ∈ operatorHeads := by
  rcases h.operator with ⟨rfl, -⟩ | ⟨⟨op, rfl⟩, -⟩
  · intro c hc
    cases hc
    decide
  · intro c hc
    cases op <;> cases hc <;> decide

/-- A terminal that admits none of these characters is not read where an operator is due. -/
theorem not_read_operator {y : Terminal} (htext : Plain text) (hy : y.InGrammar)
    (hheads : operatorHeads.all (!y.admits ·) = true) (hat : At text p ts)
    (hdue : Due .operator ts) (hgap : Gap text p k) : y.read? (text.drop k) ≠ some m := by
  intro hread
  obtain ⟨t, us, rfl, hdrop⟩ := hat.read htext hgap hy hread
  obtain ⟨c, cs, hcs⟩ := exists_cons_of_ne_nil t.chars_ne_nil
  have hadmits := all_eq_true.mp hheads c (hdue.head_mem c (hcs ▸ rfl))
  rw [hdrop, hcs, cons_append] at hread
  rw [admits_of_read? hread] at hadmits
  cases hadmits

theorem Due.trail_head (us : List Token) : ∀ c ∈ (trail us).head?, c.isDigit = false := by
  intro c hc
  rw [(plain_trail us).2 c hc]
  rfl

theorem exponent_head (n : DecimalNumeral) (us : List Token) :
    ∀ c ∈ (n.exponentChars ++ trail us).head?, c.isDigit = false := by
  unfold exponentChars
  split
  · exact Due.trail_head us
  · next x _ =>
    intro c hc
    cases hc
    unfold mark
    split <;> rfl

theorem fraction_head (n : DecimalNumeral) (us : List Token) :
    ∀ c ∈ (n.fractionChars ++ (n.exponentChars ++ trail us)).head?, c.isDigit = false := by
  unfold fractionChars
  split
  · exact exponent_head n us
  · intro c hc
    cases hc
    rfl

theorem read_digits (htext : Plain text) (hdrop : text.drop p = ds.chars ++ cs)
    (hcs : ∀ c ∈ cs.head?, c.isDigit = false) (hgap : Gap text p k)
    (hread : Terminal.digits.read? (text.drop k) = some m) :
    k = p ∧ m = ds.chars.length ∧ text.drop (k + m) = cs ∧ k + m ≤ text.length := by
  obtain ⟨c, rest, hrest⟩ := exists_cons_of_ne_nil ds.ne_nil
  have hc : isBlank c = false := isBlank_of_isTokenChar (ds.plain c (hrest ▸ .head _)).1
  obtain rfl : k = p := gap_eq htext (by rw [hdrop, hrest, cons_append]) hc hgap
  have hm : m = ds.chars.length := by
    rw [hdrop] at hread
    simp only [Terminal.read?, Terminal.read?.positive, spanLength_append ds.isDigit hcs] at hread
    split at hread
    · cases hread
    · exact (Option.some.inj hread).symm
  exact ⟨rfl, hm, hm ▸ drop_past hdrop ds.ne_nil⟩

variable {c : Char}

theorem not_read_digits (htext : Plain text) (hdrop : text.drop p = c :: cs)
    (hblank : isBlank c = false) (hc : c.isDigit = false) (hgap : Gap text p k) :
    Terminal.digits.read? (text.drop k) ≠ some m := by
  intro hread
  obtain rfl := gap_eq htext hdrop hblank hgap
  rw [hdrop] at hread
  cases (admits_of_read? hread).symm.trans hc

theorem exists_numeral (ht : t.isOperand = true) (hchars : t.chars = c :: cs)
    (hc : c.isDigit = true) : ∃ n, t = .atom (.numeral n) := by
  rcases t with ⟨_ | _ | _ | n | y⟩ | _ | _ | op | _
  iterate 3
    cases hchars
    cases hc
  · exact ⟨n, rfl⟩
  · cases hchars
    cases y.isNameStart.symm.trans (isNameStart_of_isDigit hc)
  · cases hchars
    cases hc
  · cases ht
  · cases op <;> cases hchars <;> cases hc
  · cases ht

/-! ## The parts of a numeral -/

theorem read_mark (htext : Plain text) (hdrop : text.drop p = n.exponentChars ++ trail us)
    (hdue : Due .operator us) (hgap : Gap text p k)
    (hread : (Terminal.either 'e' 'E').read? (text.drop k) = some m) :
    ∃ x, n.exponent = some x ∧
      text.drop (k + m) = x.signChars ++ (x.digits.chars ++ trail us) := by
  cases hx : n.exponent with
  | none =>
    rw [exponentChars, hx] at hdrop
    have hat : At text p us := .inr hdrop
    exact absurd hread
      (not_read_operator htext ⟨.decimalExponent, by decide⟩ (by decide) hat hdue hgap)
  | some x =>
    refine ⟨x, rfl, ?_⟩
    rw [exponentChars, hx] at hdrop
    obtain rfl := gap_eq htext hdrop (isBlank_of_isTokenChar x.mark_plain.1) hgap
    rw [hdrop] at hread
    simp only [cons_append, Terminal.read?] at hread
    split at hread
    · obtain rfl := Option.some.inj hread
      rw [drop_add_one_eq_tail_drop, hdrop, cons_append, tail_cons, append_assoc]
    · cases hread

theorem inNumeral_of_exponent (hdrop : text.drop p = n.exponentChars ++ cs)
    (hx : n.exponent = some x) : InNumeral (text.drop p) := by
  rw [exponentChars, hx] at hdrop
  refine ⟨x.mark, _, hdrop, ?_⟩
  unfold mark
  split
  · exact .inr (.inl rfl)
  · exact .inl rfl

theorem inNumeral_of_fraction {f : Digits} (hdrop : text.drop p = n.fractionChars ++ cs)
    (hf : n.fraction = some f) : InNumeral (text.drop p) := by
  rw [fractionChars, hf] at hdrop
  refine ⟨'.', _, hdrop, .inr (.inr ⟨rfl, fun hhead => ?_⟩)⟩
  obtain ⟨c, rest, hrest⟩ := exists_cons_of_ne_nil f.ne_nil
  rw [hrest] at hhead
  cases hhead
  cases f.isDigit '.' (hrest ▸ .head _)

theorem not_hex_of_mem (n : DecimalNumeral) :
    ∀ c ∈ n.chars, (Terminal.either 'x' 'X').admits c = false := by
  have hdigit {c : Char} (hc : c.isDigit = true) : (Terminal.either 'x' 'X').admits c = false := by
    rw [Bool.eq_false_iff]
    intro hadmits
    simp only [Terminal.admits, Bool.or_eq_true, beq_iff_eq] at hadmits
    rcases hadmits with rfl | rfl <;> cases hc
  intro c hc
  simp only [chars, fractionChars, exponentChars,
    mem_append] at hc
  rcases hc with hc | hc | hc
  · exact hdigit (n.whole.isDigit c hc)
  · split at hc
    · cases hc
    · next f _ =>
      rcases mem_cons.mp hc with rfl | hc
      · rfl
      · exact hdigit (f.isDigit c hc)
  · split at hc
    · cases hc
    · next x _ =>
      simp only [mem_cons, mem_append, signChars, mem_map] at hc
      rcases hc with rfl | ⟨s, -, rfl⟩ | hc
      · unfold mark
        split <;> rfl
      · cases s <;> rfl
      · exact hdigit (x.digits.isDigit c hc)

section Steps

variable {Q : Category → Nat → Nat → Int → Prop} {symbols : List Symbol} {r : Production}

variable (htext : Plain text)
include htext

theorem digits_steps (hdrop : text.drop p = ds.chars ++ trail us)
    (hsteps : Steps text Q [.terminal .digits] p q w) : After text q us ∧ w = 0 := by
  obtain ⟨k, m, v, hgap, hread, ⟨rfl, rfl⟩, rfl⟩ := hsteps
  obtain ⟨rfl, rfl, -⟩ := read_digits htext hdrop (Due.trail_head us) hgap hread
  exact ⟨.of_append hdrop ds.ne_nil, rfl⟩

theorem exponent_steps (hdrop : text.drop p = n.exponentChars ++ trail us)
    (hdue : Due .operator us)
    (hsteps : Steps text Q [.terminal (.either 'e' 'E'), .terminal .digits] p q w) :
    n.exponent.map sign = some none ∧ After text q us ∧ w = 0 := by
  obtain ⟨k, m, v, hgap, hread, hsteps, rfl⟩ := hsteps
  obtain ⟨x, hx, hdrop⟩ := read_mark htext hdrop hdue hgap hread
  rw [hx]
  cases hsign : x.sign with
  | none =>
    rw [signChars, hsign] at hdrop
    obtain ⟨hafter, rfl⟩ := digits_steps htext hdrop hsteps
    exact ⟨congrArg some hsign, hafter, rfl⟩
  | some s =>
    rw [signChars, hsign] at hdrop
    obtain ⟨k', m', v', hgap, hread, -⟩ := hsteps
    exact absurd hread (not_read_digits htext hdrop (by cases s <;> rfl) (by cases s <;> rfl) hgap)

theorem fraction_steps (hdrop : text.drop p = n.fractionChars ++ (n.exponentChars ++ trail us))
    (hdue : Due .operator us)
    (hsteps : Steps text Q (.terminal (.word ".") :: .terminal .digits :: symbols) p q w) :
    (∃ f, n.fraction = some f) ∧ ∃ p' ≤ text.length, text.drop p' = n.exponentChars ++ trail us ∧
      Steps text Q symbols p' q w := by
  obtain ⟨k, m, v, hgap, hread, ⟨k', m', v', hgap', hread', hsteps, rfl⟩, rfl⟩ := hsteps
  have hw : (Terminal.word ".").InGrammar := ⟨.decimalFraction, by decide⟩
  obtain rfl : m = 1 := (read?_word hread).1
  cases hf : n.fraction with
  | some f =>
    rw [fractionChars, hf] at hdrop
    obtain rfl := gap_eq htext hdrop rfl hgap
    have hdrop : text.drop (k + 1) = f.chars ++ (n.exponentChars ++ trail us) := by
      rw [drop_add_one_eq_tail_drop, hdrop]
      rfl
    obtain ⟨-, -, hdrop, hle⟩ := read_digits htext hdrop (exponent_head n us) hgap' hread'
    refine ⟨⟨f, rfl⟩, k' + m', hle, hdrop, ?_⟩
    rwa [show (Terminal.word ".").weight + (Terminal.digits.weight + v') = v' from by
      rw [show Terminal.digits.weight = 0 from rfl, show (Terminal.word ".").weight = 0 from rfl,
        Int.zero_add, Int.zero_add]]
  | none =>
    rw [fractionChars, hf, nil_append] at hdrop
    cases hx : n.exponent with
    | some x =>
      rw [exponentChars, hx] at hdrop
      obtain rfl := gap_eq htext hdrop (isBlank_of_isTokenChar x.mark_plain.1) hgap
      rw [hdrop] at hread
      have hadmits := admits_of_read? hread
      unfold mark at hadmits
      split at hadmits <;> cases hadmits
    | none =>
      -- the point is the first one of the operator `..`
      rw [exponentChars, hx] at hdrop
      have hat : At text p us := .inr hdrop
      obtain ⟨t, us', rfl, hdrop'⟩ := hat.read htext hgap hw hread
      rw [hdrop'] at hread
      obtain ⟨-, rest, hrest⟩ := read_word hw hread
      have hpoint : rest = ['.'] := by
        rcases hdue.operator with ⟨rfl, -⟩ | ⟨⟨op, rfl⟩, -⟩
        · cases hrest
        · cases op <;> cases hrest
          rfl
      have hdrop' : text.drop (k + 1) = '.' :: trail us' := by
        rw [drop_add_one_eq_tail_drop, hdrop', hrest, hpoint]
        rfl
      exact absurd hread' (not_read_digits htext hdrop' rfl rfl hgap')

/-- Only a numeral without a fraction goes on with an exponent. -/
theorem fraction_eq_none (hdrop : text.drop p = n.fractionChars ++ (n.exponentChars ++ trail us))
    (hsteps : Steps text Q (.terminal (.either 'e' 'E') :: symbols) p q w) :
    n.fraction = none ∧ text.drop p = n.exponentChars ++ trail us := by
  cases hf : n.fraction with
  | none =>
    rw [fractionChars, hf] at hdrop
    exact ⟨rfl, hdrop⟩
  | some f =>
    rw [fractionChars, hf] at hdrop
    obtain ⟨k, m, -, hgap, hread, -⟩ := hsteps
    obtain rfl := gap_eq htext hdrop rfl hgap
    rw [hdrop] at hread
    cases admits_of_read? hread

variable (hQ : ∀ p q w, Q .sign p q w → w = 0 ∧ ∃ s : Sign, WordRead text s.word p q)
include hQ

theorem signed_steps (hdrop : text.drop p = n.exponentChars ++ trail us) (hdue : Due .operator us)
    (hsteps : Steps text Q [.terminal (.either 'e' 'E'), .category .sign, .terminal .digits] p q w) :
    (∃ s, n.exponent.map sign = some (some s)) ∧ After text q us ∧ w = 0 := by
  obtain ⟨k, m, v, hgap, hread, ⟨p', u, v', hcategory, hsteps, rfl⟩, rfl⟩ := hsteps
  obtain ⟨x, hx, hdrop⟩ := read_mark htext hdrop hdue hgap hread
  obtain ⟨rfl, s', k', m', hgap, hread, rfl⟩ := hQ _ _ _ hcategory
  rw [hx]
  cases hsign : x.sign with
  | none =>
    rw [signChars, hsign] at hdrop
    obtain ⟨c, rest, hrest⟩ := exists_cons_of_ne_nil x.digits.ne_nil
    have hc := x.digits.isDigit c (hrest ▸ .head _)
    have hblank := isBlank_of_isTokenChar (x.digits.plain c (hrest ▸ .head _)).1
    have hdrop : text.drop (k + m) = c :: (rest ++ trail us) := by
      rw [hdrop, hrest]
      rfl
    obtain rfl := gap_eq htext hdrop hblank hgap
    rw [hdrop] at hread
    have hhead : c = s'.char := by
      have hadmits := admits_of_read? hread
      cases s' <;> exact (eq_of_beq hadmits).symm
    rw [hhead] at hc
    cases s' <;> cases hc
  | some s =>
    rw [signChars, hsign] at hdrop
    obtain rfl := gap_eq htext hdrop (by cases s <;> rfl) hgap
    obtain rfl : m' = 1 := by
      obtain ⟨hm, -⟩ := read?_word hread
      cases s' <;> exact hm
    have hdrop : text.drop (k + m + 1) = x.digits.chars ++ trail us := by
      rw [drop_add_one_eq_tail_drop, hdrop]
      rfl
    obtain ⟨hafter, rfl⟩ := digits_steps htext hdrop hsteps
    exact ⟨⟨s, congrArg some hsign⟩, hafter, rfl⟩

/-! ## Numerals -/

/-- What a production of decimal numerals reads behind the first digits. -/
theorem decimal_steps_rest (hr : r.category = .decimalNumeral)
    (hsymbols : r.symbols = .terminal .digits :: symbols) (hp : p ≤ text.length)
    (hdrop : text.drop p = n.fractionChars ++ (n.exponentChars ++ trail us))
    (hdue : Due .operator us) (hsteps : Steps text Q symbols p q w) :
    w = 0 ∧ (r = n.rule ∧ After text q us ∨ InNumeral (text.drop q)) := by
  cases r with
  | decimalPlain =>
    cases hsymbols
    obtain ⟨rfl, rfl⟩ := hsteps
    refine ⟨rfl, ?_⟩
    cases hf : n.fraction with
    | some f => exact .inr (inNumeral_of_fraction hdrop hf)
    | none =>
      rw [fractionChars, hf, nil_append] at hdrop
      cases hx : n.exponent with
      | some x => exact .inr (inNumeral_of_exponent hdrop hx)
      | none =>
        rw [exponentChars, hx] at hdrop
        exact .inl ⟨by rw [rule, hf, hx]; rfl, hdrop, hp⟩
  | decimalFraction =>
    cases hsymbols
    obtain ⟨⟨f, hf⟩, p', hp', hdrop, rfl, rfl⟩ := fraction_steps htext hdrop hdue hsteps
    refine ⟨rfl, ?_⟩
    cases hx : n.exponent with
    | some x => exact .inr (inNumeral_of_exponent hdrop hx)
    | none =>
      rw [exponentChars, hx] at hdrop
      exact .inl ⟨by rw [rule, hf, hx]; rfl, hdrop, hp'⟩
  | decimalFractionExponent =>
    cases hsymbols
    obtain ⟨⟨f, hf⟩, p', -, hdrop, hsteps⟩ := fraction_steps htext hdrop hdue hsteps
    obtain ⟨hx, hafter, rfl⟩ := exponent_steps htext hdrop hdue hsteps
    exact ⟨rfl, .inl ⟨by rw [rule, hf, hx], hafter⟩⟩
  | decimalFractionSigned =>
    cases hsymbols
    obtain ⟨⟨f, hf⟩, p', -, hdrop, hsteps⟩ := fraction_steps htext hdrop hdue hsteps
    obtain ⟨⟨s, hx⟩, hafter, rfl⟩ := signed_steps htext hQ hdrop hdue hsteps
    exact ⟨rfl, .inl ⟨by rw [rule, hf, hx], hafter⟩⟩
  | decimalExponent =>
    cases hsymbols
    obtain ⟨hf, hdrop⟩ := fraction_eq_none htext hdrop hsteps
    obtain ⟨hx, hafter, rfl⟩ := exponent_steps htext hdrop hdue hsteps
    exact ⟨rfl, .inl ⟨by rw [rule, hf, hx], hafter⟩⟩
  | decimalSigned =>
    cases hsymbols
    obtain ⟨hf, hdrop⟩ := fraction_eq_none htext hdrop hsteps
    obtain ⟨⟨s, hx⟩, hafter, rfl⟩ := signed_steps htext hQ hdrop hdue hsteps
    exact ⟨rfl, .inl ⟨by rw [rule, hf, hx], hafter⟩⟩
  | _ => cases hr

/-- A production of decimal numerals reads a numeral to its end if it is the numeral's own. -/
theorem decimal_steps (hr : r.category = .decimalNumeral) (hsteps : Steps text Q r.symbols p q w)
    (hat : At text p ts) (hdue : Due .operand ts) :
    ∃ n us, ts = .atom (.numeral n) :: us ∧ w = 0 ∧
      (r = n.rule ∧ After text q us ∨ InNumeral (text.drop q)) := by
  obtain ⟨rest, hrest⟩ : ∃ rest, r.symbols = .terminal .digits :: rest := by
    cases r <;> first | exact ⟨_, rfl⟩ | cases hr
  rw [hrest] at hsteps
  obtain ⟨k, m, v, hgap, hread, hsteps, rfl⟩ := hsteps
  obtain ⟨t, us, rfl, hdrop⟩ := hat.read htext hgap ⟨.decimalPlain, by decide⟩ hread
  obtain ⟨c, cs, hchars⟩ := exists_cons_of_ne_nil t.chars_ne_nil
  have hc : c.isDigit = true := by
    rw [hdrop, hchars, cons_append] at hread
    exact admits_of_read? hread
  obtain ⟨n, rfl⟩ := exists_numeral hdue.isOperand hchars hc
  simp only [Token.chars, Atom.chars, chars, append_assoc] at hdrop
  obtain ⟨-, -, hdrop, hle⟩ := read_digits htext hdrop (fraction_head n us) (.refl k) hread
  obtain ⟨rfl, hcase⟩ := decimal_steps_rest htext hQ hr hrest hle hdrop hdue hsteps
  exact ⟨n, us, rfl, rfl, hcase⟩

omit hQ in
theorem not_hex_steps (hat : At text p ts) (hdue : Due .operand ts) :
    ¬Steps text Q (.terminal (.word "0") :: .terminal (.either 'x' 'X') :: symbols) p q w := by
  rintro ⟨k, m, v, hgap, hread, ⟨k', m', v', hgap', hread', -⟩, -⟩
  have hw : (Terminal.word "0").InGrammar := ⟨.hexPlain, by decide⟩
  obtain ⟨t, us, rfl, hdrop⟩ := hat.read htext hgap hw hread
  rw [hdrop] at hread
  obtain ⟨rfl, rest, hrest⟩ := read_word hw hread
  obtain ⟨n, rfl⟩ := exists_numeral hdue.isOperand hrest rfl
  have hdrop : text.drop (k + 1) = rest ++ trail us := by
    rw [drop_add_one_eq_tail_drop, hdrop, hrest]
    rfl
  cases rest with
  | cons c rest =>
    have hc : c ∈ n.chars := by
      rw [show n.chars = '0' :: c :: rest from hrest]
      exact .tail _ (.head _)
    obtain rfl := gap_eq htext hdrop (isBlank_of_isTokenChar (n.isTokenChar_of_mem c hc)) hgap'
    rw [hdrop] at hread'
    cases (admits_of_read? hread').symm.trans (not_hex_of_mem n c hc)
  | nil =>
    have hat : At text (k + 1) us := .inr hdrop
    have hdue : Due .operator us := hdue.next rfl
    exact not_read_operator htext ⟨.hexPlain, by decide⟩ (by decide) hat hdue hgap' hread'

end Steps

end Formula

end LuaInterpreter
