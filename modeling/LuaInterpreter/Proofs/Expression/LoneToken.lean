import LuaInterpreter.Proofs.Chart.Recognition
import LuaInterpreter.Proofs.Chart.TreeShape
import LuaInterpreter.Proofs.Expression.Precedence

/-!
# Texts that are one token

A text that is a single token is read as that token if nothing else that an expression can begin with
is read off its front. So a string literal is read as such, whatever it contains, and a name as a
variable, unless it begins with a constant or with `not`.
-/

namespace LuaInterpreter

open List Terminal Scan

/-! ## What expressions begin with -/

/-- The categories that an expression can begin with. -/
def Category.leads : Category → Bool
  | .expr | .prefixExpr | .variable | .call | .numeral | .hexNumeral | .decimalNumeral | .string
  | .table | .unaryOp => true
  | _ => false

/-- The productions by which an expression is a single token. -/
def Terminal.chain : Terminal → List Production
  | .quoted => [.exprString, .string]
  | .name => [.exprPrefix, .prefixVariable, .variableName]
  | _ => []

/-- Each of the productions is the only one of its kind that makes the token of an expression, and
consists of the next one, or of the token in the end. -/
def Terminal.Links (token : Terminal) : List Production → Symbol → Prop
  | [], x => x = .terminal token
  | r :: rs, x => x = .category r.category ∧ r.category.leads = true ∧
      (∀ x ∈ token.chain, x.category = r.category → x = r) ∧
      ∃ y, r.symbols = [y] ∧ token.Links rs y

variable {text : List Char} {token : Terminal} {r : Production} {c : Category} {x : Symbol}
  {rest symbols : List Symbol} {rs : List Production} {p q n : Nat} {w : Int}

theorem Category.consumes_of_leads (h : c.leads = true) : c.consumes = true := by
  revert h
  cases c <;> decide

namespace Production

theorem category_first (htoken : token = .quoted ∨ token = .name) (hr : r.category.leads = true)
    (h : r.symbols = .category c :: rest) : c.leads = true ∧ (rest.any Symbol.consumes = true ∨
      rest = [] ∧ ∀ x ∈ token.chain, x.category = c → r ∈ token.chain) := by
  rcases htoken with rfl | rfl
  all_goals cases r <;> cases h <;> revert hr <;> decide

theorem terminal_first (htoken : token = .quoted ∨ token = .name) (hr : r.category.leads = true)
    (h : r.symbols = .terminal token :: rest) : r ∈ token.chain ∧ rest = [] := by
  rcases htoken with rfl | rfl
  all_goals cases r <;> cases h <;> revert hr <;> decide

end Production

/-- The text is a token, and an expression that is read from its beginning begins with that. -/
structure IsLone (token : Terminal) (text : List Char) : Prop where
  kind : token = .quoted ∨ token = .name
  firm : skips text = []
  whole : token.read? text = some text.length
  first : ∀ (r : Production) (t : Terminal) (rest : List Symbol) (n q : Nat) (w : Int),
    r.category.leads = true → r.symbols = .terminal t :: rest → t.read? text = some n →
    Derives text rest n q w → t = token

/-! ## The derivations of a token -/

theorem Gap.eq_of_skips (hgap : Gap text p q) (h : skips (text.drop p) = []) : q = p := by
  induction hgap with
  | refl => rfl
  | step _ hn ih =>
    rw [ih, h] at hn
    cases hn

theorem Derives.eq_of_drop_eq_nil (h : Derives text symbols p q w) (hp : text.drop p = [])
    (hsymbols : ∀ t, .terminal t ∈ symbols → t.InGrammar) : q = p := by
  induction h with
  | nil => rfl
  | terminal hgap hread =>
    rw [hgap.eq_of_skips (by rw [hp]; rfl), hp] at hread
    exact absurd rfl ((hsymbols _ (.head _)).ne_nil hread)
  | @category r _ _ m _ _ _ _ _ ih ih' =>
    obtain rfl := ih hp fun t ht => ⟨r, ht⟩
    exact ih' hp fun t ht => hsymbols t (.tail _ ht)

namespace IsLone

variable (htext : IsLone token text)

include htext

/-- What an expression begins with, read from the beginning, is the token. -/
theorem of_derives (hr : r.category.leads = true) (h : Derives text r.symbols 0 q w) :
    r ∈ token.chain ∧ q = text.length := by
  generalize hsymbols : r.symbols = symbols at h
  generalize hp : 0 = p at h
  induction h generalizing r with
  | nil =>
    have hpos := any_eq_true.mp (r.any_consumes (Category.consumes_of_leads hr))
    simp [hsymbols] at hpos
  | @terminal t rest p k n q w hgap hread hrest =>
    subst hp
    obtain rfl := hgap.eq_of_skips htext.firm
    rw [Nat.zero_add] at hrest
    rw [drop_zero] at hread
    obtain rfl := htext.first r t rest n q w hr hsymbols hread hrest
    obtain ⟨hchain, rfl⟩ := Production.terminal_first htext.kind hr hsymbols
    cases hrest
    exact ⟨hchain, Option.some.inj (hread.symm.trans htext.whole)⟩
  | @category r' rest p m q v w hchild hrest ih =>
    subst hp
    obtain ⟨hleads, hcases⟩ := Production.category_first htext.kind hr hsymbols
    obtain ⟨hchain, rfl⟩ := ih hleads rfl rfl
    rcases hcases with hany | ⟨rfl, hin⟩
    · -- Nothing is left to be read after the token.
      have hsymbols' (t : Terminal) (ht : .terminal t ∈ rest) : t.InGrammar :=
        ⟨r, hsymbols ▸ .tail _ ht⟩
      have hlt := hrest.lt_of_any (fun hword => r.word_ne_empty (hsymbols ▸ .tail _ hword)) hany
      rw [hrest.eq_of_drop_eq_nil drop_length hsymbols'] at hlt
      exact absurd hlt (Nat.lt_irrefl _)
    · cases hrest
      exact ⟨hin r' hchain rfl, rfl⟩

theorem advances (h : token.Links rs x) : Advances text [x] 0 text.length := by
  induction rs generalizing x with
  | nil =>
    obtain rfl : x = .terminal token := h
    have hwhole : Advances text [.terminal token] 0 (0 + text.length) :=
      .terminal (.refl 0) htext.whole (.nil _)
    rwa [Nat.zero_add] at hwhole
  | cons r rs ih =>
    obtain ⟨rfl, hleads, -, y, hsymbols, hlinks⟩ := h
    exact .category (Category.consumes_of_leads hleads) (hsymbols ▸ ih hlinks) (.nil _)

end IsLone

mutual

theorem Tree.Covers.derives {text : List Char} {x : Symbol} {p q : Nat} :
    {t : Tree} → t.Covers text x p q → ∃ w, Derives text [x] p q w
  | .leaf .., h => by
    cases h with
    | leaf hgap hread => exact ⟨_, .terminal hgap hread (.nil _)⟩
  | .node .., h => by
    cases h with
    | node hc hall =>
      obtain ⟨w, hderives⟩ := hall.derives
      subst hc
      exact ⟨_, .category hderives (.nil _)⟩

theorem Tree.CoverAll.derives {text : List Char} {xs : List Symbol} {p q : Nat} :
    {ts : List Tree} → Tree.CoverAll text xs ts p q → ∃ w, Derives text xs p q w
  | [], h => by
    cases h
    exact ⟨_, .nil p⟩
  | _ :: _, h => by
    cases h with
    | cons ht hts =>
      obtain ⟨v, hfirst⟩ := ht.derives
      obtain ⟨w, hrest⟩ := hts.derives
      exact ⟨_, hfirst.append hrest⟩

end

namespace IsLone

/-- The productions as nodes, one above the other, with the token as the leaf. -/
def tree (rs : List Production) (token : Terminal) (text : List Char) : Tree :=
  rs.foldr (fun r t => .node r [t]) (leafOf token text)

variable (htext : IsLone token text)

include htext

theorem eq_of_covers (hlinks : token.Links rs x) {t : Tree} (h : t.Covers text x 0 q) :
    t = tree rs token text := by
  induction rs generalizing x t with
  | nil =>
    obtain rfl : x = .terminal token := hlinks
    cases h with
    | leaf hblank hread =>
      obtain rfl := hblank.eq_of_skips htext.firm
      cases htext.whole.symm.trans hread
      rw [drop_zero, take_length]
      rfl
  | cons r rs ih =>
    obtain ⟨rfl, hleads, honly, y, hsymbols, hlinks⟩ := hlinks
    cases h with
    | node hcategory hall =>
      obtain ⟨w, hderives⟩ := hall.derives
      obtain rfl := honly _ (htext.of_derives (hcategory ▸ hleads) hderives).1 hcategory
      rw [hsymbols] at hall
      match hall with
      | .cons hchild (.nil _) =>
        rw [ih hlinks hchild]
        rfl

theorem readText_eq (hlinks : token.Links (r :: rs) (.category .expr)) :
    readText .expr text = .ok (tree (r :: rs) token text) := by
  obtain ⟨t, hread⟩ : ∃ t, readText .expr text = .ok t := by
    obtain ⟨hexpr, -, -, y, hsymbols, hrest⟩ := hlinks
    rw [Symbol.category.inj hexpr]
    exact readText_of_advances (hsymbols ▸ htext.advances hrest) (.refl _)
  obtain ⟨q, hcovers, -⟩ := readText_covers hread
  rw [hread, htext.eq_of_covers hlinks hcovers]

theorem readExpr_eq (hlinks : token.Links (r :: rs) (.category .expr)) {e : Expr}
    (hbuilds : Builds (tree (r :: rs) token text) (.expr e)) :
    readExpr (String.ofList text) = .ok e := by
  rw [readExpr, String.toList_ofList, readPiece, htext.readText_eq hlinks]
  dsimp only
  rw [hbuilds]
  rfl

end IsLone

/-! ## Reading a literal -/

theorem Production.quoted_first {t : Terminal} (hr : r.category.leads = true)
    (h : r.symbols = .terminal t :: rest) :
    t = .quoted ∨ ['"', '\'', '['].all (fun c => !t.admits c) = true := by
  cases r <;> cases h <;> revert hr <;> decide

theorem isLone_quoted (htext : Terminal.quoted.read? text = some text.length) :
    IsLone .quoted text := by
  cases text with
  | nil => cases htext
  | cons c cs =>
    have hc : c ∈ ['"', '\'', '['] := by simpa [admits, or_assoc] using admits_of_read? htext
    refine ⟨.inl rfl, ?_, htext, fun r t rest n q w hr hsymbols hread _ => ?_⟩
    · simp only [mem_cons, not_mem_nil, or_false] at hc
      rcases hc with rfl | rfl | rfl <;> rfl
    · refine (Production.quoted_first hr hsymbols).resolve_right fun hnone => ?_
      have hnot := all_eq_true.mp hnone c hc
      rw [admits_of_read? hread] at hnot
      cases hnot

theorem readExpr_of_quoted (htext : Terminal.quoted.read? text = some text.length) :
    readExpr (String.ofList text) = .ok (.mk { line := 1 } (.string (lexeme text))) := by
  have hlinks : quoted.Links quoted.chain (.category .expr) :=
    ⟨rfl, rfl, by decide, _, rfl, rfl, rfl, by decide, _, rfl, rfl⟩
  have hstring : Builds (.node .string [leafOf .quoted text])
      (.expr (.mk { line := 1 } (.string (lexeme text)))) :=
    builds_node _ nofun rfl (.cons (builds_leaf (t := .quoted) nofun text) .nil) rfl
  exact (isLone_quoted htext).readExpr_eq hlinks
    (builds_node _ nofun rfl (.cons hstring .nil) rfl)

/-! ## Reading a name -/

/-- Whether a letter can be what the token begins with. -/
def Terminal.beginsName : Terminal → Bool
  | .quoted | .digits => false
  | .word s => s.toList.head?.all isNameStart
  | _ => true

theorem beginsName_of_admits {t : Terminal} {c : Char} (h : t.admits c = true)
    (hc : isNameStart c = true) : t.beginsName = true := by
  cases t with
  | word s =>
    simp only [admits, beginsName, Option.all_eq_true, beq_iff_eq] at h ⊢
    intro d hd
    rwa [h d hd]
  | quoted =>
    simp only [admits, Bool.or_eq_true, beq_iff_eq, or_assoc] at h
    rcases h with rfl | rfl | rfl <;> cases hc
  | digits => cases hc.symm.trans (Formula.isNameStart_of_isDigit h)
  | _ => rfl

/-- The words that are expressions by themselves or before a name. -/
def leadingWords : List String := ["not", "nil", "true", "false"]

theorem Production.name_first {t : Terminal} (hr : r.category.leads = true)
    (h : r.symbols = .terminal t :: rest) :
    t = .name ∨ (∃ s ∈ leadingWords, t = .word s) ∨ rest = [.category .funcBody] ∨
      t.beginsName = false := by
  cases r <;> cases h <;> revert hr <;> decide

section

variable {c : Char} {cs : List Char} (hstart : isNameStart c = true)
  (hchars : ∀ d ∈ c :: cs, isNameChar d = true)
include hstart hchars

theorem read?_name (hreserved : String.ofList (c :: cs) ∉ reservedWords) :
    name.read? (c :: cs) = some (c :: cs).length := by
  have hfinal : isFinalReserved (c :: cs) = false := by
    rw [Bool.eq_false_iff]
    intro hfinal
    obtain ⟨v, hv, heq⟩ := any_eq_true.mp hfinal
    rw [Bool.or_eq_true, beq_iff_eq, beq_iff_eq] at heq
    rcases heq with heq | heq
    · rw [← heq, String.ofList_toList] at hreserved
      exact hreserved hv
    · have hmem : '\n' ∈ c :: cs := heq ▸ mem_append_right _ (.head _)
      cases hchars _ hmem
  have hspan := @spanLength_append isNameChar cs [] (fun d hd => hchars d (.tail _ hd)) nofun
  rw [append_nil] at hspan
  simp only [read?, hstart, hfinal, hspan]
  rfl

omit hstart in
theorem not_derives_funcBody : ¬Derives (c :: cs) [.category .funcBody] p q w := by
  intro h
  obtain ⟨x, m, u, v, hx, hderives, -⟩ := h.of_category
  obtain ⟨rest, hrest⟩ : ∃ rest, x.symbols = .terminal (.word "(") :: rest := by
    cases x <;> first | exact ⟨_, rfl⟩ | cases hx
  rw [hrest] at hderives
  cases hderives with
  | @terminal _ _ _ k _ _ _ _ hread =>
    obtain ⟨-, more, hmore⟩ := read?_word hread
    have hmem : '(' ∈ (c :: cs).drop k := hmore ▸ .head _
    cases hchars _ (mem_of_mem_drop hmem)

theorem isLone_name (hreserved : String.ofList (c :: cs) ∉ reservedWords)
    (hfree : ∀ s ∈ leadingWords, ¬s.toList <+: c :: cs) : IsLone .name (c :: cs) where
  kind := .inr rfl
  firm := by
    have hblank : isBlank c = false := isBlank_of_class (by decide) hstart
    simp only [skips, spanLength, hblank, Bool.false_eq_true, ↓reduceIte, nil_append]
    split
    · next heq =>
      cases heq
      cases hstart
    · rfl
  whole := read?_name hstart hchars hreserved
  first := by
    intro r t rest n q w hr hsymbols hread hrest
    rcases Production.name_first hr hsymbols with hname | ⟨s, hs, rfl⟩ | rfl | hstranger
    · exact hname
    · obtain ⟨-, more, hmore⟩ := read?_word hread
      exact absurd ⟨more, hmore.symm⟩ (hfree s hs)
    · exact absurd hrest (not_derives_funcBody hchars)
    · cases hstranger.symm.trans (beginsName_of_admits (admits_of_read? hread) hstart)

end

def variableOf (text : List Char) : Expr :=
  .mk { line := 1 } (.variable { place := { line := 1 }, lexeme := { text := String.ofList text } })

/-- A name is read as a variable, unless it begins with `not` or with a constant. -/
theorem name_is_read_as_variable {c : Char} {cs : List Char} (hstart : isNameStart c = true)
    (hchars : ∀ d ∈ c :: cs, isNameChar d = true)
    (hreserved : String.ofList (c :: cs) ∉ reservedWords)
    (hfree : ∀ s ∈ leadingWords, ¬s.toList <+: c :: cs) :
    readExpr (String.ofList (c :: cs)) = .ok (variableOf (c :: cs)) := by
  have hlinks : name.Links name.chain (.category .expr) :=
    ⟨rfl, rfl, by decide, _, rfl, rfl, rfl, by decide, _, rfl, rfl, rfl, by decide, _, rfl, rfl⟩
  have hvariable : Builds (.node .variableName [leafOf .name (c :: cs)])
      (.expr (variableOf (c :: cs))) :=
    builds_node _ nofun rfl (.cons (builds_name hreserved) .nil) rfl
  have hprefix := builds_node .prefixVariable nofun rfl (.cons hvariable .nil) rfl
  exact (isLone_name hstart hchars hreserved hfree).readExpr_eq hlinks
    (builds_node _ nofun rfl (.cons hprefix .nil) rfl)

/-- A name that begins with one reserved word and ends with another. -/
theorem functional_nil_is_read_as_variable :
    readExpr "functional_nil" = .ok (variableOf "functional_nil".toList) :=
  @name_is_read_as_variable 'f' "unctional_nil".toList rfl (all_eq_true.mp rfl) (by decide)
    (by decide)

end LuaInterpreter
