import LuaInterpreter.Proofs.SkippedText

/-!
# How numerals are written

A numeral is a row of tokens, and blanks and comments may stand between any two of them. Reading a
text as a numeral succeeds exactly if it is such a row.
-/

namespace LuaInterpreter

open Scan List Lexeme Build Terminal

variable {text : List Char} {p q : Nat}

/-! ## Tokens -/

def AreDigits (isDigit : Char → Bool) (cs : List Char) : Prop :=
  cs ≠ [] ∧ ∀ c ∈ cs, isDigit c = true

/-- The tokens of a symbol: a fixed text, one of two letters, digits, or a sign. -/
def Symbol.Spells : Symbol → List Char → Prop
  | .terminal (.word w), cs => cs = w.toList
  | .terminal (.either a b), cs => cs = [a] ∨ cs = [b]
  | .terminal .digits, cs => AreDigits Char.isDigit cs
  | .terminal .hexDigits, cs => AreDigits isHexDigit cs
  | .category .sign, cs => cs = ['+'] ∨ cs = ['-']
  | _, _ => False

def Symbol.inNumeral : Symbol → Bool
  | .terminal (.word w) => w ∈ ["0", ".", "+", "-"]
  | .terminal (.either a b) => (a, b) ∈ [('x', 'X'), ('p', 'P'), ('e', 'E')]
  | .terminal .digits | .terminal .hexDigits => true
  | .terminal .name | .terminal .quoted => false
  | .category c => c = .sign

variable {cs : List Char} {t : Tree} {x : Symbol} {xs : List Symbol} {c : Char} {n : Numeral}

theorem Terminal.spells_of_read? {t : Terminal} {n : Nat}
    (ht : (Symbol.terminal t).inNumeral = true) (h : t.read? cs = some n) :
    (Symbol.terminal t).Spells (cs.take n) := by
  have hdigits {isDigit : Char → Bool} (h : read?.positive (spanLength isDigit cs) = some n) :
      AreDigits isDigit (cs.take n) := by
    unfold read?.positive at h
    split at h
    · cases h
    · next hne =>
      cases h
      refine ⟨fun hnil => hne ?_, fun c hc => of_mem_take_spanLength hc⟩
      rcases take_eq_nil_iff.mp hnil with hzero | rfl
      · exact hzero
      · rfl
  cases t with
  | word w =>
    obtain ⟨rfl, rest, rfl⟩ := read?_word h
    rw [← String.length_toList, take_left]
    rfl
  | either a b =>
    simp only [read?] at h
    split at h
    · split at h
      · next hc =>
        cases h
        exact hc.imp (congrArg fun c => [c]) (congrArg fun c => [c])
      · cases h
    · cases h
  | digits | hexDigits => exact hdigits h
  | name | quoted => cases ht

/-! ## From trees to tokens -/

/-- The tree of a token builds it, and what comes before it in the text is skipped. -/
structure Tree.IsToken (text : List Char) (x : Symbol) (p q : Nat) (t : Tree) (l : Lexeme) :
    Prop where
  builds : ∃ line, build t = .ok (.token l, some line)
  spells : x.Spells l.text.toList
  skipped : ∃ gap, Skippable gap ∧ text.drop p = gap ++ l.text.toList ++ text.drop q

theorem Tree.Covers.isToken_leaf {x : Terminal} (hx : (Symbol.terminal x).inNumeral = true)
    (h : t.Covers text (.terminal x) p q) : ∃ l, t.IsToken text (.terminal x) p q l := by
  cases h with
  | @leaf _ _ k n hgap hread =>
    have hname : x ≠ .name := by
      rintro rfl
      cases hx
    have hdrop : text.drop p = (text.drop p).take (k - p) ++ text.drop k := by
      conv_lhs => rw [← take_append_drop (k - p) (text.drop p)]
      rw [drop_drop, Nat.add_sub_cancel' hgap.le]
    refine ⟨⟨String.ofList ((text.drop k).take n), lineAt text k⟩, ⟨lineAt text k, ?_⟩, ?_, _,
      skippable_of_gap hgap, ?_⟩
    · simp only [build, leafPiece, if_neg hname]
      rfl
    · rw [String.toList_ofList]
      exact spells_of_read? hx hread
    · rw [String.toList_ofList, append_assoc, ← drop_drop, take_append_drop]
      exact hdrop

theorem Tree.Covers.isToken_sign (h : t.Covers text (.category .sign) p q) :
    ∃ l, t.IsToken text (.category .sign) p q l := by
  have hleaf {w : String} {r : Production} {child : Tree}
      (hin : (Symbol.terminal (.word w)).inNumeral = true)
      (hw : (Symbol.category .sign).Spells w.toList) (hr : r = .signPlus ∨ r = .signMinus)
      (hchild : child.Covers text (.terminal (.word w)) p q) :
      ∃ l, (Tree.node r [child]).IsToken text (.category .sign) p q l := by
    obtain ⟨l, ⟨line, hbuild⟩, hspells, hskipped⟩ := hchild.isToken_leaf hin
    refine ⟨{ l with line := line }, ⟨line, ?_⟩, ?_, hskipped⟩
    · rcases hr with rfl | rfl
      all_goals
        simp only [build, buildAll, hbuild]
        rfl
    · exact (hspells : l.text.toList = w.toList) ▸ hw
  cases h with
  | @node _ r _ _ _ hc hall =>
    have hr : r ∈ Category.sign.productions := hc ▸ r.mem_productions
    simp only [Category.productions, mem_cons, not_mem_nil, or_false] at hr
    rcases hr with rfl | rfl
    · match hall with
      | .cons hchild (.nil _) => exact hleaf (by decide) (.inl rfl) (.inl rfl) hchild
    · match hall with
      | .cons hchild (.nil _) => exact hleaf (by decide) (.inr rfl) (.inr rfl) hchild

theorem Tree.Covers.isToken (hx : x.inNumeral = true) (h : t.Covers text x p q) :
    ∃ l, t.IsToken text x p q l := by
  cases x with
  | terminal x => exact h.isToken_leaf hx
  | category c =>
    cases of_decide_eq_true hx
    exact h.isToken_sign

theorem Tree.CoverAll.tokens {ts : List Tree} (hxs : ∀ x ∈ xs, x.inNumeral = true)
    (h : Tree.CoverAll text xs ts p q) :
    ∃ ls : List Lexeme, (∃ line, buildAll ts = .ok (ls.map .token, line)) ∧
      List.Forall₂ (fun x l => x.Spells l.text.toList) xs ls ∧
      ∀ tokens, Rendered Skippable tokens (text.drop q) →
        Rendered Skippable (ls.map (·.text.toList) ++ tokens) (text.drop p) := by
  induction xs generalizing ts p with
  | nil =>
    cases h
    exact ⟨[], ⟨none, rfl⟩, .nil, fun _ => id⟩
  | cons x xs ih =>
    cases h with
    | cons ht hts =>
      obtain ⟨l, ⟨line, hbuild⟩, hspells, gap, hskips, hdrop⟩ := ht.isToken (hxs x (.head _))
      obtain ⟨ls, ⟨line', hbuilds⟩, hall, hrendered⟩ := ih (fun y hy => hxs y (.tail _ hy)) hts
      refine ⟨l :: ls, ⟨some line, ?_⟩, .cons hspells hall, fun tokens htokens => ?_⟩
      · simp only [buildAll, hbuild, hbuilds]
        rfl
      · rw [hdrop]
        exact .cons hskips (hrendered tokens htokens)

/-! ## From tokens to derivations -/

theorem isHexDigit_eq_false (h : isBlank c = true ∨ c = '-') : isHexDigit c = false := by
  simp only [isBlank, Bool.or_eq_true, beq_iff_eq] at h
  rcases h with ((((rfl | rfl) | rfl) | rfl) | rfl) | rfl
  all_goals decide

theorem isHexDigit_of_isDigit (h : c.isDigit = true) : isHexDigit c = true := by
  rw [isHexDigit, h]
  rfl

namespace Symbol

/-- The characters that a symbol would take if they came next. -/
def takes : Symbol → Char → Bool
  | .terminal .digits => Char.isDigit
  | .terminal .hexDigits => isHexDigit
  | _ => fun _ => false

/-- A symbol whose tokens cannot go on into a token of the next one. -/
def endsBefore : Symbol → Symbol → Bool
  | .terminal .digits, y => y = .terminal (.word ".") || y = .terminal (.either 'e' 'E')
  | .terminal .hexDigits, y => y = .terminal (.word ".") || y = .terminal (.either 'p' 'P')
  | _, _ => true

variable {x y : Symbol} {cs : List Char}

theorem takes_eq_false_of_skipped (x : Symbol) {c : Char} (h : isBlank c = true ∨ c = '-') :
    x.takes c = false := by
  have hhex := isHexDigit_eq_false h
  unfold takes
  split
  · exact Bool.eq_false_iff.mpr fun hc => Bool.eq_false_iff.mp hhex (isHexDigit_of_isDigit hc)
  · exact hhex
  · rfl

theorem takes_eq_false (h : x.endsBefore y = true) (hspells : y.Spells cs) :
    ∀ c ∈ cs.head?, x.takes c = false := by
  intro c hc
  cases x with
  | category => rfl
  | terminal x =>
    cases x with
    | word | either | name | quoted => rfl
    | digits | hexDigits =>
      simp only [endsBefore, Bool.or_eq_true, decide_eq_true_eq] at h
      rcases h with rfl | rfl
      · cases (hspells : cs = _)
        cases hc
        decide
      · rcases hspells with rfl | rfl
        all_goals
          cases hc
          decide

theorem Spells.not_blank (hx : x.inNumeral = true) (h : x.Spells cs) :
    cs ≠ [] ∧ ∀ c ∈ cs, isBlank c = false := by
  have hone {d : Char} (hd : cs = [d]) (hblank : isBlank d = false) :
      cs ≠ [] ∧ ∀ c ∈ cs, isBlank c = false := by
    rw [hd]
    exact ⟨cons_ne_nil _ _, fun c hc => mem_singleton.mp hc ▸ hblank⟩
  have hdigits (hcs : ∀ c ∈ cs, isHexDigit c = true) : ∀ c ∈ cs, isBlank c = false := by
    refine fun c hc => Bool.eq_false_iff.mpr fun hblank => ?_
    exact absurd (hcs c hc) (Bool.eq_false_iff.mp (isHexDigit_eq_false (.inl hblank)))
  cases x with
  | category c =>
    cases of_decide_eq_true hx
    rcases h with h | h
    all_goals exact hone h (by decide)
  | terminal t =>
    cases t with
    | word w =>
      simp only [inNumeral, mem_cons, not_mem_nil, or_false, decide_eq_true_eq] at hx
      rcases hx with rfl | rfl | rfl | rfl
      all_goals exact hone h (by decide)
    | either a b =>
      simp only [inNumeral, mem_cons, not_mem_nil, or_false, decide_eq_true_eq,
        Prod.mk.injEq] at hx
      rcases hx with ⟨rfl, rfl⟩ | ⟨rfl, rfl⟩ | ⟨rfl, rfl⟩
      all_goals
        rcases h with h | h
        all_goals exact hone h (by decide)
    | digits => exact ⟨h.1, hdigits fun c hc => isHexDigit_of_isDigit (h.2 c hc)⟩
    | hexDigits => exact ⟨h.1, hdigits h.2⟩
    | name | quoted => cases hx

variable {rest : List Char}

/-- A token is read as far as it goes, if the next character cannot be added to it. -/
theorem Spells.read? {t : Terminal} (h : (Symbol.terminal t).Spells cs)
    (hrest : ∀ c ∈ rest.head?, (Symbol.terminal t).takes c = false) :
    t.read? (cs ++ rest) = some cs.length := by
  have hpositive {n : Nat} (hn : n = cs.length) (hne : cs ≠ []) :
      read?.positive n = some cs.length := by
    rw [read?.positive, hn, if_neg fun hzero => hne (length_eq_zero_iff.mp hzero)]
  cases t with
  | word w =>
    cases (h : cs = w.toList)
    rw [read?, after?_eq_some_iff.mpr rfl, String.length_toList]
    rfl
  | either a b =>
    rcases h with rfl | rfl
    · exact if_pos (.inl rfl)
    · exact if_pos (.inr rfl)
  | digits | hexDigits => exact hpositive (spanLength_append h.2 hrest) h.1
  | name | quoted => exact h.elim

theorem Spells.advances {xs : List Symbol} {token gap : List Char}
    (hx : x.inNumeral = true) (h : x.Spells token) (hgap : Skippable gap)
    (hdrop : text.drop p = gap ++ token ++ rest) (hrest : ∀ c ∈ rest.head?, x.takes c = false)
    (hxs : Advances text xs (p + gap.length + token.length) q) : Advances text (x :: xs) p q := by
  obtain ⟨hne, hblank⟩ := h.not_blank hx
  obtain ⟨c, cs, rfl⟩ := exists_cons_of_ne_nil hne
  have hdrop' : text.drop (p + gap.length) = (c :: cs) ++ rest := by
    rw [← drop_drop, hdrop, append_assoc, drop_left]
  have hskipped : Gap text p (p + gap.length) := by
    refine hgap.gap (hdrop.trans (append_assoc ..)) fun d hd => ?_
    cases hd
    exact hblank c (.head _)
  cases x with
  | terminal t => exact .terminal hskipped (hdrop' ▸ h.read? hrest) hxs
  | category x =>
    cases of_decide_eq_true hx
    -- Both productions of a sign are one word.
    obtain ⟨r, s, hr, hs, hsymbols⟩ : ∃ (r : Production) (s : String), r.category = .sign ∧
        (Symbol.terminal (.word s)).Spells (c :: cs) ∧ r.symbols = [.terminal (.word s)] := by
      rcases h with h | h
      · exact ⟨.signPlus, "+", rfl, h, rfl⟩
      · exact ⟨.signMinus, "-", rfl, h, rfl⟩
    have hsign : Advances text [.terminal (.word s)] p (p + gap.length + (c :: cs).length) :=
      .terminal hskipped (hdrop' ▸ hs.read? fun _ _ => rfl) (.nil _)
    rw [← hsymbols] at hsign
    rw [← hr]
    exact .category (hr ▸ rfl) hsign hxs

end Symbol

theorem Rendered.takes_eq_false {tokens : List (List Char)} {rest : List Char}
    (h : Rendered Skippable tokens rest) (hxs : ∀ y ∈ xs, y.inNumeral = true)
    (hspells : List.Forall₂ Symbol.Spells xs tokens)
    (hends : ∀ y ∈ xs.head?, x.endsBefore y = true) : ∀ c ∈ rest.head?, x.takes c = false := by
  intro c hc
  cases h with
  | nil hgap => exact x.takes_eq_false_of_skipped (hgap.head c hc)
  | @cons gap token tokens rest hgap _ =>
    cases gap with
    | cons d gap => exact x.takes_eq_false_of_skipped (hgap.head c hc)
    | nil =>
      cases hspells with
      | @cons y _ _ _ hy _ =>
        obtain ⟨d, ds, rfl⟩ := exists_cons_of_ne_nil (hy.not_blank (hxs y (.head _))).1
        exact Symbol.takes_eq_false (hends y rfl) hy c hc

theorem advances_of_rendered {tokens : List (List Char)} (hxs : ∀ x ∈ xs, x.inNumeral = true)
    (hends : xs.IsChain fun x y => x.endsBefore y = true)
    (hspells : List.Forall₂ Symbol.Spells xs tokens) (hp : p ≤ text.length)
    (h : Rendered Skippable tokens (text.drop p)) :
    ∃ q, Advances text xs p q ∧ Gap text q text.length := by
  induction hspells generalizing p with
  | nil =>
    generalize hdrop : text.drop p = cs at h
    cases h with
    | nil hgap =>
      refine ⟨p, .nil p, ?_⟩
      have hlength : text.length = p + cs.length := by
        rw [← hdrop, length_drop]
        omega
      rw [hlength]
      exact hgap.gap (hdrop.trans (append_nil cs).symm) nofun
  | @cons x token xs tokens hx hall ih =>
    generalize hdrop : text.drop p = cs at h
    cases h with
    | @cons gap _ _ rest hgap hrest =>
      have hdrop' : text.drop (p + gap.length + token.length) = rest := by
        rw [Nat.add_assoc, ← length_append, ← drop_drop, hdrop, drop_left]
      have hle : p + gap.length + token.length ≤ text.length := by
        have hlength := congrArg List.length hdrop
        simp only [length_drop, length_append] at hlength
        omega
      have hxs' : ∀ y ∈ xs, y.inNumeral = true := fun y hy => hxs y (.tail _ hy)
      obtain ⟨hhead, htail⟩ := isChain_cons.mp hends
      obtain ⟨q, hadvances, hend⟩ := ih hxs' htail hle (hdrop'.symm ▸ hrest)
      have htakes := hrest.takes_eq_false hxs' hall hhead
      exact ⟨q, hx.advances (hxs x (.head _)) hgap hdrop htakes hadvances, hend⟩

/-! ## Numerals -/

namespace Numeral

/-- The tokens of a fraction: a point and digits, or none. -/
inductive FractionSpelled (isDigit : Char → Bool) : Option Lexeme → List (List Char) → Prop
  | none : FractionSpelled isDigit none []
  | some {point : List Char} {f : Lexeme} : point = ['.'] → AreDigits isDigit f.text.toList →
      FractionSpelled isDigit (some f) [point, f.text.toList]

/-- The tokens of an exponent: a mark, perhaps a sign, and digits; or none. -/
inductive ExponentSpelled (isDigit : Char → Bool) (small capital : Char) :
    (sign exponent : Option Lexeme) → List (List Char) → Prop
  | none : ExponentSpelled isDigit small capital none none []
  | plain {mark : List Char} {e : Lexeme} : mark = [small] ∨ mark = [capital] →
      AreDigits isDigit e.text.toList →
      ExponentSpelled isDigit small capital none (some e) [mark, e.text.toList]
  | signed {mark : List Char} {s e : Lexeme} : mark = [small] ∨ mark = [capital] →
      s.text.toList = ['+'] ∨ s.text.toList = ['-'] → AreDigits isDigit e.text.toList →
      ExponentSpelled isDigit small capital (some s) (some e)
        [mark, s.text.toList, e.text.toList]

/-- The tokens of a numeral. -/
inductive Spelled : Numeral → List (List Char) → Prop
  | decimal {d : Lexeme} {f s e : Option Lexeme} {fraction exponent : List (List Char)} :
      AreDigits Char.isDigit d.text.toList → FractionSpelled Char.isDigit f fraction →
      ExponentSpelled Char.isDigit 'e' 'E' s e exponent →
      Spelled (.decimal d f s e) (d.text.toList :: (fraction ++ exponent))
  | hex {zero letter : List Char} {d : Lexeme} {f s e : Option Lexeme}
      {fraction exponent : List (List Char)} : zero = ['0'] → letter = ['x'] ∨ letter = ['X'] →
      AreDigits isHexDigit d.text.toList → FractionSpelled isHexDigit f fraction →
      ExponentSpelled isHexDigit 'p' 'P' s e exponent →
      Spelled (.hex d f s e) (zero :: letter :: d.text.toList :: (fraction ++ exponent))

def rules : List Production :=
  Category.hexNumeral.productions ++ Category.decimalNumeral.productions

variable {r : Production}

theorem inNumeral_of_mem_rules (hr : r ∈ rules) :
    (∀ x ∈ r.symbols, x.inNumeral = true) ∧ r.symbols.IsChain fun x y => x.endsBefore y = true := by
  have hall : rules.all (fun r => r.symbols.all (·.inNumeral) &&
      decide (r.symbols.IsChain fun x y => x.endsBefore y = true)) = true := by decide
  have := all_eq_true.mp hall r hr
  simpa using this

theorem exists_spelled {ls : List Lexeme} (hr : r ∈ rules)
    (h : List.Forall₂ (fun x l => x.Spells l.text.toList) r.symbols ls) :
    ∃ n : Numeral, assemble r (ls.map .token) = some (.numeral n) ∧
      n.Spelled (ls.map (·.text.toList)) := by
  simp only [rules, Category.productions, cons_append, nil_append, mem_cons,
    not_mem_nil, or_false] at hr
  rcases hr with rfl | rfl | rfl | rfl | rfl | rfl | rfl | rfl | rfl | rfl | rfl | rfl
  · match h with
    | .cons hz (.cons hx (.cons hd (.cons hp (.cons hf (.cons hm (.cons hs (.cons he .nil))))))) =>
      exact ⟨_, rfl, .hex hz hx hd (.some hp hf) (.signed hm hs he)⟩
  · match h with
    | .cons hz (.cons hx (.cons hd (.cons hp (.cons hf (.cons hm (.cons he .nil)))))) =>
      exact ⟨_, rfl, .hex hz hx hd (.some hp hf) (.plain hm he)⟩
  · match h with
    | .cons hz (.cons hx (.cons hd (.cons hp (.cons hf .nil)))) =>
      exact ⟨_, rfl, .hex hz hx hd (.some hp hf) .none⟩
  · match h with
    | .cons hz (.cons hx (.cons hd (.cons hm (.cons hs (.cons he .nil))))) =>
      exact ⟨_, rfl, .hex hz hx hd .none (.signed hm hs he)⟩
  · match h with
    | .cons hz (.cons hx (.cons hd (.cons hm (.cons he .nil)))) =>
      exact ⟨_, rfl, .hex hz hx hd .none (.plain hm he)⟩
  · match h with
    | .cons hz (.cons hx (.cons hd .nil)) =>
      exact ⟨_, rfl, .hex hz hx hd .none .none⟩
  · match h with
    | .cons hd (.cons hp (.cons hf (.cons hm (.cons hs (.cons he .nil))))) =>
      exact ⟨_, rfl, .decimal hd (.some hp hf) (.signed hm hs he)⟩
  · match h with
    | .cons hd (.cons hp (.cons hf (.cons hm (.cons he .nil)))) =>
      exact ⟨_, rfl, .decimal hd (.some hp hf) (.plain hm he)⟩
  · match h with
    | .cons hd (.cons hp (.cons hf .nil)) =>
      exact ⟨_, rfl, .decimal hd (.some hp hf) .none⟩
  · match h with
    | .cons hd (.cons hm (.cons hs (.cons he .nil))) =>
      exact ⟨_, rfl, .decimal hd .none (.signed hm hs he)⟩
  · match h with
    | .cons hd (.cons hm (.cons he .nil)) =>
      exact ⟨_, rfl, .decimal hd .none (.plain hm he)⟩
  · match h with
    | .cons hd .nil =>
      exact ⟨_, rfl, .decimal hd .none .none⟩

theorem Spelled.exists_rule {n : Numeral} {tokens : List (List Char)} (h : n.Spelled tokens) :
    ∃ r ∈ rules, List.Forall₂ Symbol.Spells r.symbols tokens := by
  cases h with
  | decimal hd hf he =>
    cases hf with
    | none =>
      cases he with
      | none => exact ⟨.decimalPlain, by decide, .cons hd .nil⟩
      | plain hm he => exact ⟨.decimalExponent, by decide, .cons hd (.cons hm (.cons he .nil))⟩
      | signed hm hs he =>
        exact ⟨.decimalSigned, by decide, .cons hd (.cons hm (.cons hs (.cons he .nil)))⟩
    | some hp hf =>
      cases he with
      | none => exact ⟨.decimalFraction, by decide, .cons hd (.cons hp (.cons hf .nil))⟩
      | plain hm he =>
        exact ⟨.decimalFractionExponent, by decide,
          .cons hd (.cons hp (.cons hf (.cons hm (.cons he .nil))))⟩
      | signed hm hs he =>
        exact ⟨.decimalFractionSigned, by decide,
          .cons hd (.cons hp (.cons hf (.cons hm (.cons hs (.cons he .nil)))))⟩
  | hex hz hx hd hf he =>
    cases hf with
    | none =>
      cases he with
      | none => exact ⟨.hexPlain, by decide, .cons hz (.cons hx (.cons hd .nil))⟩
      | plain hm he =>
        exact ⟨.hexExponent, by decide, .cons hz (.cons hx (.cons hd (.cons hm (.cons he .nil))))⟩
      | signed hm hs he =>
        exact ⟨.hexSigned, by decide,
          .cons hz (.cons hx (.cons hd (.cons hm (.cons hs (.cons he .nil)))))⟩
    | some hp hf =>
      cases he with
      | none =>
        exact ⟨.hexFraction, by decide, .cons hz (.cons hx (.cons hd (.cons hp (.cons hf .nil))))⟩
      | plain hm he =>
        exact ⟨.hexFractionExponent, by decide,
          .cons hz (.cons hx (.cons hd (.cons hp (.cons hf (.cons hm (.cons he .nil))))))⟩
      | signed hm hs he =>
        exact ⟨.hexFractionSigned, by decide,
          .cons hz (.cons hx (.cons hd (.cons hp (.cons hf (.cons hm (.cons hs (.cons he .nil)))))))⟩

/-! ## Reading -/

theorem mem_rules_iff : r ∈ rules ↔ r.category = .hexNumeral ∨ r.category = .decimalNumeral := by
  constructor
  · intro hr
    have hall : rules.all (fun r => r.category = .hexNumeral ∨ r.category = .decimalNumeral) = true := by
      decide
    simpa using all_eq_true.mp hall r hr
  · rintro (hr | hr)
    · exact mem_append_left _ (hr ▸ r.mem_productions)
    · exact mem_append_right _ (hr ▸ r.mem_productions)

theorem build_of_covers {c : Category} {t : Tree} {cs : List Char}
    (hc : c = .hexNumeral ∨ c = .decimalNumeral) (h : t.Covers cs (.category c) 0 q)
    (hgap : Gap cs q cs.length) :
    ∃ n line tokens, build t = .ok (.numeral n, line) ∧ n.Spelled tokens ∧
      Rendered Skippable tokens cs := by
  obtain _ | @⟨_, r, ts, _, _, rfl, hall⟩ := h
  have hr : r ∈ rules := mem_rules_iff.mpr hc
  obtain ⟨ls, ⟨line, hbuild⟩, hspells, hrendered⟩ := hall.tokens (inNumeral_of_mem_rules hr).1
  obtain ⟨n, hassemble, hspelled⟩ := exists_spelled hr hspells
  refine ⟨n, line, _, ?_, hspelled, ?_⟩
  · have hrepeat : r ≠ .statRepeat := by
      rintro rfl
      exact absurd hr (by decide)
    simp only [build, hbuild, bind, Except.bind, nodePiece, if_neg hrepeat, hassemble]
    cases line with
    | none => rfl
    | some line =>
      cases hkeeps : keepsLines r with
      | true => rfl
      | false => rfl
  · have hend : Skippable (cs.drop q) := by
      have hskips := skippable_of_gap hgap
      rwa [take_of_length_le (by simp)] at hskips
    simpa using hrendered [] (.nil hend)

end Numeral

open Numeral

/-- Whatever can be read as a numeral gives one, and is a row of its tokens. -/
theorem readNumeral_of_readText {tree : Tree} (h : readText .numeral cs = .ok tree) :
    ∃ n tokens, readNumeral (String.ofList cs) = .ok n ∧ n.Spelled tokens ∧
      Rendered Skippable tokens cs := by
  obtain ⟨q, hcovers, hgap⟩ := readText_covers h
  cases hcovers with
  | @node _ r _ _ _ hc hall =>
    have hr : r ∈ Category.numeral.productions := hc ▸ r.mem_productions
    simp only [Category.productions, mem_cons, not_mem_nil, or_false] at hr
    obtain ⟨c, hc', hsymbols⟩ : ∃ c : Category,
        (c = .hexNumeral ∨ c = .decimalNumeral) ∧ r.symbols = [.category c] := by
      rcases hr with rfl | rfl
      · exact ⟨_, .inl rfl, rfl⟩
      · exact ⟨_, .inr rfl, rfl⟩
    rw [hsymbols] at hall
    match hall with
    | .cons hchild (.nil _) =>
      obtain ⟨n, line, tokens, hbuild, hn⟩ := build_of_covers hc' hchild hgap
      refine ⟨n, tokens, ?_, hn⟩
      rw [readNumeral, readPiece, String.toList_ofList, h]
      rcases hr with rfl | rfl
      all_goals
        simp only [build, buildAll, hbuild]
        cases line with
        | none | some line => rfl

theorem spelled_of_readNumeral (h : readNumeral (String.ofList cs) = .ok n) :
    ∃ tokens, n.Spelled tokens ∧ Rendered Skippable tokens cs := by
  cases hread : readText .numeral cs with
  | error u =>
    rw [readNumeral, readPiece, String.toList_ofList, hread] at h
    cases h
  | ok tree =>
    obtain ⟨n', tokens, hn', hspelled⟩ := readNumeral_of_readText hread
    cases hn'.symm.trans h
    exact ⟨tokens, hspelled⟩

/-- A row of the tokens of a numeral can be read, though perhaps as the tokens of another one: where a
comment ends may be seen in different ways. -/
theorem readNumeral_of_spelled {tokens : List (List Char)} (h : n.Spelled tokens)
    (hcs : Rendered Skippable tokens cs) :
    ∃ n' tokens', readNumeral (String.ofList cs) = .ok n' ∧ n'.Spelled tokens' ∧
      Rendered Skippable tokens' cs := by
  obtain ⟨r, hr, hspells⟩ := h.exists_rule
  obtain ⟨hin, hends⟩ := inNumeral_of_mem_rules hr
  obtain ⟨q, hadvances, hgap⟩ := advances_of_rendered hin hends hspells (Nat.zero_le _) hcs
  suffices ∃ tree, readText .numeral cs = .ok tree by
    obtain ⟨tree, htree⟩ := this
    exact readNumeral_of_readText htree
  rcases mem_rules_iff.mp hr with hc | hc
  · have hnumeral : Advances cs [.category .hexNumeral] 0 q :=
      hc ▸ .category (hc ▸ rfl) hadvances (.nil q)
    exact readText_of_advances (r := .numeralHex) hnumeral hgap
  · have hnumeral : Advances cs [.category .decimalNumeral] 0 q :=
      hc ▸ .category (hc ▸ rfl) hadvances (.nil q)
    exact readText_of_advances (r := .numeralDecimal) hnumeral hgap

/-! ## One way of reading -/

def Lexeme.ofChars (cs : List Char) : Lexeme := { text := String.ofList cs }

def Lexeme.unplaced (l : Lexeme) : Lexeme := { text := l.text }

theorem Lexeme.unplaced_eq (l : Lexeme) : l.unplaced = .ofChars l.text.toList := by
  rw [ofChars, String.ofList_toList, unplaced]

theorem AreDigits.span {isDigit : Char → Bool} {ds rest : List Char} (h : AreDigits isDigit ds)
    (hrest : ∀ c ∈ rest.head?, isDigit c = false) :
    (ds ++ rest).takeWhile isDigit = ds ∧ (ds ++ rest).dropWhile isDigit = rest := by
  rw [takeWhile_append_of_pos h.2, dropWhile_append_of_pos h.2]
  cases rest with
  | nil => exact ⟨append_nil ds, rfl⟩
  | cons c cs =>
    have hc := hrest c rfl
    rw [takeWhile_cons, dropWhile_cons, hc]
    exact ⟨append_nil ds, rfl⟩

namespace Numeral

def unplaced : Numeral → Numeral
  | .decimal d f s e => .decimal d.unplaced (f.map (·.unplaced)) (s.map (·.unplaced)) (e.map (·.unplaced))
  | .hex d f s e => .hex d.unplaced (f.map (·.unplaced)) (s.map (·.unplaced)) (e.map (·.unplaced))

/-- The sign and the digits of an exponent, with its mark before them. -/
def exponentOf (isDigit : Char → Bool) : List Char → Option Lexeme × Option Lexeme
  | _ :: c :: cs =>
    if isDigit c then (none, some (.ofChars (c :: cs))) else (some (.ofChars [c]), some (.ofChars cs))
  | _ => (none, none)

/-- The fraction, if there is one, and what comes after it. -/
def fractionOf (isDigit : Char → Bool) : List Char → Option Lexeme × List Char
  | '.' :: cs => (some (.ofChars (cs.takeWhile isDigit)), cs.dropWhile isDigit)
  | cs => (none, cs)

/-- The parts of a numeral whose characters stand without gaps. -/
def ofCharsWith (isDigit : Char → Bool)
    (numeral : Lexeme → (fraction sign exponent : Option Lexeme) → Numeral) (cs : List Char) :
    Numeral :=
  let (fraction, rest) := fractionOf isDigit (cs.dropWhile isDigit)
  let (sign, exponent) := exponentOf isDigit rest
  numeral (.ofChars (cs.takeWhile isDigit)) fraction sign exponent

def ofChars : List Char → Numeral
  | '0' :: c :: cs =>
    if c = 'x' ∨ c = 'X' then ofCharsWith isHexDigit .hex cs
    else ofCharsWith Char.isDigit .decimal ('0' :: c :: cs)
  | cs => ofCharsWith Char.isDigit .decimal cs

section

variable {isDigit : Char → Bool} {small capital : Char} {f s e : Option Lexeme}
variable {fraction exponent : List (List Char)} {rest : List Char}

theorem ExponentSpelled.exponentOf_flatten (h : ExponentSpelled isDigit small capital s e exponent)
    (hsigns : isDigit '+' = false ∧ isDigit '-' = false) :
    exponentOf isDigit exponent.flatten = (s.map (·.unplaced), e.map (·.unplaced)) := by
  cases h with
  | none => rfl
  | @plain mark e hmark he =>
    obtain ⟨m, rfl⟩ : ∃ m, mark = [m] := by
      rcases hmark with rfl | rfl
      all_goals exact ⟨_, rfl⟩
    obtain ⟨c, cs, hcs⟩ := exists_cons_of_ne_nil he.1
    have hc := he.2 c (hcs ▸ .head _)
    simp [exponentOf, unplaced_eq, hcs, hc]
  | @signed mark s e hmark hs he =>
    obtain ⟨m, rfl⟩ : ∃ m, mark = [m] := by
      rcases hmark with rfl | rfl
      all_goals exact ⟨_, rfl⟩
    rcases hs with hs | hs
    all_goals simp [exponentOf, unplaced_eq, hs, hsigns.1, hsigns.2]

theorem FractionSpelled.fractionOf_flatten (h : FractionSpelled isDigit f fraction)
    (hrest : ∀ c ∈ rest.head?, isDigit c = false ∧ c ≠ '.') :
    fractionOf isDigit (fraction.flatten ++ rest) = (f.map (·.unplaced), rest) := by
  cases h with
  | none =>
    unfold fractionOf
    split
    · next heq => exact absurd rfl (hrest '.' (congrArg List.head? heq)).2
    · rfl
  | @some point f hpoint hf =>
    obtain ⟨htake, hdrop⟩ := hf.span fun c hc => (hrest c hc).1
    subst hpoint
    simp [fractionOf, unplaced_eq, htake, hdrop]

theorem head_of_spelled (hf : FractionSpelled isDigit f fraction)
    (he : ExponentSpelled isDigit small capital s e exponent) :
    (∀ c ∈ exponent.flatten.head?, c ∈ [small, capital]) ∧
      ∀ c ∈ (fraction.flatten ++ exponent.flatten).head?, c ∈ ['.', small, capital] := by
  have hexponent : ∀ c ∈ exponent.flatten.head?, c ∈ [small, capital] := by
    intro c hc
    cases he with
    | none => cases hc
    | plain hmark | signed hmark =>
      rcases hmark with rfl | rfl
      · cases hc
        exact .head _
      · cases hc
        exact .tail _ (.head _)
  refine ⟨hexponent, fun c hc => ?_⟩
  cases hf with
  | none => exact .tail _ (hexponent c hc)
  | some hpoint =>
    subst hpoint
    cases hc
    exact .head _

theorem ofCharsWith_of_spelled {d : Lexeme} (hd : AreDigits isDigit d.text.toList)
    (hf : FractionSpelled isDigit f fraction)
    (he : ExponentSpelled isDigit small capital s e exponent)
    (hmarks : ∀ c ∈ ['+', '-', '.', small, capital], isDigit c = false)
    (hpoint : '.' ∉ [small, capital])
    (numeral : Lexeme → (fraction sign exponent : Option Lexeme) → Numeral) :
    ofCharsWith isDigit numeral (d.text.toList ++ (fraction.flatten ++ exponent.flatten)) =
      numeral d.unplaced (f.map (·.unplaced)) (s.map (·.unplaced)) (e.map (·.unplaced)) := by
  obtain ⟨hexponent, hfraction⟩ := head_of_spelled hf he
  obtain ⟨htake, hdrop⟩ := hd.span fun c hc => hmarks c (.tail _ (.tail _ (hfraction c hc)))
  have hrest : ∀ c ∈ exponent.flatten.head?, isDigit c = false ∧ c ≠ '.' := fun c hc =>
    ⟨hmarks c (.tail _ (.tail _ (.tail _ (hexponent c hc)))), fun heq => hpoint (heq ▸ hexponent c hc)⟩
  have hsigns : isDigit '+' = false ∧ isDigit '-' = false :=
    ⟨hmarks '+' (.head _), hmarks '-' (.tail _ (.head _))⟩
  rw [ofCharsWith, hdrop, htake, hf.fractionOf_flatten hrest]
  simp only [he.exponentOf_flatten hsigns, unplaced_eq]

end

theorem ofChars_of_digit {d rest : List Char} (hd : AreDigits Char.isDigit d)
    (hrest : ∀ c ∈ rest.head?, c ∈ ['.', 'e', 'E']) :
    ofChars (d ++ rest) = ofCharsWith Char.isDigit .decimal (d ++ rest) := by
  have hsecond {a c : Char} {cs : List Char} (h : d ++ rest = a :: c :: cs) :
      c.isDigit = true ∨ c ∈ ['.', 'e', 'E'] := by
    obtain ⟨b, ds, rfl⟩ := exists_cons_of_ne_nil hd.1
    cases ds with
    | nil => exact .inr (hrest c (congrArg List.head? (List.cons.inj h).2))
    | cons b' ds =>
      obtain ⟨rfl, -⟩ := List.cons.inj (List.cons.inj h).2
      exact .inl (hd.2 b' (.tail _ (.head _)))
  unfold ofChars
  split
  · next c cs heq =>
    rw [if_neg, heq]
    rintro (rfl | rfl)
    all_goals exact absurd (hsecond heq) (by decide)
  · rfl

variable {n : Numeral}

theorem Spelled.unplaced_eq {tokens : List (List Char)} (h : n.Spelled tokens) :
    n.unplaced = ofChars tokens.flatten := by
  cases h with
  | decimal hd hf he =>
    have hmarks : ∀ c ∈ ['+', '-', '.', 'e', 'E'], Char.isDigit c = false := fun c hc =>
      Bool.eq_false_iff.mpr (any_eq_false.mp (by decide) c hc)
    rw [flatten_cons, flatten_append, ofChars_of_digit hd (head_of_spelled hf he).2]
    exact (ofCharsWith_of_spelled hd hf he hmarks (by decide) .decimal).symm
  | hex hz hx hd hf he =>
    have hmarks : ∀ c ∈ ['+', '-', '.', 'p', 'P'], isHexDigit c = false := fun c hc =>
      Bool.eq_false_iff.mpr (any_eq_false.mp (by decide) c hc)
    have hparts := ofCharsWith_of_spelled hd hf he hmarks (by decide) .hex
    rw [flatten_cons, flatten_cons, flatten_cons, flatten_append, hz]
    rcases hx with rfl | rfl
    all_goals exact hparts.symm

/-- With nothing but blanks between them, the tokens are what is left of the text without blanks. -/
theorem Spelled.flatten_eq {tokens : List (List Char)} {cs : List Char} (h : n.Spelled tokens)
    (hcs : Rendered (∀ c ∈ ·, isBlank c = true) tokens cs) :
    tokens.flatten = cs.filter (!isBlank ·) := by
  obtain ⟨r, hr, hspells⟩ := h.exists_rule
  have hrules := (inNumeral_of_mem_rules hr).1
  generalize r.symbols = xs at hspells hrules
  clear h hr
  have hgap {gap : List Char} (hgap : ∀ c ∈ gap, isBlank c = true) : gap.filter (!isBlank ·) = [] :=
    filter_eq_nil_iff.mpr fun c hc => by simp [hgap c hc]
  induction hcs generalizing xs with
  | nil hblank => exact (hgap hblank).symm
  | @cons gap token tokens rest hblank _ ih =>
    cases hspells with
    | @cons x _ xs _ hx hxs =>
      have htoken : token.filter (!isBlank ·) = token :=
        filter_eq_self.mpr fun c hc => by simp [(hx.not_blank (hrules x (.head _))).2 c hc]
      rw [flatten_cons, filter_append, filter_append, hgap hblank, htoken,
        nil_append, ih xs hxs fun y hy => hrules y (.tail _ hy)]

end Numeral

end LuaInterpreter
