import LuaInterpreter.Proofs.Chart.Preference

/-!
# Rigid readings

Symbols that can be read in one way only. A production made of them has its preferred reading by
itself, with nothing to be compared.
-/

namespace LuaInterpreter

open List

variable {start : Category} {text : List Char} {r r' : Production} {symbols more : List Symbol}
  {p q q' s b j k n d : Nat} {u v w : Int} {ts us : List Tree}

/-- The symbols are read as these trees, and no category has another production for the text. -/
inductive Rigid (text : List Char) : List Symbol → Nat → Nat → Int → List Tree → Prop
  | nil (p : Nat) : Rigid text [] p p 0 []
  | terminal {t : Terminal} {symbols : List Symbol} {p k n q : Nat} {w : Int} {ts : List Tree} :
      t.InGrammar → Gap text p k → t.read? (text.drop k) = some n →
      Rigid text symbols (k + n) q w ts →
      Rigid text (.terminal t :: symbols) p q (t.weight + w)
        (.leaf t (String.ofList ((text.drop k).take n)) (lineAt text k) :: ts)
  | category {r : Production} {symbols : List Symbol} {p m q : Nat} {u w : Int}
      {us ts : List Tree} :
      r.category.consumes = true → (∀ x : Production, x.category = r.category → x.EndsInTerminal) →
      (∀ k, Gap text p k → Rigid text r.symbols k m u us) →
      (∀ k x q v, Gap text p k → x.category = r.category → Derives text x.symbols k q v → x = r) →
      Rigid text symbols m q w ts →
      Rigid text (.category r.category :: symbols) p q (u + w) (.node r us :: ts)

theorem Derives.of_append (h : Derives text (symbols ++ more) p q w) :
    ∃ m u v, Derives text symbols p m u ∧ Derives text more m q v ∧ w = u + v := by
  induction symbols generalizing p w with
  | nil => exact ⟨p, 0, w, .nil p, h, (Int.zero_add w).symm⟩
  | cons symbol symbols ih =>
    cases h with
    | terminal hgap hread hrest =>
      obtain ⟨m, u, v, hsymbols, hmore, rfl⟩ := ih hrest
      exact ⟨m, _, v, .terminal hgap hread hsymbols, hmore, (Int.add_assoc _ _ _).symm⟩
    | category hr hrest =>
      obtain ⟨m, u, v, hsymbols, hmore, rfl⟩ := ih hrest
      exact ⟨m, _, v, .category hr hsymbols, hmore, (Int.add_assoc _ _ _).symm⟩

theorem Derives.of_category {c : Category} (h : Derives text (.category c :: symbols) p q w) :
    ∃ (x : Production) (m : Nat) (u v : Int), x.category = c ∧ Derives text x.symbols p m u ∧
      Derives text symbols m q v ∧ w = u + v := by
  generalize hall : Symbol.category c :: symbols = all at h
  cases h with
  | nil | terminal => cases hall
  | category hr hrest =>
    cases hall
    exact ⟨_, _, _, _, rfl, hr, hrest, rfl⟩

namespace Rigid

theorem unique (htext : Spaced text) (h : Rigid text symbols p q w ts)
    (h' : Derives text symbols p q' v) : q' = q ∧ v = w := by
  induction h generalizing q' v with
  | nil =>
    cases h'
    exact ⟨rfl, rfl⟩
  | @terminal t _ _ k n _ _ _ ht hgap hread _ ih =>
    cases h' with
    | @terminal _ _ _ k' n' _ _ hgap' hread' hrest =>
      obtain rfl := htext.read_unique ht ht hgap hgap' hread hread'
      obtain rfl := Option.some.inj (hread.symm.trans hread')
      obtain ⟨rfl, rfl⟩ := ih hrest
      exact ⟨rfl, rfl⟩
  | category _ _ _ honly _ ih ih' =>
    obtain ⟨x, m, u, v, hx, hderives, hrest, rfl⟩ := h'.of_category
    obtain rfl := honly _ x m u (.refl _) hx hderives
    obtain ⟨rfl, rfl⟩ := ih _ (.refl _) hderives
    obtain ⟨rfl, rfl⟩ := ih' hrest
    exact ⟨rfl, rfl⟩

theorem best (htext : Spaced text) (h : Rigid text r.symbols p q w ts)
    (honly : ∀ x q v, x.category = r.category → Derives text x.symbols p q v → x = r) :
    Best text r p q w := by
  intro x v hx hderives
  obtain rfl := honly x q v hx hderives
  obtain ⟨-, rfl⟩ := h.unique htext hderives
  exact ⟨.inr ⟨rfl, Nat.le_refl _⟩, id⟩

theorem symbol_of_drop {symbol : Symbol} (h : r.symbols.drop d = symbol :: symbols) :
    r.symbols[d]? = some symbol ∧ r.symbols.drop (d + 1) = symbols ∧
      r.symbols.take (d + 1) = r.symbols.take d ++ [symbol] := by
  have hget : r.symbols[d]? = some symbol := by rw [← List.head?_drop, h, List.head?_cons]
  refine ⟨hget, ?_, ?_⟩
  · rw [drop_add_one_eq_tail_drop, h, tail_cons]
  · rw [take_add_one, hget, Option.toList_some]

/-- What follows a reading without alternatives, if it has none itself, is preferred. -/
theorem preferred_from (htext : Spaced text) (h : Rigid text symbols b j u us)
    (hsymbols : r.symbols.drop d = symbols) (hpreferred : Preferred start text r d s b w ts)
    (hunique : ∀ q v, Derives text (r.symbols.take d) s q v → q = b ∧ v = w) :
    Preferred start text r r.symbols.length s j (w + u) (ts ++ us) := by
  induction h generalizing r s d w ts with
  | nil =>
    have hd : d = r.symbols.length :=
      Nat.le_antisymm hpreferred.dot_le (drop_eq_nil_iff.mp hsymbols)
    rwa [Int.add_zero, append_nil, ← hd]
  | @terminal t _ _ k n _ _ _ ht hgap hread _ ih =>
    obtain ⟨hget, hdrop, htake⟩ := symbol_of_drop hsymbols
    rw [← Int.add_assoc, ← singleton_append, ← append_assoc]
    refine ih hdrop (hpreferred.terminal hget hgap hread fun q v _ _ hderives _ _ _ _ =>
      (hunique q v hderives).1) fun q v hderives => ?_
    rw [htake] at hderives
    obtain ⟨m, u', v', hbefore, hlast, rfl⟩ := hderives.of_append
    obtain ⟨rfl, rfl⟩ := hunique m u' hbefore
    have hrigid : Rigid text [.terminal t] m (k + n) (t.weight + 0) _ :=
      .terminal ht hgap hread (.nil _)
    obtain ⟨rfl, rfl⟩ := hrigid.unique htext hlast
    exact ⟨rfl, by rw [Int.add_zero]⟩
  | @category r' _ p m _ u' _ us' _ hconsumes hends hchild honly _ ih ih' =>
    obtain ⟨hget, hdrop, htake⟩ := symbol_of_drop hsymbols
    have hchild' (k : Nat) (hk : Gap text p k) :
        Preferred start text r' r'.symbols.length k m u' us' := by
      have hpreferred := ih k hk rfl (.zero r' k) fun q v hderives => by
        cases hderives
        exact ⟨rfl, rfl⟩
      rwa [Int.zero_add, nil_append] at hpreferred
    have hbest (k : Nat) (hk : Gap text p k) : Best text r' k m u' :=
      (hchild k hk).best htext fun x q v => honly k x q v hk
    rw [← Int.add_assoc, ← singleton_append, ← append_assoc]
    refine ih' hdrop (hpreferred.category hget hconsumes (.inr (.inr hends)) hchild' hbest
      fun q v _ _ _ hderives _ _ _ _ => (hunique q v hderives).1) fun q v hderives => ?_
    rw [htake] at hderives
    obtain ⟨b', v₁, v₂, hbefore, hlast, rfl⟩ := hderives.of_append
    obtain ⟨rfl, rfl⟩ := hunique b' v₁ hbefore
    have hrigid : Rigid text [.category r'.category] b' m (u' + 0) _ :=
      .category hconsumes hends hchild honly (.nil _)
    obtain ⟨rfl, rfl⟩ := hrigid.unique htext hlast
    exact ⟨rfl, by rw [Int.add_zero]⟩

/-- A production whose symbols can be read in one way only has its preferred reading. -/
theorem preferred (htext : Spaced text) (h : Rigid text r.symbols s j u us) :
    Preferred start text r r.symbols.length s j u us := by
  have hpreferred : Preferred start text r r.symbols.length s j (0 + u) ([] ++ us) :=
    h.preferred_from htext rfl (.zero r s) fun q v hderives => by
      cases hderives
      exact ⟨rfl, rfl⟩
  rwa [Int.zero_add, nil_append] at hpreferred

end Rigid

theorem Preferred.first_category (hsymbol : r.symbols[0]? = some (.category r'.category))
    (hconsumes : r'.category.consumes = true)
    (hcase : r'.category = start ∨ r.symbols.length = 1 ∨
      ∀ x : Production, x.category = r'.category → x.EndsInTerminal)
    (hchild : ∀ k, Gap text s k → Preferred start text r' r'.symbols.length k j u us)
    (hbest : ∀ k, Gap text s k → Best text r' k j u) :
    Preferred start text r 1 s j u [.node r' us] := by
  have hpreferred := (Preferred.zero r s).category hsymbol hconsumes
    (hcase.imp_right (Or.imp_left Eq.symm)) hchild hbest fun q v k x v' hderives _ _ _ _ => by
      cases hderives
      rfl
  rwa [Int.zero_add] at hpreferred

end LuaInterpreter
