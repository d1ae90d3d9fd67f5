import LuaInterpreter.Proofs.Building.Assembly
import LuaInterpreter.Proofs.Chart.TreeShape

/-!
# From trees to statements

Building turns a tree of the grammar into a syntax tree, and it does so for every production but
one: whatever the text, if no reserved word stands for a name and no `repeat` loop occurs, there is
a syntax tree, and it has the statements of the tree, in their order and at their lines. A `repeat`
loop has no syntax tree, and wherever it occurs it takes the whole text with it.
-/

namespace LuaInterpreter

open List Option Tree

/-! ## The statements of a tree -/

mutual

def Tree.line? : Tree → Option Nat
  | .leaf _ _ line => some line
  | .node _ children => lineAll? children

def Tree.lineAll? : List Tree → Option Nat
  | [] => none
  | t :: ts => t.line? <|> lineAll? ts

end

mutual

/-- The statements in a tree, each with the line of its first token, in the order in which they
begin. -/
def Tree.statements : Tree → List (StatKind × Int)
  | .leaf .. => []
  | .node r children =>
    (r.statement?.map fun kind => (kind, (lineAll? children).elim (-1) Int.ofNat)).toList ++
      statementsAll children

def Tree.statementsAll : List Tree → List (StatKind × Int)
  | [] => []
  | t :: ts => t.statements ++ statementsAll ts

end

mutual

def Tree.names : Tree → List String
  | .leaf t text _ => if t = .name then [text] else []
  | .node _ children => namesAll children

def Tree.namesAll : List Tree → List String
  | [] => []
  | t :: ts => t.names ++ namesAll ts

end

mutual

theorem Tree.Fits.line?_isSome {x : Symbol} : {t : Tree} → t.Fits x → x.consumes = true →
    t.line?.isSome = true
  | .leaf .., _, _ => rfl
  | .node r _, h, hconsumes => by
    cases h with
    | node hc hall => exact hall.lineAll?_isSome (r.any_consumes (hc ▸ hconsumes))

theorem Tree.FitAll.lineAll?_isSome {xs : List Symbol} : {ts : List Tree} → Tree.FitAll xs ts →
    xs.any Symbol.consumes = true → (lineAll? ts).isSome = true
  | [], h, hany => by
    cases h
    cases hany
  | t :: ts, h, hany => by
    cases h with
    | cons ht hts =>
      rw [any_cons, Bool.or_eq_true] at hany
      rw [lineAll?, orElse_eq_orElse, orElse_eq_or, isSome_or,
        Bool.or_eq_true]
      exact hany.imp ht.line?_isSome hts.lineAll?_isSome

end

theorem Production.consumes_of_statement? {r : Production} (h : r.statement?.isSome = true) :
    r.category.consumes = true := by
  revert h
  cases r <;> decide

theorem Production.eq_statRepeat {r : Production} (h : r.statement? = some .repeat) :
    r = .statRepeat := by
  revert h
  cases r <;> decide

/-! ## Pieces at their lines -/

namespace Build

theorem Piece.Has.atLine {ρ : Role} {p : Piece} (h : p.Has ρ) (line : Int) :
    (p.atLine line).Has ρ := by
  cases h <;> constructor <;> assumption

theorem Piece.statements_atLine {p : Piece} {line : Int}
    (h : ∀ s, p = .stat s → s.place.line = line) :
    (p.atLine line).statements = p.statements := by
  cases p with
  | stat s =>
    show (s.atLine line).statements = s.statements
    rw [s.statements_atLine, s.statements_eq, h s rfl]
  | _ => simp [Piece.atLine, Piece.statements, flatMap_map]

theorem role_ne_stat_of_keepsLines {r : Production} (h : keepsLines r = true) :
    r.category.role ≠ .stat := by
  revert h
  cases r <;> decide

theorem statement?_of_keepsLines {r : Production} (h : keepsLines r = true) :
    r.statement? = none := by
  revert h
  cases r <;> decide

/-- A piece that is one statement stands at the line, if there is one. -/
def Piece.StandsAt (line : Option Nat) (piece : Piece) : Prop :=
  ∀ (s : Stat) (l : Nat), piece = .stat s → line = some l → s.place.line = l

theorem Piece.standsAt_of_has {ρ : Role} {piece : Piece} (h : piece.Has ρ) (hρ : ρ ≠ .stat)
    (line : Option Nat) : piece.StandsAt line := by
  rintro s l rfl -
  cases h
  exact absurd rfl hρ

theorem Piece.standsAt_atLine (piece : Piece) (l : Nat) : (piece.atLine l).StandsAt (some l) := by
  rintro s l' hs ⟨⟩
  cases piece with
  | stat s' =>
    cases hs
    exact s'.place_atLine l
  | _ => cases hs

theorem Piece.Makes.statements_atLine {piece : Piece} {parts : List Piece}
    {kind : Option StatKind} {l : Nat} (h : piece.Makes parts kind)
    (hstands : ∀ p, parts = [p] → p.StandsAt (some l)) :
    (piece.atLine l).statements =
      (kind.map fun kind => (kind, (l : Int))).toList ++ parts.flatMap Piece.statements := by
  cases kind with
  | some kind =>
    obtain ⟨s, rfl, hs, hinner⟩ := h
    show (s.atLine l).statements = _
    rw [s.statements_atLine, hs, hinner]
  | none =>
    rw [Piece.statements_atLine, h.statements_eq]
    · rfl
    · rintro s rfl
      rcases h with hparts | ⟨hne, -⟩
      · exact hstands _ hparts s l rfl rfl
      · exact absurd rfl (hne s)

/-- A production with its parts gives a piece at the line of its first token. -/
theorem nodePiece_of_have {r : Production} {line : Option Nat} {parts : List Piece}
    (hr : r ≠ .statRepeat) (h : HaveAll r.symbols parts)
    (hline : r.category.consumes = true → line.isSome = true)
    (hstands : ∀ p, parts = [p] → p.StandsAt line) :
    ∃ piece, nodePiece r line parts = .ok piece ∧ piece.Has r.category.role ∧
      piece.StandsAt line ∧
      piece.statements =
        (r.statement?.map fun kind => (kind, line.elim (-1) Int.ofNat)).toList ++
          parts.flatMap Piece.statements := by
  obtain ⟨piece, hmake, hhas, hmakes⟩ := assemble_eq_some h
  rw [nodePiece, if_neg hr, hmake]
  cases line with
  | none =>
    have hkind : r.statement? = none := by
      by_contra hkind
      exact nomatch hline (r.consumes_of_statement? (isSome_iff_ne_none.mpr hkind))
    rw [hkind] at hmakes ⊢
    exact ⟨piece, rfl, hhas, nofun, hmakes.statements_eq⟩
  | some l =>
    by_cases hkeeps : keepsLines r = true
    · rw [statement?_of_keepsLines hkeeps] at hmakes ⊢
      exact ⟨piece, congrArg Except.ok (if_pos hkeeps), hhas,
        Piece.standsAt_of_has hhas (role_ne_stat_of_keepsLines hkeeps) _, hmakes.statements_eq⟩
    · exact ⟨piece.atLine l, congrArg Except.ok (if_neg hkeeps), hhas.atLine l,
        piece.standsAt_atLine l, hmakes.statements_atLine hstands⟩

/-- A name that is no reserved word, and any other piece of text, gives a piece. -/
theorem leafPiece_of_fits {t : Terminal} {text : String} (line : Nat)
    (hword : ∀ w, t = .word w → text = w) (hname : t = .name → text ∉ reservedWords) :
    ∃ piece, leafPiece t text line = .ok piece ∧ piece.Has (Symbol.terminal t).role ∧
      (∀ s, piece ≠ .stat s) ∧ piece.statements = [] := by
  by_cases ht : t = .name
  · subst ht
    exact ⟨_, (if_pos rfl).trans (if_neg (hname rfl)), .name _, nofun, rfl⟩
  · refine ⟨_, if_neg ht, ?_, nofun, rfl⟩
    cases t with
    | name => exact absurd rfl ht
    | word w => exact .word _ (hword w rfl)
    | _ => exact .token _

/-! ## Building -/

structure Piece.Represents (x : Symbol) (t : Tree) (piece : Piece) : Prop where
  has : piece.Has x.role
  stands : piece.StandsAt t.line?
  statements : piece.statements = t.statements

/-- Pieces that stand for trees of some symbols. Only a single one has to stand at the line of the
first token, since that is the only one that a production may pass on. -/
structure RepresentAll (xs : List Symbol) (ts : List Tree) (parts : List Piece) : Prop where
  has : HaveAll xs parts
  stands : ∀ p, parts = [p] → p.StandsAt (lineAll? ts)
  statements : parts.flatMap Piece.statements = statementsAll ts

mutual

theorem build_of_fits {x : Symbol} : {t : Tree} → t.Fits x → (∀ n ∈ t.names, n ∉ reservedWords) →
    (∀ line, (.repeat, line) ∉ t.statements) →
    ∃ piece, build t = .ok (piece, t.line?) ∧ piece.Represents x t
  | .leaf t text line, h, hnames, _ => by
    cases h with
    | leaf hword =>
      obtain ⟨piece, hpiece, hhas, hne, hstatements⟩ :=
        leafPiece_of_fits line hword fun ht => hnames text (by simp [names, ht])
      refine ⟨piece, ?_, hhas, fun s l hs => absurd hs (hne s), hstatements⟩
      rw [build, hpiece]
      rfl
  | .node r children, h, hnames, hrepeat => by
    cases h with
    | node hc hall =>
      subst hc
      obtain ⟨parts, hparts, hall'⟩ := buildAll_of_fit hall hnames
        fun line hmem => hrepeat line (mem_append_right _ hmem)
      have hr : r ≠ .statRepeat := by
        rintro rfl
        exact hrepeat _ mem_cons_self
      obtain ⟨piece, hpiece, hhas, hstands, hstatements⟩ := nodePiece_of_have hr hall'.has
        (fun hconsumes => hall.lineAll?_isSome (r.any_consumes hconsumes)) hall'.stands
      rw [hall'.statements] at hstatements
      refine ⟨piece, ?_, hhas, hstands, hstatements⟩
      rw [build, hparts]
      show (nodePiece r _ parts >>= _) = _
      rw [hpiece]
      rfl

theorem buildAll_of_fit {xs : List Symbol} : {ts : List Tree} → Tree.FitAll xs ts →
    (∀ n ∈ namesAll ts, n ∉ reservedWords) →
    (∀ line, (.repeat, line) ∉ statementsAll ts) →
    ∃ parts, buildAll ts = .ok (parts, lineAll? ts) ∧ RepresentAll xs ts parts
  | [], h, _, _ => by
    cases h
    exact ⟨[], rfl, .nil, nofun, rfl⟩
  | t :: ts, h, hnames, hrepeat => by
    cases h with
    | @cons _ xs' _ _ ht hts =>
      rw [namesAll, forall_mem_append] at hnames
      obtain ⟨piece, hpiece, hhas, hstands, hstatements⟩ := build_of_fits ht hnames.1
        fun line hmem => hrepeat line (mem_append_left _ hmem)
      obtain ⟨parts, hparts, hall, -, hrest⟩ := buildAll_of_fit hts hnames.2
        fun line hmem => hrepeat line (mem_append_right _ hmem)
      refine ⟨piece :: parts, ?_, .cons hhas hall, ?_, ?_⟩
      · rw [buildAll, hpiece]
        show (buildAll ts >>= _) = _
        rw [hparts]
        rfl
      · rintro p ⟨⟩
        -- With one piece there is one tree, and the line is that of the tree.
        cases xs' with
        | cons => cases hall
        | nil =>
          cases hts
          simpa [lineAll?] using hstands
      · rw [flatMap_cons, hstatements, hrest, statementsAll]

end

mutual

/-- A `repeat` loop is met before anything else goes wrong: what stands to its left can be built. -/
theorem build_of_repeat {x : Symbol} : {t : Tree} → t.Fits x →
    (∀ n ∈ t.names, n ∉ reservedWords) → (∃ line, (.repeat, line) ∈ t.statements) →
    build t = .error (.unsupported "stat_repeat")
  | .leaf .., _, _, hrepeat => nomatch hrepeat
  | .node r children, h, hnames, hrepeat => by
    cases h with
    | node hc hall =>
      rw [build]
      by_cases hinner : ∃ line, (.repeat, line) ∈ statementsAll children
      · rw [buildAll_of_repeat hall hnames hinner]
        rfl
      · obtain ⟨parts, hparts, -⟩ := buildAll_of_fit hall hnames (not_exists.mp hinner)
        obtain ⟨line, hmem⟩ := hrepeat
        have hown := (mem_append.mp hmem).resolve_right fun hmem => hinner ⟨line, hmem⟩
        obtain ⟨kind, hkind, heq⟩ := map_eq_some_iff.mp (mem_toList.mp hown)
        cases heq
        rw [hparts, r.eq_statRepeat hkind]
        rfl

theorem buildAll_of_repeat {xs : List Symbol} : {ts : List Tree} → Tree.FitAll xs ts →
    (∀ n ∈ namesAll ts, n ∉ reservedWords) →
    (∃ line, (.repeat, line) ∈ statementsAll ts) →
    buildAll ts = .error (.unsupported "stat_repeat")
  | [], _, _, hrepeat => nomatch hrepeat
  | t :: ts, h, hnames, hrepeat => by
    cases h with
    | cons ht hts =>
      rw [namesAll, forall_mem_append] at hnames
      rw [buildAll]
      by_cases hfirst : ∃ line, (.repeat, line) ∈ t.statements
      · rw [build_of_repeat ht hnames.1 hfirst]
        rfl
      · obtain ⟨piece, hpiece, -⟩ := build_of_fits ht hnames.1 (not_exists.mp hfirst)
        obtain ⟨line, hmem⟩ := hrepeat
        have hrest := (mem_append.mp hmem).resolve_left fun hmem => hfirst ⟨line, hmem⟩
        rw [hpiece]
        show (buildAll ts >>= _) = _
        rw [buildAll_of_repeat hts hnames.2 ⟨line, hrest⟩]
        rfl

end

end Build

/-! ## Reading a chunk -/

/-- A text whose names are no reserved words is read as a chunk with all its statements, in their
order and at their lines, unless there is a `repeat` loop among them: then there is no chunk. -/
theorem readChunk_builds_all_but_repeat {text : String} {tree : Tree}
    (hread : readText .chunk text.toList = .ok tree)
    (hnames : ∀ name ∈ tree.names, name ∉ reservedWords) :
    tree.Fits (.category .chunk) ∧
      ((∀ line, (.repeat, line) ∉ tree.statements) →
        ∃ c, readChunk text = .ok c ∧ c.block.statements = tree.statements) ∧
      ((∃ line, (.repeat, line) ∈ tree.statements) →
        readChunk text = .error (.unsupported "stat_repeat")) := by
  have hfits := readText_fits hread
  have hpiece : readPiece .chunk text.toList = (Build.build tree).map (·.1) := by
    rw [readPiece, hread]
  refine ⟨hfits, fun hrepeat => ?_, fun hrepeat => ?_⟩
  · obtain ⟨piece, hbuild, hhas, -, hstatements⟩ := Build.build_of_fits hfits hnames hrepeat
    cases hhas with
    | chunk c =>
      refine ⟨c, ?_, hstatements⟩
      rw [readChunk, hpiece, hbuild]
      rfl
  · rw [readChunk, hpiece, Build.build_of_repeat hfits hnames hrepeat]
    rfl

theorem exists_tree_of_listing {text : List Char} {statements : List (StatKind × Int)}
    {names : List String}
    (h : (readText .chunk text).toOption.map (fun tree => (tree.statements, tree.names)) =
      some (statements, names)) :
    ∃ tree, readText .chunk text = .ok tree ∧ tree.statements = statements ∧
      tree.names = names := by
  cases hread : readText .chunk text with
  | ok tree =>
    rw [hread] at h
    cases h
    exact ⟨tree, rfl, rfl, rfl⟩
  | error u =>
    rw [hread] at h
    cases h

/-- Two statements on two lines are read as such; a `repeat` loop is a statement of the grammar, but
it is not read. -/
theorem repeat_is_the_statement_not_read :
    (∃ c, readChunk ";\nbreak" = .ok c ∧ c.block.statements = [(.empty, 1), (.break, 2)]) ∧
      ∃ tree, readText .chunk "repeatuntil...".toList = .ok tree ∧
        tree.statements = [(.repeat, 1)] ∧
        readChunk "repeatuntil..." = .error (.unsupported "stat_repeat") := by
  constructor
  · have hlisting : (readText .chunk ";\nbreak".toList).toOption.map
        (fun tree => (tree.statements, tree.names)) = some ([(.empty, 1), (.break, 2)], []) := by
      decide +kernel
    obtain ⟨tree, hread, hstatements, hnames⟩ := exists_tree_of_listing hlisting
    have hchunk := (readChunk_builds_all_but_repeat hread (by simp [hnames])).2.1
    rw [hstatements] at hchunk
    exact hchunk (by simp)
  · have hlisting : (readText .chunk "repeatuntil...".toList).toOption.map
        (fun tree => (tree.statements, tree.names)) = some ([(.repeat, 1)], []) := by
      decide +kernel
    obtain ⟨tree, hread, hstatements, hnames⟩ := exists_tree_of_listing hlisting
    have hchunk := (readChunk_builds_all_but_repeat hread (by simp [hnames])).2.2
    rw [hstatements] at hchunk
    exact ⟨tree, hread, hstatements, hchunk ⟨1, mem_cons_self⟩⟩

end LuaInterpreter
