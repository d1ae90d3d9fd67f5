import LuaInterpreter.Store.Text

/-!
# Functions that can be written as text

The text of a function shows its name and its parameters, which are byte strings. It can be written
for sure if these are ASCII, as all names of programs are.
-/

namespace LuaInterpreter

open List

namespace Bytes

def IsAscii (bs : Bytes) : Prop := ∀ b ∈ bs, b < 0x80

instance (bs : Bytes) : Decidable bs.IsAscii := List.decidableBAll _ bs

variable {bs : Bytes}

theorem isAscii_of_encodeAscii? {s : String} (h : encodeAscii? s = .ok bs) : bs.IsAscii := by
  cases hfind : s.toList.findIdx? (!isAsciiChar ·) with
  | some start =>
    simp only [encodeAscii?, hfind] at h
    cases h
  | none =>
    simp only [encodeAscii?, hfind] at h
    cases h
    intro b hb
    obtain ⟨c, hc, rfl⟩ := mem_map.mp hb
    have hascii : c.toNat < 128 := by simpa [isAsciiChar] using List.findIdx?_eq_none_iff.mp hfind c hc
    have hmod : c.toNat % 256 = c.toNat := Nat.mod_eq_of_lt (by omega)
    rw [UInt8.lt_iff_toNat_lt, Nat.toUInt8_eq, UInt8.toNat_ofNat', hmod]
    exact hascii

theorem decodeFrom_eq_ok_of_isAscii (h : bs.IsAscii) (position : Nat) :
    ∃ cs, decodeFrom bs position 0 = .ok cs := by
  induction bs generalizing position with
  | nil => exact ⟨[], rfl⟩
  | cons b bs ih =>
    obtain ⟨cs, hcs⟩ := ih (fun c hc => h c (mem_cons_of_mem _ hc)) (position + 1)
    refine ⟨Char.ofNat b.toNat :: cs, ?_⟩
    have hb : decodeOne b bs = .char (Char.ofNat b.toNat) 1 := if_pos (h b mem_cons_self)
    simp only [decodeFrom, hb, Nat.sub_self, hcs]
    rfl

end Bytes

namespace Function

/-- A function whose name and parameters are ASCII. -/
structure IsLegible (f : Function) : Prop where
  params : ∀ p ∈ f.params, p.IsAscii
  name : ∀ bs, f.name = some (.string bs) → bs.IsAscii

variable {f : Function}

theorem IsLegible.named (h : f.IsLegible) {x : Bytes} (hx : x.IsAscii) :
    IsLegible { f with name := some (.string x) } where
  params := h.params
  name := by
    intro bs hname
    cases hname
    exact hx

theorem IsLegible.withParam (h : f.IsLegible) {p : Bytes} (hp : p.IsAscii) :
    IsLegible { f with params := p :: f.params } where
  params := forall_mem_cons.mpr ⟨hp, h.params⟩
  name := h.name

theorem decodeName_eq_ok_of_isAscii {bs : Bytes} (h : bs.IsAscii) : ∃ x, decodeName bs = .ok x := by
  obtain ⟨cs, hcs⟩ := Bytes.decodeFrom_eq_ok_of_isAscii h 0
  refine ⟨String.ofList cs, ?_⟩
  rw [decodeName, Bytes.decodeUtf8?, Bytes.decodeChars?, hcs]
  rfl

theorem mapM_decodeName_eq_ok {names : List Bytes} (h : ∀ p ∈ names, p.IsAscii) :
    ∃ xs, names.mapM decodeName = .ok xs := by
  induction names with
  | nil => exact ⟨[], rfl⟩
  | cons p names ih =>
    obtain ⟨x, hx⟩ := decodeName_eq_ok_of_isAscii (h p mem_cons_self)
    obtain ⟨xs, hxs⟩ := ih fun q hq => h q (mem_cons_of_mem _ hq)
    refine ⟨x :: xs, ?_⟩
    rw [mapM_cons, hx, hxs]
    rfl

theorem IsLegible.nameText_eq_ok (h : f.IsLegible) : ∃ x, f.nameText = .ok x := by
  unfold nameText
  split
  any_goals exact ⟨_, rfl⟩
  next bs hname =>
    obtain ⟨x, hx⟩ := decodeName_eq_ok_of_isAscii (h.name bs hname)
    rw [hx]
    exact ⟨_, rfl⟩

theorem IsLegible.paramsText_eq_ok (h : f.IsLegible) : ∃ x, f.paramsText = .ok x := by
  obtain ⟨xs, hxs⟩ := mapM_decodeName_eq_ok h.params
  unfold paramsText
  split
  · exact ⟨_, rfl⟩
  · rw [hxs]
    cases f.minRequired with
    | some n | none => exact ⟨_, rfl⟩

theorem IsLegible.text_eq_ok (h : f.IsLegible) (id : Nat) : ∃ x, f.text id = .ok x := by
  obtain ⟨name, hname⟩ := h.nameText_eq_ok
  obtain ⟨params, hparams⟩ := h.paramsText_eq_ok
  rw [text, hname, hparams]
  exact ⟨_, rfl⟩

theorem isLegible_ofBuiltin (b : Builtin) : (ofBuiltin b).IsLegible where
  params := by cases b <;> decide +kernel
  name := by
    intro bs hname
    cases hname

end Function

namespace Store

def Legible (s : Store) : Prop := ∀ f ∈ s.functions, f.IsLegible

variable {s t : Store}

theorem Legible.of_functions_eq (hs : s.Legible) (h : t.functions = s.functions) : t.Legible := by
  rw [Legible, h]
  exact hs

theorem Legible.functionText_eq_ok (hs : s.Legible) (id : Nat) :
    ∃ x, s.functionText id = .ok x := by
  unfold functionText
  split
  · next f hf => exact (hs f (Array.mem_of_getElem? hf)).text_eq_ok id
  · exact ⟨_, rfl⟩

theorem legible_initial (world : World) : (Store.initial world).Legible := by
  intro f hf
  obtain ⟨b, -, rfl⟩ := mem_map.mp (mem_toArray.mp hf)
  exact Function.isLegible_ofBuiltin b

end Store

end LuaInterpreter
