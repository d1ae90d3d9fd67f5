import LuaInterpreter.Number.Text

/-!
# Encoding and decoding

The bytes of a text are read back as that text, and white space around a text is white space around
its bytes.
-/

namespace LuaInterpreter.Bytes

open List

open UInt8 (toNat_ofNat_of_lt' ofNat_lt_iff le_ofNat_iff)

/-! ## One character -/

section

variable {v n : Nat}

theorem ofNat_eq_iff (h : v < 256) (b : UInt8) : UInt8.ofNat v = b ↔ v = b.toNat := by
  rw [← UInt8.toNat_inj, toNat_ofNat_of_lt' h]

theorem isContinuation_ofNat (n : Nat) : isContinuation (UInt8.ofNat (n % 64 + 128)) = true := by
  have hlt : n % 64 + 128 < 256 := by omega
  simp only [isContinuation, Bool.and_eq_true, decide_eq_true_eq, le_ofNat_iff hlt,
    ofNat_lt_iff hlt, UInt8.reduceToNat]
  omega

theorem payload_ofNat (n : Nat) : payload (UInt8.ofNat (n % 64 + 128)) = n % 64 := by
  have hlt : n % 64 + 128 < 256 := by omega
  rw [payload, toNat_ofNat_of_lt' hlt]
  omega

theorem decodeOne_one (h : v < 128) (rest : Bytes) :
    decodeOne (UInt8.ofNat v) rest = .char (Char.ofNat v) 1 := by
  have hlt : v < 256 := by omega
  have hone : UInt8.ofNat v < 0x80 := (ofNat_lt_iff hlt).mpr h
  rw [decodeOne.eq_def, if_pos hone, toNat_ofNat_of_lt' hlt]

theorem decodeOne_two (hlow : 127 < v) (h : v < 2048) (rest : Bytes) :
    decodeOne (UInt8.ofNat (v / 64 % 32 + 192)) (UInt8.ofNat (v % 64 + 128) :: rest) =
      .char (Char.ofNat v) 2 := by
  have hlt : v / 64 % 32 + 192 < 256 := by omega
  have hvalue : (v / 64 % 32 + 192) % 32 * 64 + v % 64 = v := by omega
  rw [decodeOne.eq_def, if_neg, if_neg, if_pos]
  · simp only [isContinuation_ofNat, if_true, payload_ofNat, toNat_ofNat_of_lt' hlt, hvalue]
  all_goals
    simp only [ofNat_lt_iff hlt, UInt8.reduceToNat]
    omega

/-- The second byte of a longer character rules out what is written in a shorter way, surrogates and
what lies beyond the last character. -/
theorem maySecond_ofNat (ha : v < 256) (hlow : v = 0xE0 → 0xA0 ≤ n % 64 + 128)
    (hsurrogate : v = 0xED → n % 64 + 128 < 0xA0) (hshort : v = 0xF0 → 0x90 ≤ n % 64 + 128)
    (hbeyond : v = 0xF4 → n % 64 + 128 < 0x90) :
    maySecond (UInt8.ofNat v) (UInt8.ofNat (n % 64 + 128)) = true := by
  have hb : n % 64 + 128 < 256 := by omega
  rw [maySecond, isContinuation_ofNat, Bool.true_and]
  simp only [beq_iff_eq, ofNat_eq_iff ha, le_ofNat_iff hb, ofNat_lt_iff hb, UInt8.reduceToNat]
  split
  · next he => exact decide_eq_true (hlow he)
  · split
    · next he => exact decide_eq_true (hsurrogate he)
    · split
      · next he => exact decide_eq_true (hshort he)
      · split
        · next he => exact decide_eq_true (hbeyond he)
        · rfl

theorem decodeOne_three (hlow : 2047 < v) (h : v < 65536) (hv : v < 0xD800 ∨ 0xDFFF < v)
    (rest : Bytes) :
    decodeOne (UInt8.ofNat (v / 4096 % 16 + 224))
        (UInt8.ofNat (v / 64 % 64 + 128) :: UInt8.ofNat (v % 64 + 128) :: rest) =
      .char (Char.ofNat v) 3 := by
  have hlt : v / 4096 % 16 + 224 < 256 := by omega
  have hvalue : ((v / 4096 % 16 + 224) % 16 * 64 + v / 64 % 64) * 64 + v % 64 = v := by omega
  have hsecond : maySecond (UInt8.ofNat (v / 4096 % 16 + 224)) (UInt8.ofNat (v / 64 % 64 + 128)) =
      true := by
    apply maySecond_ofNat hlt <;> omega
  rw [decodeOne.eq_def, if_neg, if_neg, if_neg, if_pos]
  · simp only [hsecond, Bool.not_true, Bool.false_eq_true, if_false, isContinuation_ofNat, if_true,
      payload_ofNat, toNat_ofNat_of_lt' hlt, hvalue]
  all_goals
    simp only [ofNat_lt_iff hlt, UInt8.reduceToNat]
    omega

theorem decodeOne_four (hlow : 65535 < v) (h : v < 0x110000) (rest : Bytes) :
    decodeOne (UInt8.ofNat (v / 262144 % 8 + 240))
        (UInt8.ofNat (v / 4096 % 64 + 128) :: UInt8.ofNat (v / 64 % 64 + 128) ::
          UInt8.ofNat (v % 64 + 128) :: rest) =
      .char (Char.ofNat v) 4 := by
  have hlt : v / 262144 % 8 + 240 < 256 := by omega
  have hvalue : (((v / 262144 % 8 + 240) % 8 * 64 + v / 4096 % 64) * 64 + v / 64 % 64) * 64 +
      v % 64 = v := by omega
  have hsecond : maySecond (UInt8.ofNat (v / 262144 % 8 + 240))
      (UInt8.ofNat (v / 4096 % 64 + 128)) = true := by
    apply maySecond_ofNat hlt <;> omega
  rw [decodeOne.eq_def, if_neg, if_neg, if_neg, if_neg, if_pos]
  · simp only [hsecond, Bool.not_true, Bool.false_eq_true, if_false, isContinuation_ofNat, if_true,
      payload_ofNat, toNat_ofNat_of_lt' hlt, hvalue]
  all_goals
    simp only [ofNat_lt_iff hlt, UInt8.reduceToNat]
    omega

theorem decodeOne_encode (c : Char) (rest : Bytes) :
    ∃ a tail, String.utf8EncodeChar c = a :: tail ∧
      decodeOne a (tail ++ rest) = .char c (tail.length + 1) := by
  have hvalid : c.toNat < 0xD800 ∨ 0xDFFF < c.toNat ∧ c.toNat < 0x110000 := c.valid
  have hchar : Char.ofNat c.val.toNat = c := Char.ofNat_toNat c
  simp only [String.utf8EncodeChar]
  change c.val.toNat < _ ∨ _ < c.val.toNat ∧ c.val.toNat < _ at hvalid
  generalize c.val.toNat = v at hvalid hchar
  subst hchar
  split
  · exact ⟨_, [], rfl, decodeOne_one (by omega) _⟩
  · split
    · exact ⟨_, [_], rfl, decodeOne_two (by omega) (by omega) _⟩
    · split
      · exact ⟨_, [_, _], rfl, decodeOne_three (by omega) (by omega) (by omega) _⟩
      · exact ⟨_, [_, _, _], rfl, decodeOne_four (by omega) (by omega) _⟩

end

/-! ## A text -/

theorem decodeFrom_append (tail rest : Bytes) (position : Nat) :
    decodeFrom (tail ++ rest) position tail.length = decodeFrom rest (position + tail.length) 0 := by
  induction tail generalizing position with
  | nil => rfl
  | cons b tail ih =>
    rw [cons_append, length_cons, decodeFrom, ih]
    congr 1
    omega

theorem decodeFrom_ofChars (cs : List Char) (position : Nat) :
    decodeFrom (ofChars cs) position 0 = .ok cs := by
  induction cs generalizing position with
  | nil => rfl
  | cons c cs ih =>
    obtain ⟨a, tail, hencode, hone⟩ := decodeOne_encode c (ofChars cs)
    have hbytes : ofChars (c :: cs) = a :: (tail ++ ofChars cs) := by
      rw [ofChars, flatMap_cons, hencode]
      rfl
    rw [hbytes, decodeFrom, hone]
    simp only [Nat.add_sub_cancel, decodeFrom_append, ih]
    rfl

theorem decodeUtf8?_ofChars (cs : List Char) : decodeUtf8? (ofChars cs) = .ok (String.ofList cs) := by
  rw [decodeUtf8?, decodeChars?, decodeFrom_ofChars]
  rfl

theorem ofChars_injective : Function.Injective ofChars := by
  intro cs ds h
  have hcs := decodeFrom_ofChars cs 0
  rw [h, decodeFrom_ofChars ds 0] at hcs
  exact (Except.ok.inj hcs).symm

/-! ## White space -/

section

variable {c : Char}

theorem isSpaceChar_eq (c : Char) :
    isSpaceChar c = (decide (c.toNat = 32) || decide (9 ≤ c.toNat ∧ c.toNat ≤ 13)) := by
  rw [Bool.eq_iff_iff]
  simp only [isSpaceChar, Bool.or_eq_true, beq_iff_eq, ← Char.toNat_inj, Bool.and_eq_true,
    decide_eq_true_eq, Char.le_def, UInt32.le_iff_toNat_le]
  rfl

theorem isBlank_ofNat {v : Nat} (h : v < 256) :
    isBlank (UInt8.ofNat v) = (decide (v = 32) || decide (9 ≤ v ∧ v ≤ 13)) := by
  rw [Bool.eq_iff_iff]
  simp only [isBlank, Bool.or_eq_true, beq_iff_eq, ofNat_eq_iff h, Bool.and_eq_true,
    decide_eq_true_eq, le_ofNat_iff h, UInt8.le_iff_toNat_le, toNat_ofNat_of_lt' h,
    UInt8.reduceToNat]

theorem isBlank_of_mem {b : UInt8} (hb : b ∈ String.utf8EncodeChar c) :
    isBlank b = isSpaceChar c := by
  rw [isSpaceChar_eq]
  change isBlank b = (decide (c.val.toNat = 32) || decide (9 ≤ c.val.toNat ∧ c.val.toNat ≤ 13))
  simp only [String.utf8EncodeChar] at hb
  generalize c.val.toNat = v at hb ⊢
  have hnone {n : Nat} (hv : 127 < v) (hn : 127 < n) (hlt : n < 256) :
      isBlank (UInt8.ofNat n) = (decide (v = 32) || decide (9 ≤ v ∧ v ≤ 13)) := by
    rw [isBlank_ofNat hlt, Bool.eq_iff_iff]
    simp only [Bool.or_eq_true, decide_eq_true_eq]
    omega
  split at hb
  · obtain rfl := mem_singleton.mp hb
    exact isBlank_ofNat (by omega)
  · split at hb
    · simp only [mem_cons, not_mem_nil, or_false] at hb
      rcases hb with rfl | rfl <;> exact hnone (by omega) (by omega) (by omega)
    · split at hb
      · simp only [mem_cons, not_mem_nil, or_false] at hb
        rcases hb with rfl | rfl | rfl <;> exact hnone (by omega) (by omega) (by omega)
      · simp only [mem_cons, not_mem_nil, or_false] at hb
        rcases hb with rfl | rfl | rfl | rfl <;> exact hnone (by omega) (by omega) (by omega)

/-- Blanks at the front can be taken off before or after writing the characters as bytes, in
whatever order the bytes of one character come. -/
theorem dropWhile_flatMap {f : Char → Bytes} (hne : ∀ c, f c ≠ [])
    (hblank : ∀ c, ∀ b ∈ f c, isBlank b = isSpaceChar c) (cs : List Char) :
    (cs.flatMap f).dropWhile isBlank = (cs.dropWhile isSpaceChar).flatMap f := by
  induction cs with
  | nil => rfl
  | cons c cs ih =>
    rw [flatMap_cons, dropWhile_cons]
    cases hc : isSpaceChar c with
    | true =>
      rw [dropWhile_append_of_pos fun b hb => (hblank c b hb).trans hc, ih, if_pos rfl]
    | false =>
      obtain ⟨b, bs, hbytes⟩ := exists_cons_of_ne_nil (hne c)
      have hb : isBlank b = false := (hblank c b (hbytes ▸ .head bs)).trans hc
      rw [hbytes, cons_append, dropWhile_cons, hb, if_neg Bool.false_ne_true,
        if_neg Bool.false_ne_true, flatMap_cons, hbytes, cons_append]

/-- White space around a text that has none at its ends is what is taken off. -/
theorem stripChars_append {before cs after : List Char} (hbefore : ∀ c ∈ before, isSpaceChar c = true)
    (hafter : ∀ c ∈ after, isSpaceChar c = true) (hne : cs ≠ [])
    (hends : ∀ c, c ∈ cs.head? ∨ c ∈ cs.getLast? → isSpaceChar c = false) :
    stripChars (before ++ cs ++ after) = cs := by
  have hkept {ds rest : List Char} (hds : ds ≠ []) (hhead : ∀ c ∈ ds.head?, isSpaceChar c = false) :
      (ds ++ rest).dropWhile isSpaceChar = ds ++ rest := by
    obtain ⟨d, ds, rfl⟩ := exists_cons_of_ne_nil hds
    rw [cons_append, dropWhile_cons, hhead d rfl, if_neg Bool.false_ne_true]
  have hlast : ∀ c ∈ cs.reverse.head?, isSpaceChar c = false := by
    rw [List.head?_reverse]
    exact fun c hc => hends c (.inr hc)
  rw [stripChars, append_assoc, dropWhile_append_of_pos hbefore,
    hkept hne fun c hc => hends c (.inl hc), reverse_append,
    dropWhile_append_of_pos fun c hc => hafter c (mem_reverse.mp hc),
    ← append_nil cs.reverse, hkept (reverse_ne_nil_iff.mpr hne) hlast, append_nil,
    reverse_reverse]

theorem strip_ofChars (cs : List Char) : strip (ofChars cs) = ofChars (stripChars cs) := by
  have hfront (ds : List Char) :
      (ofChars ds).dropWhile isBlank = ofChars (ds.dropWhile isSpaceChar) :=
    dropWhile_flatMap (fun _ => String.utf8EncodeChar_ne_nil) (fun _ _ => isBlank_of_mem) ds
  have hback (ds : List Char) : (ofChars ds).reverse.dropWhile isBlank =
      (ofChars (ds.reverse.dropWhile isSpaceChar).reverse).reverse := by
    simp only [ofChars, reverse_flatMap, reverse_reverse]
    exact dropWhile_flatMap (fun c => reverse_ne_nil_iff.mpr String.utf8EncodeChar_ne_nil)
      (fun _ _ hb => isBlank_of_mem (mem_reverse.mp hb)) ds.reverse
  rw [strip, hfront, hback, reverse_reverse, stripChars]

end

end LuaInterpreter.Bytes
