import ContentGraph.Outcome
import ContentGraph.Utf8

/-! Text read from bytes is the text whose bytes they are: UTF-8 has one form for every text, and
what is read is always that form. -/

namespace ContentGraph

theorem toNat_charOfNat {n : Nat} (h : n.isValidChar) : (Char.ofNat n).val.toNat = n := by
  rw [Char.ofNat, dif_pos h]
  rfl

theorem isContinuation_iff {b : UInt8} :
    isContinuation b = true ↔ 0x80 ≤ b.toNat ∧ b.toNat ≤ 0xBF := by
  simp [isContinuation, UInt8.le_iff_toNat_le]

theorem followsLead_iff {b c : UInt8} :
    followsLead b c = true ↔
      0x80 ≤ c.toNat ∧ c.toNat ≤ 0xBF ∧ (b.toNat = 0xE0 → 0xA0 ≤ c.toNat) ∧
        (b.toNat = 0xED → c.toNat ≤ 0x9F) ∧ (b.toNat = 0xF0 → 0x90 ≤ c.toNat) ∧
        (b.toNat = 0xF4 → c.toNat ≤ 0x8F) := by
  simp only [followsLead, secondByteRange, ← UInt8.toNat_inj, Bool.and_eq_true, decide_eq_true_eq,
    UInt8.le_iff_toNat_le, UInt8.reduceToNat]
  by_cases h1 : b.toNat = 0xE0
  · simp [h1]; omega
  by_cases h2 : b.toNat = 0xED
  · simp [h2]; omega
  by_cases h3 : b.toNat = 0xF0
  · simp [h3]; omega
  by_cases h4 : b.toNat = 0xF4
  · simp [h4]; omega
  · simp [h1, h2, h3, h4]

theorem byte_eq_of_toNat {n : Nat} {b : UInt8} (h : n % 256 = b.toNat) : UInt8.ofNat n = b :=
  UInt8.toNat_inj.mp (by rw [UInt8.toNat_ofNat', h])

theorem encodeChar_one {b : UInt8} (hb : b < 0x80) :
    String.utf8EncodeChar (Char.ofNat b.toNat) = [b] := by
  have hb : b.toNat < 128 := hb
  have hn : (Char.ofNat b.toNat).val.toNat = b.toNat :=
    toNat_charOfNat (by simp only [Nat.isValidChar]; omega)
  simp [String.utf8EncodeChar, hn, show b.toNat ≤ 127 by omega]

theorem encodeChar_two {b c : UInt8} (hlow : ¬b < 0xC2) (hhigh : b < 0xE0)
    (hc : isContinuation c = true) :
    String.utf8EncodeChar (Char.ofNat (pushSixBits (b.toNat % 32) c)) = [b, c] := by
  have hc := isContinuation_iff.mp hc
  simp only [UInt8.lt_iff_toNat_lt, UInt8.reduceToNat] at hlow hhigh
  have hn : (Char.ofNat (pushSixBits (b.toNat % 32) c)).val.toNat =
      64 * (b.toNat % 32) + c.toNat % 64 :=
    toNat_charOfNat (by simp only [Nat.isValidChar, pushSixBits]; omega)
  simp only [String.utf8EncodeChar, hn]
  rw [if_neg (by omega), if_pos (by omega), byte_eq_of_toNat (b := b) (by omega),
    byte_eq_of_toNat (b := c) (by omega)]

theorem encodeChar_three {b c d : UInt8} (hlow : ¬b < 0xE0) (hhigh : b < 0xF0)
    (hc : followsLead b c = true) (hd : isContinuation d = true) :
    String.utf8EncodeChar (Char.ofNat (pushSixBits (pushSixBits (b.toNat % 16) c) d)) =
      [b, c, d] := by
  have hc := followsLead_iff.mp hc
  have hd := isContinuation_iff.mp hd
  simp only [UInt8.lt_iff_toNat_lt, UInt8.reduceToNat] at hlow hhigh
  have hn : (Char.ofNat (pushSixBits (pushSixBits (b.toNat % 16) c) d)).val.toNat =
      64 * (64 * (b.toNat % 16) + c.toNat % 64) + d.toNat % 64 :=
    toNat_charOfNat (by simp only [Nat.isValidChar, pushSixBits]; omega)
  simp only [String.utf8EncodeChar, hn]
  rw [if_neg (by omega), if_neg (by omega), if_pos (by omega), byte_eq_of_toNat (b := b) (by omega),
    byte_eq_of_toNat (b := c) (by omega), byte_eq_of_toNat (b := d) (by omega)]

theorem encodeChar_four {b c d e : UInt8} (hlow : ¬b < 0xF0) (hhigh : b < 0xF5)
    (hc : followsLead b c = true) (hd : isContinuation d = true) (he : isContinuation e = true) :
    String.utf8EncodeChar
        (Char.ofNat (pushSixBits (pushSixBits (pushSixBits (b.toNat % 8) c) d) e)) =
      [b, c, d, e] := by
  have hc := followsLead_iff.mp hc
  have hd := isContinuation_iff.mp hd
  have he := isContinuation_iff.mp he
  simp only [UInt8.lt_iff_toNat_lt, UInt8.reduceToNat] at hlow hhigh
  have hn : (Char.ofNat (pushSixBits (pushSixBits (pushSixBits (b.toNat % 8) c) d) e)).val.toNat =
      64 * (64 * (64 * (b.toNat % 8) + c.toNat % 64) + d.toNat % 64) + e.toNat % 64 :=
    toNat_charOfNat (by simp only [Nat.isValidChar, pushSixBits]; omega)
  simp only [String.utf8EncodeChar, hn]
  rw [if_neg (by omega), if_neg (by omega), if_neg (by omega), byte_eq_of_toNat (b := b) (by omega),
    byte_eq_of_toNat (b := c) (by omega), byte_eq_of_toNat (b := d) (by omega),
    byte_eq_of_toNat (b := e) (by omega)]

theorem charsOfUtf8_one {b : UInt8} (hb : b.toNat < 0x80) (index : Nat) (rest : Bytes) :
    charsOfUtf8 index (b :: rest) = (Char.ofNat b.toNat :: ·) <$> charsOfUtf8 (index + 1) rest := by
  rw [charsOfUtf8.eq_def]
  simp only [UInt8.lt_iff_toNat_lt, UInt8.reduceToNat, hb, if_true]

theorem charsOfUtf8_two {b c : UInt8} (hlow : 0xC2 ≤ b.toNat) (hhigh : b.toNat < 0xE0)
    (hc : isContinuation c = true) (index : Nat) (rest : Bytes) :
    charsOfUtf8 index (b :: c :: rest) =
      (Char.ofNat (pushSixBits (b.toNat % 32) c) :: ·) <$> charsOfUtf8 (index + 2) rest := by
  rw [charsOfUtf8.eq_def]
  simp only [UInt8.lt_iff_toNat_lt, UInt8.reduceToNat, hc, if_true]
  rw [if_neg (by omega), if_neg (by omega), if_pos (by omega)]

theorem charsOfUtf8_three {b c d : UInt8} (hlow : 0xE0 ≤ b.toNat) (hhigh : b.toNat < 0xF0)
    (hc : followsLead b c = true) (hd : isContinuation d = true) (index : Nat) (rest : Bytes) :
    charsOfUtf8 index (b :: c :: d :: rest) =
      (Char.ofNat (pushSixBits (pushSixBits (b.toNat % 16) c) d) :: ·) <$>
        charsOfUtf8 (index + 3) rest := by
  rw [charsOfUtf8.eq_def]
  simp only [UInt8.lt_iff_toNat_lt, UInt8.reduceToNat, hc, hd, if_true, Bool.not_true,
    Bool.false_eq_true, if_false]
  rw [if_neg (by omega), if_neg (by omega), if_neg (by omega), if_pos (by omega)]

theorem charsOfUtf8_four {b c d e : UInt8} (hlow : 0xF0 ≤ b.toNat) (hhigh : b.toNat < 0xF5)
    (hc : followsLead b c = true) (hd : isContinuation d = true) (he : isContinuation e = true)
    (index : Nat) (rest : Bytes) :
    charsOfUtf8 index (b :: c :: d :: e :: rest) =
      (Char.ofNat (pushSixBits (pushSixBits (pushSixBits (b.toNat % 8) c) d) e) :: ·) <$>
        charsOfUtf8 (index + 4) rest := by
  rw [charsOfUtf8.eq_def]
  simp only [UInt8.lt_iff_toNat_lt, UInt8.reduceToNat, hc, hd, he, if_true, Bool.not_true,
    Bool.false_eq_true, if_false]
  rw [if_neg (by omega), if_neg (by omega), if_neg (by omega), if_neg (by omega), if_pos (by omega)]

theorem charOfNat_of_eq {c : Char} {n : Nat} (h : n = c.val.toNat) : Char.ofNat n = c := by
  rw [h]
  exact Char.ofNat_toNat c

/-- The bytes of the character give it back, whatever follows them. -/
def IsReadBack (c : Char) : Prop :=
  ∀ (index : Nat) (rest : Bytes), charsOfUtf8 index (String.utf8EncodeChar c ++ rest) =
    (c :: ·) <$> charsOfUtf8 (index + (String.utf8EncodeChar c).length) rest

theorem isReadBack_one {c : Char} (h : c.val.toNat ≤ 0x7F) : IsReadBack c := by
  intro index rest
  simp only [String.utf8EncodeChar, if_pos h, List.cons_append, List.nil_append, List.length_cons,
    List.length_nil]
  have hb : (UInt8.ofNat c.val.toNat).toNat = c.val.toNat := by rw [UInt8.toNat_ofNat']; omega
  rw [charsOfUtf8_one (by omega), charOfNat_of_eq hb]

theorem isReadBack_two {c : Char} (hlow : ¬c.val.toNat ≤ 0x7F) (h : c.val.toNat ≤ 0x7FF) :
    IsReadBack c := by
  intro index rest
  simp only [String.utf8EncodeChar, if_neg hlow, if_pos h, List.cons_append, List.nil_append,
    List.length_cons, List.length_nil]
  have hb : (UInt8.ofNat (c.val.toNat / 64 % 32 + 192)).toNat = c.val.toNat / 64 + 192 := by
    rw [UInt8.toNat_ofNat']; omega
  have hd : (UInt8.ofNat (c.val.toNat % 64 + 128)).toNat = c.val.toNat % 64 + 128 := by
    rw [UInt8.toNat_ofNat']; omega
  generalize UInt8.ofNat (c.val.toNat / 64 % 32 + 192) = b at *
  generalize UInt8.ofNat (c.val.toNat % 64 + 128) = d at *
  have hc : pushSixBits (b.toNat % 32) d = c.val.toNat := by simp only [pushSixBits]; omega
  rw [charsOfUtf8_two (by omega) (by omega) (isContinuation_iff.mpr (by omega)),
    charOfNat_of_eq hc]

theorem isReadBack_three {c : Char} (hlow : ¬c.val.toNat ≤ 0x7FF) (h : c.val.toNat ≤ 0xFFFF) :
    IsReadBack c := by
  intro index rest
  have hvalid : c.val.toNat.isValidChar := c.valid
  simp only [Nat.isValidChar] at hvalid
  have hone : ¬c.val.toNat ≤ 0x7F := by omega
  simp only [String.utf8EncodeChar, if_neg hone, if_neg hlow, if_pos h, List.cons_append,
    List.nil_append, List.length_cons, List.length_nil]
  have hb : (UInt8.ofNat (c.val.toNat / 4096 % 16 + 224)).toNat = c.val.toNat / 4096 + 224 := by
    rw [UInt8.toNat_ofNat']; omega
  have hd : (UInt8.ofNat (c.val.toNat / 64 % 64 + 128)).toNat = c.val.toNat / 64 % 64 + 128 := by
    rw [UInt8.toNat_ofNat']; omega
  have he : (UInt8.ofNat (c.val.toNat % 64 + 128)).toNat = c.val.toNat % 64 + 128 := by
    rw [UInt8.toNat_ofNat']; omega
  generalize UInt8.ofNat (c.val.toNat / 4096 % 16 + 224) = b at *
  generalize UInt8.ofNat (c.val.toNat / 64 % 64 + 128) = d at *
  generalize UInt8.ofNat (c.val.toNat % 64 + 128) = e at *
  have hc : pushSixBits (pushSixBits (b.toNat % 16) d) e = c.val.toNat := by
    simp only [pushSixBits]; omega
  rw [charsOfUtf8_three (by omega) (by omega) (followsLead_iff.mpr (by omega))
    (isContinuation_iff.mpr (by omega)), charOfNat_of_eq hc]

theorem isReadBack_four {c : Char} (hlow : ¬c.val.toNat ≤ 0xFFFF) : IsReadBack c := by
  intro index rest
  have hvalid : c.val.toNat.isValidChar := c.valid
  simp only [Nat.isValidChar] at hvalid
  have hone : ¬c.val.toNat ≤ 0x7F := by omega
  have htwo : ¬c.val.toNat ≤ 0x7FF := by omega
  simp only [String.utf8EncodeChar, if_neg hone, if_neg htwo, if_neg hlow, List.cons_append,
    List.nil_append, List.length_cons, List.length_nil]
  have hb : (UInt8.ofNat (c.val.toNat / 262144 % 8 + 240)).toNat = c.val.toNat / 262144 + 240 := by
    rw [UInt8.toNat_ofNat']; omega
  have hd : (UInt8.ofNat (c.val.toNat / 4096 % 64 + 128)).toNat =
      c.val.toNat / 4096 % 64 + 128 := by
    rw [UInt8.toNat_ofNat']; omega
  have he : (UInt8.ofNat (c.val.toNat / 64 % 64 + 128)).toNat = c.val.toNat / 64 % 64 + 128 := by
    rw [UInt8.toNat_ofNat']; omega
  have hf : (UInt8.ofNat (c.val.toNat % 64 + 128)).toNat = c.val.toNat % 64 + 128 := by
    rw [UInt8.toNat_ofNat']; omega
  generalize UInt8.ofNat (c.val.toNat / 262144 % 8 + 240) = b at *
  generalize UInt8.ofNat (c.val.toNat / 4096 % 64 + 128) = d at *
  generalize UInt8.ofNat (c.val.toNat / 64 % 64 + 128) = e at *
  generalize UInt8.ofNat (c.val.toNat % 64 + 128) = f at *
  have hc : pushSixBits (pushSixBits (pushSixBits (b.toNat % 8) d) e) f = c.val.toNat := by
    simp only [pushSixBits]; omega
  rw [charsOfUtf8_four (by omega) (by omega) (followsLead_iff.mpr (by omega))
    (isContinuation_iff.mpr (by omega)) (isContinuation_iff.mpr (by omega)), charOfNat_of_eq hc]

theorem isReadBack (c : Char) : IsReadBack c := by
  by_cases hone : c.val.toNat ≤ 0x7F
  · exact isReadBack_one hone
  by_cases htwo : c.val.toNat ≤ 0x7FF
  · exact isReadBack_two hone htwo
  by_cases hthree : c.val.toNat ≤ 0xFFFF
  · exact isReadBack_three htwo hthree
  · exact isReadBack_four hthree

/-- What is read is encoded back to the bytes it was read from. -/
theorem flatMap_encodeChar_of_charsOfUtf8 {index : Nat} {data : Bytes} {chars : List Char}
    (h : charsOfUtf8 index data = .ok chars) : chars.flatMap String.utf8EncodeChar = data := by
  fun_induction charsOfUtf8 index data generalizing chars with
  | case1 => cases h; rfl
  | case2 index b rest hb ih =>
    obtain ⟨tail, ht, rfl⟩ := map_eq_ok_iff.mp h
    rw [List.flatMap_cons, encodeChar_one hb, ih ht]
    rfl
  | case5 index b _ hlow hhigh c rest hc ih =>
    obtain ⟨tail, ht, rfl⟩ := map_eq_ok_iff.mp h
    rw [List.flatMap_cons, encodeChar_two hlow hhigh hc, ih ht]
    rfl
  | case10 index b _ _ hlow hhigh c hc d rest hd ih =>
    obtain ⟨tail, ht, rfl⟩ := map_eq_ok_iff.mp h
    rw [List.flatMap_cons, encodeChar_three hlow hhigh (by simpa using hc) hd, ih ht]
    rfl
  | case17 index b _ _ _ hlow hhigh c hc d hd e rest he ih =>
    obtain ⟨tail, ht, rfl⟩ := map_eq_ok_iff.mp h
    rw [List.flatMap_cons, encodeChar_four hlow hhigh (by simpa using hc) (by simpa using hd) he,
      ih ht]
    rfl
  -- the other cases of the reader are its faults
  | _ => cases h

theorem charsOfUtf8_flatMap_encodeChar (chars : List Char) (index : Nat) :
    charsOfUtf8 index (chars.flatMap String.utf8EncodeChar) = .ok chars := by
  induction chars generalizing index with
  | nil => rfl
  | cons c rest ih => rw [List.flatMap_cons, isReadBack c, ih]; rfl

theorem textOfUtf8_eq_ok_iff {data : Bytes} {s : String} :
    textOfUtf8 data = .ok s ↔ data = utf8 s := by
  constructor
  · intro h
    obtain ⟨chars, hchars, rfl⟩ := map_eq_ok_iff.mp h
    rw [utf8, String.toList_ofList, flatMap_encodeChar_of_charsOfUtf8 hchars]
  · rintro rfl
    rw [textOfUtf8, utf8, charsOfUtf8_flatMap_encodeChar]
    exact congrArg Except.ok String.ofList_toList

theorem utf8_injective {s t : String} (h : utf8 s = utf8 t) : s = t := by
  have hs := textOfUtf8_eq_ok_iff.mpr (rfl : utf8 s = utf8 s)
  rw [h, textOfUtf8_eq_ok_iff.mpr rfl] at hs
  exact (Except.ok.inj hs).symm

end ContentGraph
