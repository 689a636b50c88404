import ContentGraph.Proofs.Utf8Text

/-! ASCII characters in UTF-8 text. Each of them is one byte, and that byte occurs in no other
character, so ASCII text is found among the bytes where it stands among the characters. -/

namespace ContentGraph

def IsAscii (c : Char) : Prop :=
  c.val.toNat < 128

instance (c : Char) : Decidable (IsAscii c) :=
  inferInstanceAs (Decidable (_ < _))

theorem utf8_append (s t : String) : utf8 (s ++ t) = utf8 s ++ utf8 t := by
  rw [utf8, String.toList_append, List.flatMap_append]
  rfl

@[simp] theorem utf8_empty : utf8 "" = [] := rfl

theorem utf8_eq_nil_iff {s : String} : utf8 s = [] ↔ s = "" := by
  constructor
  · intro h
    exact utf8_injective (h.trans utf8_empty.symm)
  · rintro rfl
    rfl

theorem encodeChar_of_isAscii {c : Char} (h : IsAscii c) :
    String.utf8EncodeChar c = [c.toUInt8] := by
  have hone : c.val.toNat ≤ 0x7F := Nat.le_of_lt_succ h
  rw [String.utf8EncodeChar, if_pos hone]
  rfl

theorem utf8_of_isAscii {s : String} (h : ∀ c ∈ s.toList, IsAscii c) :
    utf8 s = s.toList.map Char.toUInt8 := by
  rw [utf8]
  generalize s.toList = chars at h
  induction chars with
  | nil => rfl
  | cons c chars ih =>
    obtain ⟨hc, hchars⟩ := List.forall_mem_cons.mp h
    rw [List.flatMap_cons, encodeChar_of_isAscii hc, ih hchars]
    rfl

theorem toNat_toUInt8 {c : Char} (h : IsAscii c) : c.toUInt8.toNat = c.val.toNat := by
  have hlt : c.val.toNat < 128 := h
  show (UInt8.ofNat c.val.toNat).toNat = c.val.toNat
  rw [UInt8.toNat_ofNat']
  omega

theorem toUInt8_injective {c d : Char} (hc : IsAscii c) (hd : IsAscii d)
    (h : c.toUInt8 = d.toUInt8) : c = d := by
  have hsame := congrArg UInt8.toNat h
  rw [toNat_toUInt8 hc, toNat_toUInt8 hd] at hsame
  exact Char.ext (UInt32.toNat_inj.mp hsame)

theorem encodeChar_ne_nil (c : Char) : String.utf8EncodeChar c ≠ [] := by
  rw [String.utf8EncodeChar]
  split
  · exact List.cons_ne_nil _ _
  split
  · exact List.cons_ne_nil _ _
  split <;> exact List.cons_ne_nil _ _

theorem le_of_mem_encodeChar {d : Char} (hd : ¬IsAscii d) {b : UInt8}
    (hb : b ∈ String.utf8EncodeChar d) : 128 ≤ b.toNat := by
  have hhigh : ¬d.val.toNat ≤ 127 := fun h => hd (Nat.lt_succ_of_le h)
  have hbyte {n : Nat} (hn : 128 ≤ n) (hlt : n < 256) : 128 ≤ (UInt8.ofNat n).toNat := by
    rw [UInt8.toNat_ofNat']
    omega
  simp only [String.utf8EncodeChar, if_neg hhigh] at hb
  split at hb
  · simp only [List.mem_cons, List.not_mem_nil, or_false] at hb
    rcases hb with rfl | rfl <;> exact hbyte (by omega) (by omega)
  split at hb
  · simp only [List.mem_cons, List.not_mem_nil, or_false] at hb
    rcases hb with rfl | rfl | rfl <;> exact hbyte (by omega) (by omega)
  · simp only [List.mem_cons, List.not_mem_nil, or_false] at hb
    rcases hb with rfl | rfl | rfl | rfl <;> exact hbyte (by omega) (by omega)

theorem not_mem_encodeChar {c d : Char} (hc : IsAscii c) (hne : c ≠ d) :
    c.toUInt8 ∉ String.utf8EncodeChar d := by
  intro hmem
  by_cases hd : IsAscii d
  · rw [encodeChar_of_isAscii hd, List.mem_singleton] at hmem
    exact hne (toUInt8_injective hc hd hmem)
  · have hlow : c.val.toNat < 128 := hc
    have hhigh := le_of_mem_encodeChar hd hmem
    rw [toNat_toUInt8 hc] at hhigh
    omega

theorem mem_utf8_iff {c : Char} (hc : IsAscii c) {s : String} :
    c.toUInt8 ∈ utf8 s ↔ c ∈ s.toList := by
  rw [utf8, List.mem_flatMap]
  constructor
  · rintro ⟨d, hd, hmem⟩
    by_cases hsame : c = d
    · rwa [hsame]
    · exact absurd hmem (not_mem_encodeChar hc hsame)
  · intro h
    exact ⟨c, h, by rw [encodeChar_of_isAscii hc]; exact List.mem_singleton_self _⟩

theorem prefix_of_flatMap_encodeChar {mark chars : List Char} (hmark : ∀ c ∈ mark, IsAscii c)
    (h : mark.map Char.toUInt8 <+: chars.flatMap String.utf8EncodeChar) : mark <+: chars := by
  induction mark generalizing chars with
  | nil => exact List.nil_prefix
  | cons c mark ih =>
    obtain ⟨hc, hmark⟩ := List.forall_mem_cons.mp hmark
    cases chars with
    | nil => exact absurd (List.prefix_nil.mp h) (List.cons_ne_nil _ _)
    | cons d chars =>
      rw [List.map_cons, List.flatMap_cons] at h
      obtain ⟨b, more, hd⟩ := List.exists_cons_of_ne_nil (encodeChar_ne_nil d)
      have hfirst : c.toUInt8 = b := by
        rw [hd, List.cons_append, List.cons_prefix_cons] at h
        exact h.1
      have hsame : c = d := by
        refine Classical.byContradiction fun hne => not_mem_encodeChar hc hne ?_
        rw [hd, hfirst]
        exact List.mem_cons_self
      subst hsame
      rw [encodeChar_of_isAscii hc, List.singleton_append, List.cons_prefix_cons] at h
      exact List.cons_prefix_cons.mpr ⟨rfl, ih hmark h.2⟩

theorem infix_of_infix_append {α : Type} {mark front back : List α} (hne : mark ≠ [])
    (hfront : ∀ x ∈ front, x ∉ mark) (h : mark <:+: front ++ back) : mark <:+: back := by
  induction front with
  | nil => exact h
  | cons x front ih =>
    obtain ⟨hx, hfront⟩ := List.forall_mem_cons.mp hfront
    rcases List.infix_cons_iff.mp h with hprefix | hinfix
    · obtain ⟨y, more, rfl⟩ := List.exists_cons_of_ne_nil hne
      have hsame := (List.cons_prefix_cons.mp hprefix).1
      exact absurd (hsame ▸ List.mem_cons_self) hx
    · exact ih hfront hinfix

/-- ASCII text that stands among the bytes stands among the characters. -/
theorem infix_of_flatMap_encodeChar {mark chars : List Char} (hne : mark ≠ [])
    (hmark : ∀ c ∈ mark, IsAscii c)
    (h : mark.map Char.toUInt8 <:+: chars.flatMap String.utf8EncodeChar) : mark <:+: chars := by
  induction chars with
  | nil => exact absurd (List.map_eq_nil_iff.mp (List.infix_nil.mp h)) hne
  | cons d chars ih =>
    rw [List.flatMap_cons] at h
    by_cases hd : IsAscii d
    · rw [encodeChar_of_isAscii hd, List.singleton_append] at h
      rcases List.infix_cons_iff.mp h with hprefix | hinfix
      · refine (prefix_of_flatMap_encodeChar hmark ?_).isInfix
        rwa [List.flatMap_cons, encodeChar_of_isAscii hd]
      · exact (ih hinfix).trans (List.suffix_cons d chars).isInfix
    · have hfront : ∀ b ∈ String.utf8EncodeChar d, b ∉ mark.map Char.toUInt8 := by
        intro b hb hmem
        obtain ⟨c, hc, rfl⟩ := List.mem_map.mp hmem
        have hsame : c ≠ d := fun heq => hd (heq ▸ hmark c hc)
        exact not_mem_encodeChar (hmark c hc) hsame hb
      have hback := infix_of_infix_append (fun hnil => hne (List.map_eq_nil_iff.mp hnil)) hfront h
      exact (ih hback).trans (List.suffix_cons d chars).isInfix

end ContentGraph
