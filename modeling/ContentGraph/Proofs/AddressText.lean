import ContentGraph.Proofs.AddressForms
import ContentGraph.Proofs.AsciiText

/-! The texts that are read as addresses. Digits may stand in either case, and are the only freedom
that there is: in lower case, a text that is read is the text form of the address it is read as. -/

namespace ContentGraph

/-- A digit, or one of the first six letters in either case. -/
def IsHexDigit (c : Char) : Prop :=
  ('0' ≤ c ∧ c ≤ '9') ∨ ('a' ≤ c ∧ c ≤ 'f') ∨ ('A' ≤ c ∧ c ≤ 'F')

instance (c : Char) : Decidable (IsHexDigit c) :=
  inferInstanceAs (Decidable (_ ∨ _ ∨ _))

theorem IsHexDigit.isAscii {c : Char} (h : IsHexDigit c) : IsAscii c := by
  have hlast : c ≤ '9' ∨ c ≤ 'f' ∨ c ≤ 'F' := h.imp And.right (Or.imp And.right And.right)
  rcases hlast with h | h | h <;> exact Nat.lt_of_le_of_lt (Char.le_def.mp h) (by decide)

theorem bounds_of_hexValue? {b : UInt8} {n : Nat} (h : hexValue? b = some n) :
    n < 16 ∧ b.toNat < 128 := by
  simp only [hexValue?] at h
  split at h
  · cases h
    omega
  split at h
  · cases h
    omega
  split at h
  · cases h
    omega
  · cases h

theorem hexValue?_toUInt8_iff {c : Char} (hc : IsAscii c) {n : Nat} (hn : n < 16) :
    hexValue? c.toUInt8 = some n ↔ IsHexDigit c ∧ c.toLower = hexDigit n := by
  have hall : ∀ code < 128, ∀ n < 16, hexValue? (Char.ofNat code).toUInt8 = some n ↔
      IsHexDigit (Char.ofNat code) ∧ (Char.ofNat code).toLower = hexDigit n := by
    decide +kernel
  have hcode := hall c.val.toNat hc n hn
  rwa [charOfNat_of_eq rfl] at hcode

theorem hexDigit_isLower {n : Nat} (h : n < 16) :
    IsHexDigit (hexDigit n) ∧ (hexDigit n).toLower = hexDigit n := by
  have hall : ∀ n < 16, IsHexDigit (hexDigit n) ∧ (hexDigit n).toLower = hexDigit n := by decide
  exact hall n h

/-- The values of the digits that bytes are written with. -/
def nibbles (data : Bytes) : List Nat :=
  data.flatMap fun b => [b.toNat / 16, b.toNat % 16]

theorem hexOfBytes_eq (data : Bytes) : hexOfBytes data = (nibbles data).map hexDigit := by
  rw [nibbles, List.map_flatMap]
  rfl

theorem lt_of_mem_nibbles {data : Bytes} {n : Nat} (h : n ∈ nibbles data) : n < 16 := by
  obtain ⟨b, -, hn⟩ := List.mem_flatMap.mp h
  have hb := b.toNat_lt
  simp only [List.mem_cons, List.not_mem_nil, or_false] at hn
  omega

@[simp] theorem nibbles_nil : nibbles [] = [] := rfl

@[simp] theorem nibbles_cons (b : UInt8) (data : Bytes) :
    nibbles (b :: data) = b.toNat / 16 :: b.toNat % 16 :: nibbles data := rfl

theorem length_nibbles (data : Bytes) : (nibbles data).length = 2 * data.length := by
  induction data with
  | nil => rfl
  | cons b data ih =>
    rw [nibbles_cons, List.length_cons, List.length_cons, List.length_cons, ih]
    omega

theorem bytesOfPairs_eq_ok_iff {index : Nat} {digits data : Bytes} :
    bytesOfPairs index digits = .ok data ↔ digits.map hexValue? = (nibbles data).map some := by
  fun_induction bytesOfPairs index digits generalizing data with
  | case1 => cases data <;> simp
  | case2 => cases data <;> simp
  | case3 index high low rest hhigh => cases data <;> simp [hhigh]
  | case4 index high low rest h hlow hhigh => cases data <;> simp [hlow]
  | case5 index high low rest h l hlow hhigh ih =>
    have hh := (bounds_of_hexValue? hhigh).1
    have hl := (bounds_of_hexValue? hlow).1
    simp only [bind_eq_ok_iff, pure_eq_ok_iff, ih]
    cases data with
    | nil => simp
    | cons b data =>
      have hb := b.toNat_lt
      -- Both values are below sixteen, so the byte has no other halves.
      have hbyte : UInt8.ofNat (16 * h + l) = b ↔ h = b.toNat / 16 ∧ l = b.toNat % 16 := by
        rw [← UInt8.toNat_inj, UInt8.toNat_ofNat']
        omega
      simp only [List.cons.injEq, hbyte, List.map_cons, nibbles_cons, hhigh, hlow,
        Option.some.injEq]
      constructor
      · rintro ⟨data, hrest, ⟨hh, hl⟩, rfl⟩
        exact ⟨hh, hl, hrest⟩
      · rintro ⟨hh, hl, hrest⟩
        exact ⟨data, hrest, ⟨hh, hl⟩, rfl⟩

theorem map_hexValue?_iff {digits : List Char} {values : List Nat}
    (hdigits : ∀ c ∈ digits, IsAscii c) (hvalues : ∀ n ∈ values, n < 16) :
    (digits.map Char.toUInt8).map hexValue? = values.map some ↔
      (∀ c ∈ digits, IsHexDigit c) ∧ digits.map Char.toLower = values.map hexDigit := by
  induction digits generalizing values with
  | nil => cases values <;> simp
  | cons c digits ih =>
    cases values with
    | nil => simp
    | cons n values =>
      obtain ⟨hc, hdigits⟩ := List.forall_mem_cons.mp hdigits
      obtain ⟨hn, hvalues⟩ := List.forall_mem_cons.mp hvalues
      have hfirst := hexValue?_toUInt8_iff hc hn
      have hrest := ih hdigits hvalues
      simp only [List.map_cons, List.cons.injEq, hfirst, hrest, List.forall_mem_cons]
      exact and_and_and_comm

/-- Bytes that read as digits are those of ASCII characters. -/
theorem isAscii_of_bytesOfPairs {index : Nat} {s : String} {data : Bytes}
    (h : bytesOfPairs index (utf8 s) = .ok data) : ∀ c ∈ s.toList, IsAscii c := by
  intro c hc
  by_cases hascii : IsAscii c
  · exact hascii
  · obtain ⟨b, hb⟩ := List.exists_mem_of_ne_nil _ (encodeChar_ne_nil c)
    have hhigh := le_of_mem_encodeChar hascii hb
    have hmem : hexValue? b ∈ (nibbles data).map some := by
      rw [← bytesOfPairs_eq_ok_iff.mp h]
      exact List.mem_map_of_mem (List.mem_flatMap.mpr ⟨c, hc, hb⟩)
    obtain ⟨n, -, hn⟩ := List.mem_map.mp hmem
    have hlow := (bounds_of_hexValue? hn.symm).2
    omega

theorem bytesOfHex_utf8_eq_ok_iff {s : String} {data : Bytes} :
    bytesOfHex (utf8 s) = .ok data ↔
      (∀ c ∈ s.toList, IsHexDigit c) ∧ s.toList.map Char.toLower = hexOfBytes data := by
  rw [hexOfBytes_eq]
  constructor
  · intro h
    rw [bytesOfHex] at h
    split at h
    · cases h
    · have hascii := isAscii_of_bytesOfPairs h
      rw [bytesOfPairs_eq_ok_iff, utf8_of_isAscii hascii] at h
      exact (map_hexValue?_iff hascii fun n => lt_of_mem_nibbles).mp h
  · rintro ⟨hdigits, hlower⟩
    have hascii : ∀ c ∈ s.toList, IsAscii c := fun c hc => (hdigits c hc).isAscii
    have heven : ¬(utf8 s).length % 2 = 1 := by
      have hlength := congrArg List.length hlower
      rw [List.length_map, List.length_map, length_nibbles] at hlength
      rw [utf8_of_isAscii hascii, List.length_map]
      omega
    rw [bytesOfHex, if_neg heven, bytesOfPairs_eq_ok_iff, utf8_of_isAscii hascii]
    exact (map_hexValue?_iff hascii fun n => lt_of_mem_nibbles).mpr ⟨hdigits, hlower⟩

namespace Address

/-- The mark, and two hexadecimal digits for each byte of an address. -/
def IsSpelling (s : String) : Prop :=
  ∃ digits : List Char, s = String.ofList ('m' :: digits) ∧ digits.length = 72 ∧
    ∀ c ∈ digits, IsHexDigit c

theorem length_hexOfBytes_toBytes (a : Address) : (hexOfBytes a.toBytes).length = 72 := by
  rw [hexOfBytes_eq, List.length_map, length_nibbles, length_toBytes, binaryLength]

theorem toLower_mark (digits : List Char) :
    (String.ofList ('m' :: digits)).toLower = String.ofList ('m' :: digits.map Char.toLower) := by
  show String.map Char.toLower (String.ofList ('m' :: digits)) = _
  rw [← String.toList_inj, String.toList_map, String.toList_ofList, String.toList_ofList]
  rfl

theorem ofText_mark (digits : List Char) :
    ofText (String.ofList ('m' :: digits)) =
      match bytesOfHex (utf8 (String.ofList digits)) with
      | .error cause => .error (.invalidHex cause)
      | .ok data => ofBytes data := by
  rw [ofText, String.toList_ofList]
  rfl

theorem ofText_eq_ok_iff {s : String} {a : Address} :
    ofText s = .ok a ↔ IsSpelling s ∧ s.toLower = a.text := by
  constructor
  · intro h
    unfold ofText at h
    split at h
    · next digits hchars =>
      have hs : s = String.ofList ('m' :: digits) := by rw [← hchars, String.ofList_toList]
      split at h
      · cases h
      · next data hdata =>
        obtain rfl := toBytes_of_ofBytes h
        obtain ⟨hdigits, hlower⟩ := bytesOfHex_utf8_eq_ok_iff.mp hdata
        rw [String.toList_ofList] at hdigits hlower
        have hlength := congrArg List.length hlower
        rw [List.length_map, length_hexOfBytes_toBytes] at hlength
        refine ⟨⟨digits, hs, hlength, hdigits⟩, ?_⟩
        rw [hs, toLower_mark, hlower]
        rfl
    · cases h
  · rintro ⟨⟨digits, rfl, -, hdigits⟩, htext⟩
    rw [toLower_mark] at htext
    have hlower := (List.cons.inj (String.ofList_injective htext)).2
    have hbytes : bytesOfHex (utf8 (String.ofList digits)) = .ok a.toBytes := by
      rw [bytesOfHex_utf8_eq_ok_iff, String.toList_ofList]
      exact ⟨hdigits, hlower⟩
    rw [ofText_mark, hbytes]
    exact ofBytes_toBytes a

theorem isSpelling_text (a : Address) : IsSpelling a.text := by
  refine ⟨hexOfBytes a.toBytes, rfl, a.length_hexOfBytes_toBytes, fun c hc => ?_⟩
  rw [hexOfBytes_eq] at hc
  obtain ⟨n, hn, rfl⟩ := List.mem_map.mp hc
  exact (hexDigit_isLower (lt_of_mem_nibbles hn)).1

theorem toLower_text (a : Address) : a.text.toLower = a.text := by
  have hsame : (hexOfBytes a.toBytes).map Char.toLower = hexOfBytes a.toBytes := by
    rw [hexOfBytes_eq, List.map_map]
    exact List.map_congr_left fun n hn => (hexDigit_isLower (lt_of_mem_nibbles hn)).2
  rw [text, toLower_mark, hsame]

/-- The binary form and the text form of an address are read as the address they are forms of. No
other bytes are read as it, and no other texts but those that differ from its own in the case of
their digits, so all of these denote the key that it has to itself. -/
theorem forms_are_exact (a : Address) :
    ofBytes a.toBytes = .ok a ∧ ofText a.text = .ok a ∧
      (∀ data, ofBytes data = .ok a → a.toBytes = data) ∧
      (∀ s, ofText s = .ok a ↔ IsSpelling s ∧ s.toLower = a.text) ∧
      (∀ b : Address, b ≠ a → b.text ≠ a.text) ∧
      ∀ s t b, ofText s = .ok a → ofText t = .ok b →
        (b.text = a.text ↔ t.toLower = s.toLower) := by
  have hown : ofText a.text = .ok a := ofText_eq_ok_iff.mpr ⟨a.isSpelling_text, a.toLower_text⟩
  refine ⟨ofBytes_toBytes a, hown, fun data => toBytes_of_ofBytes, fun s => ofText_eq_ok_iff,
    fun b hne hsame => hne (text_injective hsame), ?_⟩
  intro s t b hs ht
  have hkey : s.toLower = a.text := (ofText_eq_ok_iff.mp hs).2
  have hother : t.toLower = b.text := (ofText_eq_ok_iff.mp ht).2
  rw [hkey, hother]

end Address

end ContentGraph
