import Mathlib.Data.List.TakeWhile
import ContentGraph.Proofs.MarkupPieces

/-! What is read inside a written tag: its name, and the entries behind it, each with its key and
its value between quotation marks. Keys tell declarations from attributes, and names are divided at
the colon. -/

namespace ContentGraph.Xml

section Divided

variable {p : UInt8 → Bool} {front : Bytes} {b : UInt8}

theorem takeWhile_append_cons (hfront : ∀ c ∈ front, p c = true) (hb : p b = false) (rest : Bytes) :
    (front ++ b :: rest).takeWhile p = front := by
  rw [List.takeWhile_append_of_pos hfront, List.takeWhile_cons, hb]
  simp

theorem dropWhile_append_cons (hfront : ∀ c ∈ front, p c = true) (hb : p b = false) (rest : Bytes) :
    (front ++ b :: rest).dropWhile p = b :: rest := by
  rw [List.dropWhile_append_of_pos hfront, List.dropWhile_cons, hb]
  simp

end Divided

theorem IsKey.isKeyByte {s : String} (h : IsKey s) {b : UInt8} (hb : b ∈ utf8 s) :
    isKeyByte b = true := by
  have hequals : b ≠ '='.toUInt8 := h.ne_mark hb (by decide)
  simp [Xml.isKeyByte, hequals, h.isBlank_eq_false hb]

theorem tagName_written (tag : Tag) : tagName (utf8 tag.written) = utf8 tag.name.written := by
  have hname : ∀ b ∈ utf8 tag.name.written, (!isBlank b) = true := by
    intro b hb
    rw [(IsKey.written tag.name).isBlank_eq_false hb]
    rfl
  rw [tagName, Tag.written, utf8_append]
  cases tag.entries with
  | nil =>
    rw [List.map_nil, String.join_nil, utf8_empty, List.append_nil]
    exact List.takeWhile_eq_self_iff.mpr hname
  | cons e entries =>
    rw [List.map_cons, String.join_cons, utf8_append, utf8_written_entry, List.cons_append]
    exact takeWhile_append_cons hname (by decide) _

def TagEntry.raw (e : TagEntry) : RawAttribute where
  key := utf8 e.key
  value := utf8 e.value

theorem TagEntry.raw_attribute (a : WrittenAttribute) :
    (TagEntry.attribute a).raw = ⟨utf8 a.name.written, utf8 (escaped a.value)⟩ := by
  rw [raw, key, value]

section Entry

theorem skipBlanks_key {s : String} (h : IsKey s) (position : Nat) (more : Bytes) :
    Place.skipBlanks ⟨position, ' '.toUInt8 :: (utf8 s ++ more)⟩ =
      ⟨position + 1, utf8 s ++ more⟩ := by
  obtain ⟨b, tail, hs⟩ := h.exists_cons
  have hb : isBlank b = false := h.isBlank_eq_false (hs ▸ List.mem_cons_self)
  have hspace : isBlank ' '.toUInt8 = true := by decide
  simp [Place.skipBlanks, Place.skipWhile, hs, hb, hspace]

theorem readKey_key {s : String} (h : IsKey s) {first : UInt8} {tail : Bytes}
    (hs : utf8 s = first :: tail) (position : Nat) (more : Bytes) :
    ∃ next, readKey first ⟨position, tail ++ '='.toUInt8 :: more⟩ = .ok (utf8 s, ⟨next, more⟩) := by
  have htail : ∀ b ∈ tail, isKeyByte b = true := by
    intro b hb
    exact h.isKeyByte (hs ▸ List.mem_cons_of_mem first hb)
  have hequals : isKeyByte '='.toUInt8 = false := by decide
  have hblank : isBlank '='.toUInt8 = false := by decide
  refine ⟨position + tail.length + 1, ?_⟩
  simp [readKey, Place.skipBlanks, Place.skipWhile, takeWhile_append_cons htail hequals,
    dropWhile_append_cons htail hequals, hblank, hs]

theorem readValue_quoted {value : Bytes} (h : '"'.toUInt8 ∉ value) (position : Nat) (more : Bytes) :
    ∃ next, readValue ⟨position, '"'.toUInt8 :: (value ++ '"'.toUInt8 :: more)⟩ =
      .ok (value, ⟨next, more⟩) := by
  have hvalue : ∀ b ∈ value, decide (b ≠ '"'.toUInt8) = true := by
    intro b hb
    rw [decide_eq_true_eq]
    rintro rfl
    exact h hb
  have hquote : decide ('"'.toUInt8 ≠ '"'.toUInt8) = false := by decide
  have hblank : isBlank '"'.toUInt8 = false := by decide
  have hskip : Place.skipBlanks ⟨position, '"'.toUInt8 :: (value ++ '"'.toUInt8 :: more)⟩ =
      ⟨position, '"'.toUInt8 :: (value ++ '"'.toUInt8 :: more)⟩ := by
    simp [Place.skipBlanks, Place.skipWhile, hblank]
  refine ⟨position + 1 + value.length + 1, ?_⟩
  simp only [readValue, hskip, Place.skipWhile, decide_true, Bool.true_or, if_true,
    takeWhile_append_cons hvalue hquote, dropWhile_append_cons hvalue hquote]

/-- One entry is read off the front, and its key is remembered. -/
theorem readAttributes_entry (checked : Bool) {seen : List (Bytes × Nat)} {e : TagEntry}
    (hunseen : seen.lookup (utf8 e.key) = none) (position : Nat) (more : Bytes) (fuel : Nat) :
    ∃ next, ∃ others : AttributeList,
      others = readAttributes checked ((utf8 e.key, position + 1) :: seen) ⟨next, more⟩ fuel ∧
        readAttributes checked seen ⟨position, utf8 e.written ++ more⟩ (fuel + 1) =
          ⟨e.raw :: others.attributes, others.fault⟩ := by
  have hkey := IsKey.key e
  obtain ⟨first, tail, hs⟩ := hkey.exists_cons
  have hvalue : '"'.toUInt8 ∉ utf8 e.value := by
    rw [mem_utf8_iff (by decide)]
    exact e.value_unquoted
  obtain ⟨afterKey, hreadKey⟩ := readKey_key hkey hs (position + 1 + 1)
    ('"'.toUInt8 :: (utf8 e.value ++ '"'.toUInt8 :: more))
  obtain ⟨afterValue, hreadValue⟩ := readValue_quoted hvalue afterKey more
  have hdata : utf8 e.written ++ more = ' '.toUInt8 ::
      (utf8 e.key ++ '='.toUInt8 :: '"'.toUInt8 :: (utf8 e.value ++ '"'.toUInt8 :: more)) := by
    simp [utf8_written_entry]
  have hnone : (if checked = true then seen.lookup (utf8 e.key) else none) = none := by
    rw [hunseen]
    exact ite_self none
  have hskip : Place.skipBlanks ⟨position, utf8 e.written ++ more⟩ = ⟨position + 1,
      first :: (tail ++ '='.toUInt8 :: '"'.toUInt8 :: (utf8 e.value ++ '"'.toUInt8 :: more))⟩ := by
    rw [hdata, skipBlanks_key hkey, hs, List.cons_append]
  refine ⟨afterValue, _, rfl, ?_⟩
  rw [readAttributes, hskip]
  simp only [hreadKey, hnone, hreadValue]
  rfl

end Entry

theorem readAttributes_entries (checked : Bool) {entries : List TagEntry}
    (hdistinct : (entries.map TagEntry.key).Nodup) {seen : List (Bytes × Nat)}
    (hseen : ∀ e ∈ entries, seen.lookup (utf8 e.key) = none) (position : Nat) {fuel : Nat}
    (hfuel : entries.length ≤ fuel) :
    readAttributes checked seen ⟨position, utf8 (String.join (entries.map TagEntry.written))⟩ fuel =
      ⟨entries.map TagEntry.raw, none⟩ := by
  induction entries generalizing seen position fuel with
  | nil => cases fuel <;> rfl
  | cons e entries ih =>
    cases fuel with
    | zero => simp at hfuel
    | succ fuel =>
      obtain ⟨hfresh, hdistinct⟩ := List.nodup_cons.mp hdistinct
      obtain ⟨hunseen, hseen⟩ := List.forall_mem_cons.mp hseen
      have hlater : ∀ e' ∈ entries,
          ((utf8 e.key, position + 1) :: seen).lookup (utf8 e'.key) = none := by
        intro e' he'
        have hne : utf8 e'.key ≠ utf8 e.key := by
          intro heq
          exact hfresh (List.mem_map.mpr ⟨e', he', utf8_injective heq⟩)
        rw [List.lookup_cons, beq_false_of_ne hne]
        exact hseen e' he'
      obtain ⟨next, others, hothers, hread⟩ := readAttributes_entry checked hunseen position
        (utf8 (String.join (entries.map TagEntry.written))) fuel
      rw [ih hdistinct hlater next (Nat.le_of_succ_le_succ hfuel)] at hothers
      rw [List.map_cons, String.join_cons, utf8_append, hread, hothers]
      rfl

theorem length_entries_le (tag : Tag) : tag.entries.length ≤ (utf8 tag.written).length := by
  have hjoin : ∀ entries : List TagEntry,
      entries.length ≤ (utf8 (String.join (entries.map TagEntry.written))).length := by
    intro entries
    induction entries with
    | nil => exact Nat.zero_le _
    | cons e entries ih =>
      simp only [List.map_cons, String.join_cons, utf8_append, utf8_written_entry,
        List.length_append, List.length_cons]
      omega
  have := hjoin tag.entries
  rw [Tag.written, utf8_append, List.length_append]
  omega

theorem attributesOf_written (checked : Bool) (tag : Tag) :
    attributesOf checked (utf8 tag.written) = ⟨tag.entries.map TagEntry.raw, none⟩ := by
  have hbehind : (utf8 tag.written).drop (utf8 tag.name.written).length =
      utf8 (String.join (tag.entries.map TagEntry.written)) := by
    rw [Tag.written, utf8_append, List.drop_left]
  rw [attributesOf, tagName_written, hbehind]
  exact readAttributes_entries checked tag.distinct (fun _ _ => rfl) _ (length_entries_le tag)

def labelBytes (label : Option Label) : Option Bytes :=
  label.map fun l => utf8 l.text

theorem labelBytes_injective {label other : Option Label}
    (h : labelBytes label = labelBytes other) : label = other := by
  refine Option.map_injective (fun l l' hsame => ?_) h
  have htext : l.text = l'.text := utf8_injective hsame
  obtain ⟨⟨text, _, _⟩, _⟩ := l
  obtain ⟨⟨text', _, _⟩, _⟩ := l'
  cases htext
  rfl

theorem Name.ne_colon (n : Name) : ∀ b ∈ utf8 n.text, decide (b ≠ ':'.toUInt8) = true := by
  intro b hb
  rw [decide_eq_true_eq]
  rintro rfl
  have halphanum := n.alphanumeric ':' ((mem_utf8_iff (by decide)).mp hb)
  simp at halphanum

theorem splitName_written (n : WrittenName) :
    splitName (utf8 n.written) = (labelBytes n.label, utf8 n.localName.text) := by
  have hcolon : decide (':'.toUInt8 ≠ ':'.toUInt8) = false := by decide
  unfold WrittenName.written
  split
  · next hnone =>
    have hno : (utf8 n.localName.text).dropWhile (fun b => decide (b ≠ ':'.toUInt8)) = [] :=
      List.dropWhile_eq_nil_iff.mpr n.localName.ne_colon
    rw [splitName, hno, hnone]
    rfl
  · next label hlabel =>
    have hdata : utf8 (label.text ++ ":" ++ n.localName.text) =
        utf8 label.text ++ ':'.toUInt8 :: utf8 n.localName.text := by
      rw [utf8_append, utf8_append, List.append_assoc]
      rfl
    rw [hdata, splitName, dropWhile_append_cons label.ne_colon hcolon,
      takeWhile_append_cons label.ne_colon hcolon, hlabel]
    rfl

/-- No attribute is taken for a declaration. -/
theorem declaredLabel?_attribute (a : WrittenAttribute) :
    declaredLabel? (TagEntry.attribute a).raw.key = none := by
  have hdefault : utf8 a.name.written ≠ utf8 "xmlns" :=
    fun heq => a.notDeclaration (utf8_injective heq)
  have hprefix : ¬(utf8 "xmlns:").isPrefixOf (utf8 a.name.written) = true := by
    intro h
    obtain ⟨tail, htail⟩ := List.isPrefixOf_iff_prefix.mp h
    have hsplit := splitName_written a.name
    rw [← htail] at hsplit
    have hlabel : some (utf8 "xmlns") = labelBytes a.name.label :=
      congrArg Prod.fst hsplit
    obtain ⟨l, -, hl⟩ := Option.map_eq_some_iff.mp hlabel.symm
    exact l.notReserved (utf8_injective hl)
  rw [TagEntry.raw_attribute, declaredLabel?, if_neg hdefault, if_neg hprefix]

theorem declaredLabel?_declaration (d : Declaration) :
    declaredLabel? (TagEntry.declaration d).raw.key = some (labelBytes d.label) := by
  simp only [TagEntry.raw, TagEntry.key]
  split
  · next hnone =>
    rw [hnone]
    rfl
  · next l hlabel =>
    have hdata : utf8 ("xmlns:" ++ l.text) = utf8 "xmlns:" ++ utf8 l.text := utf8_append _ _
    have hdefault : utf8 "xmlns:" ++ utf8 l.text ≠ utf8 "xmlns" := by
      intro heq
      have hlength := congrArg List.length heq
      have hlong : (utf8 "xmlns:").length = (utf8 "xmlns").length + 1 := rfl
      rw [List.length_append] at hlength
      omega
    have hprefix : (utf8 "xmlns:").isPrefixOf (utf8 "xmlns:" ++ utf8 l.text) = true :=
      List.isPrefixOf_iff_prefix.mpr (List.prefix_append _ _)
    rw [hlabel, hdata, declaredLabel?, if_neg hdefault, if_pos hprefix]
    rfl

end ContentGraph.Xml
