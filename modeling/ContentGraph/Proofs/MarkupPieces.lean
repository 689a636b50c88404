import ContentGraph.Proofs.WrittenDocument

/-! What is read off the front of a written document: text up to the next bracket, and each tag,
CDATA section, comment and processing instruction as a whole. -/

namespace ContentGraph.Xml

/-- The characters that tags are divided at. -/
def markChars : List Char :=
  [' ', '\t', '\n', '\r', '=', '"', '\'', '<', '>', '/', '!', '?']

/-- Letters, digits and colons, as names and the keys in a tag consist of. -/
structure IsKey (s : String) : Prop where
  nonempty : s ≠ ""
  chars : ∀ c ∈ s.toList, c.isAlphanum = true ∨ c = ':'

namespace IsKey

variable {s t : String}

theorem append (hs : IsKey s) (ht : IsKey t) : IsKey (s ++ t) where
  nonempty := fun h => hs.nonempty (String.append_eq_empty_iff.mp h).1
  chars := fun c hc => by
    rw [String.toList_append, List.mem_append] at hc
    exact hc.elim (hs.chars c) (ht.chars c)

theorem colon : IsKey ":" where
  nonempty := by decide
  chars := by simp

theorem ofName (n : Name) : IsKey n.text where
  nonempty := n.nonempty
  chars := fun c hc => .inl (n.alphanumeric c hc)

theorem written (n : WrittenName) : IsKey n.written := by
  unfold WrittenName.written
  split
  · exact ofName n.localName
  · next label _ => exact ((ofName label.toName).append colon).append (ofName n.localName)

theorem key (e : TagEntry) : IsKey e.key := by
  unfold TagEntry.key
  split
  · split
    · exact ⟨by decide, by simp⟩
    · next label _ => exact append ⟨by decide, by simp⟩ (ofName label.toName)
  · next a => exact written a.name

theorem not_mem (h : IsKey s) {c : Char} (hc : c ∈ markChars) : c.toUInt8 ∉ utf8 s := by
  have hmarks : ∀ c ∈ markChars, IsAscii c ∧ ¬(c.isAlphanum = true ∨ c = ':') := by
    simp [markChars, IsAscii]
  obtain ⟨hascii, hother⟩ := hmarks c hc
  intro hmem
  exact hother (h.chars c ((mem_utf8_iff hascii).mp hmem))

theorem ne_mark (h : IsKey s) {b : UInt8} (hb : b ∈ utf8 s) {c : Char} (hc : c ∈ markChars) :
    b ≠ c.toUInt8 := by
  rintro rfl
  exact h.not_mem hc hb

theorem isBlank_eq_false (h : IsKey s) {b : UInt8} (hb : b ∈ utf8 s) : isBlank b = false := by
  simp only [isBlank, Bool.or_eq_false_iff, decide_eq_false_iff_not]
  exact ⟨⟨⟨h.ne_mark hb (by decide), h.ne_mark hb (by decide)⟩, h.ne_mark hb (by decide)⟩,
    h.ne_mark hb (by decide)⟩

theorem exists_cons (h : IsKey s) : ∃ b tail, utf8 s = b :: tail :=
  List.exists_cons_of_ne_nil (mt utf8_eq_nil_iff.mp h.nonempty)

end IsKey

section Marks

variable {init front : Bytes} {b : UInt8}

theorem not_prefix_of_mark {c : UInt8} (hlast : b ∉ init) (hfree : ¬init ++ [b] <:+: c :: front)
    (rest : Bytes) : ¬init ++ [b] <+: c :: front ++ (init ++ [b] ++ rest) := by
  intro h
  rcases Nat.lt_or_ge (c :: front).length (init ++ [b]).length with hlong | hshort
  · -- the last byte of the mark would stand in `init` also
    have hover : c :: front <+: init ++ [b] :=
      List.prefix_of_prefix_length_le (List.prefix_append _ _) h (Nat.le_of_lt hlong)
    obtain ⟨more, hmore⟩ := hover
    rw [← hmore, List.prefix_append_right_inj, hmore, List.append_assoc] at h
    rcases List.eq_nil_or_concat more with rfl | ⟨more, x, rfl⟩
    · rw [← hmore, List.append_nil] at hlong
      exact Nat.lt_irrefl _ hlong
    · rw [List.concat_eq_append] at h hmore
      rw [← List.append_assoc] at hmore
      obtain ⟨hinit, hx⟩ := List.append_inj' hmore rfl
      cases hx
      have hlength := congrArg List.length hinit
      rw [List.length_append, List.length_cons] at hlength
      have hin : more ++ [b] <+: init := by
        refine List.prefix_of_prefix_length_le h (List.prefix_append _ _) ?_
        rw [List.length_append, List.length_singleton]
        omega
      exact hlast (hin.subset (List.mem_append_right _ (List.mem_singleton_self b)))
  · have hin : init ++ [b] <+: c :: front :=
      List.prefix_of_prefix_length_le h (List.prefix_append _ _) hshort
    exact hfree hin.isInfix

/-- A mark whose last byte stands in it once begins in no other place if it does not stand in what
is before it. -/
theorem splitAtMark?_append (hlast : b ∉ init) (hfree : ¬init ++ [b] <:+: front) (rest : Bytes) :
    splitAtMark? (init ++ [b]) (front ++ (init ++ [b] ++ rest)) = some (front, rest) := by
  induction front with
  | nil =>
    obtain ⟨c, tail, hmark⟩ := List.exists_cons_of_ne_nil (List.append_ne_nil_of_right_ne_nil init
      (List.cons_ne_nil b []))
    have hprefix : (c :: tail).isPrefixOf (c :: (tail ++ rest)) = true :=
      List.isPrefixOf_iff_prefix.mpr (List.prefix_append (c :: tail) rest)
    rw [List.nil_append, hmark, List.cons_append, splitAtMark?, if_pos hprefix, ← List.cons_append,
      List.drop_left]
  | cons c front ih =>
    have hback : ¬init ++ [b] <:+: front := by
      intro h
      exact hfree (h.trans (List.suffix_cons c front).isInfix)
    have hprefix : ¬(init ++ [b]).isPrefixOf (c :: (front ++ (init ++ [b] ++ rest))) = true := by
      rw [List.isPrefixOf_iff_prefix]
      exact not_prefix_of_mark hlast hfree rest
    rw [List.cons_append, splitAtMark?, if_neg hprefix, ih hback]
    rfl

end Marks

/-- The quotation mark `next` is open behind `data` if `quote` was before it, and no tag ends in it.
-/
def Passes (quote : Option UInt8) (data : Bytes) (next : Option UInt8) : Prop :=
  ∀ rest, splitTag? quote (data ++ rest) =
    (splitTag? next rest).map fun p => (data ++ p.1, p.2)

namespace Passes

variable {quote next last : Option UInt8} {data more : Bytes}

theorem nil : Passes quote [] quote := by
  intro rest
  exact (congrFun Option.map_id (splitTag? quote rest)).symm

theorem append (h : Passes quote data next) (h' : Passes next more last) :
    Passes quote (data ++ more) last := by
  intro rest
  rw [List.append_assoc, h, h', Option.map_map]
  simp only [Function.comp_def, List.append_assoc]

theorem cons {b : UInt8} (hb : b ≠ '>'.toUInt8 ∨ quote ≠ none)
    (h : Passes (quoteAfter quote b) data last) : Passes quote (b :: data) last := by
  intro rest
  have hopen : ¬(decide (b = '>'.toUInt8) && quote.isNone) = true := by
    simpa only [Bool.and_eq_true, decide_eq_true_eq, Option.isNone_iff_eq_none,
      Decidable.not_and_iff_or_not] using hb
  rw [List.cons_append, splitTag?, if_neg hopen, h, Option.map_map]
  rfl

theorem unquoted (h : ∀ c ∈ ['>', '"', '\''], c.toUInt8 ∉ data) : Passes none data none := by
  induction data with
  | nil => exact nil
  | cons b data ih =>
    have hb : ∀ c ∈ ['>', '"', '\''], b ≠ c.toUInt8 := by
      intro c hc heq
      exact h c hc (heq ▸ List.mem_cons_self)
    have hquote : quoteAfter none b = none := by
      rw [quoteAfter, if_neg]
      simp [hb '"' (by decide), hb '\'' (by decide)]
    refine cons (.inl (hb '>' (by decide))) ?_
    rw [hquote]
    exact ih fun c hc hmem => h c hc (List.mem_cons_of_mem b hmem)

theorem quoted {q : UInt8} (h : q ∉ data) : Passes (some q) data (some q) := by
  induction data with
  | nil => exact nil
  | cons b data ih =>
    obtain ⟨hb, hdata⟩ := not_or.mp (mt List.mem_cons.mpr h)
    refine cons (.inr (Option.some_ne_none q)) ?_
    rw [quoteAfter, if_neg fun heq => hb heq.symm]
    exact ih hdata

theorem key {s : String} (h : IsKey s) : Passes none (utf8 s) none := by
  have hmarks : ['>', '"', '\''] ⊆ markChars := by simp [markChars]
  exact unquoted fun c hc => h.not_mem (hmarks hc)

end Passes

theorem TagEntry.value_unquoted (e : TagEntry) : '"' ∉ e.value.toList := by
  match e with
  | .declaration d => exact d.unquoted
  | .attribute a => exact not_mem_escaped (by decide) a.value

theorem utf8_written_entry (e : TagEntry) :
    utf8 e.written = ' '.toUInt8 ::
      (utf8 e.key ++ '='.toUInt8 :: '"'.toUInt8 :: (utf8 e.value ++ ['"'.toUInt8])) := by
  simp only [TagEntry.written, utf8_append, List.append_assoc]
  rfl

theorem Passes.entry (e : TagEntry) : Passes none (utf8 e.written) none := by
  rw [utf8_written_entry]
  have hvalue : '"'.toUInt8 ∉ utf8 e.value := by
    rw [mem_utf8_iff (by decide)]
    exact e.value_unquoted
  have hclose : Passes (some '"'.toUInt8) ['"'.toUInt8] none :=
    cons (.inr (Option.some_ne_none _)) nil
  refine cons (.inl (by decide)) ((key (.key e)).append ?_)
  exact cons (.inl (by decide)) (cons (.inl (by decide)) ((quoted hvalue).append hclose))

theorem Passes.entries (entries : List TagEntry) :
    Passes none (utf8 (String.join (entries.map TagEntry.written))) none := by
  induction entries with
  | nil => exact nil
  | cons e entries ih =>
    rw [List.map_cons, String.join_cons, utf8_append]
    exact (entry e).append ih

theorem Passes.tag (tag : Tag) : Passes none (utf8 tag.written) none := by
  rw [Tag.written, utf8_append]
  exact (key (.written tag.name)).append (entries tag.entries)

theorem getLast?_entries {front : Bytes} (hfront : front.getLast? ≠ some '/'.toUInt8)
    (entries : List TagEntry) :
    (front ++ utf8 (String.join (entries.map TagEntry.written))).getLast? ≠ some '/'.toUInt8 := by
  induction entries generalizing front with
  | nil =>
    rw [List.map_nil, String.join_nil, utf8_empty, List.append_nil]
    exact hfront
  | cons e entries ih =>
    have hquote : (front ++ utf8 e.written).getLast? = some '"'.toUInt8 := by
      simp [utf8_written_entry, List.getLast?_append, List.getLast?_cons]
    rw [List.map_cons, String.join_cons, utf8_append, ← List.append_assoc]
    refine ih ?_
    rw [hquote]
    decide

/-- No start tag is taken for an empty-element tag. -/
theorem getLast?_tag (tag : Tag) : (utf8 tag.written).getLast? ≠ some '/'.toUInt8 := by
  rw [Tag.written, utf8_append]
  refine getLast?_entries (fun hslash => ?_) tag.entries
  exact (IsKey.written tag.name).not_mem (by decide) (List.mem_of_getLast? hslash)

theorem splitTag?_append {data : Bytes} (h : Passes none data none) (rest : Bytes) :
    splitTag? none (data ++ '>'.toUInt8 :: rest) = some (data, rest) := by
  rw [h]
  simp [splitTag?]

theorem dropTrailingBlanks_key {s : String} (h : IsKey s) :
    dropTrailingBlanks (utf8 s) = utf8 s := by
  obtain ⟨b, tail, hcons⟩ := h.exists_cons
  have hall : ¬(utf8 s).all isBlank = true := by
    rw [hcons, List.all_cons, h.isBlank_eq_false (hcons ▸ List.mem_cons_self)]
    exact Bool.false_ne_true
  have hlast : (utf8 s).reverse.dropWhile isBlank = (utf8 s).reverse := by
    cases hreverse : (utf8 s).reverse with
    | nil => rfl
    | cons c rest =>
      have hc : c ∈ utf8 s := List.mem_reverse.mp (hreverse ▸ List.mem_cons_self)
      rw [List.dropWhile_cons, h.isBlank_eq_false hc]
      rfl
  rw [dropTrailingBlanks, if_neg hall, hlast, List.reverse_reverse]

/-- `m` is the first piece of `data`, and `rest` is what follows it. -/
def Begins (data : Bytes) (m : Markup) (rest : Bytes) : Prop :=
  ∃ b tail, data = b :: tail ∧ Markup.read b tail = .ok (m, rest)

namespace Begins

variable {rest : Bytes}

theorem text {raw : Bytes} (hne : raw ≠ []) (hfree : '<'.toUInt8 ∉ raw)
    (hrest : rest = [] ∨ ∃ more, rest = '<'.toUInt8 :: more) :
    Begins (raw ++ rest) (.text raw) rest := by
  obtain ⟨b, tail, rfl⟩ := List.exists_cons_of_ne_nil hne
  have htext : ∀ c ∈ b :: tail, isTextByte c = true := by
    intro c hc
    rw [isTextByte, decide_eq_true_eq]
    exact fun heq => hfree (heq ▸ hc)
  obtain ⟨hb, htail⟩ := List.forall_mem_cons.mp htext
  have hstop : rest.takeWhile isTextByte = [] ∧ rest.dropWhile isTextByte = rest := by
    rcases hrest with rfl | ⟨more, rfl⟩ <;> exact ⟨rfl, rfl⟩
  refine ⟨b, tail ++ rest, rfl, ?_⟩
  rw [Markup.read, if_pos hb, List.takeWhile_append_of_pos htail,
    List.dropWhile_append_of_pos htail, hstop.1, hstop.2, List.append_nil]

/-- All pieces but text begin with a bracket. -/
theorem bracket {data : Bytes} {m : Markup} (h : Begins data m rest) (hm : ∀ raw, m ≠ .text raw) :
    ∃ more, data = '<'.toUInt8 :: more := by
  obtain ⟨b, tail, rfl, hread⟩ := h
  by_cases hb : isTextByte b = true
  · rw [Markup.read, if_pos hb] at hread
    cases hread
    exact absurd rfl (hm _)
  · have hbracket : b = '<'.toUInt8 := by simpa [isTextByte] using hb
    exact ⟨tail, by rw [hbracket]⟩

theorem bracketed {data : Bytes} {m : Markup} (h : readBracketed data = .ok (m, rest)) :
    Begins ('<'.toUInt8 :: data) m rest :=
  ⟨'<'.toUInt8, data, rfl, h⟩

theorem readBracketed_tag (tag : Tag) (data : Bytes) :
    readBracketed (utf8 tag.written ++ data) = readStartTag (utf8 tag.written ++ data) := by
  have hkey := IsKey.written tag.name
  obtain ⟨b, tail, hname⟩ := hkey.exists_cons
  have hb : b ∈ utf8 tag.name.written := hname ▸ List.mem_cons_self
  have hbang : b ≠ '!'.toUInt8 := hkey.ne_mark hb (by decide)
  have hslash : b ≠ '/'.toUInt8 := hkey.ne_mark hb (by decide)
  have hquestion : b ≠ '?'.toUInt8 := hkey.ne_mark hb (by decide)
  rw [Tag.written, utf8_append, hname, List.append_assoc, List.cons_append, readBracketed,
    if_neg hbang, if_neg hslash, if_neg hquestion]

theorem startTag (tag : Tag) (rest : Bytes) :
    Begins (utf8 ("<" ++ tag.written ++ ">") ++ rest) (.startTag (utf8 tag.written)) rest := by
  have hdata : utf8 ("<" ++ tag.written ++ ">") ++ rest =
      '<'.toUInt8 :: (utf8 tag.written ++ '>'.toUInt8 :: rest) := by
    simp only [utf8_append, List.append_assoc]
    rfl
  rw [hdata]
  refine bracketed ?_
  rw [readBracketed_tag, readStartTag, splitTag?_append (.tag tag)]
  exact if_neg (getLast?_tag tag)

theorem emptyTag (tag : Tag) (rest : Bytes) :
    Begins (utf8 ("<" ++ tag.written ++ "/>") ++ rest) (.emptyTag (utf8 tag.written)) rest := by
  have hdata : utf8 ("<" ++ tag.written ++ "/>") ++ rest =
      '<'.toUInt8 :: (utf8 tag.written ++ ['/'.toUInt8] ++ '>'.toUInt8 :: rest) := by
    simp only [utf8_append, List.append_assoc]
    rfl
  have hpasses : Passes none (utf8 tag.written ++ ['/'.toUInt8]) none :=
    (Passes.tag tag).append (.cons (.inl (by decide)) .nil)
  rw [hdata]
  refine bracketed ?_
  rw [List.append_assoc, readBracketed_tag, ← List.append_assoc, readStartTag,
    splitTag?_append hpasses]
  simp [closed?, bind, Except.bind, pure, Except.pure]

theorem endTag (n : WrittenName) (rest : Bytes) :
    Begins (utf8 ("</" ++ n.written ++ ">") ++ rest) (.endTag (utf8 n.written)) rest := by
  have hdata : utf8 ("</" ++ n.written ++ ">") ++ rest =
      '<'.toUInt8 :: '/'.toUInt8 :: (utf8 n.written ++ '>'.toUInt8 :: rest) := by
    simp only [utf8_append, List.append_assoc]
    rfl
  have hkey := IsKey.written n
  have hread : readBracketed ('/'.toUInt8 :: (utf8 n.written ++ '>'.toUInt8 :: rest)) =
      readEndTag (utf8 n.written ++ '>'.toUInt8 :: rest) := rfl
  rw [hdata]
  refine bracketed ?_
  rw [hread, readEndTag, splitTag?_append (.key hkey)]
  exact congrArg (fun name => Except.ok (Markup.endTag name, rest)) (dropTrailingBlanks_key hkey)

theorem comment {body : String} (h : '>' ∉ body.toList) (rest : Bytes) :
    Begins (utf8 ("<!--" ++ body ++ "-->") ++ rest) .other rest := by
  have hdata : utf8 ("<!--" ++ body ++ "-->") ++ rest =
      '<'.toUInt8 :: (utf8 "!--" ++ (utf8 body ++ (utf8 "--" ++ ['>'.toUInt8] ++ rest))) := by
    simp only [utf8_append, List.append_assoc]
    rfl
  have hfree : ¬utf8 "--" ++ ['>'.toUInt8] <:+: utf8 body := by
    intro hin
    exact h ((mem_utf8_iff (by decide)).mp (hin.subset (by simp)))
  have hread (data : Bytes) :
      readBracketed (utf8 "!--" ++ data) = readComment ('-'.toUInt8 :: data) := rfl
  have hend : utf8 "-->" = utf8 "--" ++ ['>'.toUInt8] := rfl
  rw [hdata]
  refine bracketed ?_
  rw [hread, readComment, hend, splitAtMark?_append (by decide) hfree]
  rfl

theorem instruction {body : String} (h : '?' ∉ body.toList ∧ '>' ∉ body.toList) (rest : Bytes) :
    Begins (utf8 ("<?" ++ body ++ "?>") ++ rest) .other rest := by
  have hdata : utf8 ("<?" ++ body ++ "?>") ++ rest =
      '<'.toUInt8 :: ('?'.toUInt8 :: utf8 body ++ (utf8 "?" ++ ['>'.toUInt8] ++ rest)) := by
    simp only [utf8_append, List.append_assoc]
    rfl
  have hfree : ¬utf8 "?" ++ ['>'.toUInt8] <:+: '?'.toUInt8 :: utf8 body := by
    intro hin
    have hmem : '>'.toUInt8 ∈ '?'.toUInt8 :: utf8 body := hin.subset (by simp)
    rcases List.mem_cons.mp hmem with heq | hmem
    · exact absurd heq (by decide)
    · exact h.2 ((mem_utf8_iff (by decide)).mp hmem)
  have hread (data : Bytes) :
      readBracketed ('?'.toUInt8 :: data) = readInstruction ('?'.toUInt8 :: data) := rfl
  have hend : utf8 "?>" = utf8 "?" ++ ['>'.toUInt8] := rfl
  rw [hdata]
  refine bracketed ?_
  rw [List.cons_append, hread, ← List.cons_append, readInstruction, hend,
    splitAtMark?_append (by decide) hfree]
  rfl

theorem cdata {s : String} (h : ¬[']', ']', '>'] <:+: s.toList) (rest : Bytes) :
    Begins (utf8 ("<![CDATA[" ++ s ++ "]]>") ++ rest) (.cdata (utf8 s)) rest := by
  have hdata : utf8 ("<![CDATA[" ++ s ++ "]]>") ++ rest =
      '<'.toUInt8 :: '!'.toUInt8 ::
        (utf8 "[CDATA[" ++ utf8 s ++ (utf8 "]]" ++ ['>'.toUInt8] ++ rest)) := by
    simp only [utf8_append, List.append_assoc]
    rfl
  have hfree : ¬utf8 "]]" ++ ['>'.toUInt8] <:+: utf8 "[CDATA[" ++ utf8 s := by
    intro hin
    have hopen : (utf8 "[CDATA[").all (fun b => b ∉ utf8 "]]" ++ ['>'.toUInt8]) = true := by decide
    have hback : utf8 "]]" ++ ['>'.toUInt8] <:+: utf8 s :=
      infix_of_infix_append (by decide) (by simpa using hopen) hin
    exact h (infix_of_flatMap_encodeChar (by decide) (by simp [IsAscii]) hback)
  have hread (data : Bytes) :
      readBracketed ('!'.toUInt8 :: (utf8 "[CDATA[" ++ data)) =
        readCData (utf8 "[CDATA[" ++ data) := rfl
  have hend : utf8 "]]>" = utf8 "]]" ++ ['>'.toUInt8] := rfl
  have hprefix : (utf8 "[CDATA[").isPrefixOf (utf8 "[CDATA[" ++ utf8 s) = true :=
    List.isPrefixOf_iff_prefix.mpr (List.prefix_append _ _)
  rw [hdata]
  refine bracketed ?_
  rw [List.append_assoc, hread, ← List.append_assoc, readCData, hend,
    splitAtMark?_append (by decide) hfree]
  simp only [closed?, bind, Except.bind, hprefix, if_true]
  rfl

end Begins

end ContentGraph.Xml
