import ContentGraph.Proofs.TagAttributes

/-! The scope that is kept while tags are read holds the declarations of all tags around, so a
prefix is found in it to stand for what it stands for lexically. From this comes what a tag opens:
an element whose names are resolved, or the error about its first prefix that stands for nothing. -/

namespace ContentGraph.Xml

def Declaration.binding (d : Declaration) : Binding where
  label := labelBytes d.label
  uri := utf8 d.uri

/-- The declarations in force inside tags, of which the innermost comes first. -/
def scopeOf : List Tag → Scope
  | [] => outermostScope
  | tag :: outer => (tag.declarations.map Declaration.binding).reverse ++ scopeOf outer

theorem mayBind_declaration {d : Declaration} {l : Label} (h : d.label = some l) :
    mayBind (utf8 l.text) (utf8 d.uri) = true := by
  have hxml : utf8 l.text ≠ utf8 "xml" := fun heq => d.notXml l h (utf8_injective heq)
  have hxmlns : utf8 l.text ≠ utf8 "xmlns" := fun heq => l.notReserved (utf8_injective heq)
  have huri : utf8 d.uri ≠ utf8 xmlNamespace := fun heq => d.unreserved.1 (utf8_injective heq)
  have huri' : utf8 d.uri ≠ utf8 xmlnsNamespace := fun heq => d.unreserved.2 (utf8_injective heq)
  simp [mayBind, hxml, hxmlns, huri, huri']

theorem declare_declaration (scope : Scope) (d : Declaration) :
    scope.declare (TagEntry.declaration d).raw = .ok (d.binding :: scope) := by
  rw [Scope.declare, declaredLabel?_declaration, Declaration.binding]
  cases hd : d.label with
  | none => rfl
  | some l =>
    have hne : utf8 l.text ≠ [] := mt utf8_eq_nil_iff.mp l.nonempty
    have hmay : mayBind (utf8 l.text) (TagEntry.declaration d).raw.value = true :=
      mayBind_declaration hd
    simp only [labelBytes, Option.map_some, hmay, if_true, if_neg hne]
    rfl

theorem declare_attribute (scope : Scope) (a : WrittenAttribute) :
    scope.declare (TagEntry.attribute a).raw = .ok scope := by
  rw [Scope.declare, declaredLabel?_attribute]

theorem foldlM_declare (entries : List TagEntry) (scope : Scope) :
    (entries.map TagEntry.raw).foldlM Scope.declare scope =
      .ok (((entries.filterMap TagEntry.declaration?).map Declaration.binding).reverse ++
        scope) := by
  induction entries generalizing scope with
  | nil => rfl
  | cons e entries ih =>
    rcases e with d | a
    · rw [List.map_cons, List.foldlM_cons, declare_declaration]
      refine (ih (d.binding :: scope)).trans ?_
      simp [TagEntry.declaration?]
    · rw [List.map_cons, List.foldlM_cons, declare_attribute]
      exact ih scope

theorem enter_written (tag : Tag) (outer : List Tag) :
    (scopeOf outer).enter (utf8 tag.written) = .ok (scopeOf (tag :: outer)) := by
  rw [Scope.enter, attributesOf_written]
  exact foldlM_declare tag.entries (scopeOf outer)

section Lookup

theorem find?_reverse {α : Type} {p : α → Bool} {l : List α}
    (h : l.Pairwise fun a b => p a = true → p b = false) : l.reverse.find? p = l.find? p := by
  induction l with
  | nil => rfl
  | cons a l ih =>
    obtain ⟨ha, hl⟩ := List.pairwise_cons.mp h
    rw [List.reverse_cons, List.find?_append, ih hl]
    by_cases hpa : p a = true
    · have hnone : l.find? p = none := by
        rw [List.find?_eq_none]
        intro b hb
        simp [ha b hb hpa]
      simp [hnone, hpa]
    · simp [hpa]

theorem pairwise_label (tag : Tag) :
    tag.declarations.Pairwise fun d d' => d.label ≠ d'.label := by
  have hkeys : tag.entries.Pairwise fun e e' => e.key ≠ e'.key := List.pairwise_map.mp tag.distinct
  refine List.Pairwise.filterMap TagEntry.declaration? (fun e e' hne d hd d' hd' hsame => ?_) hkeys
  have he : e = .declaration d := by
    rcases e with d₁ | a
    · exact congrArg TagEntry.declaration (Option.some.inj hd)
    · cases hd
  have he' : e' = .declaration d' := by
    rcases e' with d₁ | a
    · exact congrArg TagEntry.declaration (Option.some.inj hd')
    · cases hd'
  refine hne ?_
  rw [he, he']
  simp only [TagEntry.key, hsame]

theorem find?_declarations (tag : Tag) (label : Option Label) :
    (tag.declarations.map Declaration.binding).reverse.find? (fun b => b.label = labelBytes label) =
      (tag.declared? label).map fun uri => ⟨labelBytes label, utf8 uri⟩ := by
  have hsame (d : Declaration) : d.binding.label = labelBytes label ↔ d.label = label :=
    ⟨labelBytes_injective, fun h => by rw [← h]; rfl⟩
  have hpairwise : (tag.declarations.map Declaration.binding).Pairwise fun b b' =>
      decide (b.label = labelBytes label) = true →
        decide (b'.label = labelBytes label) = false := by
    rw [List.pairwise_map]
    refine (pairwise_label tag).imp fun {d d'} hne hd => ?_
    rw [decide_eq_true_eq, hsame] at hd
    rw [decide_eq_false_iff_not, hsame]
    exact fun hd' => hne (hd.trans hd'.symm)
  rw [find?_reverse hpairwise, List.find?_map, Tag.declared?, Option.map_map]
  have hfind : tag.declarations.find? ((fun b => decide (b.label = labelBytes label)) ∘
      Declaration.binding) = tag.declarations.find? fun d => d.label = label := by
    refine congrArg (tag.declarations.find? ·) (funext fun d => ?_)
    exact decide_eq_decide.mpr (hsame d)
  rw [hfind]
  cases hd : tag.declarations.find? fun d => d.label = label with
  | none => rfl
  | some d =>
    have hlabel : d.label = label := by simpa using List.find?_some hd
    simp [Declaration.binding, hlabel]

/-- The prefixes that are bound from the outset are found behind all declarations. -/
theorem find?_scopeOf (tags : List Tag) (label : Option Label) :
    (scopeOf tags).find? (fun b => b.label = labelBytes label) =
      ((tags.findSome? fun tag => tag.declared? label).map fun uri =>
        ⟨labelBytes label, utf8 uri⟩).or
          (outermostScope.find? fun b => b.label = labelBytes label) := by
  induction tags with
  | nil => rfl
  | cons tag outer ih =>
    rw [scopeOf, List.find?_append, find?_declarations, ih, List.findSome?_cons]
    cases tag.declared? label <;> rfl

theorem declared?_xml {l : Label} (hl : l.text = "xml") (tag : Tag) :
    tag.declared? (some l) = none := by
  rw [Tag.declared?, Option.map_eq_none_iff, List.find?_eq_none]
  intro d _ hd
  exact d.notXml l (by simpa using hd) hl

theorem find?_outermost {label : Option Label} (h : label.map (fun l => l.text) ≠ some "xml") :
    (outermostScope.find? fun b => b.label = labelBytes label) = none := by
  rw [List.find?_eq_none]
  intro b hb
  rw [decide_eq_true_eq]
  intro hlabel
  cases label with
  | none =>
    simp only [outermostScope, List.mem_cons, List.not_mem_nil, or_false] at hb
    rcases hb with rfl | rfl <;> cases hlabel
  | some l =>
    simp only [outermostScope, List.mem_cons, List.not_mem_nil, or_false] at hb
    rcases hb with rfl | rfl
    · exact h (congrArg some (utf8_injective (Option.some.inj hlabel)).symm)
    · exact l.notReserved (utf8_injective (Option.some.inj hlabel)).symm

/-- What a prefix is found to stand for, where the empty text stands for nothing. -/
theorem found_scopeOf (tags : List Tag) (label : Option Label) :
    (((scopeOf tags).find? fun b => b.label = labelBytes label).map Binding.uri).filter (· ≠ []) =
      (lexicalNamespace tags label).map utf8 := by
  rw [find?_scopeOf, lexicalNamespace]
  by_cases hxml : label.map (fun l => l.text) = some "xml"
  · obtain ⟨l, rfl, hl⟩ := Option.map_eq_some_iff.mp hxml
    have hnone : tags.findSome? (fun tag => tag.declared? (some l)) = none := by
      rw [List.findSome?_eq_none_iff]
      exact fun tag _ => declared?_xml hl tag
    rw [if_pos hxml, hnone, labelBytes, Option.map_some, hl]
    decide
  · rw [if_neg hxml, find?_outermost hxml, Option.or_none, Option.map_map]
    cases tags.findSome? fun tag => tag.declared? label with
    | none => rfl
    | some uri =>
      by_cases huri : uri = ""
      · subst huri
        rfl
      · have hne : utf8 uri ≠ [] := mt utf8_eq_nil_iff.mp huri
        simp [Option.filter, huri, hne]

theorem default?_scopeOf (tags : List Tag) :
    (scopeOf tags).default? = (lexicalNamespace tags none).map utf8 := by
  have hfound := found_scopeOf tags none
  have hlabel : labelBytes none = none := rfl
  rw [hlabel] at hfound
  rw [← hfound, Scope.default?]
  cases (scopeOf tags).find? fun b => b.label = none with
  | none => rfl
  | some b => by_cases huri : b.uri = [] <;> simp [Option.filter, huri]

theorem lookup_scopeOf (tags : List Tag) (l : Label) :
    (scopeOf tags).lookup (utf8 l.text) =
      match lexicalNamespace tags (some l) with
      | some uri => .ok (utf8 uri)
      | none => .error (utf8 l.text) := by
  have hfound := found_scopeOf tags (some l)
  have hlabel : labelBytes (some l) = some (utf8 l.text) := rfl
  rw [hlabel] at hfound
  rw [Scope.lookup]
  cases hfind : (scopeOf tags).find? fun b => b.label = some (utf8 l.text) with
  | none =>
    rw [hfind] at hfound
    have hnone : lexicalNamespace tags (some l) = none := Option.map_eq_none_iff.mp hfound.symm
    rw [hnone]
  | some b =>
    rw [hfind] at hfound
    dsimp only
    by_cases huri : b.uri = []
    · have hnone : lexicalNamespace tags (some l) = none := by
        simpa [Option.filter, huri] using hfound.symm
      rw [if_pos huri, hnone]
    · have hsome : (lexicalNamespace tags (some l)).map utf8 = some b.uri := by
        simpa [Option.filter, huri] using hfound.symm
      obtain ⟨uri, hlexical, hutf8⟩ := Option.map_eq_some_iff.mp hsome
      rw [if_neg huri, hlexical, ← hutf8]

end Lookup

section Names

theorem decodeName_utf8 (s : String) : decodeName (utf8 s) = .ok s := by
  rw [decodeName, textOfUtf8_eq_ok_iff.mpr rfl]

theorem decodeUri_utf8 (uri : Option String) : decodeUri (.ok (uri.map utf8)) = .ok uri := by
  cases uri with
  | none => rfl
  | some uri =>
    rw [Option.map_some, decodeUri, decodeName_utf8]
    rfl

theorem lossyText_utf8 (s : String) : lossyText (utf8 s) = s := by
  rw [lossyText, lossyChars, utf8, charsOfUtf8_flatMap_encodeChar]
  exact String.ofList_toList

/-- The first prefix that stands for nothing is an error. -/
def requireBound : List Label → Except DocumentError Unit
  | [] => .ok ()
  | l :: _ => .error (.unknownPrefix l.text)

theorem requireBound_append {α : Type} (labels others : List Label)
    (f : Unit → Except DocumentError α) :
    (requireBound (labels ++ others) >>= f) =
      requireBound labels >>= fun _ => requireBound others >>= f := by
  cases labels <;> rfl

theorem unboundAmong_append (tags : List Tag) (labels others : List Label) :
    unboundAmong tags (labels ++ others) = unboundAmong tags labels ++ unboundAmong tags others :=
  List.filter_append labels others

theorem decodeUri_lookup (tags : List Tag) (l : Label) :
    decodeUri (some <$> (scopeOf tags).lookup (utf8 l.text)) =
      requireBound (unboundAmong tags [l]) >>= fun _ => .ok (lexicalNamespace tags (some l)) := by
  rw [lookup_scopeOf, unboundAmong]
  cases hl : lexicalNamespace tags (some l) with
  | none =>
    have hlabel : [l].filter (fun l => lexicalNamespace tags (some l) = none) = [l] := by simp [hl]
    rw [hlabel]
    show Except.error (DocumentError.unknownPrefix (lossyText (utf8 l.text))) = _
    rw [lossyText_utf8]
    rfl
  | some uri =>
    have hlabel : [l].filter (fun l => lexicalNamespace tags (some l) = none) = [] := by simp [hl]
    rw [hlabel]
    exact decodeUri_utf8 (some uri)

theorem decodeUri_ofElement (tags : List Tag) (label : Option Label) :
    decodeUri ((scopeOf tags).ofElement (labelBytes label)) =
      requireBound (unboundAmong tags label.toList) >>= fun _ =>
        .ok (lexicalNamespace tags label) := by
  cases label with
  | none =>
    show decodeUri (.ok (scopeOf tags).default?) = .ok _
    rw [default?_scopeOf]
    exact decodeUri_utf8 (lexicalNamespace tags none)
  | some l => exact decodeUri_lookup tags l

theorem decodeUri_ofAttribute (tags : List Tag) (label : Option Label) :
    decodeUri ((scopeOf tags).ofAttribute (labelBytes label)) =
      requireBound (unboundAmong tags label.toList) >>= fun _ =>
        .ok (label.bind fun l => lexicalNamespace tags (some l)) := by
  cases label with
  | none => rfl
  | some l => exact decodeUri_lookup tags l

theorem decodeAttribute_raw (tags : List Tag) (a : WrittenAttribute) :
    decodeAttribute (scopeOf tags) (TagEntry.attribute a).raw =
      requireBound (unboundAmong tags a.name.label.toList) >>= fun _ =>
        .ok (a.attribute lexicalNamespace tags) := by
  rw [TagEntry.raw_attribute, decodeAttribute, splitName_written]
  simp only [decodeUri_ofAttribute, decodeName_utf8, decodeText_escaped]
  cases requireBound (unboundAmong tags a.name.label.toList) <;> rfl

theorem declarations_left_out (entries : List TagEntry) :
    (entries.map TagEntry.raw).filter (fun a => (declaredLabel? a.key).isNone) =
      (entries.filterMap TagEntry.attribute?).map fun a => (TagEntry.attribute a).raw := by
  induction entries with
  | nil => rfl
  | cons e entries ih =>
    rw [List.map_cons]
    rcases e with d | a
    · rw [List.filter_cons, declaredLabel?_declaration]
      exact ih
    · rw [List.filter_cons, declaredLabel?_attribute, Option.isNone_none, if_pos rfl, ih]
      rfl

theorem mapM_decodeAttribute (tags : List Tag) (attributes : List WrittenAttribute) :
    (attributes.map fun a => (TagEntry.attribute a).raw).mapM (decodeAttribute (scopeOf tags)) =
      requireBound (unboundAmong tags (attributes.filterMap fun a => a.name.label)) >>= fun _ =>
        .ok (attributes.map (WrittenAttribute.attribute lexicalNamespace tags)) := by
  induction attributes with
  | nil => rfl
  | cons a attributes ih =>
    have hlabels : (a :: attributes).filterMap (fun a => a.name.label) =
        a.name.label.toList ++ attributes.filterMap fun a => a.name.label := by
      cases hlabel : a.name.label <;> simp [hlabel]
    rw [List.map_cons, List.mapM_cons, decodeAttribute_raw, ih, hlabels, unboundAmong_append,
      requireBound_append]
    cases requireBound (unboundAmong tags a.name.label.toList) with
    | error e => rfl
    | ok _ =>
      cases requireBound (unboundAmong tags (attributes.filterMap fun a => a.name.label)) <;> rfl

theorem decodeAttributes_written (tags : List Tag) (tag : Tag) :
    decodeAttributes (scopeOf tags) (attributesOf true (utf8 tag.written)) =
      requireBound (unboundAmong tags (tag.attributes.filterMap fun a => a.name.label)) >>= fun _ =>
        .ok (tag.attributes.map (WrittenAttribute.attribute lexicalNamespace tags)) := by
  have hattributes :
      (tag.entries.map TagEntry.raw).filter (fun a => (declaredLabel? a.key).isNone) =
        tag.attributes.map fun a => (TagEntry.attribute a).raw := declarations_left_out tag.entries
  rw [attributesOf_written, decodeAttributes, hattributes, mapM_decodeAttribute]
  cases requireBound (unboundAmong tags (tag.attributes.filterMap fun a => a.name.label)) <;> rfl

/-- The element that a tag opens inside the tags around it. -/
def openedBy (tag : Tag) (outer : List Tag) : OpenElement where
  tag := utf8 tag.name.written
  scope := scopeOf (tag :: outer)
  uri := lexicalNamespace (tag :: outer) tag.name.label
  name := tag.name.localName.text
  attributes := tag.attributes.map (WrittenAttribute.attribute lexicalNamespace (tag :: outer))
  children := []
  run := ""
  runs := []

/-- Below the limit, a tag is opened if all of its prefixes stand for a namespace. -/
theorem openElement_written {limit : Nat} {opened : List OpenElement} {outer : List Tag}
    (hscope : currentScope opened = scopeOf outer) (hlimit : opened.length < limit) (tag : Tag) :
    openElement limit opened (utf8 tag.written) =
      requireBound (tag.unbound (tag :: outer)) >>= fun _ => .ok (openedBy tag outer) := by
  have hlow : ¬limit ≤ opened.length := Nat.not_le_of_lt hlimit
  rw [openElement, hscope, enter_written, Tag.unbound, Tag.labels, unboundAmong_append,
    requireBound_append]
  simp only [hlow, if_false, pure_bind, tagName_written, splitName_written]
  simp only [decodeUri_ofElement, decodeName_utf8, decodeAttributes_written]
  cases requireBound (unboundAmong (tag :: outer) tag.name.label.toList) with
  | error e => rfl
  | ok _ =>
    cases requireBound
      (unboundAmong (tag :: outer) (tag.attributes.filterMap fun a => a.name.label)) <;> rfl

end Names

end ContentGraph.Xml
