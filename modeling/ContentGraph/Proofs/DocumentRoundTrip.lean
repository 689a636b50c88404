import ContentGraph.Proofs.DocumentReading

/-! Every written document is read back. Prefixes have their lexical meaning, and a document without
them gives its tree of elements without namespaces. -/

namespace ContentGraph.Xml

/-- The document is read if all of its prefixes stand for a namespace. Otherwise the first one that
does not is the error. -/
theorem namespaces_are_lexical {limit : Nat} {tree : Tree} (hlimit : tree.height ≤ limit) :
    parseDocument limit (utf8 tree.written) =
      match tree.unbound [] with
      | [] => .ok (tree.element lexicalNamespace [])
      | label :: _ => .error (.unknownPrefix label.text) := by
  rw [parseDocument_written hlimit]
  cases tree.unbound [] <;> rfl

def labelP : Label := ⟨⟨"p", by decide, by simp⟩, by decide⟩

/-- A prefix and the default namespace are declared, and in the first child again. -/
def scopedTree : Tree :=
  .pair
    { name := ⟨some labelP, nameA⟩
      entries := [.declaration ⟨some labelP, "u", by decide, by decide, by decide⟩,
        .declaration ⟨none, "d", by decide, by decide, by decide⟩]
      distinct := by decide }
    (.child []
      (.single
        { name := ⟨none, nameB⟩
          entries := [.attribute ⟨⟨some labelP, nameA⟩, "1", by decide⟩,
            .declaration ⟨none, "", by decide, by decide, by decide⟩,
            .declaration ⟨some labelP, "v", by decide, by decide, by decide⟩]
          distinct := by decide })
      (.child []
        (.single ⟨⟨none, nameB⟩, [.attribute ⟨⟨some labelP, nameA⟩, "2", by decide⟩,
          .attribute ⟨⟨none, nameA⟩, "3", by decide⟩], by decide⟩)
        (.last [])))

/-- The prefix is only declared in a sibling. -/
def unboundTree : Tree :=
  .pair ⟨⟨none, nameA⟩, [], List.nodup_nil⟩
    (.child []
      (.single
        { name := ⟨some labelP, nameB⟩
          entries := [.declaration ⟨some labelP, "u", by decide, by decide, by decide⟩]
          distinct := by decide })
      (.child [] (.single ⟨⟨some labelP, nameB⟩, [], List.nodup_nil⟩) (.last [])))

theorem scopedTree_written : scopedTree.written =
    "<p:a xmlns:p=\"u\" xmlns=\"d\">" ++ "<b p:a=\"1\" xmlns=\"\" xmlns:p=\"v\"/>" ++
      "<b p:a=\"2\" a=\"3\"/></p:a>" := by
  decide

theorem unboundTree_written :
    unboundTree.written = "<a><p:b xmlns:p=\"u\"/><p:b/></a>" := by
  decide

theorem namespaces_are_lexical_in_small_documents :
    parseDocument 2 (utf8 ("<p:a xmlns:p=\"u\" xmlns=\"d\">" ++
      "<b p:a=\"1\" xmlns=\"\" xmlns:p=\"v\"/>" ++ "<b p:a=\"2\" a=\"3\"/></p:a>")) =
        .ok ⟨some "u", "a", [],
          [⟨none, "b", [⟨some "v", "a", "1"⟩], [], [""]⟩,
            ⟨some "d", "b", [⟨some "u", "a", "2"⟩, ⟨none, "a", "3"⟩], [], [""]⟩],
          ["", "", ""]⟩ ∧
      parseDocument 2 (utf8 "<a><p:b xmlns:p=\"u\"/><p:b/></a>") = .error (.unknownPrefix "p") := by
  have hscoped : parseDocument 2 (utf8 scopedTree.written) = _ := namespaces_are_lexical (by decide)
  have hunbound : parseDocument 2 (utf8 unboundTree.written) = _ :=
    namespaces_are_lexical (by decide)
  rw [scopedTree_written] at hscoped
  rw [unboundTree_written] at hunbound
  exact ⟨hscoped, hunbound⟩

section Plain

/-- No name is in a namespace. -/
def noNamespaces : Naming := fun _ _ => none

theorem Tag.IsPlain.declarations_eq {tag : Tag} (h : tag.IsPlain) : tag.declarations = [] := by
  rw [Tag.declarations, List.filterMap_eq_nil_iff]
  intro e he
  obtain ⟨a, rfl, -⟩ := h.entries e he
  rfl

theorem Tag.IsPlain.label_eq {tag : Tag} (h : tag.IsPlain) {a : WrittenAttribute}
    (ha : a ∈ tag.attributes) : a.name.label = none := by
  obtain ⟨e, he, hea⟩ := List.mem_filterMap.mp ha
  obtain ⟨a', rfl, hlabel⟩ := h.entries e he
  cases hea
  exact hlabel

theorem Tag.IsPlain.unbound_eq {tag : Tag} (h : tag.IsPlain) (tags : List Tag) :
    tag.unbound tags = [] := by
  have hnone : tag.attributes.filterMap (fun a => a.name.label) = [] := by
    rw [List.filterMap_eq_nil_iff]
    exact fun a ha => h.label_eq ha
  rw [Tag.unbound, Tag.labels, h.name, hnone]
  rfl

theorem lexicalNamespace_plain {tags : List Tag} (h : ∀ tag ∈ tags, tag.IsPlain) :
    lexicalNamespace tags none = none := by
  have hnone : tags.findSome? (fun tag => tag.declared? none) = none := by
    rw [List.findSome?_eq_none_iff]
    intro tag htag
    rw [Tag.declared?, (h tag htag).declarations_eq]
    rfl
  rw [lexicalNamespace, if_neg (by simp), hnone]
  rfl

theorem Tag.IsPlain.element_eq {tag : Tag} (h : tag.IsPlain) {tags : List Tag}
    (htags : ∀ tag ∈ tags, tag.IsPlain) (children : List Element) (textRuns : List String) :
    tag.element lexicalNamespace tags children textRuns =
      tag.element noNamespaces tags children textRuns := by
  have hattributes : tag.attributes.map (WrittenAttribute.attribute lexicalNamespace tags) =
      tag.attributes.map (WrittenAttribute.attribute noNamespaces tags) := by
    refine List.map_congr_left fun a ha => ?_
    rw [WrittenAttribute.attribute, WrittenAttribute.attribute, h.label_eq ha]
    rfl
  rw [Tag.element, Tag.element, hattributes, h.name, lexicalNamespace_plain htags]
  rfl

mutual

theorem Tree.IsPlain.unbound_eq {tree : Tree} (h : tree.IsPlain) (outer : List Tag) :
    tree.unbound outer = [] := by
  match tree with
  | .single tag => exact Tag.IsPlain.unbound_eq h (tag :: outer)
  | .pair tag content =>
    rw [Tree.unbound, Tag.IsPlain.unbound_eq h.1, Content.IsPlain.unbound_eq h.2]
    rfl

theorem Content.IsPlain.unbound_eq {content : Content} (h : content.IsPlain) (outer : List Tag) :
    content.unbound outer = [] := by
  match content with
  | .last _ => rfl
  | .child _ tree rest =>
    rw [Content.unbound, Tree.IsPlain.unbound_eq h.1, Content.IsPlain.unbound_eq h.2]
    rfl

end

mutual

theorem Tree.IsPlain.element_eq {tree : Tree} (h : tree.IsPlain) {outer : List Tag}
    (houter : ∀ tag ∈ outer, tag.IsPlain) :
    tree.element lexicalNamespace outer = tree.element noNamespaces outer := by
  match tree with
  | .single tag =>
    have hinner : ∀ tag' ∈ tag :: outer, tag'.IsPlain := List.forall_mem_cons.mpr ⟨h, houter⟩
    rw [Tree.element, Tree.element]
    exact Tag.IsPlain.element_eq h hinner [] [""]
  | .pair tag content =>
    have hinner : ∀ tag' ∈ tag :: outer, tag'.IsPlain := List.forall_mem_cons.mpr ⟨h.1, houter⟩
    rw [Tree.element, Tree.element, Content.IsPlain.elements_eq h.2 hinner]
    exact Tag.IsPlain.element_eq h.1 hinner _ _

theorem Content.IsPlain.elements_eq {content : Content} (h : content.IsPlain) {outer : List Tag}
    (houter : ∀ tag ∈ outer, tag.IsPlain) :
    content.elements lexicalNamespace outer = content.elements noNamespaces outer := by
  match content with
  | .last _ => rfl
  | .child _ tree rest =>
    rw [Content.elements, Content.elements, Tree.IsPlain.element_eq h.1 houter,
      Content.IsPlain.elements_eq h.2 houter]

end

/-- Whatever pieces its text is written in, and whichever way its empty elements are, a document
without prefixes and declarations gives its tree. -/
theorem plain_document_is_read {limit : Nat} {tree : Tree} (hplain : tree.IsPlain)
    (hlimit : tree.height ≤ limit) :
    parseDocument limit (utf8 tree.written) = .ok (tree.element noNamespaces []) := by
  have hread := parseDocument_written hlimit
  have hroot : ∀ tag ∈ ([] : List Tag), tag.IsPlain := fun _ h => nomatch h
  rw [hplain.unbound_eq, hplain.element_eq hroot] at hread
  exact hread

/-- An element with an attribute and a child that holds nothing, and with text of every kind around
the child. -/
def plainTree : Tree :=
  .pair
    { name := ⟨none, nameA⟩
      entries := [.attribute ⟨⟨none, nameB⟩, "x<y", by decide⟩]
      distinct := by decide }
    (.child [.text "1 & ", .comment "--" (by decide), .text "2"]
      (.single ⟨⟨none, nameB⟩, [], List.nodup_nil⟩)
      (.last [.cdata "<c>" (by decide), .instruction "d" (by decide)]))

theorem plainTree_written : plainTree.written =
    "<a b=\"x&lt;y\">1 &amp; <!------>2<b/><![CDATA[<c>]]><?d?></a>" := by
  decide

theorem plainTree_isPlain : plainTree.IsPlain := by
  refine ⟨⟨rfl, ?_⟩, ⟨rfl, ?_⟩, trivial⟩
  · intro e he
    exact ⟨_, List.mem_singleton.mp he, rfl⟩
  · exact fun _ h => nomatch h

theorem plain_document_is_read_in_small_document :
    parseDocument 2 (utf8 "<a b=\"x&lt;y\">1 &amp; <!------>2<b/><![CDATA[<c>]]><?d?></a>") =
      .ok ⟨none, "a", [⟨none, "b", "x<y"⟩], [⟨none, "b", [], [], [""]⟩], ["1 & 2", "<c>"]⟩ := by
  have hread : parseDocument 2 _ = _ := plain_document_is_read plainTree_isPlain (by decide)
  rw [plainTree_written] at hread
  exact hread

end Plain

end ContentGraph.Xml
