import ContentGraph.Proofs.DocumentReading
import ContentGraph.Proofs.Retrieval

/-! What an element's object holds under the fields of its attributes and children. The type and the
text have fields of their own, which nothing keeps free: an attribute or a child of the same name is
lost there, and of attributes that share a field all but the last one are. -/

namespace ContentGraph

open Xml (Attribute Element)

namespace Node

theorem mem_links_of_child? {entries : List (String × Node)} {field : String} {n : Node}
    {a : Address} (h : (Node.map entries).child? field = some n) (ha : a ∈ n.links) :
    a ∈ (Node.map entries).links :=
  mem_links_map.mpr ⟨(field, n), Entries.mem_of_get? h, ha⟩

end Node

namespace Encoder

variable {c : Encoder} {held : Element → Object → Prop}

theorem ElementRun.exists_stored {root e : Element} {calls : List PutCall} {r : Address}
    (h : ElementRun c 1 root calls (.ok r)) (he : root.Holds e) :
    ∃ o, StoredAs c (HandedOver c calls) e o := by
  obtain ⟨_, -, hroot⟩ := h.exists_storedAs (Nat.le_refl 1) r rfl
  exact hroot.of_holds he

/-- What the object of an element holds under the field of one of its attributes. -/
structure HoldsAttribute (c : Encoder) (e : Element) (type : String) (o : Object) (a : Attribute) :
    Prop where
  found : o.field? a.fieldName = (c.ownNode? e type a.fieldName).or
    ((e.lastAttribute? a.fieldName).map fun last => .string last.value)
  kept : o.field? a.fieldName = some (.string a.value) ↔
    c.ownNode? e type a.fieldName = some (.string a.value) ∨ c.FieldFree e a.fieldName ∧
      (e.lastAttribute? a.fieldName).map Attribute.value = some a.value

theorem holdsAttribute {e : Element} {o : Object} {type : String} {addresses : List Address}
    {shape : Shape} {a : Attribute} (hshape : c.shapeOf e type addresses = .ok shape)
    (htree : o.tree = shape.toNode) (ha : a ∈ e.attributes) : HoldsAttribute c e type o a := by
  obtain ⟨last, -, hlast, -⟩ := Element.exists_lastAttribute? ha
  have hvalue : (attributesOf e).get? a.fieldName = some last.value := by
    rw [get?_attributesOf_eq_last, hlast, Option.map_some]
  have hfound : o.field? a.fieldName =
      (c.ownNode? e type a.fieldName).or (some (.string last.value)) := by
    rw [Object.field?, htree, child?_of_attribute hshape hvalue]
  refine ⟨by rw [hfound, hlast, Option.map_some], ?_⟩
  rw [hfound, Option.or_eq_some_iff, ownNode?_eq_none_iff, hlast, Option.map_some, Option.some_inj,
    Option.some_inj, Node.string.injEq]

theorem exists_run_of_encodeDocument {σ : Type} {put : Put σ} {data : Bytes} {s last : σ} {r : Address}
    (h : c.encodeDocument put data s = (.ok r, last)) :
    ∃ root calls, Xml.parseDocument c.config.maxDepth data = .ok root ∧
      ElementRun c 1 root calls (.ok r) ∧ Replays put s calls last := by
  cases hparse : Xml.parseDocument c.config.maxDepth data with
  | error cause =>
    rw [encodeDocument, hparse] at h
    cases h
  | ok root =>
    rw [encodeDocument, hparse] at h
    obtain ⟨calls, hrun, hreplay⟩ := exists_run_of_encode h
    exact ⟨root, calls, rfl, hrun, hreplay⟩

theorem encodeDocument_of_run {root : Element} {calls : List PutCall} {r : Address} {data : Bytes}
    (hparse : Xml.parseDocument c.config.maxDepth data = .ok root)
    (hrun : c.ElementRun 1 root calls (.ok r)) (s : MemoryStore) :
    ∃ last, c.encodeDocument Store.put data s = (.ok r, last) := by
  have hok : (c.encode Store.put root s).1 = .ok r :=
    hrun.encodeElement_ok (fun _ _ => rfl) r rfl 1 (Nat.le_refl 1) s
  refine ⟨(c.encode Store.put root s).2, ?_⟩
  rw [encodeDocument, hparse]
  exact Prod.ext hok rfl

/-- The value of an attribute is stored under its field, unless the element has its type or a text
there or a later attribute has the field. This holds of every run that succeeds, and what the
encoder does with the document is one. -/
theorem attributes_are_kept_or_overwritten (c : Encoder) :
    (∀ (root : Element) (calls : List PutCall) (r : Address),
      c.ElementRun 1 root calls (.ok r) → ∀ e, root.Holds e →
        ∃ type o, c.typeOf e = .ok type ∧ StoredAs c (HandedOver c calls) e o ∧
          ∀ a ∈ e.attributes, HoldsAttribute c e type o a) ∧
    ∀ (σ : Type) (put : Put σ) (data : Bytes) (s last : σ) (r : Address),
      c.encodeDocument put data s = (.ok r, last) →
        ∃ root calls, Xml.parseDocument c.config.maxDepth data = .ok root ∧
          c.ElementRun 1 root calls (.ok r) ∧ Replays put s calls last := by
  constructor
  · intro root calls r hrun e he
    obtain ⟨o, ho⟩ := hrun.exists_stored he
    obtain ⟨type, _, shape, -, htype, hshape, htree⟩ := ho.exists_children
    exact ⟨type, o, htype, ho, fun a ha => holdsAttribute hshape htree ha⟩
  · intro σ put data s last r h
    exact exists_run_of_encodeDocument h

def titleEncoder : Encoder :=
  ⟨Context.resolveInOrder [Context.ofTerms [("a", "Title"), ("@value", "Title")]], {}⟩

def inEnglish : Attribute := ⟨some Xml.xmlNamespace, "lang", "en"⟩

def inGerman : Attribute := ⟨none, "lang", "de"⟩

/-- The document with the root `<a xml:lang="en" lang="de"/>`. -/
def languageTree : Xml.Tree :=
  let lang : Xml.Name := ⟨"lang", by decide, by simp⟩
  let xml : Xml.Label := ⟨⟨"xml", by decide, by simp⟩, by decide⟩
  .single ⟨⟨none, Xml.nameA⟩, [.attribute ⟨⟨some xml, lang⟩, "en", by decide⟩,
    .attribute ⟨⟨none, lang⟩, "de", by decide⟩], by decide⟩

def languageElement : Element :=
  ⟨none, "a", [inEnglish, inGerman], [], [""]⟩

def languageShape : Shape :=
  .leaf "Title" "" (attributesOf languageElement)

def languageObject : Object :=
  ⟨Block.ofData .node languageShape.toNode.encode, languageShape.toNode, some "Title", rfl, rfl, rfl⟩

theorem languageTree_parse :
    Xml.parseDocument 256 (utf8 languageTree.written) = .ok languageElement := by
  have hheight : languageTree.height ≤ 256 := by decide
  rw [Xml.parseDocument_written hheight]
  rfl

theorem languageElement_run : titleEncoder.ElementRun 1 languageElement [.stored languageObject]
    (.ok languageObject.address) :=
  @ElementRun.of_childless _ 1 languageElement "Title" languageShape _ rfl (by decide) rfl rfl rfl

/-- Both attributes have the field `lang`, and only the German one is stored. -/
theorem english_is_overwritten :
    ∃ last, titleEncoder.encodeDocument Store.put (utf8 languageTree.written) MemoryStore.empty =
        (.ok languageObject.address, last) ∧
      Xml.parseDocument titleEncoder.config.maxDepth (utf8 languageTree.written) =
        .ok languageElement ∧
      titleEncoder.ElementRun 1 languageElement [.stored languageObject]
        (.ok languageObject.address) ∧
      inEnglish ∈ languageElement.attributes ∧
      languageObject.field? inEnglish.fieldName ≠ some (.string inEnglish.value) := by
  obtain ⟨last, hencode⟩ := encodeDocument_of_run languageTree_parse languageElement_run .empty
  have hstored : languageObject.field? inEnglish.fieldName = some (.string inGerman.value) := rfl
  refine ⟨last, hencode, languageTree_parse, languageElement_run, List.mem_cons_self, ?_⟩
  rw [hstored]
  simp [inEnglish, inGerman]

theorem attributes_are_kept_or_overwritten_in_languageTree :
    (∃ o, StoredAs titleEncoder (HandedOver titleEncoder [.stored languageObject]) languageElement o ∧
      o.field? "lang" = some (.string "de")) ∧
    ∃ root calls last, Xml.parseDocument 256 (utf8 languageTree.written) = .ok root ∧
      titleEncoder.ElementRun 1 root calls (.ok languageObject.address) ∧
      Replays Store.put MemoryStore.empty calls last := by
  obtain ⟨hruns, hencodes⟩ := attributes_are_kept_or_overwritten titleEncoder
  obtain ⟨type, o, -, ho, hattributes⟩ :=
    hruns languageElement _ _ languageElement_run languageElement (.root _)
  have hgerman := hattributes inGerman (List.mem_cons_of_mem _ List.mem_cons_self)
  have hfree : titleEncoder.FieldFree languageElement inGerman.fieldName :=
    ⟨by decide, fun hvalue => absurd hvalue (by decide)⟩
  obtain ⟨last, hencode⟩ := encodeDocument_of_run languageTree_parse languageElement_run .empty
  obtain ⟨root, calls, hparse, hrun, hreplay⟩ := hencodes _ Store.put _ _ last _ hencode
  exact ⟨⟨o, ho, hgerman.kept.mpr (.inr ⟨hfree, rfl⟩)⟩, root, calls, last, hparse, hrun, hreplay⟩

/-- What the object of an element with children holds, where the children are stored as `objects`. -/
structure HoldsChildren (c : Encoder) (e : Element) (o : Object) (objects : List Object) : Prop where
  links : ∀ child ∈ e.children,
    (o.field? (e.childFieldName child) =
        some (fieldOf (targetsOf e (objects.map Object.address) (e.childFieldName child))).toNode ↔
      c.FieldFree e (e.childFieldName child))
  linked : ∀ (i : Nat) (child : Element) (target : Object), e.children[i]? = some child →
    objects[i]? = some target → c.FieldFree e (e.childFieldName child) →
      target.address ∈ o.tree.links

theorem fieldOf_toNode_ne_string (targets : List Address) (s : String) :
    (fieldOf targets).toNode ≠ .string s := by
  unfold fieldOf
  split
  · exact nofun
  · exact nofun

theorem fieldOf_toNode_ne_text {targets : List Address} (hne : targets ≠ []) {runs : List String}
    {n : Node} (h : Shape.textNode? runs = some n) : n ≠ (fieldOf targets).toNode := by
  rintro rfl
  unfold Shape.textNode? at h
  split at h
  · cases h
  · exact fieldOf_toNode_ne_string targets _ (Option.some.inj h).symm
  · unfold fieldOf at h
    split at h
    · cases h
    · obtain ⟨target, rest, rfl⟩ := List.exists_cons_of_ne_nil hne
      cases runs with
      | nil => cases h
      | cons run runs => cases h

theorem storedValue?_ne_field {e : Element} {targets : List Address} (hne : targets ≠ []) :
    c.storedValue? e ≠ some (fieldOf targets).toNode := by
  intro h
  cases hleaf : e.isLeaf with
  | true =>
    rw [storedValue?_of_leaf hleaf] at h
    exact fieldOf_toNode_ne_string targets _ (Option.some.inj h).symm
  | false =>
    rw [storedValue?_of_composite hleaf] at h
    exact fieldOf_toNode_ne_text hne h rfl

theorem ownNode?_ne_field {e : Element} {type field : String} {targets : List Address}
    (hne : targets ≠ []) : c.ownNode? e type field ≠ some (fieldOf targets).toNode := by
  unfold ownNode?
  split
  · exact fun h => fieldOf_toNode_ne_string targets type (Option.some.inj h).symm
  · split
    · exact storedValue?_ne_field hne
    · exact nofun

theorem fieldFree_of_links {e : Element} {type : String} {addresses : List Address} {shape : Shape}
    (h : c.shapeOf e type addresses = .ok shape) {field : String} {targets : List Address}
    (hne : targets ≠ []) (hlinks : shape.toNode.child? field = some (fieldOf targets).toNode) :
    c.FieldFree e field := by
  rw [child?_field h, Option.or_eq_some_iff] at hlinks
  rcases hlinks with hown | ⟨hnone, -⟩
  · exact absurd hown (ownNode?_ne_field hne)
  · exact (ownNode?_eq_none_iff type).mp hnone

theorem ChildrenStored.holdsChildren {e : Element} {o : Object} {objects : List Object} {type : String}
    {shape : Shape} (hchildren : ChildrenStored c held e objects)
    (hshape : c.shapeOf e type (objects.map Object.address) = .ok shape)
    (htree : o.tree = shape.toNode) : HoldsChildren c e o objects := by
  have hlength : (objects.map Object.address).length = e.children.length := by
    rw [List.length_map, hchildren.count]
  refine ⟨fun child hchild => ?_, fun i child target hchild htarget hfree => ?_⟩
  · rw [Object.field?, htree]
    exact ⟨fieldFree_of_links hshape (targetsOf_ne_nil hlength hchild),
      child?_of_child hshape hlength hchild⟩
  · have hfield := child?_of_child hshape hlength (List.mem_of_getElem? hchild) hfree
    have ha : (objects.map Object.address)[i]? = some target.address := by
      rw [List.getElem?_map, htarget, Option.map_some]
    have hmem := List.mem_of_getElem? (getElem?_targetsOf hlength hchild ha)
    rw [htree]
    exact Node.mem_links_of_child? hfield (mem_links_fieldOf.mpr hmem)

/-- The links to the children of an element are stored under their fields, in the order of the
children, unless the element has its type or a text there. This holds of every run that succeeds,
and what the encoder does with the document is one. -/
theorem children_are_linked_or_overwritten (c : Encoder) :
    (∀ (root : Element) (calls : List PutCall) (r : Address),
      c.ElementRun 1 root calls (.ok r) → ∀ e, root.Holds e →
        ∃ o objects, StoredAs c (HandedOver c calls) e o ∧
          ChildrenStored c (HandedOver c calls) e objects ∧ HoldsChildren c e o objects) ∧
    ∀ (σ : Type) (put : Put σ) (data : Bytes) (s last : σ) (r : Address),
      c.encodeDocument put data s = (.ok r, last) →
        ∃ root calls, Xml.parseDocument c.config.maxDepth data = .ok root ∧
          c.ElementRun 1 root calls (.ok r) ∧ Replays put s calls last := by
  constructor
  · intro root calls r hrun e he
    obtain ⟨o, ho⟩ := hrun.exists_stored he
    obtain ⟨type, objects, shape, hchildren, -, hshape, htree⟩ := ho.exists_children
    exact ⟨o, objects, ho, hchildren, hchildren.holdsChildren hshape htree⟩
  · intro σ put data s last r h
    exact exists_run_of_encodeDocument h

def valueElement : Element :=
  ⟨none, "@value", [], [], [""]⟩

def hidingElement : Element :=
  ⟨none, "a", [], [valueElement], ["t", ""]⟩

/-- The document `<a>t<@value/></a>`. -/
def hidingBytes : Bytes :=
  [60, 97, 62, 116, 60, 64, 118, 97, 108, 117, 101, 47, 62, 60, 47, 97, 62]

theorem hidingBytes_parse : Xml.parseDocument 256 hidingBytes = .ok hidingElement := by
  have hstart : Xml.Begins hidingBytes (.startTag [97]) (hidingBytes.drop 3) := ⟨_, _, rfl, rfl⟩
  have htext : Xml.Begins (hidingBytes.drop 3) (.text [116]) (hidingBytes.drop 4) :=
    ⟨_, _, rfl, rfl⟩
  have hchild : Xml.Begins (hidingBytes.drop 4) (.emptyTag [64, 118, 97, 108, 117, 101])
      (hidingBytes.drop 13) := ⟨_, _, rfl, rfl⟩
  have hend : Xml.Begins (hidingBytes.drop 13) (.endTag [97]) [] := ⟨_, _, rfl, rfl⟩
  rw [Xml.parseDocument, show Xml.dropByteOrderMark hidingBytes = hidingBytes from rfl,
    Xml.run_of_add hstart rfl, Xml.run_of_add htext rfl, Xml.run_of_add hchild rfl,
    Xml.run_of_add hend rfl, Xml.Reading.run]
  rfl

def valueShape : Shape :=
  .leaf "Title" "" (attributesOf valueElement)

def valueObject : Object :=
  ⟨Block.ofData .node valueShape.toNode.encode, valueShape.toNode, some "Title", rfl, rfl, rfl⟩

def hidingShape : Shape :=
  .composite "Title" (attributesOf hidingElement)
    ((groupByField hidingElement [valueObject.address]).mapValues fieldOf) ["t"]

def hidingObject : Object :=
  ⟨Block.ofData .node hidingShape.toNode.encode, hidingShape.toNode, some "Title", rfl, rfl, rfl⟩

theorem hidingElement_run : titleEncoder.ElementRun 1 hidingElement
    [.stored valueObject, .stored hidingObject] (.ok hidingObject.address) := by
  have hvalue : titleEncoder.ElementRun 2 valueElement [.stored valueObject]
      (.ok valueObject.address) :=
    @ElementRun.of_childless _ 2 valueElement "Title" valueShape _ rfl (by decide) rfl rfl rfl
  exact @ElementRun.built _ 1 hidingElement "Title" [.stored valueObject] _ [valueObject.address] _
    (by decide) rfl (.run hvalue .nil (.left .nil)) (@ShapeRun.stored _ hidingShape _ rfl rfl)

/-- The text of the root is stored under the field of its child, and nothing links to the child. -/
theorem value_child_is_overwritten :
    ∃ last, titleEncoder.encodeDocument Store.put hidingBytes MemoryStore.empty =
        (.ok hidingObject.address, last) ∧
      Xml.parseDocument titleEncoder.config.maxDepth hidingBytes = .ok hidingElement ∧
      titleEncoder.ElementRun 1 hidingElement [.stored valueObject, .stored hidingObject]
        (.ok hidingObject.address) ∧
      hidingElement.children = [valueElement] ∧
      hidingObject.field? (hidingElement.childFieldName valueElement) = some (.string "t") ∧
      hidingObject.tree.links = [] := by
  obtain ⟨last, hencode⟩ := encodeDocument_of_run hidingBytes_parse hidingElement_run .empty
  exact ⟨last, hencode, hidingBytes_parse, hidingElement_run, rfl, rfl, rfl⟩

theorem children_are_linked_or_overwritten_in_small_documents :
    (∃ o objects, HoldsChildren smallEncoder smallDocument o objects ∧
      o.field? "b" = some (fieldOf (targetsOf smallDocument (objects.map Object.address) "b")).toNode) ∧
    ∃ root calls last, Xml.parseDocument 256 hidingBytes = .ok root ∧
      titleEncoder.ElementRun 1 root calls (.ok hidingObject.address) ∧
      Replays Store.put MemoryStore.empty calls last := by
  obtain ⟨o, objects, -, -, hholds⟩ := (children_are_linked_or_overwritten smallEncoder).1
    smallDocument _ _ smallDocument_run smallDocument (.root _)
  have hfree : smallEncoder.FieldFree smallDocument (smallDocument.childFieldName smallLeaf) :=
    ⟨by decide, fun hvalue => absurd hvalue (by decide)⟩
  obtain ⟨last, hencode⟩ := encodeDocument_of_run hidingBytes_parse hidingElement_run .empty
  obtain ⟨root, calls, hparse, hrun, hreplay⟩ :=
    (children_are_linked_or_overwritten titleEncoder).2 _ Store.put _ _ last _ hencode
  exact ⟨⟨o, objects, hholds, (hholds.links smallLeaf List.mem_cons_self).mpr hfree⟩,
    root, calls, last, hparse, hrun, hreplay⟩

end Encoder

end ContentGraph
