import ContentGraph.Proofs.DocumentRoundTrip
import ContentGraph.Proofs.NestingLimit
import ContentGraph.Proofs.PutTrace

/-! What holds of every tree that is read from a document. An element has its children between its
text runs, a namespace is never empty, and declarations are not among the attributes. Of the last
the scope is one reason: no prefix but `xmlns` can be made to stand for the namespace of
declarations, and an attribute with that prefix is left out. -/

namespace ContentGraph.Xml

/-- A namespace that an attribute has is not empty, and the attribute is not a declaration. -/
structure Attribute.WellFormed (a : Attribute) : Prop where
  uri_ne_empty : a.uri ≠ some ""
  uri_ne_xmlns : a.uri ≠ some xmlnsNamespace
  name_ne_xmlns : a.uri = none → a.name ≠ "xmlns"

/-- What holds of an element apart from those that stand in it. -/
structure Element.WellFormed (e : Element) : Prop where
  length_textRuns : e.textRuns.length = e.children.length + 1
  uri_ne_empty : e.uri ≠ some ""
  attributes : ∀ a ∈ e.attributes, a.WellFormed

section Scope

/-- No prefix but `xmlns` stands for the namespace of declarations. The default namespace may be
that one. -/
def Scope.IsReserved (scope : Scope) : Prop :=
  ∀ b ∈ scope, b.uri = utf8 xmlnsNamespace → b.label = none ∨ b.label = some (utf8 "xmlns")

variable {scope next : Scope}

theorem isReserved_outermost : Scope.IsReserved outermostScope := by
  intro b hb huri
  simp only [outermostScope, List.mem_cons, List.not_mem_nil, or_false] at hb
  rcases hb with rfl | rfl
  · exact absurd (utf8_injective huri) (by decide)
  · exact .inr rfl

theorem uri_ne_xmlns_of_mayBind {label uri : Bytes} (h : mayBind label uri = true) :
    uri ≠ utf8 xmlnsNamespace := by
  unfold mayBind at h
  split at h
  · -- the prefix `xml` has a namespace of its own
    intro huri
    rw [decide_eq_true_eq, huri] at h
    exact absurd (utf8_injective h) (by decide)
  · simp only [Bool.and_eq_true, decide_eq_true_eq] at h
    exact h.2

theorem Scope.IsReserved.cons {b : Binding} (h : scope.IsReserved)
    (hb : b.uri = utf8 xmlnsNamespace → b.label = none) : Scope.IsReserved (b :: scope) := by
  intro b' hb' huri
  rcases List.mem_cons.mp hb' with rfl | hb'
  · exact .inl (hb huri)
  · exact h b' hb' huri

theorem Scope.IsReserved.declare {a : RawAttribute} (h : scope.IsReserved)
    (hdeclare : scope.declare a = .ok next) : next.IsReserved := by
  unfold Scope.declare at hdeclare
  split at hdeclare
  · cases hdeclare
    exact h
  · cases hdeclare
    exact h.cons fun _ => rfl
  · split at hdeclare
    · next hmay =>
      cases hdeclare
      exact h.cons fun huri => absurd huri (uri_ne_xmlns_of_mayBind hmay)
    · cases hdeclare

theorem Scope.IsReserved.foldlM_declare {attributes : List RawAttribute} (h : scope.IsReserved)
    (hdeclare : attributes.foldlM Scope.declare scope = .ok next) : next.IsReserved := by
  induction attributes generalizing scope with
  | nil =>
    cases hdeclare
    exact h
  | cons a attributes ih =>
    rw [List.foldlM_cons] at hdeclare
    obtain ⟨inner, hinner, hrest⟩ := bind_eq_ok_iff.mp hdeclare
    exact ih (h.declare hinner) hrest

theorem Scope.IsReserved.enter {content : Bytes} (h : scope.IsReserved)
    (henter : scope.enter content = .ok next) : next.IsReserved :=
  h.foldlM_declare henter

theorem lookup_eq_ok {label uri : Bytes} (h : scope.lookup label = .ok uri) :
    uri ≠ [] ∧ ⟨some label, uri⟩ ∈ scope := by
  unfold Scope.lookup at h
  split at h
  · next b hfind =>
    split at h
    · cases h
    · next huri =>
      cases h
      have hlabel : b.label = some label := by simpa using List.find?_some hfind
      exact ⟨huri, hlabel ▸ List.mem_of_find?_eq_some hfind⟩
  · cases h

theorem default?_ne_some_nil : scope.default? ≠ some [] := by
  unfold Scope.default?
  split
  · split
    · exact nofun
    · next huri => exact fun h => huri (Option.some.inj h)
  · exact nofun

end Scope

section Names

theorem decodeName_eq_ok {data : Bytes} {s : String} (h : decodeName data = .ok s) :
    data = utf8 s := by
  unfold decodeName at h
  split at h
  · next s' hs =>
    cases h
    exact textOfUtf8_eq_ok_iff.mp hs
  · cases h

theorem decodeUri_eq_ok {found : Except Bytes (Option Bytes)} {uri : Option String}
    (h : decodeUri found = .ok uri) : found = .ok (uri.map utf8) := by
  unfold decodeUri at h
  split at h
  · cases h
  · cases h
    rfl
  · obtain ⟨s, hs, rfl⟩ := map_eq_ok_iff.mp h
    rw [decodeName_eq_ok hs, Option.map_some]

theorem splitName_eq_none {name localPart : Bytes} (h : splitName name = (none, localPart)) :
    localPart = name := by
  unfold splitName at h
  split at h
  · exact (Prod.mk.inj h).2.symm
  · cases h

theorem splitName_eq_some {name label localPart : Bytes}
    (h : splitName name = (some label, localPart)) : name = label ++ ':'.toUInt8 :: localPart := by
  unfold splitName at h
  split at h
  · cases h
  · next b rest hdrop =>
    cases h
    obtain rfl : b = ':'.toUInt8 := by
      have hhead := List.head?_dropWhile_not (· ≠ ':'.toUInt8) name
      rw [hdrop] at hhead
      simpa using hhead
    rw [← hdrop, List.takeWhile_append_dropWhile]

theorem splitName_ne_xmlns {key localPart : Bytes} (hkey : declaredLabel? key = none) :
    splitName key ≠ (some (utf8 "xmlns"), localPart) := by
  intro hsplit
  have hprefix : (utf8 "xmlns:").isPrefixOf key = true := by
    rw [splitName_eq_some hsplit]
    rfl
  rw [declaredLabel?, if_pos hprefix] at hkey
  split at hkey <;> cases hkey

end Names

section Opening

variable {scope : Scope}

theorem decodeUri_ofElement_ne_empty {label : Option Bytes} {uri : Option String}
    (h : decodeUri (scope.ofElement label) = .ok uri) : uri ≠ some "" := by
  rintro rfl
  have hfound := decodeUri_eq_ok h
  cases label with
  | none => exact default?_ne_some_nil (Except.ok.inj hfound)
  | some label =>
    obtain ⟨bytes, hlookup, hbytes⟩ := map_eq_ok_iff.mp hfound
    exact (lookup_eq_ok hlookup).1 (Option.some.inj hbytes)

theorem wellFormed_of_decodeAttribute {raw : RawAttribute} {a : Attribute}
    (hscope : scope.IsReserved) (hkey : declaredLabel? raw.key = none)
    (h : decodeAttribute scope raw = .ok a) : a.WellFormed := by
  cases hsplit : splitName raw.key with
  | mk label localPart =>
    rw [decodeAttribute, hsplit] at h
    obtain ⟨uri, huri, h⟩ := bind_eq_ok_iff.mp h
    obtain ⟨name, hname, h⟩ := bind_eq_ok_iff.mp h
    obtain ⟨value, -, h⟩ := bind_eq_ok_iff.mp h
    cases h
    have hfound := decodeUri_eq_ok huri
    cases label with
    | none =>
      obtain rfl : uri = none := by
        cases uri with
        | none => rfl
        | some uri => cases hfound
      refine ⟨(Option.some_ne_none _).symm, (Option.some_ne_none _).symm, fun _ hxmlns => ?_⟩
      obtain rfl : name = "xmlns" := hxmlns
      -- the key would be the declaration of the default namespace
      rw [← splitName_eq_none hsplit, decodeName_eq_ok hname] at hkey
      cases hkey
    | some label =>
      obtain ⟨bytes, hlookup, hbytes⟩ := map_eq_ok_iff.mp hfound
      obtain ⟨hnonempty, hmem⟩ := lookup_eq_ok hlookup
      cases uri with
      | none => cases hbytes
      | some uri =>
        obtain rfl : bytes = utf8 uri := Option.some.inj hbytes
        refine ⟨fun hempty => ?_, fun hxmlns => ?_, fun hnone => ?_⟩
        · cases hempty
          exact hnonempty rfl
        · cases hxmlns
          obtain rfl : label = utf8 "xmlns" := by simpa using hscope _ hmem rfl
          exact splitName_ne_xmlns hkey hsplit
        · cases hnone

theorem wellFormed_of_decodeAttributes {list : AttributeList} {attributes : List Attribute}
    (hscope : scope.IsReserved) (h : decodeAttributes scope list = .ok attributes) :
    ∀ a ∈ attributes, a.WellFormed := by
  obtain ⟨decoded, hdecoded, h⟩ := bind_eq_ok_iff.mp h
  obtain rfl : decoded = attributes := by
    split at h
    · cases h
      rfl
    · cases h
  intro a ha
  obtain ⟨raw, hraw, hdecode⟩ := exists_of_mem_mapM hdecoded ha
  have hkey := (List.mem_filter.mp hraw).2
  exact wellFormed_of_decodeAttribute hscope (Option.isNone_iff_eq_none.mp hkey) hdecode

/-- What has been read of an element, with the elements that stand in it. -/
structure OpenElement.WellFormed (e : OpenElement) : Prop where
  length_runs : e.runs.length = e.children.length
  uri_ne_empty : e.uri ≠ some ""
  attributes : ∀ a ∈ e.attributes, a.WellFormed
  scope : e.scope.IsReserved
  children : ∀ child ∈ e.children, ∀ below ∈ child.postorder, below.WellFormed

theorem isReserved_currentScope {opened : List OpenElement} (h : ∀ e ∈ opened, e.WellFormed) :
    (currentScope opened).IsReserved := by
  cases opened with
  | nil => exact isReserved_outermost
  | cons e outer => exact (h e List.mem_cons_self).scope

theorem OpensAs.wellFormed {limit : Nat} {opened : List OpenElement} {content : Bytes}
    {e : OpenElement} (he : OpensAs limit opened content e) (h : ∀ e ∈ opened, e.WellFormed) :
    e.WellFormed := by
  have hscope : e.scope.IsReserved := (isReserved_currentScope h).enter he.scope_eq
  refine ⟨?_, decodeUri_ofElement_ne_empty he.uri_eq,
    wellFormed_of_decodeAttributes hscope he.attributes_eq, hscope, ?_⟩
  · rw [he.runs_eq, he.children_eq]
    rfl
  · rw [he.children_eq]
    exact fun _ hchild => absurd hchild List.not_mem_nil

end Opening

namespace OpenElement.WellFormed

variable {e : OpenElement}

theorem addText (h : e.WellFormed) (s : String) : (e.addText s).WellFormed :=
  ⟨h.length_runs, h.uri_ne_empty, h.attributes, h.scope, h.children⟩

theorem addChild {child : Element} (h : e.WellFormed)
    (hchild : ∀ below ∈ child.postorder, below.WellFormed) : (e.addChild child).WellFormed where
  length_runs := congrArg (· + 1) h.length_runs
  uri_ne_empty := h.uri_ne_empty
  attributes := h.attributes
  scope := h.scope
  children := List.forall_mem_cons.mpr ⟨hchild, h.children⟩

theorem close (h : e.WellFormed) : ∀ below ∈ e.close.postorder, below.WellFormed := by
  have hown : e.close.WellFormed := by
    refine ⟨?_, h.uri_ne_empty, h.attributes⟩
    simp only [OpenElement.close, List.length_reverse, List.length_cons, h.length_runs]
  intro below hbelow
  rw [Element.postorder_eq, List.mem_append, List.mem_flatMap, List.mem_singleton] at hbelow
  rcases hbelow with ⟨child, hchild, hbelow⟩ | rfl
  · exact h.children child (List.mem_reverse.mp hchild) below hbelow
  · exact hown

end OpenElement.WellFormed

/-- The elements that are open and the complete root are well formed on all levels. -/
structure Reading.WellFormed (state : Reading) : Prop where
  opened : ∀ e ∈ state.opened, e.WellFormed
  root : ∀ e ∈ state.root, ∀ below ∈ e.postorder, below.WellFormed

theorem wellFormed_of_addElement {opened : List OpenElement} {root : Option Element} {e : Element}
    {next : Reading} (h : Reading.WellFormed ⟨opened, root⟩)
    (he : ∀ below ∈ e.postorder, below.WellFormed) (hadd : addElement opened root e = .ok next) :
    next.WellFormed := by
  obtain ⟨outer, others, rfl, rfl⟩ | ⟨rfl, rfl, rfl⟩ := addElement_eq_ok hadd
  · obtain ⟨houter, hothers⟩ := List.forall_mem_cons.mp h.opened
    exact ⟨List.forall_mem_cons.mpr ⟨houter.addChild he, hothers⟩, h.root⟩
  · exact ⟨h.opened, fun _ hroot => Option.some.inj hroot ▸ he⟩

namespace Reading.WellFormed

variable {state next : Reading}

theorem addText {read : Bytes → Except DocumentError String} {raw : Bytes} (h : state.WellFormed)
    (hadd : Xml.addText read raw state = .ok next) : next.WellFormed := by
  obtain rfl | ⟨e, outer, s, hstate, -, rfl⟩ := addText_eq_ok hadd
  · exact h
  · rw [hstate] at h
    obtain ⟨he, houter⟩ := List.forall_mem_cons.mp h.opened
    exact ⟨List.forall_mem_cons.mpr ⟨he.addText s, houter⟩, h.root⟩

theorem closeElement {name : Bytes} (h : state.WellFormed)
    (hclose : Xml.closeElement name state = .ok next) : next.WellFormed := by
  obtain ⟨e, outer, hstate, -, hadd⟩ := closeElement_eq_ok hclose
  rw [hstate] at h
  obtain ⟨he, houter⟩ := List.forall_mem_cons.mp h.opened
  exact wellFormed_of_addElement ⟨houter, h.root⟩ he.close hadd

theorem add {limit : Nat} {m : Markup} (h : state.WellFormed)
    (hadd : state.add limit m = .ok next) : next.WellFormed := by
  cases m with
  | text raw => exact h.addText hadd
  | cdata raw => exact h.addText hadd
  | startTag content =>
    obtain ⟨e, he, hadd⟩ := bind_eq_ok_iff.mp hadd
    cases hadd
    have hopened := (opensAs_of_openElement he).wellFormed h.opened
    exact ⟨List.forall_mem_cons.mpr ⟨hopened, h.opened⟩, h.root⟩
  | emptyTag content =>
    obtain ⟨e, he, hadd⟩ := bind_eq_ok_iff.mp hadd
    have hopened := (opensAs_of_openElement he).wellFormed h.opened
    exact wellFormed_of_addElement h hopened.close hadd
  | endTag name => exact h.closeElement hadd
  | other =>
    cases hadd
    exact h

theorem last {limit : Nat} {data : Bytes} {last : Reading} (h : state.WellFormed)
    (hrun : ReadsTo limit last state data) : last.WellFormed := by
  induction hrun with
  | done => exact h
  | piece _ hadd _ ih => exact ih (h.add hadd)

end Reading.WellFormed

/-- The tree of a document is well formed on all levels, whatever the document and the limit. -/
theorem parsed_trees_are_well_formed {limit : Nat} {data : Bytes} {root : Element}
    (h : parseDocument limit data = .ok root) : ∀ e ∈ root.postorder, e.WellFormed := by
  have hstart : Reading.WellFormed ⟨[], none⟩ := ⟨nofun, nofun⟩
  exact (hstart.last (readsTo_of_parseDocument h)).root root rfl

def scopedElement : Element :=
  ⟨some "u", "a", [],
    [⟨none, "b", [⟨some "v", "a", "1"⟩], [], [""]⟩,
      ⟨some "d", "b", [⟨some "u", "a", "2"⟩, ⟨none, "a", "3"⟩], [], [""]⟩],
    ["", "", ""]⟩

theorem scopedTree_parse : parseDocument 2 (utf8 scopedTree.written) = .ok scopedElement := by
  have hheight : scopedTree.height ≤ 2 := by decide
  rw [parseDocument_written hheight]
  rfl

theorem parsed_trees_are_well_formed_in_scopedTree :
    parseDocument 2 (utf8 scopedTree.written) = .ok scopedElement ∧
      scopedElement.postorder.map Element.name = ["b", "b", "a"] ∧
      ∀ e ∈ scopedElement.postorder, e.WellFormed :=
  ⟨scopedTree_parse, by decide, parsed_trees_are_well_formed scopedTree_parse⟩

end ContentGraph.Xml
