import ContentGraph.Proofs.ShapeReading

/-! Shapes survive being stored: one whose parts keep to fields of their own is read back from its
object, and the object from its bytes. -/

namespace ContentGraph

namespace Shape

/-- A shape whose parts keep apart: nothing stands in the place of the type or the text, no field is
both an attribute and a link, and a composite has a field. -/
structure Storable (s : Shape) : Prop where
  free : ∀ name, name = typeField ∨ name = valueField →
    s.attributes.get? name = none ∧ s.fields.get? name = none
  apart : ∀ name, s.attributes.get? name = none ∨ s.fields.get? name = none
  linked : s.isComposite = true → s.fields.entries ≠ []

theorem readable_of_mem_textEntries {text : List String} {e : String × Node}
    (h : e ∈ textEntries text) : Readable e.1 e.2 := by
  unfold textEntries at h
  split at h
  · cases h
  · rw [List.mem_singleton.mp h]
    exact .string _
  · rw [List.mem_singleton.mp h]
    exact .runs _ rfl

theorem readable_of_mem_fields {fields : Table Field} (hfree : fields.get? valueField = none)
    {e : String × Node} (h : e ∈ Entries.mapValues Field.toNode fields.entries) :
    Readable e.1 e.2 := by
  obtain ⟨⟨name, field⟩, hfield, rfl⟩ := List.mem_map.mp h
  cases field with
  | link target => exact .link target
  | links targets =>
    refine .links targets fun hname => ?_
    have hfound : fields.get? name = some (.links targets) :=
      Entries.get?_of_mem fields.sorted hfield
    rw [show name = valueField from hname, hfree] at hfound
    cases hfound

theorem readable_of_mem_attributes {attributes : Table String} {e : String × Node}
    (h : e ∈ Entries.mapValues .string attributes.entries) : Readable e.1 e.2 := by
  obtain ⟨p, -, rfl⟩ := List.mem_map.mp h
  exact .string _

theorem readable_of_mem_storedEntries {s : Shape} (hfree : s.fields.get? valueField = none)
    {e : String × Node} (h : e ∈ s.storedEntries) : Readable e.1 e.2 := by
  cases s with
  | leaf type value attributes =>
    simp only [storedEntries, List.mem_append, List.mem_cons, List.not_mem_nil, or_false] at h
    rcases h with h | rfl | rfl
    · exact readable_of_mem_attributes h
    · exact .string _
    · exact .string _
  | composite type attributes fields text =>
    simp only [storedEntries, List.mem_append, List.mem_singleton] at h
    rcases h with ((h | h) | h) | rfl
    · exact readable_of_mem_attributes h
    · exact readable_of_mem_fields hfree h
    · exact readable_of_mem_textEntries h
    · exact .string _

namespace Storable

variable {s : Shape} (hs : s.Storable)

include hs

theorem child?_valueField : s.toNode.child? valueField = textNode? s.runs := by
  obtain ⟨hattributes, hfields⟩ := hs.free valueField (.inr rfl)
  rw [child?_toNode, if_neg (Ne.symm typeField_ne_valueField), if_pos rfl, hattributes, hfields]
  exact Option.or_none

theorem attributes_eq (key : String) :
    (s.toNode.child? key).bind (attribute? key) = s.attributes.get? key := by
  by_cases hfree : key = typeField ∨ key = valueField
  · have hnone : attribute? key = fun _ => none := funext fun n => if_pos hfree
    rw [hnone, (hs.free key hfree).1, Option.bind_fun_none]
  · obtain ⟨htype, hvalue⟩ := not_or.mp hfree
    rw [child?_toNode, if_neg htype, if_neg hvalue, Option.none_or]
    rcases hs.apart key with hattribute | hfield
    · rw [hattribute]
      cases s.fields.get? key with
      | none => rfl
      | some field => cases field <;> simp [Field.toNode, attribute?, Node.asString?]
    · rw [hfield]
      cases s.attributes.get? key with
      | none => rfl
      | some value => simp [attribute?, Node.asString?, htype, hvalue]

theorem fields_eq (key : String) :
    (s.toNode.child? key).bind (field? key) = s.fields.get? key := by
  by_cases htype : key = typeField
  · rw [(hs.free key (.inl htype)).2, child?_toNode, if_pos htype]
    rfl
  by_cases hvalue : key = valueField
  · rw [(hs.free key (.inr hvalue)).2, hvalue, hs.child?_valueField]
    cases s.runs with
    | nil => rfl
    | cons run rest => cases rest <;> rfl
  · rw [child?_toNode, if_neg htype, if_neg hvalue, Option.none_or]
    cases s.fields.get? key with
    | none =>
      cases s.attributes.get? key <;> rfl
    | some field =>
      cases field with
      | link target => simp [field?, Field.toNode, htype]
      | links targets => simp [field?, Field.toNode, htype, hvalue]

theorem runs_eq : ((s.toNode.child? valueField).bind (runs? valueField)).getD [] = s.runs := by
  rw [hs.child?_valueField]
  match s.runs with
  | [] => rfl
  | [_] => rfl
  | first :: second :: rest =>
    exact congrArg (·.getD []) (textsOf?_map (first :: second :: rest))

theorem shows : s.Shows (Parts.noteAll (Entries.ofList s.storedEntries) .empty) := by
  have hsorted := Entries.sorted_ofList s.storedEntries
  refine ⟨Table.eq_of_get?_eq fun key => ?_, Table.eq_of_get?_eq fun key => ?_, ?_⟩
  · rw [Parts.get?_attributes_noteAll hsorted, ← hs.attributes_eq]
    rfl
  · rw [Parts.get?_fields_noteAll hsorted, ← hs.fields_eq]
    rfl
  · rw [Parts.text_noteAll hsorted, ← hs.runs_eq]
    rfl

theorem toShape_noteAll :
    (Parts.noteAll (Entries.ofList s.storedEntries) .empty).toShape s.type = .ok s := by
  have hshows := hs.shows
  have hvalue := hs.child?_valueField
  cases s with
  | leaf type value attributes =>
    have hnone : (leaf type value attributes).fields.entries = [] := rfl
    have htext := (Parts.value_noteAll_eq_some_iff (Entries.sorted_ofList _)).mpr hvalue
    rw [Parts.toShape, ← hshows.fields, if_pos hnone, htext, ← hshows.attributes]
    rfl
  | composite type attributes fields text =>
    rw [Parts.toShape, ← hshows.fields, if_neg (hs.linked rfl), ← hshows.attributes, ← hshows.runs]
    rfl

end Storable

/-- Every storable shape makes an object of its type, which is read from its bytes again, and from
which the shape itself is read, a leaf as a leaf and a composite as a composite. -/
theorem shapes_survive_storage (s : Shape) (hs : s.Storable) :
    ∃ o, Object.ofNode s.toNode = .ok o ∧ o.declaredType = some s.type ∧
      (o.data.length < lengthLimit → Object.read o.address o.data = .ok o) ∧
      ofObject o = .ok s := by
  obtain ⟨o, ho, htype⟩ := s.exists_object
  refine ⟨o, ho, htype, fun hlength => ?_, ?_⟩
  · exact Object.read_of_canonical (Encoder.canonical_of_shape ho hlength)
  · refine ofObject_eq_ok_iff.mpr ⟨_, s.type, (Object.tree_of_ofNode ho).1, htype, fun e he => ?_,
      hs.toShape_noteAll⟩
    exact readable_of_mem_storedEntries (hs.free _ (.inr rfl)).2 (Entries.mem_of_mem_ofList he)

/-- It has fields of all kinds and a text in two runs. -/
def fullShape : Shape :=
  .composite "T" (Table.empty.insert "k" "v")
    (((Table.empty.insert "a" (.link (Address.derive .node []))).insert "b"
      (.links [Address.derive .node [], Address.derive .node []])).insert "c" (.links [])) ["x", "y"]

theorem storable_fullShape : fullShape.Storable where
  free := by
    rintro name (rfl | rfl)
    · exact ⟨rfl, rfl⟩
    · exact ⟨rfl, rfl⟩
  apart name := by
    by_cases hname : name = "k"
    · exact .inr (hname ▸ rfl)
    · left
      rw [fullShape, attributes, Table.get?_insert, if_neg hname]
      rfl
  linked := nofun

theorem fullShape_survives_storage :
    ∃ o, Object.ofNode fullShape.toNode = .ok o ∧ Object.read o.address o.data = .ok o ∧
      ofObject o = .ok fullShape := by
  obtain ⟨o, ho, -, hread, hshape⟩ := shapes_survive_storage fullShape storable_fullShape
  have hlength : o.data.length < lengthLimit := by
    rw [(Object.tree_of_ofNode ho).2.2]
    decide +kernel
  exact ⟨o, ho, hread hlength, hshape⟩

end Shape

end ContentGraph
