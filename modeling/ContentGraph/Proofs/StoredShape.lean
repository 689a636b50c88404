import ContentGraph.Encoder
import ContentGraph.Proofs.NodeWire
import Mathlib.Data.List.Nodup

/-! What is found in the tree that an element is stored as: its type, its text, its attributes, and
the links to its children, under their fields and, where a field repeats, their positions. -/

namespace ContentGraph

open Xml (Attribute Element)

theorem indexOfSegment?_toString {k : Nat} (h : k < UInt64.size) :
    indexOfSegment? (toString k) = some k := by
  have hdigits : ∀ c ∈ Nat.toDigits 10 k, c.isDigit := fun c hc =>
    Nat.isDigit_of_mem_toDigits (by decide) (by decide) hc
  have htext : (toString k).toList = Nat.toDigits 10 k := Nat.toList_repr
  have hvalue : decimalValue (Nat.toDigits 10 k) = k := by
    have := @Nat.ofDigitChars_ten_toDigits k
    rwa [Nat.ofDigitChars_eq_foldl] at this
  have hall : (Nat.toDigits 10 k).all (fun c => '0' ≤ c && c ≤ '9') = true := by
    refine List.all_eq_true.mpr fun c hc => ?_
    have := hdigits c hc
    simpa [Char.isDigit, Char.le_def] using this
  unfold indexOfSegment?
  rw [htext]
  extract_lets digits
  have hsame : digits = Nat.toDigits 10 k := by
    unfold digits
    split
    · next rest heq => exact absurd (hdigits '+' (heq ▸ List.mem_cons_self)) (by decide)
    · rfl
  have hindex : digits ≠ [] ∧ digits.all (fun c => '0' ≤ c && c ≤ '9') ∧
      decimalValue digits < UInt64.size := by
    rw [hsame, hvalue]
    exact ⟨Nat.toDigits_ne_nil, hall, h⟩
  rw [if_pos hindex, hsame, hvalue]

/-- The position of an item among those that pass the test. -/
theorem getElem?_filter_take {α : Type} {p : α → Bool} {xs : List α} {i : Nat} {x : α}
    (h : xs[i]? = some x) (hx : p x = true) :
    (xs.filter p)[((xs.take i).filter p).length]? = some x := by
  induction xs generalizing i with
  | nil => cases h
  | cons y ys ih =>
    cases i with
    | zero =>
      cases h
      rw [List.take_zero, List.filter_cons_of_pos hx]
      rfl
    | succ i =>
      rw [List.getElem?_cons_succ] at h
      rw [List.take_succ_cons]
      by_cases hy : p y = true
      · rw [List.filter_cons_of_pos hy, List.filter_cons_of_pos hy, List.length_cons,
          List.getElem?_cons_succ]
        exact ih h
      · rw [List.filter_cons_of_neg hy, List.filter_cons_of_neg hy]
        exact ih h

namespace Node

theorem ordered_of_isTerminal {n : Node} (h : n.isTerminal = true) : n.Ordered := by
  cases n <;> trivial

theorem nesting_of_isTerminal {n : Node} (h : n.isTerminal = true) : n.nesting = 0 := by
  cases n <;> first | rfl | cases h

/-- A tree without children, or a list of such trees. -/
def Flat (n : Node) : Prop :=
  n.isTerminal = true ∨ ∃ items, n = .list items ∧ ∀ item ∈ items, item.isTerminal = true

theorem Flat.ordered {n : Node} (h : n.Flat) : n.Ordered := by
  rcases h with h | ⟨items, rfl, hitems⟩
  · exact ordered_of_isTerminal h
  · exact orderedItems_iff.mpr fun item hitem => ordered_of_isTerminal (hitems item hitem)

theorem Flat.nesting_le {n : Node} (h : n.Flat) : n.nesting ≤ 1 := by
  rcases h with h | ⟨items, rfl, hitems⟩
  · rw [nesting_of_isTerminal h]
    exact Nat.zero_le 1
  · rw [nesting, nestingOfItems_le_iff]
    intro item hitem
    rw [nesting_of_isTerminal (hitems item hitem)]
    exact Nat.one_pos

theorem ordered_of_flat_entries {pairs : List (String × Node)} (h : ∀ e ∈ pairs, e.2.Flat) :
    (Node.map (Entries.ofList pairs)).Ordered :=
  ⟨Entries.sorted_ofList pairs,
    orderedEntries_iff.mpr fun e he => (h e (Entries.mem_of_mem_ofList he)).ordered⟩

theorem nesting_le_of_flat_entries {pairs : List (String × Node)} (h : ∀ e ∈ pairs, e.2.Flat) :
    (Node.map (Entries.ofList pairs)).nesting ≤ 2 :=
  nestingOfEntries_le_iff.mpr fun e he =>
    Nat.lt_succ_of_le (h e (Entries.mem_of_mem_ofList he)).nesting_le

end Node

namespace Shape

/-- The text of a composite as it is found. -/
def textNode? : List String → Option Node
  | [] => none
  | [run] => some (.string run)
  | runs => some (.list (runs.map .string))

theorem get?_textEntries (text : List String) (key : String) :
    Entries.get? (Entries.ofList (textEntries text)) key =
      if key = valueField then textNode? text else none := by
  rw [Entries.get?_ofList]
  unfold textEntries
  split <;> simp [textNode?, Entries.get?_cons]

theorem child?_leaf (type value : String) (attributes : Table String) (key : String) :
    (leaf type value attributes).toNode.child? key =
      if key = typeField then some (.string type)
      else if key = valueField then some (.string value)
      else (attributes.get? key).map .string := by
  have hattributes := Entries.ofList_of_sorted (attributes.sorted.mapValues Node.string)
  show Entries.get? (Entries.ofList _) key = _
  rw [storedEntries, Entries.get?_ofList_append, hattributes, Entries.get?_mapValues,
    Entries.get?_ofList]
  simp only [List.reverse_cons, List.reverse_nil, List.nil_append, List.cons_append,
    Entries.get?_cons, Entries.get?_nil]
  by_cases htype : key = typeField
  · rw [if_pos htype, if_pos htype, Option.some_or]
  · rw [if_neg htype, if_neg htype]
    by_cases hvalue : key = valueField
    · rw [if_pos hvalue, if_pos hvalue, Option.some_or]
    · rw [if_neg hvalue, if_neg hvalue, Option.none_or]
      rfl

theorem child?_composite (type : String) (attributes : Table String) (fields : Table Field)
    (text : List String) (key : String) :
    (composite type attributes fields text).toNode.child? key =
      if key = typeField then some (.string type)
      else (if key = valueField then textNode? text else none).or
        (((fields.get? key).map Field.toNode).or ((attributes.get? key).map .string)) := by
  have hattributes := Entries.ofList_of_sorted (attributes.sorted.mapValues Node.string)
  have hfields := Entries.ofList_of_sorted (fields.sorted.mapValues Field.toNode)
  show Entries.get? (Entries.ofList _) key = _
  rw [storedEntries, Entries.get?_ofList_append, Entries.get?_ofList_append,
    Entries.get?_ofList_append, hattributes, hfields, Entries.get?_mapValues,
    Entries.get?_mapValues, get?_textEntries, Entries.get?_ofList]
  simp only [List.reverse_singleton, Entries.get?_cons, Entries.get?_nil]
  by_cases htype : key = typeField
  · rw [if_pos htype, if_pos htype, Option.some_or]
  · rw [if_neg htype, if_neg htype, Option.none_or]
    rfl

theorem flat_list {α : Type} {f : α → Node} (hf : ∀ x, (f x).isTerminal = true) (xs : List α) :
    (Node.list (xs.map f)).Flat := by
  refine .inr ⟨_, rfl, fun item hitem => ?_⟩
  obtain ⟨x, -, rfl⟩ := List.mem_map.mp hitem
  exact hf x

theorem flat_of_mem_attributes {attributes : Table String} {e : String × Node}
    (h : e ∈ Entries.mapValues .string attributes.entries) : e.2.Flat := by
  obtain ⟨p, -, rfl⟩ := List.mem_map.mp h
  exact .inl rfl

theorem flat_of_mem_fields {fields : Table Field} {e : String × Node}
    (h : e ∈ Entries.mapValues Field.toNode fields.entries) : e.2.Flat := by
  obtain ⟨⟨field, value⟩, -, rfl⟩ := List.mem_map.mp h
  cases value with
  | link target => exact .inl rfl
  | links targets => exact flat_list (fun _ => rfl) targets

theorem flat_of_mem_textEntries {text : List String} {e : String × Node}
    (h : e ∈ textEntries text) : e.2.Flat := by
  unfold textEntries at h
  split at h
  · cases h
  · rw [List.mem_singleton.mp h]
    exact .inl rfl
  · rw [List.mem_singleton.mp h]
    exact flat_list (fun _ => rfl) _

theorem flat_of_mem_storedEntries {s : Shape} {e : String × Node} (h : e ∈ s.storedEntries) :
    e.2.Flat := by
  cases s with
  | leaf type value attributes =>
    simp only [storedEntries, List.mem_append, List.mem_cons, List.not_mem_nil, or_false] at h
    rcases h with h | rfl | rfl
    · exact flat_of_mem_attributes h
    · exact .inl rfl
    · exact .inl rfl
  | composite type attributes fields text =>
    simp only [storedEntries, List.mem_append, List.mem_singleton] at h
    rcases h with ((h | h) | h) | rfl
    · exact flat_of_mem_attributes h
    · exact flat_of_mem_fields h
    · exact flat_of_mem_textEntries h
    · exact .inl rfl

theorem ordered_toNode (s : Shape) : s.toNode.Ordered :=
  Node.ordered_of_flat_entries fun _ => flat_of_mem_storedEntries

theorem nesting_toNode_le (s : Shape) : s.toNode.nesting ≤ 2 :=
  Node.nesting_le_of_flat_entries fun _ => flat_of_mem_storedEntries

end Shape

namespace Xml.Element

/-- The last of the attributes that share a field. -/
def lastAttribute? (e : Element) (field : String) : Option Attribute :=
  e.attributes.reverse.find? fun a => a.fieldName = field

theorem exists_lastAttribute? {e : Element} {a : Attribute} (ha : a ∈ e.attributes) :
    ∃ b ∈ e.attributes, e.lastAttribute? a.fieldName = some b ∧ b.fieldName = a.fieldName := by
  have hlast : (e.lastAttribute? a.fieldName).isSome := by
    rw [lastAttribute?, List.find?_isSome]
    exact ⟨a, List.mem_reverse.mpr ha, decide_eq_true rfl⟩
  obtain ⟨b, hb⟩ := Option.isSome_iff_exists.mp hlast
  exact ⟨b, List.mem_reverse.mp (List.mem_of_find?_eq_some hb), hb, by simpa using List.find?_some hb⟩

end Xml.Element

namespace Encoder

/-- The addresses of the children with a field, in the order of the children. -/
def targetsOf (e : Element) (addresses : List Address) (field : String) : List Address :=
  ((e.children.zip addresses).filter fun p => e.childFieldName p.1 = field).map (·.2)

theorem get?_groupByField (e : Element) (addresses : List Address) (field : String) :
    (groupByField e addresses).get? field =
      if targetsOf e addresses field = [] then none else some (targetsOf e addresses field) := by
  have general (pairs : List (Element × Address)) (groups : Table (List Address)) :
      (pairs.foldl (fun groups p => groups.insert (e.childFieldName p.1)
        ((groups.get? (e.childFieldName p.1)).getD [] ++ [p.2])) groups).get? field =
      if (pairs.filter fun p => e.childFieldName p.1 = field).map (·.2) = [] then groups.get? field
      else some ((groups.get? field).getD [] ++
        (pairs.filter fun p => e.childFieldName p.1 = field).map (·.2)) := by
    induction pairs generalizing groups with
    | nil => rfl
    | cons p rest ih =>
      rw [List.foldl_cons, ih, Table.get?_insert]
      by_cases hfield : e.childFieldName p.1 = field
      · rw [List.filter_cons_of_pos (by simpa using hfield), if_pos hfield.symm, hfield,
          List.map_cons, if_neg (List.cons_ne_nil _ _), Option.getD_some, List.append_assoc,
          List.singleton_append]
        split
        · next hrest => rw [hrest]
        · rfl
      · rw [List.filter_cons_of_neg (by simpa using hfield), if_neg (Ne.symm hfield)]
  exact general (e.children.zip addresses) .empty

theorem exists_child_of_targetsOf {e : Element} {addresses : List Address} {field : String}
    (h : targetsOf e addresses field ≠ []) : ∃ child ∈ e.children, e.childFieldName child = field := by
  obtain ⟨a, ha⟩ := List.exists_mem_of_ne_nil _ h
  obtain ⟨p, hp, -⟩ := List.mem_map.mp ha
  obtain ⟨hzip, hfield⟩ := List.mem_filter.mp hp
  exact ⟨p.1, (List.of_mem_zip hzip).1, of_decide_eq_true hfield⟩

theorem get?_fields_eq_none {e : Element} {addresses : List Address} {field : String}
    (h : ∀ child ∈ e.children, e.childFieldName child ≠ field) :
    ((groupByField e addresses).mapValues fieldOf).get? field = none := by
  have htargets : targetsOf e addresses field = [] := by
    by_cases hempty : targetsOf e addresses field = []
    · exact hempty
    · obtain ⟨child, hchild, hfield⟩ := exists_child_of_targetsOf hempty
      exact absurd hfield (h child hchild)
  have hgroup := get?_groupByField e addresses field
  rw [if_pos htargets] at hgroup
  show Entries.get? (Entries.mapValues _ _) field = none
  rw [Entries.get?_mapValues, show Entries.get? _ field = none from hgroup, Option.map_none]

theorem get?_fields {e : Element} {addresses : List Address} {field : String}
    (h : targetsOf e addresses field ≠ []) :
    ((groupByField e addresses).mapValues fieldOf).get? field =
      some (fieldOf (targetsOf e addresses field)) := by
  have hgroup := get?_groupByField e addresses field
  rw [if_neg h] at hgroup
  show Entries.get? (Entries.mapValues _ _) field = _
  rw [Entries.get?_mapValues, show Entries.get? _ field = some _ from hgroup, Option.map_some]

theorem get?_attributesOf_eq_last (e : Element) (field : String) :
    (attributesOf e).get? field = (e.lastAttribute? field).map Attribute.value :=
  Entries.get?_ofList_map Attribute.fieldName Attribute.value e.attributes field

theorem get?_attributesOf {e : Element} (h : (e.attributes.map Attribute.fieldName).Nodup)
    {a : Attribute} (ha : a ∈ e.attributes) :
    (attributesOf e).get? a.fieldName = some a.value := by
  obtain ⟨b, hb, hlast, hfield⟩ := Element.exists_lastAttribute? ha
  rw [get?_attributesOf_eq_last, hlast, List.inj_on_of_nodup_map h hb ha hfield]
  rfl

theorem get?_attributesOf_eq_none {e : Element} {field : String}
    (h : ∀ a ∈ e.attributes, a.fieldName ≠ field) : (attributesOf e).get? field = none :=
  Entries.get?_ofList_eq_none_iff.mpr (List.forall_mem_map.mpr h)

theorem shapeOf_eq_ok {c : Encoder} {e : Element} {type : String} {addresses : List Address}
    {shape : Shape} (h : c.shapeOf e type addresses = .ok shape) :
    (e.isLeaf = true ∧ shape = .leaf type (c.storedText e.text) (attributesOf e)) ∨
      e.isLeaf = false ∧ conflict? e = none ∧
        shape = .composite type (attributesOf e) ((groupByField e addresses).mapValues fieldOf)
          (c.storedRuns e.textRuns) := by
  unfold shapeOf at h
  split at h
  · next hleaf =>
    cases h
    exact .inl ⟨hleaf, rfl⟩
  · next hleaf =>
    split at h
    · cases h
    · next hconflict =>
      cases h
      exact .inr ⟨by simpa using hleaf, hconflict, rfl⟩

/-- The text of an element as it is found, if any is stored: all the text of a leaf, or the runs
between children that are not blank. The blanks around it are left out if the encoder trims text. -/
def storedValue? (c : Encoder) (e : Element) : Option Node :=
  let stored (s : String) : String := if c.config.trimText then trimmed s else s
  if e.isLeaf then some (.string (stored e.text))
  else Shape.textNode? ((e.textRuns.filter fun run => !isBlankText run).map stored)

section Found

variable {c : Encoder} {e : Element} {type : String} {addresses : List Address} {shape : Shape}

theorem storedValue?_of_leaf (h : e.isLeaf = true) :
    c.storedValue? e = some (.string (c.storedText e.text)) :=
  if_pos h

theorem storedValue?_of_composite (h : e.isLeaf = false) :
    c.storedValue? e = Shape.textNode? (c.storedRuns e.textRuns) := by
  rw [storedValue?, h]
  rfl

/-- What an element writes over the links and attributes under a field: its type and its text. -/
def ownNode? (c : Encoder) (e : Element) (type field : String) : Option Node :=
  if field = typeField then some (.string type)
  else if field = valueField then c.storedValue? e
  else none

/-- Neither the type nor a text of the element is stored under the field. -/
def FieldFree (c : Encoder) (e : Element) (field : String) : Prop :=
  field ≠ typeField ∧ (field = valueField → c.storedValue? e = none)

theorem ownNode?_eq_none_iff (type : String) {field : String} :
    c.ownNode? e type field = none ↔ c.FieldFree e field := by
  unfold ownNode? FieldFree
  by_cases htype : field = typeField
  · simp [htype]
  · simp [htype]

/-- What the element writes itself stands over links, and links stand over attributes. -/
theorem child?_field (h : c.shapeOf e type addresses = .ok shape) (field : String) :
    shape.toNode.child? field =
      (c.ownNode? e type field).or
        (((((groupByField e addresses).mapValues fieldOf).get? field).map Field.toNode).or
          (((attributesOf e).get? field).map .string)) := by
  unfold ownNode?
  rcases shapeOf_eq_ok h with ⟨hleaf, rfl⟩ | ⟨hleaf, -, rfl⟩
  · have hchildless : ∀ child ∈ e.children, e.childFieldName child ≠ field := by
      rw [List.isEmpty_iff.mp hleaf]
      exact nofun
    rw [Shape.child?_leaf, get?_fields_eq_none hchildless, storedValue?_of_leaf hleaf]
    by_cases htype : field = typeField
    · rw [if_pos htype, if_pos htype, Option.some_or]
    · rw [if_neg htype, if_neg htype]
      by_cases hvalue : field = valueField
      · rw [if_pos hvalue, if_pos hvalue, Option.some_or]
      · rw [if_neg hvalue, if_neg hvalue]
        rfl
  · rw [Shape.child?_composite, storedValue?_of_composite hleaf]
    by_cases htype : field = typeField
    · rw [if_pos htype, if_pos htype, Option.some_or]
    · rw [if_neg htype, if_neg htype]

theorem child?_type (h : c.shapeOf e type addresses = .ok shape) :
    shape.toNode.child? typeField = some (.string type) := by
  rw [child?_field h, ownNode?, if_pos rfl, Option.some_or]

theorem child?_value (h : c.shapeOf e type addresses = .ok shape)
    (hattributes : ∀ a ∈ e.attributes, a.fieldName ≠ valueField)
    (hchildren : ∀ child ∈ e.children, e.childFieldName child ≠ valueField) :
    shape.toNode.child? valueField = c.storedValue? e := by
  rw [child?_field h, ownNode?, if_neg (by decide), if_pos rfl, get?_fields_eq_none hchildren,
    get?_attributesOf_eq_none hattributes]
  exact Option.or_none

theorem child?_of_free (h : c.shapeOf e type addresses = .ok shape) {field : String}
    (hfree : c.FieldFree e field) :
    shape.toNode.child? field =
      ((((groupByField e addresses).mapValues fieldOf).get? field).map Field.toNode).or
        (((attributesOf e).get? field).map .string) := by
  rw [child?_field h, (ownNode?_eq_none_iff type).mpr hfree, Option.none_or]

/-- A child whose field is an attribute as well is a conflict. -/
theorem childFieldName_ne_of_attribute (h : c.shapeOf e type addresses = .ok shape) {field : String}
    (hfield : (attributesOf e).get? field ≠ none) :
    ∀ child ∈ e.children, e.childFieldName child ≠ field := by
  intro child hchild hsame
  rcases shapeOf_eq_ok h with ⟨hleaf, -⟩ | ⟨-, hconflict, -⟩
  · rw [List.isEmpty_iff.mp hleaf] at hchild
    cases hchild
  · have hfree := List.find?_eq_none.mp hconflict child hchild
    rw [hsame, Table.contains, Option.isSome_iff_ne_none] at hfree
    exact hfree hfield

theorem child?_of_attribute (h : c.shapeOf e type addresses = .ok shape) {field value : String}
    (hvalue : (attributesOf e).get? field = some value) :
    shape.toNode.child? field = (c.ownNode? e type field).or (some (.string value)) := by
  have hchildren := childFieldName_ne_of_attribute h (by rw [hvalue]; exact nofun)
  rw [child?_field h, get?_fields_eq_none hchildren, hvalue]
  rfl

end Found

end Encoder

end ContentGraph
