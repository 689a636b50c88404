import ContentGraph.Proofs.PutSequences
import ContentGraph.Proofs.ShapeParts

/-! What is read as a shape. Reading takes more than what is written: a list of fewer than two texts
under `@value` is read as well, and so is an empty list of links, which makes a composite of an object
that links to nothing. Of these the list of texts is not written again as it was. -/

namespace ContentGraph

namespace Node

/-- The text of an element as it is written again: several runs as a list, a single run by itself,
and none not at all. -/
def settled? : Node → Option Node
  | .list [] => none
  | .list [run] => some run
  | n => some n

/-- No list of fewer than two texts stands in the place of the text. -/
def TextSettled (n : Node) : Prop :=
  ∀ items, n.child? valueField = some (.list items) → 1 < items.length

theorem settled?_eq_some_self_iff {n : Node} :
    n.settled? = some n ↔ ∀ items, n = .list items → 1 < items.length := by
  unfold settled?
  split
  · simp
  · next run =>
    have hne : run ≠ .list [run] := fun h => by
      have hsize := congrArg sizeOf h
      simp only [Node.list.sizeOf_spec, List.cons.sizeOf_spec] at hsize
      omega
    simp [hne]
  · next hnil hsingle =>
    refine iff_of_true rfl fun items hitems => ?_
    match items with
    | [] => exact absurd hitems hnil
    | [run] => exact absurd hitems (hsingle run)
    | _ :: _ :: _ => simp

theorem textSettled_iff {n : Node} :
    n.TextSettled ↔ (n.child? valueField).bind settled? = n.child? valueField := by
  unfold TextSettled
  cases n.child? valueField with
  | none => simp
  | some found =>
    rw [Option.bind_some, settled?_eq_some_self_iff]
    simp only [Option.some.injEq]

theorem exists_map_of_declaredType {n : Node} {type : String}
    (h : n.declaredType = .ok (some type)) : ∃ entries, n = .map entries := by
  rw [declaredType_eq_ok_iff] at h
  cases n with
  | map entries => exact ⟨entries, rfl⟩
  | list items =>
    have hindex : indexOfSegment? typeField = none := by decide
    rw [child?, hindex] at h
    cases h
  | _ => cases h

end Node

namespace Shape

def isComposite : Shape → Bool
  | .leaf .. => false
  | .composite .. => true

def fields : Shape → Table Field
  | .leaf .. => .empty
  | .composite _ _ fields _ => fields

def runs : Shape → List String
  | .leaf _ value _ => [value]
  | .composite _ _ _ text => text

/-- What is written under a field: the type and the text before the links, and these before the
attributes. -/
theorem child?_toNode (s : Shape) (key : String) : s.toNode.child? key =
    if key = typeField then some (.string s.type)
    else (if key = valueField then textNode? s.runs else none).or
      (((s.fields.get? key).map Field.toNode).or ((s.attributes.get? key).map .string)) := by
  cases s with
  | composite => exact child?_composite _ _ _ _ key
  | leaf type value attributes =>
    rw [child?_leaf]
    by_cases hvalue : key = valueField
    · rw [if_pos hvalue, if_pos hvalue]
      rfl
    · rw [if_neg hvalue, if_neg hvalue]
      rfl

/-- A link, or away from the text a list of links, which may be empty. -/
def LinkField (name : String) (n : Node) : Prop :=
  (∃ target, n = .link target) ∨ name ≠ valueField ∧ ∃ targets : List Address,
    n = .list (targets.map .link)

theorem field?_ne_none_iff {name : String} {n : Node} :
    field? name n ≠ none ↔ name ≠ typeField ∧ LinkField name n := by
  cases n with
  | link target => simp [field?, LinkField]
  | list items => simp [field?, LinkField, Option.ne_none_iff_exists', linksOf?_eq_some_iff]
  | _ => simp [field?, LinkField]

theorem textNode?_eq_settled? (runs : List String) :
    textNode? runs = (Node.list (runs.map .string)).settled? := by
  match runs with
  | [] => rfl
  | [_] => rfl
  | _ :: _ :: _ => rfl

/-- What an entry is read as is written again as it was, except for the text of an element. -/
theorem written_of_readable {name : String} {n : Node} (h : Readable name n)
    (htype : name ≠ typeField) :
    (if name = valueField then textNode? ((runs? valueField n).getD []) else none).or
        (((field? name n).map Field.toNode).or ((attribute? name n).map .string)) =
      if name = valueField then n.settled? else some n := by
  cases h with
  | type h => exact absurd h htype
  | string s =>
    by_cases hvalue : name = valueField <;>
      simp [hvalue, htype, runs?, field?, attribute?, textNode?, Node.settled?, Node.asString?]
  | link target =>
    simp [htype, runs?, field?, attribute?, textNode?, Node.settled?, Field.toNode]
  | links targets hvalue =>
    simp [hvalue, htype, field?, Field.toNode]
  | runs runs hvalue =>
    simp [hvalue, runs?, field?, attribute?, textNode?_eq_settled?]

theorem toShape_eq_ok {type : String} {parts : Parts} {shape : Shape}
    (h : parts.toShape type = .ok shape) :
    (parts.fields.entries = [] ∧ ∃ value, parts.value = some value ∧
      shape = .leaf type value parts.attributes) ∨
    parts.fields.entries ≠ [] ∧
      shape = .composite type parts.attributes parts.fields parts.text := by
  unfold Parts.toShape at h
  split at h
  · next hfields =>
    split at h
    · next value hvalue =>
      cases h
      exact .inl ⟨hfields, value, hvalue, rfl⟩
    · cases h
  · next hfields =>
    cases h
    exact .inr ⟨hfields, rfl⟩

theorem exists_toShape_iff {type : String} {parts : Parts} :
    (∃ shape, parts.toShape type = .ok shape) ↔
      parts.fields.entries ≠ [] ∨ ∃ value, parts.value = some value := by
  unfold Parts.toShape
  by_cases hfields : parts.fields.entries = []
  · cases hvalue : parts.value <;> simp [hfields]
  · simp [hfields]

theorem ofObject_eq_ok_iff {o : Object} {shape : Shape} :
    ofObject o = .ok shape ↔ ∃ entries type, o.tree = .map entries ∧ o.declaredType = some type ∧
      (∀ e ∈ entries, Readable e.1 e.2) ∧ (Parts.noteAll entries .empty).toShape type = .ok shape := by
  have hread : ofObject o = .ok shape ↔ read o.tree o.declaredType = .ok shape := by
    unfold ofObject
    split <;> simp [*]
  rw [hread]
  constructor
  · intro h
    unfold read at h
    split at h
    · next entries type htree htype =>
      obtain ⟨parts, hparts, hshape⟩ := bind_eq_ok_iff.mp h
      obtain ⟨hreadable, rfl⟩ := Parts.ofEntries_eq_ok_iff.mp hparts
      exact ⟨entries, type, htree, htype, hreadable, hshape⟩
    · cases h
    · cases h
  · rintro ⟨entries, type, htree, htype, hreadable, hshape⟩
    rw [htree, htype]
    exact bind_eq_ok_iff.mpr ⟨_, Parts.ofEntries_eq_ok_iff.mpr ⟨hreadable, rfl⟩, hshape⟩

/-- A shape with the parts that have been read, its text given by the runs of it. -/
structure Shows (parts : Parts) (s : Shape) : Prop where
  attributes : s.attributes = parts.attributes
  fields : s.fields = parts.fields
  runs : s.runs = parts.text

section Read

variable {entries : List (String × Node)} {type : String} {shape : Shape}

theorem shows_of_toShape (hsorted : Entries.Sorted entries)
    (h : (Parts.noteAll entries .empty).toShape type = .ok shape) :
    shape.type = type ∧ shape.Shows (Parts.noteAll entries .empty) ∧
      (shape.isComposite = true ↔ (Parts.noteAll entries .empty).fields.entries ≠ []) := by
  rcases toShape_eq_ok h with ⟨hfields, value, hvalue, rfl⟩ | ⟨hfields, rfl⟩
  · have hempty : Table.empty = (Parts.noteAll entries .empty).fields :=
      Table.eq_of_get?_eq fun key => (Table.entries_eq_nil_iff.mp hfields key).symm
    have htext : (Parts.noteAll entries .empty).text = [value] := by
      rw [Parts.text_noteAll hsorted, (Parts.value_noteAll_eq_some_iff hsorted).mp hvalue]
      rfl
    exact ⟨rfl, ⟨rfl, hempty, htext.symm⟩, iff_of_false nofun (not_not_intro hfields)⟩
  · exact ⟨rfl, ⟨rfl, rfl, rfl⟩, iff_of_true rfl hfields⟩

theorem fields_noteAll_ne_nil_iff (hsorted : Entries.Sorted entries)
    (htype : Entries.get? entries typeField = some (.string type)) :
    (Parts.noteAll entries .empty).fields.entries ≠ [] ↔
      ∃ name n, Entries.get? entries name = some n ∧ LinkField name n := by
  rw [ne_eq, Table.entries_eq_nil_iff, not_forall]
  simp only [Parts.get?_fields_noteAll hsorted]
  refine exists_congr fun name => ?_
  cases hn : Entries.get? entries name with
  | none => simp
  | some n =>
    rw [Option.bind_some, ← ne_eq, field?_ne_none_iff]
    constructor
    · rintro ⟨-, hlinks⟩
      exact ⟨n, rfl, hlinks⟩
    · rintro ⟨m, hm, hlinks⟩
      obtain rfl := Option.some.inj hm
      refine ⟨fun hname => ?_, hlinks⟩
      rw [hname, htype] at hn
      obtain rfl := Option.some.inj hn
      simp [LinkField] at hlinks

/-- What a shape writes of the entries that it has been read from. -/
theorem child?_of_shows (hsorted : Entries.Sorted entries)
    (hreadable : ∀ e ∈ entries, Readable e.1 e.2)
    (hshows : shape.Shows (Parts.noteAll entries .empty)) {key : String} (htype : key ≠ typeField) :
    shape.toNode.child? key = if key = valueField then (Entries.get? entries key).bind Node.settled?
      else Entries.get? entries key := by
  rw [child?_toNode, if_neg htype, hshows.attributes, hshows.fields, hshows.runs,
    Parts.get?_attributes_noteAll hsorted, Parts.get?_fields_noteAll hsorted,
    Parts.text_noteAll hsorted]
  have hwritten {n : Node} (hn : Entries.get? entries key = some n) :=
    written_of_readable (hreadable _ (Entries.mem_of_get? hn)) htype
  by_cases hvalue : key = valueField
  · subst hvalue
    cases hn : Entries.get? entries valueField with
    | none => rfl
    | some n => exact hwritten hn
  · cases hn : Entries.get? entries key with
    | none => simp [hvalue]
    | some n => simpa [hvalue] using hwritten hn

end Read

/-- Some field holds a link, or is a list of links. -/
def HoldsLinks (n : Node) : Prop :=
  ∃ name found, n.child? name = some found ∧ LinkField name found

/-- What is read as a shape: an object with a type, with nothing in it that cannot be read, and with
links or a text. -/
structure Legible (o : Object) : Prop where
  typed : ∃ type, o.declaredType = some type
  readable : ∀ name n, o.tree.child? name = some n → Readable name n
  shown : HoldsLinks o.tree ∨ ∃ text, o.tree.child? valueField = some (.string text)

section Object

variable {o : Object}

theorem child?_typeField {type : String} (h : o.declaredType = some type) :
    o.tree.child? typeField = some (.string type) := by
  have hdeclared := o.declared
  rwa [h, Node.declaredType_eq_ok_iff] at hdeclared

theorem child?_of_ofObject (hordered : o.tree.Ordered) {shape : Shape} (h : ofObject o = .ok shape)
    (key : String) : shape.toNode.child? key =
      if key = valueField then (o.tree.child? key).bind Node.settled? else o.tree.child? key := by
  obtain ⟨entries, type, htree, hdeclared, hreadable, hshape⟩ := ofObject_eq_ok_iff.mp h
  have htype := child?_typeField hdeclared
  rw [htree] at hordered htype ⊢
  obtain ⟨hsame, hshows, -⟩ := shows_of_toShape hordered.1 hshape
  by_cases hkey : key = typeField
  · rw [hkey, child?_toNode, if_pos rfl, if_neg typeField_ne_valueField, htype, hsame]
  · exact child?_of_shows hordered.1 hreadable hshows hkey

theorem toNode_eq_tree_iff (hordered : o.tree.Ordered) {shape : Shape}
    (h : ofObject o = .ok shape) : shape.toNode = o.tree ↔ o.tree.TextSettled := by
  have hchild := child?_of_ofObject hordered h
  rw [Node.textSettled_iff]
  constructor
  · intro hsame
    have htext := hchild valueField
    rw [if_pos rfl, hsame] at htext
    exact htext.symm
  · intro hsettled
    obtain ⟨entries, _, htree, -⟩ := ofObject_eq_ok_iff.mp h
    rw [htree] at hordered hchild hsettled ⊢
    refine congrArg Node.map (Entries.eq_of_get?_eq (Entries.sorted_ofList _) hordered.1 fun key => ?_)
    refine (hchild key).trans ?_
    split
    · next hvalue =>
      rw [hvalue]
      exact hsettled
    · rfl

theorem isComposite_iff (hordered : o.tree.Ordered) {shape : Shape} (h : ofObject o = .ok shape) :
    shape.isComposite = true ↔ HoldsLinks o.tree := by
  obtain ⟨entries, type, htree, hdeclared, -, hshape⟩ := ofObject_eq_ok_iff.mp h
  have htype := child?_typeField hdeclared
  rw [htree] at hordered htype ⊢
  obtain ⟨-, -, hcomposite⟩ := shows_of_toShape hordered.1 hshape
  exact hcomposite.trans (fields_noteAll_ne_nil_iff hordered.1 htype)

theorem exists_ofObject_iff (hordered : o.tree.Ordered) :
    (∃ shape, ofObject o = .ok shape) ↔ Legible o := by
  constructor
  · rintro ⟨shape, h⟩
    obtain ⟨entries, type, htree, hdeclared, hreadable, hshape⟩ := ofObject_eq_ok_iff.mp h
    have htype := child?_typeField hdeclared
    refine ⟨⟨type, hdeclared⟩, fun name n hn => ?_, ?_⟩
    · rw [htree] at hn
      exact hreadable (name, n) (Entries.mem_of_get? hn)
    · rw [htree] at hordered htype ⊢
      rcases exists_toShape_iff.mp ⟨shape, hshape⟩ with hfields | ⟨text, htext⟩
      · exact .inl ((fields_noteAll_ne_nil_iff hordered.1 htype).mp hfields)
      · exact .inr ⟨text, (Parts.value_noteAll_eq_some_iff hordered.1).mp htext⟩
  · rintro ⟨⟨type, hdeclared⟩, hreadable, hshown⟩
    obtain ⟨entries, htree⟩ := Node.exists_map_of_declaredType (hdeclared ▸ o.declared)
    have htype := child?_typeField hdeclared
    rw [htree] at hordered htype hreadable hshown
    have hparts : (Parts.noteAll entries .empty).fields.entries ≠ [] ∨
        ∃ text, (Parts.noteAll entries .empty).value = some text :=
      hshown.imp (fields_noteAll_ne_nil_iff hordered.1 htype).mpr fun ⟨text, htext⟩ =>
        ⟨text, (Parts.value_noteAll_eq_some_iff hordered.1).mpr htext⟩
    obtain ⟨shape, hshape⟩ := exists_toShape_iff.mpr hparts
    exact ⟨shape, ofObject_eq_ok_iff.mpr ⟨entries, type, htree, hdeclared,
      fun e he => hreadable e.1 e.2 (Entries.get?_of_mem hordered.1 he), hshape⟩⟩

theorem ofObject_eq_error {cause : EncodeError} (h : ofObject o = .error cause) :
    ∃ fault, cause = .unexpectedShape o.address fault := by
  unfold ofObject at h
  split at h
  · cases h
  · cases h
    exact ⟨_, rfl⟩

/-- Reading takes exactly the legible objects. A shape that has been read is written again as the
tree that it has been read from, up to a text that is a list of fewer than two runs, and is a
composite exactly if some field holds a link or is a list of links, be it an empty one. -/
theorem reading_settles_text (o : Object) (hordered : o.tree.Ordered) :
    (∀ shape, ofObject o = .ok shape →
      (∀ key, shape.toNode.child? key =
        if key = valueField then (o.tree.child? key).bind Node.settled? else o.tree.child? key) ∧
      (shape.toNode = o.tree ↔ o.tree.TextSettled) ∧
      (o.tree.TextSettled → Object.ofNode shape.toNode = .ok o) ∧
      (shape.isComposite = true ↔ HoldsLinks o.tree)) ∧
    ((∃ shape, ofObject o = .ok shape) ↔ Legible o) ∧
    ∀ cause, ofObject o = .error cause → ∃ fault, cause = .unexpectedShape o.address fault := by
  refine ⟨fun shape h => ?_, exists_ofObject_iff hordered, fun _ => ofObject_eq_error⟩
  have hsame := toNode_eq_tree_iff hordered h
  refine ⟨child?_of_ofObject hordered h, hsame, fun hsettled => ?_, isComposite_iff hordered h⟩
  rw [hsame.mpr hsettled]
  exact o.ofNode_tree

end Object

open Encoder (smallObject smallShape)

theorem reading_settles_text_of_smallObject :
    ofObject smallObject = .ok smallShape ∧ smallObject.tree.TextSettled ∧
      Object.ofNode smallShape.toNode = .ok smallObject := by
  have hread : ofObject smallObject = .ok smallShape := rfl
  have hsettled : smallObject.tree.TextSettled := fun _ hitems => nomatch hitems
  obtain ⟨hshape, -⟩ := reading_settles_text smallObject smallShape.ordered_toNode
  exact ⟨hread, hsettled, (hshape _ hread).2.2.1 hsettled⟩

/-- Its text is a list of a single run, and its only field of links is empty. -/
def looseTree : Node :=
  .map [("@type", .string "T"), ("@value", .list [.string "x"]), ("a", .list [])]

def looseObject : Object :=
  ⟨Block.ofData .node looseTree.encode, looseTree, some "T", rfl, rfl, rfl⟩

theorem looseObject_holds_no_link {name : String} {n : Node}
    (h : looseObject.tree.child? name = some n) :
    (∀ target, n ≠ .link target) ∧ ∀ first rest, n ≠ .list (.link first :: rest) := by
  have hentry : (name, n) ∈ [("@type", Node.string "T"), ("@value", .list [.string "x"]),
      ("a", .list [])] := Entries.mem_of_get? h
  simp only [List.mem_cons, Prod.mk.injEq, List.not_mem_nil, or_false] at hentry
  rcases hentry with ⟨-, rfl⟩ | ⟨-, rfl⟩ | ⟨-, rfl⟩
  · exact ⟨nofun, nofun⟩
  · exact ⟨nofun, nofun⟩
  · exact ⟨nofun, nofun⟩

/-- It is read as a composite, and not written again as it was. -/
theorem looseObject_is_read : Object.ofNode looseTree = .ok looseObject ∧
    ∃ shape, ofObject looseObject = .ok shape ∧ shape.isComposite = true ∧
      shape.toNode ≠ looseObject.tree ∧
      ∀ name n, looseObject.tree.child? name = some n →
        (∀ target, n ≠ .link target) ∧ ∀ first rest, n ≠ .list (.link first :: rest) := by
  have hread : ofObject looseObject =
      .ok (.composite "T" .empty (Table.empty.insert "a" (.links [])) ["x"]) := rfl
  refine ⟨looseObject.ofNode_tree, _, hread, rfl, fun hsame => ?_,
    fun _ _ => looseObject_holds_no_link⟩
  have htext := congrArg (Node.child? · valueField) hsame
  cases htext

end Shape

end ContentGraph
