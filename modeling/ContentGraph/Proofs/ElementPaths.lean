import ContentGraph.Proofs.StoredShape

/-! The path from an element down to one below it, and how the first step of it is found in the tree
that the element is stored as. -/

namespace ContentGraph

namespace Xml.Element

/-- The step to a child: its field, and its position among the children with that field if it is not
the only one. -/
def segmentsTo (e : Element) (i : Nat) (child : Element) : List String :=
  let field := e.childFieldName child
  if (e.children.filter fun other => e.childFieldName other = field).length = 1 then [field]
  else [field, toString ((e.children.take i).filter fun other => e.childFieldName other = field).length]

inductive Leads : Element → List String → Element → Prop
  | here {e : Element} : Leads e [] e
  | child {e child target : Element} {i : Nat} {path : List String}
    (hchild : e.children[i]? = some child) (hpath : Leads child path target) :
    Leads e (e.segmentsTo i child ++ path) target

theorem segmentsTo_eq_cons (e : Element) (i : Nat) (child : Element) :
    ∃ rest, e.segmentsTo i child = e.childFieldName child :: rest := by
  unfold segmentsTo
  dsimp only
  split
  · exact ⟨_, rfl⟩
  · exact ⟨_, rfl⟩

theorem height_lt_of_mem {e child : Element} (h : child ∈ e.children) : child.height < e.height := by
  obtain ⟨uri, name, attributes, children, textRuns⟩ := e
  rw [height]
  change child ∈ children at h
  induction children with
  | nil => cases h
  | cons other rest ih =>
    rw [heightOfChildren]
    rcases List.mem_cons.mp h with rfl | h
    · omega
    · have := ih h
      omega

end Xml.Element

open Xml (Element)

namespace Node

theorem descend_of_child? {n m : Node} {segment : String} (rest : List String)
    (hn : n.isTerminal = false) (h : n.child? segment = some m) :
    n.descend (segment :: rest) = m.descend rest := by
  rw [descend, hn, h]
  rfl

theorem descend_link (a : Address) (rest : List String) :
    (Node.link a).descend rest = some (.link a, rest) := by
  cases rest <;> rfl

theorem Sized.child? {entries : List (String × Node)} {key : String} {m : Node}
    (h : (Node.map entries).Sized) (hm : (Node.map entries).child? key = some m) : m.Sized :=
  (sizedEntries_iff.mp h.2 _ (Entries.mem_of_get? hm)).2

theorem child?_links {targets : List Address} {k : Nat} {a : Address}
    (hsized : (Node.list (targets.map .link)).Sized) (h : targets[k]? = some a) :
    (Node.list (targets.map .link)).child? (toString k) = some (.link a) := by
  have hbound : k < UInt64.size := by
    have hk := (List.getElem?_eq_some_iff.mp h).1
    have hlength := hsized.1
    rw [List.length_map] at hlength
    exact Nat.lt_trans hk hlength
  rw [Node.child?, indexOfSegment?_toString hbound, Option.bind_some, List.getElem?_map, h,
    Option.map_some]

end Node

namespace Encoder

theorem length_filter_fst {α β : Type} (p : α → Bool) (pairs : List (α × β)) :
    ((pairs.map (·.1)).filter p).length = (pairs.filter fun q => p q.1).length := by
  rw [List.filter_map, List.length_map]
  rfl

theorem fieldOf_of_length_ne_one {targets : List Address} (h : targets.length ≠ 1) :
    fieldOf targets = .links targets := by
  unfold fieldOf
  split
  · exact absurd rfl h
  · rfl

section

variable {e child : Element} {addresses : List Address} {i : Nat} {a : Address}

theorem length_targetsOf (hlength : addresses.length = e.children.length) (field : String) :
    (targetsOf e addresses field).length =
      (e.children.filter fun other => e.childFieldName other = field).length := by
  have hpairs := length_filter_fst (fun other => e.childFieldName other = field)
    (e.children.zip addresses)
  rw [List.map_fst_zip (Nat.le_of_eq hlength.symm)] at hpairs
  rw [targetsOf, List.length_map, hpairs]

theorem targetsOf_ne_nil (hlength : addresses.length = e.children.length)
    (hchild : child ∈ e.children) : targetsOf e addresses (e.childFieldName child) ≠ [] := by
  intro hempty
  have hnone := length_targetsOf hlength (e.childFieldName child)
  rw [hempty, List.length_nil, eq_comm, List.length_eq_zero_iff, List.filter_eq_nil_iff] at hnone
  exact hnone child hchild (decide_eq_true rfl)

theorem child?_of_child {c : Encoder} {type : String} {shape : Shape}
    (h : c.shapeOf e type addresses = .ok shape) (hlength : addresses.length = e.children.length)
    (hchild : child ∈ e.children) (hfree : c.FieldFree e (e.childFieldName child)) :
    shape.toNode.child? (e.childFieldName child) =
      some (fieldOf (targetsOf e addresses (e.childFieldName child))).toNode := by
  rw [child?_of_free h hfree, get?_fields (targetsOf_ne_nil hlength hchild)]
  rfl

theorem getElem?_targetsOf (hlength : addresses.length = e.children.length)
    (hchild : e.children[i]? = some child) (ha : addresses[i]? = some a) :
    (targetsOf e addresses (e.childFieldName child))[((e.children.take i).filter fun other =>
      e.childFieldName other = e.childFieldName child).length]? = some a := by
  have hzip : (e.children.zip addresses)[i]? = some (child, a) :=
    List.getElem?_zip_eq_some.mpr ⟨hchild, ha⟩
  have hposition := length_filter_fst
    (fun other => e.childFieldName other = e.childFieldName child)
    ((e.children.zip addresses).take i)
  rw [List.map_take, List.map_fst_zip (Nat.le_of_eq hlength.symm)] at hposition
  have hfound := getElem?_filter_take
    (p := fun p => decide (e.childFieldName p.1 = e.childFieldName child)) hzip (by simp)
  rw [targetsOf, List.getElem?_map, hposition, hfound, Option.map_some]

/-- The step to a child comes to its link. -/
theorem descend_segmentsTo {c : Encoder} {type : String} {shape : Shape}
    (h : c.shapeOf e type addresses = .ok shape) (hsized : shape.toNode.Sized)
    (hlength : addresses.length = e.children.length) (hchild : e.children[i]? = some child)
    (ha : addresses[i]? = some a) (htype : e.childFieldName child ≠ typeField)
    (hvalue : e.childFieldName child ≠ valueField) (rest : List String) :
    shape.toNode.descend (e.segmentsTo i child ++ rest) = some (.link a, rest) := by
  have htarget := getElem?_targetsOf hlength hchild ha
  have hfield := child?_of_child h hlength (List.mem_of_getElem? hchild)
    ⟨htype, fun hsame => absurd hsame hvalue⟩
  have hlen := length_targetsOf hlength (e.childFieldName child)
  unfold Element.segmentsTo
  dsimp only
  by_cases hsingle : (e.children.filter fun other =>
      e.childFieldName other = e.childFieldName child).length = 1
  · obtain ⟨target, hsame⟩ := List.length_eq_one_iff.mp (hlen.trans hsingle)
    rw [hsame] at hfield htarget
    have ha' : target = a := by
      have hmem := List.mem_of_getElem? htarget
      exact (List.mem_singleton.mp hmem).symm
    rw [if_pos hsingle, List.cons_append, List.nil_append, Node.descend_of_child? _ rfl hfield, ha']
    exact Node.descend_link a rest
  · have hlinks := fieldOf_of_length_ne_one (fun hone => hsingle (hlen.symm.trans hone))
    rw [if_neg hsingle, List.cons_append, Node.descend_of_child? _ rfl hfield]
    rw [hlinks, Field.toNode] at hfield ⊢
    rw [List.cons_append, List.nil_append,
      Node.descend_of_child? _ rfl (Node.child?_links (hsized.child? hfield) htarget),
      Node.descend_link]

end

end Encoder

end ContentGraph
