import ContentGraph.Proofs.Schedules

/-! What keeps a document from being encoded: an element that stands too deep, an element without a
type, and a child under the field of an attribute. There is nothing else, as long as objects can be
stored, and of several of these the encoder reports the one that it comes to first. -/

namespace ContentGraph

open Xml (Element)

namespace Xml.Element

theorem heightOfChildren_le_iff {children : List Element} {n : Nat} :
    heightOfChildren children ≤ n ↔ ∀ child ∈ children, child.height ≤ n := by
  induction children with
  | nil => simp [heightOfChildren]
  | cons child rest ih => rw [heightOfChildren, Nat.max_le, ih, List.forall_mem_cons]

theorem height_le_succ_iff {e : Element} {n : Nat} :
    e.height ≤ n + 1 ↔ ∀ child ∈ e.children, child.height ≤ n := by
  cases e
  rw [height, Nat.add_le_add_iff_right]
  exact heightOfChildren_le_iff

theorem height_pos (e : Element) : 0 < e.height := by
  cases e
  rw [height]
  exact Nat.succ_pos _

/-- A tree goes below a limit if its root does, or if the tree of a child does. -/
theorem limit_lt_iff {e : Element} {depth limit : Nat} :
    limit + 1 < depth + e.height ↔
      limit < depth ∨ ∃ child ∈ e.children, limit + 1 < depth + 1 + child.height := by
  have hpos := e.height_pos
  constructor
  · intro h
    by_cases hdepth : limit < depth
    · exact .inl hdepth
    · right
      by_contra hnone
      have hchildren : ∀ child ∈ e.children, child.height ≤ limit - depth := by
        intro child hchild
        have hchild' : ¬limit + 1 < depth + 1 + child.height := fun h => hnone ⟨child, hchild, h⟩
        omega
      have hheight := height_le_succ_iff.mpr hchildren
      omega
  · rintro (h | ⟨child, hchild, h⟩)
    · omega
    · have hlower := height_lt_of_mem hchild
      omega

end Xml.Element

section Failure

variable {ε σ α β : Type}

/-- Why a computation failed, if it did. -/
def failure? : Except ε α → Option ε
  | .ok _ => none
  | .error cause => some cause

theorem failure?_eq_some_iff {result : Except ε α} {cause : ε} :
    failure? result = some cause ↔ result = .error cause := by
  cases result <;> simp [failure?]

theorem failure?_eq_none_iff {result : Except ε α} :
    failure? result = none ↔ ∃ a, result = .ok a := by
  cases result <;> simp [failure?]

theorem failure?_liftExcept (result : Except ε α) (s : σ) :
    failure? ((liftExcept result : Stateful ε σ α) s).1 = failure? result := by
  cases result <;> rfl

/-- A sequence fails where its first part does, or else where the rest of it does. -/
theorem failure?_bind {x : Stateful ε σ α} {f : α → Stateful ε σ β} {s : σ} {later : Option ε}
    (h : ∀ a next, x s = (.ok a, next) → failure? (f a next).1 = later) :
    failure? ((x >>= f) s).1 = (failure? (x s).1).or later := by
  cases hx : x s with
  | mk result next =>
    cases result with
    | error cause =>
      rw [Stateful.bind_of_error hx]
      rfl
    | ok a =>
      rw [Stateful.bind_of_ok hx, h a next hx]
      rfl

theorem failure?_bind_of_unfailing {x : Stateful ε σ α} {f : α → Stateful ε σ β} {s : σ}
    (h : ∀ a next, failure? (f a next).1 = none) :
    failure? ((x >>= f) s).1 = failure? (x s).1 := by
  have hbind := failure?_bind (x := x) (s := s) fun a next _ => h a next
  rw [hbind, Option.or_none]

end Failure

/-- What an element is stored as always declares a type, and the type is a text. -/
theorem Shape.exists_object (shape : Shape) :
    ∃ o, Object.ofNode shape.toNode = .ok o ∧ o.declaredType = some shape.type := by
  refine Object.exists_ofNode (Node.declaredType_eq_ok_iff.mpr ?_)
  cases shape with
  | leaf => rw [child?_leaf, if_pos rfl, type, Option.map_some]
  | composite => rw [child?_composite, if_pos rfl, type, Option.map_some]

namespace Encoder

def depthViolations (c : Encoder) (depth : Nat) : List EncodeError :=
  if c.config.maxDepth < depth then [.tooDeep c.config.maxDepth] else []

def typeViolations (c : Encoder) (e : Element) : List EncodeError :=
  if c.resolve e.uri e.name = none then [.missingContext e.displayName] else []

/-- The children whose field is an attribute as well, in the order of the document. -/
def collidingChildren (e : Element) : List Element :=
  e.children.filter fun child => e.attributes.any fun a => a.fieldName = e.childFieldName child

def fieldViolations (e : Element) : List EncodeError :=
  (collidingChildren e).map fun child => .fieldConflict e.displayName (e.childFieldName child)

mutual

/-- Everything that is wrong with an element at a depth and with all below it: its depth, its type,
what is wrong with its children from the left to the right, and then their fields. -/
def violations (c : Encoder) (depth : Nat) (e : Element) : List EncodeError :=
  match e with
  | ⟨uri, name, attributes, children, textRuns⟩ =>
    let e : Element := ⟨uri, name, attributes, children, textRuns⟩
    c.depthViolations depth ++ c.typeViolations e ++ violationsOfChildren c (depth + 1) children ++
      fieldViolations e

def violationsOfChildren (c : Encoder) (depth : Nat) : List Element → List EncodeError
  | [] => []
  | child :: rest => violations c depth child ++ violationsOfChildren c depth rest

end

theorem violationsOfChildren_eq (c : Encoder) (depth : Nat) (children : List Element) :
    violationsOfChildren c depth children = children.flatMap (c.violations depth) := by
  induction children with
  | nil => rfl
  | cons child rest ih => rw [violationsOfChildren, List.flatMap_cons, ih]

theorem violations_eq (c : Encoder) (depth : Nat) (e : Element) :
    c.violations depth e = c.depthViolations depth ++ c.typeViolations e ++
      e.children.flatMap (c.violations (depth + 1)) ++ fieldViolations e := by
  cases e
  rw [violations, violationsOfChildren_eq]

/-- A document that has nothing of all this. -/
structure Encodable (c : Encoder) (root : Element) : Prop where
  height : root.height ≤ c.config.maxDepth
  typed : ∀ e, root.Holds e → ∃ type, c.resolve e.uri e.name = some type
  fields : ∀ e, root.Holds e → ∀ child ∈ e.children, ∀ a ∈ e.attributes,
    a.fieldName ≠ e.childFieldName child

/-- What can be wrong with a document. -/
inductive Violates (c : Encoder) (root : Element) : EncodeError → Prop
  | height (h : c.config.maxDepth < root.height) : Violates c root (.tooDeep c.config.maxDepth)
  | type {e : Element} (he : root.Holds e) (h : c.resolve e.uri e.name = none) :
    Violates c root (.missingContext e.displayName)
  | field {e child : Element} {a : Xml.Attribute} (he : root.Holds e) (hchild : child ∈ e.children)
    (ha : a ∈ e.attributes) (h : a.fieldName = e.childFieldName child) :
    Violates c root (.fieldConflict e.displayName (e.childFieldName child))

variable {c : Encoder}

theorem mem_depthViolations {depth : Nat} {cause : EncodeError} :
    cause ∈ c.depthViolations depth ↔
      c.config.maxDepth < depth ∧ cause = .tooDeep c.config.maxDepth := by
  unfold depthViolations
  split <;> simp [*]

theorem mem_typeViolations {e : Element} {cause : EncodeError} :
    cause ∈ c.typeViolations e ↔
      c.resolve e.uri e.name = none ∧ cause = .missingContext e.displayName := by
  unfold typeViolations
  split <;> simp [*]

theorem mem_fieldViolations {e : Element} {cause : EncodeError} :
    cause ∈ fieldViolations e ↔ ∃ child ∈ e.children, ∃ a ∈ e.attributes,
      a.fieldName = e.childFieldName child ∧
        cause = .fieldConflict e.displayName (e.childFieldName child) := by
  simp only [fieldViolations, collidingChildren, List.mem_map, List.mem_filter, List.any_eq_true,
    decide_eq_true_eq]
  constructor
  · rintro ⟨child, ⟨hchild, a, ha, hfield⟩, rfl⟩
    exact ⟨child, hchild, a, ha, hfield, rfl⟩
  · rintro ⟨child, hchild, a, ha, hfield, rfl⟩
    exact ⟨child, ⟨hchild, a, ha, hfield⟩, rfl⟩

theorem mem_violations {depth : Nat} {e : Element} {cause : EncodeError} :
    cause ∈ c.violations depth e ↔
      (c.config.maxDepth + 1 < depth + e.height ∧ cause = .tooDeep c.config.maxDepth) ∨
        ∃ below, e.Holds below ∧
          (cause ∈ c.typeViolations below ∨ cause ∈ fieldViolations below) := by
  induction e generalizing depth with
  | element e ih =>
    rw [Element.limit_lt_iff, violations_eq]
    simp only [List.mem_append, List.mem_flatMap, mem_depthViolations]
    constructor
    · rintro (((⟨hdepth, hcause⟩ | htype) | ⟨child, hchild, hcause⟩) | hfield)
      · exact .inl ⟨.inl hdepth, hcause⟩
      · exact .inr ⟨e, .root e, .inl htype⟩
      · rcases (ih child hchild).mp hcause with ⟨hdepth, hcause⟩ | ⟨below, hbelow, hcause⟩
        · exact .inl ⟨.inr ⟨child, hchild, hdepth⟩, hcause⟩
        · exact .inr ⟨below, .inner hchild hbelow, hcause⟩
      · exact .inr ⟨e, .root e, .inr hfield⟩
    · rintro (⟨hdepth | ⟨child, hchild, hdepth⟩, hcause⟩ | ⟨below, hbelow, hcause⟩)
      · exact .inl (.inl (.inl ⟨hdepth, hcause⟩))
      · exact .inl (.inr ⟨child, hchild, (ih child hchild).mpr (.inl ⟨hdepth, hcause⟩)⟩)
      · cases hbelow with
        | root =>
          rcases hcause with htype | hfield
          · exact .inl (.inl (.inr htype))
          · exact .inr hfield
        | inner hchild hbelow =>
          exact .inl (.inr ⟨_, hchild, (ih _ hchild).mpr (.inr ⟨below, hbelow, hcause⟩)⟩)

theorem mem_violations_root_iff {root : Element} {cause : EncodeError} :
    cause ∈ c.violations 1 root ↔ c.Violates root cause := by
  rw [mem_violations, Nat.add_comm 1, Nat.add_lt_add_iff_right]
  constructor
  · rintro (⟨hheight, rfl⟩ | ⟨e, he, hcause⟩)
    · exact .height hheight
    · rcases hcause with htype | hfield
      · obtain ⟨hnone, rfl⟩ := mem_typeViolations.mp htype
        exact .type he hnone
      · obtain ⟨child, hchild, a, ha, hsame, rfl⟩ := mem_fieldViolations.mp hfield
        exact .field he hchild ha hsame
  · intro h
    cases h with
    | height hheight => exact .inl ⟨hheight, rfl⟩
    | type he htype => exact .inr ⟨_, he, .inl (mem_typeViolations.mpr ⟨htype, rfl⟩)⟩
    | field he hchild ha hfield =>
      exact .inr ⟨_, he, .inr (mem_fieldViolations.mpr ⟨_, hchild, _, ha, hfield, rfl⟩)⟩

theorem encodable_iff {root : Element} :
    c.Encodable root ↔ ∀ cause, ¬c.Violates root cause := by
  constructor
  · intro h cause hcause
    cases hcause with
    | height hheight => exact absurd h.height (Nat.not_le.mpr hheight)
    | type he hnone =>
      obtain ⟨type, htype⟩ := h.typed _ he
      simp [hnone] at htype
    | field he hchild ha hfield => exact h.fields _ he _ hchild _ ha hfield
  · intro h
    refine ⟨?_, fun e he => ?_, fun e he child hchild a ha hfield => ?_⟩
    · exact Nat.not_lt.mp fun hheight => h _ (.height hheight)
    · exact Option.ne_none_iff_exists'.mp fun hnone => h _ (.type he hnone)
    · exact h _ (.field he hchild ha hfield)

theorem encodable_iff_violations_eq_nil {root : Element} :
    c.Encodable root ↔ c.violations 1 root = [] := by
  simp only [encodable_iff, List.eq_nil_iff_forall_not_mem, mem_violations_root_iff]

/-! What the encoder answers is the first of the violations. -/

theorem failure?_typeOf (e : Element) : failure? (c.typeOf e) = (c.typeViolations e).head? := by
  unfold typeOf typeViolations
  cases c.resolve e.uri e.name <;> rfl

theorem contains_attributesOf_iff {e : Element} {field : String} :
    (attributesOf e).contains field = true ↔ ∃ a ∈ e.attributes, a.fieldName = field := by
  rw [Table.contains, get?_attributesOf_eq_last, Option.isSome_map, Element.lastAttribute?,
    List.find?_isSome]
  simp only [List.mem_reverse, decide_eq_true_eq]

theorem conflict?_eq_head? (e : Element) : conflict? e = (collidingChildren e).head? := by
  have hsame : (fun child => (attributesOf e).contains (e.childFieldName child)) =
      fun child => e.attributes.any fun a => a.fieldName = e.childFieldName child := by
    funext child
    rw [Bool.eq_iff_iff, contains_attributesOf_iff, List.any_eq_true]
    simp only [decide_eq_true_eq]
  rw [conflict?, collidingChildren, List.head?_filter, hsame]

theorem failure?_shapeOf (e : Element) (type : String) (addresses : List Address) :
    failure? (c.shapeOf e type addresses) = (fieldViolations e).head? := by
  rw [fieldViolations, List.head?_map, ← conflict?_eq_head?, shapeOf]
  by_cases hleaf : e.isLeaf = true
  · have hnone : conflict? e = none := by
      rw [conflict?, List.isEmpty_iff.mp hleaf]
      rfl
    rw [if_pos hleaf, hnone]
    rfl
  · rw [if_neg hleaf]
    cases conflict? e <;> rfl

section

variable {σ : Type} {put : Put σ}

theorem failure?_storeShape (hput : NeverFails put) (shape : Shape) (s : σ) :
    failure? (storeShape put shape s).1 = none := by
  obtain ⟨o, ho, -⟩ := shape.exists_object
  have hok : put o s = (.ok (), (put o s).2) := Prod.ext (hput o s) rfl
  rw [storeShape_of_ok ho hok]
  rfl

theorem failure?_encodeChildren {depth : Nat} {children : List Element}
    (h : ∀ child ∈ children, ∀ s : σ,
      failure? (encodeElement c put depth child s).1 = (c.violations depth child).head?) (s : σ) :
    failure? (encodeChildren c put depth children s).1 =
      (children.flatMap (c.violations depth)).head? := by
  induction children generalizing s with
  | nil => rfl
  | cons child rest ih =>
    have hrest := ih fun child hchild => h child (List.mem_cons_of_mem _ hchild)
    rw [encodeChildren, List.flatMap_cons, List.head?_append, ← h child List.mem_cons_self s]
    refine failure?_bind fun address next _ => ?_
    rw [← hrest next]
    exact failure?_bind_of_unfailing fun _ _ => rfl

/-- One element is checked in the order in which its violations stand. -/
theorem failure?_encodeElement (hput : NeverFails put) (depth : Nat) (e : Element) (s : σ) :
    failure? (encodeElement c put depth e s).1 = (c.violations depth e).head? := by
  induction e generalizing depth s with
  | element e ih =>
    rw [encodeElement_eq, violations_eq, List.append_assoc, List.append_assoc, depthViolations]
    by_cases hdepth : c.config.maxDepth < depth
    · rw [if_pos hdepth, if_pos hdepth]
      rfl
    · have hchildren := failure?_encodeChildren fun child hchild s => ih child hchild (depth + 1) s
      rw [if_neg hdepth, if_neg hdepth, List.nil_append, List.head?_append, List.head?_append,
        ← failure?_typeOf, ← failure?_liftExcept (c.typeOf e) s]
      refine failure?_bind fun type next _ => ?_
      rw [← hchildren next]
      refine failure?_bind fun addresses next _ => ?_
      have hshape : failure? (c.shapeOf e type addresses) = (fieldViolations e).head? :=
        failure?_shapeOf e type addresses
      rw [← hshape, ← failure?_liftExcept (c.shapeOf e type addresses) next]
      exact failure?_bind_of_unfailing (failure?_storeShape hput)

/-- The encoder that takes siblings one after the other succeeds exactly with the documents that have
no violation, and fails with the first one of all others. No object of it fails to be made. -/
theorem encode_reports_first_violation (hput : NeverFails put) (c : Encoder) (root : Element)
    (s : σ) :
    ((∃ a, (c.encode put root s).1 = .ok a) ↔ c.Encodable root) ∧
    (∀ cause, (c.encode put root s).1 = .error cause ↔ (c.violations 1 root).head? = some cause) ∧
    (∀ cause, (c.encode put root s).1 = .error cause → c.Violates root cause) ∧
    ∀ e type addresses shape, c.shapeOf e type addresses = .ok shape →
      ∃ o, Object.ofNode shape.toNode = .ok o ∧ o.declaredType = some type := by
  have hfirst : failure? (c.encode put root s).1 = (c.violations 1 root).head? :=
    failure?_encodeElement hput 1 root s
  refine ⟨?_, fun cause => ?_, fun cause hcause => ?_, fun e type addresses shape hshape => ?_⟩
  · rw [← failure?_eq_none_iff, hfirst, List.head?_eq_none_iff, encodable_iff_violations_eq_nil]
  · rw [← hfirst, failure?_eq_some_iff]
  · rw [← failure?_eq_some_iff, hfirst] at hcause
    exact mem_violations_root_iff.mp (List.mem_of_head? hcause)
  · obtain ⟨o, ho, htype⟩ := shape.exists_object
    have hdeclared : shape.type = type := by
      rcases shapeOf_eq_ok hshape with ⟨-, rfl⟩ | ⟨-, -, rfl⟩ <;> rfl
    exact ⟨o, ho, htype.trans (congrArg some hdeclared)⟩

end

/-- It has no type for the name `x`, and a document may have two levels. -/
def flatEncoder : Encoder :=
  ⟨fun _ name => if name = "x" then none else some "Title", { maxDepth := 2 }⟩

/-- Its first child has a child, its second one no type, and its third one the name of an attribute. -/
def flawedDocument : Element :=
  ⟨none, "a", [⟨none, "k", "v"⟩],
    [⟨none, "b", [], [⟨none, "c", [], [], [""]⟩], ["", ""]⟩, ⟨none, "x", [], [], [""]⟩,
      ⟨none, "k", [], [], [""]⟩], ["", "", "", ""]⟩

theorem violations_flawedDocument : flatEncoder.violations 1 flawedDocument =
    [.tooDeep 2, .missingContext "x", .fieldConflict "a" "k"] := by
  decide +kernel

theorem encode_reports_first_violation_in_flawedDocument :
    (flatEncoder.encode noting flawedDocument []).1 = .error (.tooDeep 2) ∧
      ¬flatEncoder.Encodable flawedDocument := by
  have hnever : NeverFails noting := fun _ _ => rfl
  obtain ⟨hok, hfirst, -⟩ := encode_reports_first_violation hnever flatEncoder flawedDocument []
  have herror : (flatEncoder.encode noting flawedDocument []).1 = .error (.tooDeep 2) := by
    rw [hfirst, violations_flawedDocument, List.head?_cons]
  refine ⟨herror, fun hencodable => ?_⟩
  obtain ⟨a, ha⟩ := hok.mpr hencodable
  simp [ha] at herror

end Encoder

end ContentGraph
