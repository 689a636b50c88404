import ContentGraph.Proofs.EncodedTrees
import ContentGraph.Proofs.FirstViolation
import Mathlib.Logic.Relation

/-! Documents that say the same in another layout and another order. The order of attributes is lost,
as long as no two of them share a field, and so is the order between children with different fields,
and the blank text around children. The encoder gives all of them the same address. -/

namespace ContentGraph

open Xml (Element)

def nonblankRuns (runs : List String) : List String :=
  runs.filter fun run => !isBlankText run

section Middle

variable {α β : Type} {front back : List α} {x y : α}

theorem forall_mem_middle {p : α → Prop} :
    (∀ z ∈ front ++ x :: back, p z) ↔ p x ∧ ∀ z ∈ front ++ back, p z := by
  have hperm : (front ++ x :: back).Perm (x :: (front ++ back)) := List.perm_middle
  simp only [hperm.mem_iff, List.forall_mem_cons]

/-- One element in the middle is exchanged for another that a filter and a map take for the same. -/
theorem map_filter_middle {p : α → Bool} {f g : α → β} (hp : p y = p x) (hmiddle : f y = g x)
    (hothers : ∀ z ∈ front ++ back, f z = g z) :
    ((front ++ y :: back).filter p).map f = ((front ++ x :: back).filter p).map g := by
  obtain ⟨hfront, hback⟩ := List.forall_mem_append.mp hothers
  have hfront' : (front.filter p).map f = (front.filter p).map g :=
    List.map_congr_left fun z hz => hfront z (List.mem_of_mem_filter hz)
  have hback' : (back.filter p).map f = (back.filter p).map g :=
    List.map_congr_left fun z hz => hback z (List.mem_of_mem_filter hz)
  by_cases hx : p x = true
  · simp [hp, hx, hmiddle, hfront', hback']
  · simp [hp, hx, hfront', hback']

theorem flatMap_middle_perm {f g : α → List β} (hmiddle : (f y).Perm (g x))
    (hothers : ∀ z ∈ front ++ back, f z = g z) :
    ((front ++ y :: back).flatMap f).Perm ((front ++ x :: back).flatMap g) := by
  have hleft : ((front ++ y :: back).flatMap f).Perm (f y ++ (front ++ back).flatMap f) :=
    List.perm_middle.flatMap_right f
  have hright : ((front ++ x :: back).flatMap g).Perm (g x ++ (front ++ back).flatMap g) :=
    List.perm_middle.flatMap_right g
  have hrest : (front ++ back).flatMap f = (front ++ back).flatMap g := List.flatMap_congr hothers
  rw [hrest] at hleft
  exact hleft.trans ((hmiddle.append_right _).trans hright.symm)

end Middle

namespace Xml.Element

def childrenUnder (e : Element) (field : String) : List Element :=
  e.children.filter fun child => e.childFieldName child = field

/-- A change at one element of a tree, which leaves the content of the tree as it is. -/
inductive Edit : Element → Element → Prop
  | attributes {e : Element} {attributes : List Attribute}
    (hdistinct : (e.attributes.map Attribute.fieldName).Nodup)
    (hperm : attributes.Perm e.attributes) : Edit e { e with attributes }
  | children {e : Element} {children : List Element} (hperm : children.Perm e.children)
    (horder : ∀ field, ({ e with children } : Element).childrenUnder field = e.childrenUnder field) :
    Edit e { e with children }
  | layout {e : Element} {textRuns : List String} (hinner : e.children ≠ [])
    (hruns : nonblankRuns textRuns = nonblankRuns e.textRuns) : Edit e { e with textRuns }
  | inside {uri : Option String} {name : String} {attributes : List Attribute}
    {front back : List Element} {child child' : Element} {textRuns : List String}
    (h : Edit child child') :
    Edit ⟨uri, name, attributes, front ++ child :: back, textRuns⟩
      ⟨uri, name, attributes, front ++ child' :: back, textRuns⟩

/-- Any number of changes, each at any element of the tree. -/
abbrev SameContent :=
  Relation.ReflTransGen Edit

theorem Edit.names_eq {e e' : Element} (h : Edit e e') : e'.uri = e.uri ∧ e'.name = e.name := by
  cases h <;> exact ⟨rfl, rfl⟩

theorem Edit.childFieldName_eq {child child' : Element} (h : Edit child child') (outer : Element) :
    outer.childFieldName child' = outer.childFieldName child := by
  obtain ⟨huri, hname⟩ := h.names_eq
  rw [childFieldName, childFieldName, fieldNameIn, fieldNameIn, huri, hname]

end Xml.Element

namespace Encoder

theorem targetsOf_map (e : Element) (address : Element → Address) (field : String) :
    targetsOf e (e.children.map address) field = (e.childrenUnder field).map address := by
  have general (children : List Element) :
      ((children.zip (children.map address)).filter fun p => e.childFieldName p.1 = field).map (·.2) =
        (children.filter fun child => e.childFieldName child = field).map address := by
    induction children with
    | nil => rfl
    | cons child rest ih =>
      by_cases hfield : e.childFieldName child = field
      · simp [hfield, ih]
      · simp [hfield, ih]
  exact general e.children

theorem attributesOf_perm {e : Element} {attributes : List Xml.Attribute}
    (hdistinct : (e.attributes.map Xml.Attribute.fieldName).Nodup)
    (hperm : attributes.Perm e.attributes) :
    attributesOf { e with attributes } = attributesOf e := by
  have hnames : ((attributes.map fun a => (a.fieldName, a.value)).map Prod.fst).Nodup := by
    rw [List.map_map]
    exact (hperm.map _).nodup_iff.mpr hdistinct
  exact Table.ofList_perm hnames (hperm.map _)

/-- Two elements that are stored as the same object, given the addresses of their children. -/
structure SameShape (c : Encoder) (e e' : Element) (address address' : Element → Address) : Prop where
  leaf : e'.isLeaf = e.isLeaf
  attributes : attributesOf e' = attributesOf e
  text : e.isLeaf = true → e'.text = e.text
  runs : e.isLeaf = false → c.storedRuns e'.textRuns = c.storedRuns e.textRuns
  targets : ∀ field, (e'.childrenUnder field).map address' = (e.childrenUnder field).map address

section SameShape

variable {c : Encoder} {e e' : Element} {address address' : Element → Address}

theorem SameShape.conflict?_eq_none (h : SameShape c e e' address address')
    (hnone : conflict? e = none) : conflict? e' = none := by
  refine List.find?_eq_none.mpr fun child hchild => ?_
  have hmem : child ∈ e'.childrenUnder (e'.childFieldName child) :=
    List.mem_filter.mpr ⟨hchild, decide_eq_true rfl⟩
  have htarget : address' child ∈ (e.childrenUnder (e'.childFieldName child)).map address := by
    rw [← h.targets]
    exact List.mem_map_of_mem hmem
  obtain ⟨other, hother, -⟩ := List.mem_map.mp htarget
  obtain ⟨hother, hfield⟩ := List.mem_filter.mp hother
  have hfree := List.find?_eq_none.mp hnone other hother
  rwa [of_decide_eq_true hfield, ← h.attributes] at hfree

theorem SameShape.groupByField_eq (h : SameShape c e e' address address') :
    groupByField e' (e'.children.map address') = groupByField e (e.children.map address) := by
  refine Table.eq_of_get?_eq fun field => ?_
  rw [get?_groupByField, get?_groupByField, targetsOf_map, targetsOf_map, h.targets]

theorem SameShape.shapeOf_eq_ok (h : SameShape c e e' address address') {type : String}
    {shape : Shape} (hshape : c.shapeOf e type (e.children.map address) = .ok shape) :
    c.shapeOf e' type (e'.children.map address') = .ok shape := by
  rcases Encoder.shapeOf_eq_ok hshape with ⟨hleaf, rfl⟩ | ⟨hinner, hconflict, rfl⟩
  · rw [shapeOf, h.leaf, if_pos hleaf, h.text hleaf, h.attributes]
  · have hinner' : ¬e'.isLeaf = true := by simp [h.leaf, hinner]
    rw [shapeOf, if_neg hinner', h.conflict?_eq_none hconflict, h.groupByField_eq, h.attributes,
      h.runs hinner]

/-- A changed element yields what it did before if it has the same shape around its children. -/
theorem Yields.of_sameShape {depth : Nat} {a : Address} {objects : List Object}
    (h : Yields c depth e a objects) (hnames : e'.uri = e.uri ∧ e'.name = e.name)
    (hchange : ∀ (address : Element → Address) (below : Element → List Object),
      (∀ child ∈ e.children, Yields c (depth + 1) child (address child) (below child)) →
        ∃ (address' : Element → Address) (below' : Element → List Object),
          SameShape c e e' address address' ∧
          (∀ child ∈ e'.children, Yields c (depth + 1) child (address' child) (below' child)) ∧
          (e'.children.flatMap below').Perm (e.children.flatMap below)) :
    ∃ objects', Yields c depth e' a objects' ∧ objects'.Perm objects := by
  cases h with
  | @intro _ _ type address below shape o hdepth htype hchildren hshape hobject =>
    obtain ⟨address', below', hsameShape, hchildren', hperm⟩ := hchange address below hchildren
    have htype' : c.typeOf e' = .ok type := by
      rw [← htype, typeOf, typeOf, Element.displayName, Element.displayName, hnames.1, hnames.2]
    have hshape' := hsameShape.shapeOf_eq_ok hshape
    exact ⟨_, .intro hdepth htype' hchildren' hshape' hobject, hperm.append_right [o]⟩

end SameShape

end Encoder

namespace Xml.Element

open Encoder

variable {c : Encoder}

/-- After a change an element yields its old address, and the objects that it did in some order. -/
theorem Edit.yields {e e' : Element} (h : e.Edit e') {depth : Nat} {a : Address}
    {objects : List Object} (hyields : Yields c depth e a objects) :
    ∃ objects', Yields c depth e' a objects' ∧ objects'.Perm objects := by
  induction h generalizing depth a objects with
  | @attributes e attributes hdistinct hperm =>
    refine hyields.of_sameShape ⟨rfl, rfl⟩ fun address below hchildren => ?_
    have hsameShape : SameShape c e { e with attributes } address address :=
      ⟨rfl, attributesOf_perm hdistinct hperm, fun _ => rfl, fun _ => rfl, fun _ => rfl⟩
    exact ⟨address, below, hsameShape, hchildren, .refl _⟩
  | @children e children hperm horder =>
    refine hyields.of_sameShape ⟨rfl, rfl⟩ fun address below hchildren => ?_
    have hsameShape : SameShape c e { e with children } address address :=
      ⟨hperm.isEmpty_eq, rfl, fun _ => rfl, fun _ => rfl, fun field => by rw [horder]⟩
    have hchildren' : ∀ child ∈ children, Yields c (depth + 1) child (address child) (below child) :=
      fun child hchild => hchildren child (hperm.mem_iff.mp hchild)
    exact ⟨address, below, hsameShape, hchildren', hperm.flatMap_right below⟩
  | @layout e textRuns hinner hruns =>
    refine hyields.of_sameShape ⟨rfl, rfl⟩ fun address below hchildren => ?_
    have hleaf : ¬e.isLeaf = true := fun h => hinner (List.isEmpty_iff.mp h)
    have hstored : c.storedRuns textRuns = c.storedRuns e.textRuns :=
      congrArg (List.map c.storedText) hruns
    have hsameShape : SameShape c e { e with textRuns } address address :=
      ⟨rfl, rfl, fun h => absurd h hleaf, fun _ => hstored, fun _ => rfl⟩
    exact ⟨address, below, hsameShape, hchildren, .refl _⟩
  | @inside uri name attributes front back child child' textRuns hedit ih =>
    refine hyields.of_sameShape ⟨rfl, rfl⟩ fun address below hchildren => ?_
    obtain ⟨hchild, hothers⟩ := forall_mem_middle.mp hchildren
    obtain ⟨objects', hchild', hperm⟩ := ih hchild
    have heach : ∀ other ∈ front ++ child' :: back,
        ∃ a objects, Yields c (depth + 1) other a objects :=
      forall_mem_middle.mpr ⟨⟨_, _, hchild'⟩, fun other hother => ⟨_, _, hothers other hother⟩⟩
    obtain ⟨address', below', hchildren'⟩ := exists_yields_each heach
    -- an equal element can stand beside the changed one, but it yields the same
    obtain ⟨hfound, hfoundOthers⟩ := forall_mem_middle.mp hchildren'
    obtain ⟨haddress, hbelow⟩ := hchild'.unique hfound
    have hsame : ∀ other ∈ front ++ back,
        address' other = address other ∧ below' other = below other :=
      fun other hother => (hothers other hother).unique (hfoundOthers other hother)
    have hsameShape : SameShape c ⟨uri, name, attributes, front ++ child :: back, textRuns⟩
        ⟨uri, name, attributes, front ++ child' :: back, textRuns⟩ address address' := by
      have hleaf : (front ++ child' :: back).isEmpty = (front ++ child :: back).isEmpty := by
        cases front <;> rfl
      refine ⟨hleaf, rfl, fun _ => rfl, fun _ => rfl, fun field => ?_⟩
      refine map_filter_middle ?_ haddress fun other hother => (hsame other hother).1
      exact congrArg (fun name => decide (name = field)) (hedit.childFieldName_eq _)
    refine ⟨address', below', hsameShape, hchildren', ?_⟩
    rw [← hbelow] at hperm
    exact flatMap_middle_perm hperm fun other hother => (hsame other hother).2

theorem SameContent.yields {e e' : Element} (h : e.SameContent e') {depth : Nat} {a : Address}
    {objects : List Object} (hyields : Yields c depth e a objects) :
    ∃ objects', Yields c depth e' a objects' ∧ objects'.Perm objects := by
  induction h with
  | refl => exact ⟨objects, hyields, .refl _⟩
  | tail _ hedit ih =>
    obtain ⟨between, hbetween, hperm⟩ := ih
    obtain ⟨objects', hyields', hperm'⟩ := hedit.yields hbetween
    exact ⟨objects', hyields', hperm'.trans hperm⟩

end Xml.Element

namespace Encoder

variable {e e' : Element}

/-- With a document every other one with the same content is encoded, to the same address and as the
same objects, into whatever store takes these, and by every schedule. -/
theorem content_decides (h : e.SameContent e') (c : Encoder) :
    (∀ {σ : Type} (put : Put σ) (s last : σ) (r : Address), c.encode put e s = (.ok r, last) →
      Replays put s ((c.handed e).map .stored) last ∧ (c.handed e').Perm (c.handed e) ∧
      ∀ {τ : Type} (put' : Put τ) (t : τ), Accepts put' (c.handed e) →
        ∃ last', c.encode put' e' t = (.ok r, last') ∧
          Replays put' t ((c.handed e').map .stored) last') ∧
    ∀ calls others r outcome, c.ElementRun 1 e calls (.ok r) → c.ElementRun 1 e' others outcome →
      Unrefused others → outcome = .ok r ∧ others.Perm calls := by
  constructor
  · intro σ put s last r hencode
    obtain ⟨objects, hyields, hreplay⟩ := exists_yields_of_encodeElement hencode
    obtain ⟨objects', hyields', hperm⟩ := h.yields hyields
    rw [hyields.handed_eq, hyields'.handed_eq]
    refine ⟨hreplay, hperm, fun put' t hput => ?_⟩
    exact hyields'.encodeElement (hput.of_subset fun o ho => hperm.mem_iff.mp ho) t
  · intro calls others r outcome hrun hother hunrefused
    obtain ⟨objects, hyields, hcalls⟩ := hrun.exists_yields
    obtain ⟨objects', hyields', hperm⟩ := h.yields hyields
    obtain ⟨houtcome, hothers⟩ := hyields'.elementRun.agrees r rfl _ _ hother hunrefused
    exact ⟨houtcome, hothers.trans ((hperm.map _).trans hcalls)⟩

/-- An attribute of each of two names, a child of each of two names, and a text. -/
def tightDocument : Element :=
  ⟨none, "a", [⟨none, "k", "v"⟩, ⟨none, "l", "w"⟩], [smallLeaf, otherLeaf], ["", "text", ""]⟩

/-- The same in another order, with an empty line above the first child. -/
def looseDocument : Element :=
  ⟨none, "a", [⟨none, "l", "w"⟩, ⟨none, "k", "v"⟩], [otherLeaf, smallLeaf], ["\n\n", "text", ""]⟩

theorem looseDocument_sameContent : tightDocument.SameContent looseDocument := by
  have hattributes :
      tightDocument.Edit { tightDocument with attributes := looseDocument.attributes } :=
    .attributes (by decide) (.swap _ _ _)
  have hchildren : Element.Edit { tightDocument with attributes := looseDocument.attributes }
      { looseDocument with textRuns := tightDocument.textRuns } := by
    refine .children (.swap _ _ _) fun field => ?_
    by_cases hsmall : field = "b"
    · subst hsmall
      rfl
    · by_cases hother : field = "c"
      · subst hother
        rfl
      · simp [Element.childrenUnder, Element.childFieldName, Element.fieldNameIn, looseDocument,
          tightDocument, smallLeaf, otherLeaf, Ne.symm hsmall, Ne.symm hother]
  have hlayout :
      Element.Edit { looseDocument with textRuns := tightDocument.textRuns } looseDocument :=
    .layout (by decide) (by decide)
  exact ((Relation.ReflTransGen.single hattributes).tail hchildren).tail hlayout

theorem content_decides_in_looseDocument :
    ∃ r, (smallEncoder.encode noting tightDocument []).1 = .ok r ∧
      (smallEncoder.encode noting looseDocument []).1 = .ok r ∧
      (smallEncoder.handed looseDocument).Perm (smallEncoder.handed tightDocument) := by
  have hnever : NeverFails noting := fun _ _ => rfl
  have hvalid : failure? (smallEncoder.encode noting tightDocument []).1 = none :=
    (failure?_encodeElement hnever 1 tightDocument []).trans (by decide +kernel)
  obtain ⟨r, hr⟩ := failure?_eq_none_iff.mp hvalid
  obtain ⟨-, hperm, hagain⟩ :=
    (content_decides looseDocument_sameContent smallEncoder).1 noting [] _ r (Prod.ext hr rfl)
  obtain ⟨last, hlast, -⟩ := hagain noting [] (accepts_noting _)
  exact ⟨r, hr, congrArg Prod.fst hlast, hperm⟩

end Encoder

end ContentGraph
