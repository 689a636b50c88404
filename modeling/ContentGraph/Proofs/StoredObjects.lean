import ContentGraph.Proofs.EncodingRuns
import ContentGraph.Proofs.Links

/-! The objects that a document is stored as, one for every element, each built from the objects of
the children. A run that succeeds stores them all, and every other run answers with the same address
for as long as nothing refuses an object. -/

namespace ContentGraph

open Xml (Element)

theorem Shuffle.mem_iff {α : Type} {xs ys zs : List α} (h : Shuffle xs ys zs) {z : α} :
    z ∈ zs ↔ z ∈ xs ∨ z ∈ ys := by
  induction h with
  | nil => simp
  | left _ ih => simp [ih, or_assoc]
  | right _ ih => simp [ih, or_left_comm]

/-- The elements of a tree, the root among them. -/
inductive Xml.Element.Holds : Element → Element → Prop
  | root (e : Element) : Holds e e
  | inner {e child target : Element} (hchild : child ∈ e.children) (h : Holds child target) :
    Holds e target

namespace Encoder

/-- The element is stored as the object, and so are all below it, with something that holds of each
of them. -/
inductive StoredAs (c : Encoder) (held : Element → Object → Prop) : Element → Object → Prop
  | intro {e : Element} {type : String} {objects : List Object} {shape : Shape} {o : Object}
    (htype : c.typeOf e = .ok type) (hlength : objects.length = e.children.length)
    (hchildren : ∀ (i : Nat) (child : Element) (target : Object), e.children[i]? = some child →
      objects[i]? = some target → StoredAs c held child target)
    (hshape : c.shapeOf e type (objects.map Object.address) = .ok shape)
    (hobject : Object.ofNode shape.toNode = .ok o) (hheld : held e o) : StoredAs c held e o

theorem StoredAs.mono {c : Encoder} {held more : Element → Object → Prop} {e : Element} {o : Object}
    (h : StoredAs c held e o) (hmore : ∀ e o, held e o → more e o) : StoredAs c more e o := by
  induction h with
  | intro htype hlength _ hshape hobject hheld ih =>
    exact .intro htype hlength ih hshape hobject (hmore _ _ hheld)

/-- The objects of the children stand in the order of the children. -/
structure ChildrenStored (c : Encoder) (held : Element → Object → Prop) (e : Element)
    (objects : List Object) : Prop where
  count : objects.length = e.children.length
  each : ∀ (i : Nat) (child : Element) (target : Object), e.children[i]? = some child →
    objects[i]? = some target → StoredAs c held child target

theorem StoredAs.exists_children {c : Encoder} {held : Element → Object → Prop} {e : Element}
    {o : Object} (h : StoredAs c held e o) :
    ∃ type objects shape, ChildrenStored c held e objects ∧ c.typeOf e = .ok type ∧
      c.shapeOf e type (objects.map Object.address) = .ok shape ∧ o.tree = shape.toNode := by
  cases h with
  | intro htype hlength hchildren hshape hobject _ =>
    exact ⟨_, _, _, ⟨hlength, hchildren⟩, htype, hshape, (Object.tree_of_ofNode hobject).1⟩

theorem StoredAs.of_holds {c : Encoder} {held : Element → Object → Prop} {root e : Element}
    {o : Object} (h : StoredAs c held root o) (he : root.Holds e) : ∃ o', StoredAs c held e o' := by
  induction he generalizing o with
  | root e => exact ⟨o, h⟩
  | @inner e child target hchild _ ih =>
    obtain ⟨-, objects, -, hchildren, -⟩ := h.exists_children
    obtain ⟨i, hi, hget⟩ := List.mem_iff_getElem.mp hchild
    have hbound : i < objects.length := hchildren.count ▸ hi
    exact ih (hchildren.each i child objects[i] (List.getElem?_eq_some_iff.mpr ⟨hi, hget⟩)
      (List.getElem?_eq_getElem hbound))

/-- The object is handed over in one of the calls, by a run of the element alone. -/
def HandedOver (c : Encoder) (calls : List PutCall) (e : Element) (o : Object) : Prop :=
  .stored o ∈ calls ∧ ∃ depth own, 1 ≤ depth ∧ ElementRun c depth e own (.ok o.address)

theorem StoredAs.of_subset {c : Encoder} {calls all : List PutCall} {e : Element} {o : Object}
    (h : StoredAs c (HandedOver c calls) e o) (hall : ∀ call ∈ calls, call ∈ all) :
    StoredAs c (HandedOver c all) e o :=
  h.mono fun _ _ hheld => ⟨hall _ hheld.1, hheld.2⟩

mutual

theorem ElementRun.exists_storedAs {c : Encoder} {depth : Nat} {e : Element} {calls : List PutCall}
    {outcome : Except EncodeError Address} (hdepth : 1 ≤ depth) :
    ElementRun c depth e calls outcome → ∀ a, outcome = .ok a →
      ∃ o, o.address = a ∧ StoredAs c (HandedOver c calls) e o
  | .tooDeep _ => nofun
  | .untyped _ _ => nofun
  | .childFailed _ _ _ _ => nofun
  | .built hlimit htype hchildren hshape => by
    rintro a rfl
    obtain ⟨objects, haddresses, hlength, hstored⟩ :=
      hchildren.exists_storedAs (Nat.le_add_left 1 _) _ rfl
    have hrun := ElementRun.built hlimit htype hchildren hshape
    cases hshape with
    | stored h hobject =>
      rw [← haddresses] at h
      refine ⟨_, rfl, .intro htype hlength (fun i child target hchild htarget => ?_) h hobject
        ⟨List.mem_append_right _ (List.mem_singleton_self _), _, _, hdepth, hrun⟩⟩
      exact (hstored i child target hchild htarget).of_subset fun _ => List.mem_append_left _

theorem ChildrenRun.exists_storedAs {c : Encoder} {depth : Nat} {children : List Element}
    {calls : List PutCall} {results : List (Option (Except EncodeError Address))}
    (hdepth : 1 ≤ depth) :
    ChildrenRun c depth children calls results →
      ∀ addresses : List Address, results = addresses.map (fun a => some (.ok a)) →
        ∃ objects : List Object, objects.map Object.address = addresses ∧
          objects.length = children.length ∧
          ∀ (i : Nat) (child : Element) (target : Object), children[i]? = some child →
            objects[i]? = some target → StoredAs c (HandedOver c calls) child target
  | .nil => by
    intro addresses h
    obtain rfl := List.map_eq_nil_iff.mp h.symm
    refine ⟨[], rfl, rfl, fun i child target hi => ?_⟩
    rw [List.getElem?_nil] at hi
    cases hi
  | .run hchild hrest hshuffle => by
    intro addresses h
    obtain ⟨a, later, rfl, ha, hlater⟩ := List.map_eq_cons_iff.mp h.symm
    obtain ⟨o, haddress, ho⟩ := hchild.exists_storedAs hdepth a (Option.some.inj ha).symm
    obtain ⟨objects, haddresses, hlength, hstored⟩ :=
      hrest.exists_storedAs hdepth later hlater.symm
    refine ⟨o :: objects, by rw [List.map_cons, haddress, haddresses],
      congrArg (· + 1) hlength, fun i child target hi htarget => ?_⟩
    cases i with
    | zero =>
      cases hi
      cases htarget
      exact ho.of_subset fun _ hcall => hshuffle.mem_iff.mpr (.inl hcall)
    | succ i =>
      exact (hstored i child target hi htarget).of_subset fun _ hcall =>
        hshuffle.mem_iff.mpr (.inr hcall)
  | .skipped _ => by
    intro addresses h
    obtain ⟨a, later, -, ha, -⟩ := List.map_eq_cons_iff.mp h.symm
    cases ha

end

theorem ShapeRun.exists_shape {shape : Except EncodeError Shape} {own : List PutCall}
    {outcome : Except EncodeError Address} (h : ShapeRun shape own outcome) {o : Object}
    (ho : .stored o ∈ own) : ∃ built : Shape, Object.ofNode built.toNode = .ok o := by
  cases h with
  | conflict => cases ho
  | unbuilt => cases ho
  | refused => simp at ho
  | stored _ hobject =>
    obtain rfl := PutCall.stored.inj (List.mem_singleton.mp ho)
    exact ⟨_, hobject⟩

mutual

/-- Whatever is stored, by runs that fail as well, has the shape of an element. -/
theorem ElementRun.exists_shape {c : Encoder} {depth : Nat} {e : Element} {calls : List PutCall}
    {outcome : Except EncodeError Address} : ElementRun c depth e calls outcome →
      ∀ o, .stored o ∈ calls → ∃ shape : Shape, Object.ofNode shape.toNode = .ok o
  | .tooDeep _ => fun _ ho => absurd ho List.not_mem_nil
  | .untyped _ _ => fun _ ho => absurd ho List.not_mem_nil
  | .childFailed _ _ hchildren _ => hchildren.exists_shape
  | .built _ _ hchildren hshape => by
    intro o ho
    rcases List.mem_append.mp ho with ho | ho
    · exact hchildren.exists_shape o ho
    · exact hshape.exists_shape ho

theorem ChildrenRun.exists_shape {c : Encoder} {depth : Nat} {children : List Element}
    {calls : List PutCall} {results : List (Option (Except EncodeError Address))} :
    ChildrenRun c depth children calls results →
      ∀ o, .stored o ∈ calls → ∃ shape : Shape, Object.ofNode shape.toNode = .ok o
  | .nil => fun _ ho => absurd ho List.not_mem_nil
  | .run hchild hrest hshuffle => by
    intro o ho
    rcases hshuffle.mem_iff.mp ho with ho | ho
    · exact hchild.exists_shape o ho
    · exact hrest.exists_shape o ho
  | .skipped hrest => hrest.exists_shape

end

section

variable {σ : Type} {put : Put σ}

theorem ShapeRun.storeShape_ok (hput : ∀ o s, (put o s).1 = .ok ())
    {shape : Except EncodeError Shape} {own : List PutCall} {a : Address}
    (h : ShapeRun shape own (.ok a)) (s : σ) :
    ((liftExcept shape >>= storeShape put) s).1 = .ok a := by
  cases h with
  | @stored built o h hobject =>
    have hok : put o s = (.ok (), (put o s).2) := Prod.ext (hput o s) rfl
    rw [h]
    show (storeShape put built s).1 = _
    rw [storeShape_of_ok hobject hok]

mutual

theorem ElementRun.encodeElement_ok (hput : ∀ o s, (put o s).1 = .ok ()) {c : Encoder}
    {depth : Nat} {e : Element} {calls : List PutCall} {outcome : Except EncodeError Address} :
    ElementRun c depth e calls outcome → ∀ a, outcome = .ok a → ∀ least ≤ depth, ∀ s : σ,
      (encodeElement c put least e s).1 = .ok a
  | .tooDeep _ => nofun
  | .untyped _ _ => nofun
  | .childFailed _ _ _ _ => nofun
  | .built hlimit htype hchildren hshape => by
    rintro a rfl least hleast s
    have hok := hchildren.encodeChildren_ok hput _ rfl (least + 1) (Nat.succ_le_succ hleast) s
    rw [encodeElement_eq, if_neg (Nat.not_lt.mpr (Nat.le_trans hleast hlimit)), htype]
    show ((encodeChildren c put (least + 1) e.children >>= fun addresses =>
      liftExcept (c.shapeOf e _ addresses) >>= storeShape put) s).1 = _
    rw [Stateful.bind_of_fst_ok hok]
    exact hshape.storeShape_ok hput _

theorem ChildrenRun.encodeChildren_ok (hput : ∀ o s, (put o s).1 = .ok ()) {c : Encoder}
    {depth : Nat} {children : List Element} {calls : List PutCall}
    {results : List (Option (Except EncodeError Address))} :
    ChildrenRun c depth children calls results →
      ∀ addresses : List Address, results = addresses.map (fun a => some (.ok a)) →
        ∀ least ≤ depth, ∀ s : σ, (encodeChildren c put least children s).1 = .ok addresses
  | .nil => by
    intro addresses h least _ s
    obtain rfl := List.map_eq_nil_iff.mp h.symm
    rfl
  | .run hchild hrest _ => by
    intro addresses h least hleast s
    obtain ⟨a, later, rfl, ha, hlater⟩ := List.map_eq_cons_iff.mp h.symm
    have hok := hchild.encodeElement_ok hput a (Option.some.inj ha).symm least hleast s
    have hlaterOk := hrest.encodeChildren_ok hput later hlater.symm least hleast
    rw [encodeChildren, Stateful.bind_of_fst_ok hok, Stateful.bind_of_fst_ok (hlaterOk _)]
    rfl
  | .skipped _ => by
    intro addresses h
    obtain ⟨a, later, -, ha, -⟩ := List.map_eq_cons_iff.mp h.symm
    cases ha

end

end

end Encoder

end ContentGraph
