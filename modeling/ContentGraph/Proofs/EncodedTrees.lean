import ContentGraph.Proofs.Schedules

/-! What an element comes to when it is encoded: an address, and the objects that are handed over for
it. Neither depends on the store, as long as the store takes these objects, nor on the schedule. -/

namespace ContentGraph

open Xml (Element)

namespace Encoder

/-- An element at a depth is encoded as the object with the address. Handed over for it are the objects
of its children, in their order, and then its own. -/
inductive Yields (c : Encoder) : Nat → Element → Address → List Object → Prop
  | intro {depth : Nat} {e : Element} {type : String} {address : Element → Address}
    {below : Element → List Object} {shape : Shape} {o : Object}
    (hdepth : depth ≤ c.config.maxDepth) (htype : c.typeOf e = .ok type)
    (hchildren : ∀ child ∈ e.children, Yields c (depth + 1) child (address child) (below child))
    (hshape : c.shapeOf e type (e.children.map address) = .ok shape)
    (hobject : Object.ofNode shape.toNode = .ok o) :
    Yields c depth e o.address (e.children.flatMap below ++ [o])

theorem Yields.unique {c : Encoder} {depth : Nat} {e : Element} {a a' : Address}
    {objects objects' : List Object} (h : Yields c depth e a objects)
    (h' : Yields c depth e a' objects') : a' = a ∧ objects' = objects := by
  induction h generalizing a' objects' with
  | @intro depth e type address below shape o _ htype _ hshape hobject ih =>
    cases h' with
    | @intro _ _ type' address' below' shape' o' _ htype' hchildren' hshape' hobject' =>
      have haddresses : e.children.map address' = e.children.map address :=
        List.map_congr_left fun child hchild => (ih child hchild (hchildren' child hchild)).1
      have hbelow : e.children.flatMap below' = e.children.flatMap below :=
        List.flatMap_congr fun child hchild => (ih child hchild (hchildren' child hchild)).2
      obtain rfl := Except.ok.inj (htype'.symm.trans htype)
      rw [haddresses] at hshape'
      obtain rfl := Except.ok.inj (hshape'.symm.trans hshape)
      obtain rfl := Except.ok.inj (hobject'.symm.trans hobject)
      exact ⟨rfl, by rw [hbelow]⟩

theorem exists_yields_each {c : Encoder} {depth : Nat} {children : List Element}
    (h : ∀ child ∈ children, ∃ a objects, Yields c depth child a objects) :
    ∃ (address : Element → Address) (below : Element → List Object),
      ∀ child ∈ children, Yields c depth child (address child) (below child) := by
  have : Nonempty Address := ⟨Address.derive .node []⟩
  choose! address below hyields using h
  exact ⟨address, below, hyields⟩

section

variable {σ : Type} {put : Put σ} {c : Encoder} {depth : Nat}

/-- The put takes the objects, whatever has been put before. -/
def Accepts (put : Put σ) (objects : List Object) : Prop :=
  ∀ o ∈ objects, ∀ s, (put o s).1 = .ok ()

theorem Accepts.of_subset {objects some : List Object} (h : Accepts put objects)
    (hsome : ∀ o ∈ some, o ∈ objects) : Accepts put some :=
  fun o ho => h o (hsome o ho)

theorem encodeChildren_of_each {children : List Element} {address : Element → Address}
    {below : Element → List Object}
    (h : ∀ child ∈ children, ∀ s : σ, ∃ last,
      encodeElement c put depth child s = (.ok (address child), last) ∧
        Replays put s ((below child).map .stored) last) (s : σ) :
    ∃ last, encodeChildren c put depth children s = (.ok (children.map address), last) ∧
      Replays put s ((children.flatMap below).map .stored) last := by
  induction children generalizing s with
  | nil => exact ⟨s, rfl, .nil⟩
  | cons child rest ih =>
    obtain ⟨next, hchild, hreplay⟩ := h child List.mem_cons_self s
    have hbehind := fun child hchild => h child (List.mem_cons_of_mem _ hchild)
    obtain ⟨last, hrest, hlater⟩ := ih hbehind next
    refine ⟨last, ?_, ?_⟩
    · rw [encodeChildren, Stateful.bind_of_ok hchild, Stateful.bind_of_ok hrest]
      rfl
    · rw [List.flatMap_cons, List.map_append]
      exact hreplay.append hlater

theorem liftExcept_eq_ok_iff {ε α : Type} {result : Except ε α} {a : α} {s last : σ} :
    (liftExcept result : Stateful ε σ α) s = (.ok a, last) ↔ result = .ok a ∧ last = s := by
  cases result with
  | error cause =>
    constructor
    · intro h
      cases h
    · rintro ⟨h, -⟩
      cases h
  | ok b =>
    constructor
    · intro h
      cases h
      exact ⟨rfl, rfl⟩
    · rintro ⟨h, rfl⟩
      cases h
      rfl

theorem storeShape_eq_ok {shape : Shape} {a : Address} {s last : σ}
    (h : storeShape put shape s = (.ok a, last)) :
    ∃ o, Object.ofNode shape.toNode = .ok o ∧ o.address = a ∧ put o s = (.ok (), last) := by
  unfold storeShape at h
  cases hobject : Object.ofNode shape.toNode with
  | error cause =>
    rw [hobject] at h
    cases h
  | ok o =>
    rw [hobject] at h
    obtain ⟨_, next, hstore, hlast⟩ := Stateful.exists_of_bind_eq_ok h
    cases hlast
    unfold store at hstore
    cases hput : put o s with
    | mk result next' =>
      rw [hput] at hstore
      cases result with
      | error cause => cases hstore
      | ok _ =>
        cases hstore
        exact ⟨o, rfl, rfl, hput⟩

/-- The encoder succeeds with every store that takes the objects. -/
theorem Yields.encodeElement {e : Element} {a : Address} {objects : List Object}
    (h : Yields c depth e a objects) (hput : Accepts put objects) (s : σ) :
    ∃ last, encodeElement c put depth e s = (.ok a, last) ∧
      Replays put s (objects.map .stored) last := by
  induction h generalizing s with
  | @intro depth e type address below shape o hdepth htype _ hshape hobject ih =>
    have hbelow : ∀ child ∈ e.children, Accepts put (below child) := by
      intro child hchild
      refine hput.of_subset fun o ho => List.mem_append_left _ ?_
      exact List.mem_flatMap.mpr ⟨child, hchild, ho⟩
    obtain ⟨next, hnext, hreplay⟩ :=
      encodeChildren_of_each (fun child hchild s => ih child hchild (hbelow child hchild) s) s
    have ho : o ∈ e.children.flatMap below ++ [o] :=
      List.mem_append_right _ (List.mem_singleton_self o)
    have hok : put o next = (.ok (), (put o next).2) := Prod.ext (hput o ho next) rfl
    refine ⟨(put o next).2, ?_, ?_⟩
    · rw [encodeElement_eq, if_neg (Nat.not_lt.mpr hdepth), htype]
      show (encodeChildren c put (depth + 1) e.children >>= fun addresses =>
        liftExcept (c.shapeOf e type addresses) >>= storeShape put) s = _
      rw [Stateful.bind_of_ok hnext, hshape]
      exact storeShape_of_ok hobject hok
    · rw [List.map_append]
      exact hreplay.append (.stored hok .nil)

theorem exists_yields_of_encodeChildren {children : List Element} {s last : σ}
    {addresses : List Address}
    (ih : ∀ child ∈ children, ∀ s a last, encodeElement c put depth child s = (.ok a, last) →
      ∃ objects, Yields c depth child a objects ∧ Replays put s (objects.map .stored) last)
    (h : encodeChildren c put depth children s = (.ok addresses, last)) :
    (∀ child ∈ children, ∃ a objects, Yields c depth child a objects) ∧
      ∀ address below, (∀ child ∈ children, Yields c depth child (address child) (below child)) →
        addresses = children.map address ∧
          Replays put s ((children.flatMap below).map .stored) last := by
  induction children generalizing s addresses with
  | nil =>
    cases h
    exact ⟨nofun, fun _ _ _ => ⟨rfl, .nil⟩⟩
  | cons child rest ihrest =>
    rw [encodeChildren] at h
    obtain ⟨a, next, hchild, hbehind⟩ := Stateful.exists_of_bind_eq_ok h
    obtain ⟨later, last', hrest, hlast⟩ := Stateful.exists_of_bind_eq_ok hbehind
    cases hlast
    obtain ⟨objects, hyields, hreplay⟩ := ih child List.mem_cons_self s a next hchild
    obtain ⟨heach, hall⟩ :=
      ihrest (fun child hchild => ih child (List.mem_cons_of_mem _ hchild)) hrest
    refine ⟨List.forall_mem_cons.mpr ⟨⟨a, objects, hyields⟩, heach⟩, ?_⟩
    intro address below hgiven
    obtain ⟨hfirst, hothers⟩ := List.forall_mem_cons.mp hgiven
    obtain ⟨rfl, rfl⟩ := hfirst.unique hyields
    obtain ⟨rfl, hlater⟩ := hall address below hothers
    refine ⟨rfl, ?_⟩
    rw [List.flatMap_cons, List.map_append]
    exact hreplay.append hlater

/-- Nothing else than what the element yields comes of a success, whatever the store is. -/
theorem exists_yields_of_encodeElement {e : Element} {a : Address} {s last : σ}
    (h : encodeElement c put depth e s = (.ok a, last)) :
    ∃ objects, Yields c depth e a objects ∧ Replays put s (objects.map .stored) last := by
  induction e generalizing depth s a last with
  | element e ih =>
    rw [encodeElement_eq] at h
    by_cases hdepth : c.config.maxDepth < depth
    · rw [if_pos hdepth] at h
      cases h
    · rw [if_neg hdepth] at h
      obtain ⟨type, _, hlookup, hbelow⟩ := Stateful.exists_of_bind_eq_ok h
      obtain ⟨addresses, next, hchildren, hown⟩ := Stateful.exists_of_bind_eq_ok hbelow
      obtain ⟨shape, _, hassembled, hstored⟩ := Stateful.exists_of_bind_eq_ok hown
      obtain ⟨htype, rfl⟩ := liftExcept_eq_ok_iff.mp hlookup
      obtain ⟨hshape, rfl⟩ := liftExcept_eq_ok_iff.mp hassembled
      obtain ⟨heach, hall⟩ :=
        exists_yields_of_encodeChildren (fun child hchild s a last => ih child hchild) hchildren
      obtain ⟨address, below, hyields⟩ := exists_yields_each heach
      obtain ⟨rfl, hreplay⟩ := hall address below hyields
      obtain ⟨o, hobject, rfl, hput⟩ := storeShape_eq_ok hstored
      refine ⟨_, .intro (Nat.not_lt.mp hdepth) htype hyields hshape hobject, ?_⟩
      rw [List.map_append]
      exact hreplay.append (.stored hput .nil)

end

variable {c : Encoder} {e : Element} {r : Address} {objects : List Object}

theorem accepts_noting (objects : List Object) : Accepts noting objects :=
  fun _ _ _ => rfl

theorem map_stored_injective : Function.Injective (List.map PutCall.stored) :=
  List.map_injective_iff.mpr fun _ _ => PutCall.stored.inj

theorem Yields.encode_noting (h : Yields c 1 e r objects) :
    c.encode noting e [] = (.ok r, objects) := by
  obtain ⟨last, hencode, hreplay⟩ := h.encodeElement (accepts_noting objects) []
  obtain ⟨noted, hnoted, rfl⟩ := replays_noting hreplay
  obtain rfl := map_stored_injective hnoted
  exact hencode

theorem Yields.handed_eq (h : Yields c 1 e r objects) : c.handed e = objects :=
  congrArg Prod.snd h.encode_noting

theorem Yields.elementRun (h : Yields c 1 e r objects) :
    ElementRun c 1 e (objects.map .stored) (.ok r) := by
  obtain ⟨calls, hrun, hreplay⟩ := exists_run_of_encode h.encode_noting
  obtain ⟨noted, rfl, hnoted⟩ := replays_noting hreplay
  obtain rfl : objects = noted := hnoted
  exact hrun

theorem ElementRun.exists_yields {calls : List PutCall} (h : ElementRun c 1 e calls (.ok r)) :
    ∃ objects, Yields c 1 e r objects ∧ (objects.map .stored).Perm calls := by
  have hnever : NeverFails noting := fun _ _ => rfl
  have hok : (encodeElement c noting 1 e []).1 = .ok r :=
    h.encodeElement_ok hnever r rfl 1 (Nat.le_refl 1) []
  obtain ⟨objects, hyields, hreplay⟩ := exists_yields_of_encodeElement (Prod.ext hok rfl)
  exact ⟨objects, hyields, (h.agrees r rfl _ _ hyields.elementRun (hreplay.unrefused hnever)).2⟩

end Encoder

end ContentGraph
