import ContentGraph.Proofs.EncodedTrees

/-! The calls that the encoder makes of a put, one after the other. There is one for each element, and
those of its children come before its own. The first that is refused is the last one, and for a
document that cannot be read there is none. -/

namespace ContentGraph

open Xml (Element)

namespace Xml.Element

mutual

/-- The elements of a tree, each behind all that stand in it. -/
def postorder (e : Element) : List Element :=
  match e with
  | ⟨uri, name, attributes, children, textRuns⟩ =>
    postorderOfChildren children ++ [⟨uri, name, attributes, children, textRuns⟩]

def postorderOfChildren : List Element → List Element
  | [] => []
  | child :: rest => postorder child ++ postorderOfChildren rest

end

theorem postorderOfChildren_eq (children : List Element) :
    postorderOfChildren children = children.flatMap postorder := by
  induction children with
  | nil => rfl
  | cons child rest ih => rw [postorderOfChildren, List.flatMap_cons, ih]

theorem postorder_eq (e : Element) : e.postorder = e.children.flatMap postorder ++ [e] := by
  cases e
  rw [postorder, postorderOfChildren_eq]

end Xml.Element

theorem forall₂_flatMap {α β γ : Type} {R : β → γ → Prop} {f : α → List β} {g : α → List γ}
    {xs : List α} (h : ∀ x ∈ xs, List.Forall₂ R (f x) (g x)) :
    List.Forall₂ R (xs.flatMap f) (xs.flatMap g) := by
  induction xs with
  | nil => exact .nil
  | cons x xs ih =>
    rw [List.flatMap_cons, List.flatMap_cons]
    exact List.rel_append (h x List.mem_cons_self) (ih fun y hy => h y (List.mem_cons_of_mem _ hy))

namespace Encoder

/-- The object that is made of an element, whose links are the addresses of those made of its
children. -/
abbrev MadeOf (c : Encoder) (e : Element) (o : Object) : Prop :=
  StoredAs c (fun _ _ => True) e o

theorem Yields.exists_madeOf {c : Encoder} {depth : Nat} {e : Element} {a : Address}
    {objects : List Object} (h : Yields c depth e a objects) :
    ∃ o, o.address = a ∧ c.MadeOf e o ∧ objects.getLast? = some o := by
  induction h with
  | @intro depth e type address below shape o _ htype _ hshape hobject ih =>
    have : Nonempty Object := ⟨o⟩
    choose! made haddress hmade _ using ih
    have haddresses : (e.children.map made).map Object.address = e.children.map address := by
      rw [List.map_map]
      exact List.map_congr_left haddress
    refine ⟨o, rfl, ?_, List.getLast?_concat⟩
    refine .intro htype (List.length_map _) (fun i child target hchild htarget => ?_)
      (haddresses ▸ hshape) hobject trivial
    rw [List.getElem?_map, hchild] at htarget
    cases htarget
    exact hmade child (List.mem_of_getElem? hchild)

/-- What an element yields are the objects made of the elements of its tree, in postorder. -/
theorem Yields.forall₂_madeOf {c : Encoder} {depth : Nat} {e : Element} {a : Address}
    {objects : List Object} (h : Yields c depth e a objects) :
    List.Forall₂ c.MadeOf e.postorder objects := by
  obtain ⟨o, -, hown, hlast⟩ := h.exists_madeOf
  induction h generalizing o with
  | @intro depth e type address below shape o' _ _ hchildren _ _ ih =>
    obtain rfl : o' = o := by simpa using hlast
    rw [Xml.Element.postorder_eq]
    refine List.rel_append (forall₂_flatMap fun child hchild => ?_) (.cons hown .nil)
    obtain ⟨made, -, hmade, hmadeLast⟩ := (hchildren child hchild).exists_madeOf
    exact ih child hchild made hmade hmadeLast

section

variable {σ : Type} {put : Put σ} {c : Encoder} {depth : Nat}

/-- Puts the objects in their order, up to the first one that is refused. -/
def storeEach (put : Put σ) (objects : List Object) : Stateful EncodeError σ Unit :=
  objects.forM (store put)

theorem storeEach_cons (put : Put σ) (o : Object) (rest : List Object) :
    storeEach put (o :: rest) = store put o >>= fun _ => storeEach put rest := rfl

theorem storeEach_append (put : Put σ) (front back : List Object) :
    storeEach put (front ++ back) = storeEach put front >>= fun _ => storeEach put back :=
  List.forM_append

theorem encodeChildren_eq_storeEach {children : List Element} {address : Element → Address}
    {below : Element → List Object}
    (h : ∀ child ∈ children, encodeElement c put depth child =
      storeEach put (below child) >>= fun _ => pure (address child)) :
    encodeChildren c put depth children =
      storeEach put (children.flatMap below) >>= fun _ => pure (children.map address) := by
  induction children with
  | nil => rfl
  | cons child rest ih =>
    have hrest := ih fun child hchild => h child (List.mem_cons_of_mem _ hchild)
    rw [encodeChildren, h child List.mem_cons_self, hrest, List.flatMap_cons, storeEach_append]
    simp only [bind_assoc, pure_bind, List.map_cons]

theorem storeShape_eq_storeEach {shape : Shape} {o : Object}
    (hobject : Object.ofNode shape.toNode = .ok o) :
    storeShape put shape = storeEach put [o] >>= fun _ => pure o.address := by
  have hnil : storeEach put [] = pure () := rfl
  rw [storeShape, hobject, storeEach_cons, hnil]
  simp only [bind_assoc, pure_bind]

/-- Encoding an element is putting what it yields. -/
theorem Yields.encodeElement_eq_storeEach {e : Element} {a : Address} {objects : List Object}
    (h : Yields c depth e a objects) :
    Encoder.encodeElement c put depth e = storeEach put objects >>= fun _ => pure a := by
  induction h with
  | @intro depth e type address below shape o hdepth htype _ hshape hobject ih =>
    have hchildren := encodeChildren_eq_storeEach ih
    rw [encodeElement_eq, if_neg (Nat.not_lt.mpr hdepth), htype, hchildren, storeEach_append]
    simp only [liftExcept, pure_bind, bind_assoc, hshape, storeShape_eq_storeEach hobject]

/-- Keeps the objects that a put has been called with beside its state. -/
def recording (put : Put σ) : Put (σ × List Object) :=
  fun o s => ((put o s.1).1, (put o s.1).2, s.2 ++ [o])

theorem store_recording {o : Object} {s next : σ} {result : Except StoreError Unit}
    (h : put o s = (result, next)) (called : List Object) :
    store (recording put) o (s, called) = (result.mapError .store, next, called ++ [o]) := by
  rw [store, recording, h]
  cases result <;> rfl

/-- Recording the calls changes nothing else. -/
theorem encode_recording (put : Put σ) (c : Encoder) (root : Element) (s : σ)
    (called : List Object) :
    (c.encode put root s).1 = (c.encode (recording put) root (s, called)).1 ∧
      (c.encode put root s).2 = (c.encode (recording put) root (s, called)).2.1 := by
  have hmirrors : ∀ o, Mirrors (fun s t => s = t.1) (put o) (recording put o) := by
    rintro o s ⟨_, called⟩ rfl
    exact ⟨rfl, rfl⟩
  exact Mirrors.encodeElement hmirrors c 1 root s (s, called) rfl

theorem storeEach_recording_of_stored {objects : List Object} {s last : σ}
    (h : Replays put s (objects.map .stored) last) (called : List Object) :
    storeEach (recording put) objects (s, called) = (.ok (), last, called ++ objects) := by
  induction objects generalizing s called with
  | nil =>
    cases h
    rw [List.append_nil]
    rfl
  | cons o rest ih =>
    cases h with
    | stored hput hrest =>
      rw [storeEach_cons, Stateful.bind_of_ok (store_recording hput called), ih hrest,
        List.append_assoc, List.singleton_append]

/-- The call that is refused is the last one. -/
theorem storeEach_recording_of_refused {objects : List Object} {k : Nat} {o : Object}
    {cause : StoreError} {s last : σ} (hk : objects[k]? = some o)
    (h : Replays put s ((objects.take k).map .stored ++ [.refused o cause]) last)
    (called : List Object) :
    storeEach (recording put) objects (s, called) =
      (.error (.store cause), last, called ++ objects.take (k + 1)) := by
  induction objects generalizing k s called with
  | nil => cases hk
  | cons first rest ih =>
    cases k with
    | zero =>
      cases hk
      cases h with
      | refused hput hrest =>
        cases hrest
        exact Stateful.bind_of_error (store_recording hput called)
    | succ k =>
      cases h with
      | stored hput hrest =>
        rw [storeEach_cons, Stateful.bind_of_ok (store_recording hput called), ih hk hrest,
          List.append_assoc, List.singleton_append, List.take_succ_cons]

end

/-- The objects of a document that is encoded as one with the address. A put is called with these
objects, one after the other, until it refuses one, which ends the calls. -/
structure Calls (c : Encoder) (root : Element) (r : Address) (objects : List Object) : Prop where
  each : List.Forall₂ c.MadeOf root.postorder objects
  last : ∃ o, objects.getLast? = some o ∧ o.address = r
  accepted : ∀ {σ : Type} (put : Put σ) (s last : σ), Replays put s (objects.map .stored) last →
    c.encode (recording put) root (s, []) = (.ok r, last, objects)
  refused : ∀ {σ : Type} (put : Put σ) (s last : σ) (k : Nat) (o : Object) (cause : StoreError),
    objects[k]? = some o →
    Replays put s ((objects.take k).map .stored ++ [.refused o cause]) last →
    c.encode (recording put) root (s, []) =
      (.error (.store cause), last, objects.take (k + 1))

theorem Yields.calls {c : Encoder} {root : Element} {r : Address} {objects : List Object}
    (h : Yields c 1 root r objects) : Calls c root r objects := by
  obtain ⟨o, haddress, -, hlast⟩ := h.exists_madeOf
  refine ⟨h.forall₂_madeOf, ⟨o, hlast, haddress⟩, fun put s last hreplay => ?_,
    fun put s last k o cause hk hreplay => ?_⟩
  · rw [encode, h.encodeElement_eq_storeEach,
      Stateful.bind_of_ok (storeEach_recording_of_stored hreplay [])]
    rfl
  · rw [encode, h.encodeElement_eq_storeEach]
    exact Stateful.bind_of_error (storeEach_recording_of_refused hk hreplay [])

/-- If a document is encoded with some put, then that put has been called once for each element, and
every other put is called with the same objects in the same order, up to the first that it refuses.
With a document that cannot be read no put is called. -/
theorem puts_stop_at_first_refusal (c : Encoder) :
    (∀ {σ : Type} (put : Put σ) (root : Element) (s : σ) (called : List Object),
      (c.encode put root s).1 = (c.encode (recording put) root (s, called)).1 ∧
        (c.encode put root s).2 = (c.encode (recording put) root (s, called)).2.1) ∧
    (∀ {σ : Type} (put : Put σ) (root : Element) (s last : σ) (r : Address),
      c.encode put root s = (.ok r, last) → ∃ objects, Calls c root r objects ∧
        c.encode (recording put) root (s, []) = (.ok r, last, objects)) ∧
    ∀ (data : Bytes) (cause : Xml.DocumentError),
      Xml.parseDocument c.config.maxDepth data = .error cause → ∀ {σ : Type} (put : Put σ) (s : σ),
        c.encodeDocument (recording put) data (s, []) = (.error (.document cause), s, []) := by
  refine ⟨fun put root s called => encode_recording put c root s called, ?_, ?_⟩
  · intro σ put root s last r hencode
    obtain ⟨objects, hyields, hreplay⟩ := exists_yields_of_encodeElement hencode
    exact ⟨objects, hyields.calls, hyields.calls.accepted put s last hreplay⟩
  · intro data cause hparse σ put s
    rw [encodeDocument, hparse]
    rfl

/-- Accepts as many calls and refuses all that follow. -/
def refusingAfter (accepted : Nat) (cause : StoreError) : Put Nat := fun _ calls =>
  (if calls < accepted then .ok () else .error cause, calls + 1)

/-- Of the three objects for an element and its two children the second is refused. -/
theorem puts_stop_at_first_refusal_among_siblings :
    (∃ objects : List Object, objects.length = 3 ∧
      (smallEncoder.encode (recording noting) siblings ([], [])).2.2 = objects ∧
        smallEncoder.encode (recording (refusingAfter 1 (.io ⟨.writeZero, "full"⟩))) siblings
          (0, []) = (.error (.store (.io ⟨.writeZero, "full"⟩)), 2, objects.take 2)) ∧
      smallEncoder.encodeDocument (recording noting) [] ([], []) =
        (.error (.document .noRoot), [], []) := by
  obtain ⟨-, hcalls, hnone⟩ := puts_stop_at_first_refusal smallEncoder
  have hnever : NeverFails noting := fun _ _ => rfl
  have hanswer : (smallEncoder.encode noting siblings []).1 = .ok siblingsObject.address :=
    siblings_run.encodeElement_ok hnever _ rfl 1 (Nat.le_refl 1) _
  obtain ⟨objects, hobjects, hrecorded⟩ := hcalls noting siblings [] _ _ (Prod.ext hanswer rfl)
  have hlength : objects.length = 3 := hobjects.each.length_eq.symm
  refine ⟨⟨objects, hlength, by rw [hrecorded], ?_⟩, ?_⟩
  · obtain ⟨first, second, third, rfl⟩ := List.length_eq_three.mp hlength
    exact hobjects.refused (refusingAfter 1 (.io ⟨.writeZero, "full"⟩)) 0 2 1 second _ rfl
      (.stored rfl (.refused rfl .nil))
  · have hparse (limit : Nat) : Xml.parseDocument limit [] = .error .noRoot := by
      have hread : Xml.dropByteOrderMark [] = [] := rfl
      rw [Xml.parseDocument, hread, Xml.Reading.run]
      rfl
    exact hnone _ _ (hparse _) noting []

end Encoder

end ContentGraph
