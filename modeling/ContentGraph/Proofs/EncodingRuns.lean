import ContentGraph.Encoder

/-! Runs of the encoder as the sequences of objects that they hand over to be stored. Siblings may be
encoded at the same time: what they hand over is then shuffled, and when one of them fails, others may
be left out. An element is handed over only when all its children have been encoded. -/

namespace ContentGraph

open Xml (Element)

inductive PutCall
  | stored (o : Object)
  | refused (o : Object) (cause : StoreError)

inductive Shuffle {α : Type} : List α → List α → List α → Prop
  | nil : Shuffle [] [] []
  | left {x : α} {xs ys zs : List α} (h : Shuffle xs ys zs) : Shuffle (x :: xs) ys (x :: zs)
  | right {y : α} {xs ys zs : List α} (h : Shuffle xs ys zs) : Shuffle xs (y :: ys) (y :: zs)

theorem Shuffle.nil_right {α : Type} (xs : List α) : Shuffle xs [] xs := by
  induction xs with
  | nil => exact .nil
  | cons x xs ih => exact .left ih

theorem Shuffle.nil_left {α : Type} (ys : List α) : Shuffle [] ys ys := by
  induction ys with
  | nil => exact .nil
  | cons y ys ih => exact .right ih

theorem Shuffle.append {α : Type} (xs ys : List α) : Shuffle xs ys (xs ++ ys) := by
  induction xs with
  | nil => exact Shuffle.nil_left ys
  | cons x xs ih => exact .left ih

/-- The calls that bring a store from one state to another. -/
inductive Replays {σ : Type} (put : Put σ) : σ → List PutCall → σ → Prop
  | nil {s : σ} : Replays put s [] s
  | stored {s next last : σ} {o : Object} {calls : List PutCall} (h : put o s = (.ok (), next))
    (hrest : Replays put next calls last) : Replays put s (.stored o :: calls) last
  | refused {s next last : σ} {o : Object} {cause : StoreError} {calls : List PutCall}
    (h : put o s = (.error cause, next)) (hrest : Replays put next calls last) :
    Replays put s (.refused o cause :: calls) last

theorem Replays.append {σ : Type} {put : Put σ} {s next last : σ} {calls later : List PutCall}
    (h : Replays put s calls next) (hlater : Replays put next later last) :
    Replays put s (calls ++ later) last := by
  induction h with
  | nil => exact hlater
  | stored h _ ih => exact .stored h (ih hlater)
  | refused h _ ih => exact .refused h (ih hlater)

namespace Encoder

/-- What becomes of an element whose children are stored. -/
inductive ShapeRun (shape : Except EncodeError Shape) :
    List PutCall → Except EncodeError Address → Prop
  | conflict {cause : EncodeError} (h : shape = .error cause) : ShapeRun shape [] (.error cause)
  | unbuilt {built : Shape} {cause : StoreError} (h : shape = .ok built)
    (hobject : Object.ofNode built.toNode = .error cause) :
    ShapeRun shape [] (.error (.store cause))
  | refused {built : Shape} {o : Object} {cause : StoreError} (h : shape = .ok built)
    (hobject : Object.ofNode built.toNode = .ok o) :
    ShapeRun shape [.refused o cause] (.error (.store cause))
  | stored {built : Shape} {o : Object} (h : shape = .ok built)
    (hobject : Object.ofNode built.toNode = .ok o) : ShapeRun shape [.stored o] (.ok o.address)

mutual

inductive ElementRun (c : Encoder) :
    Nat → Element → List PutCall → Except EncodeError Address → Prop
  | tooDeep {depth : Nat} {e : Element} (hdepth : c.config.maxDepth < depth) :
    ElementRun c depth e [] (.error (.tooDeep c.config.maxDepth))
  | untyped {depth : Nat} {e : Element} {cause : EncodeError} (hdepth : depth ≤ c.config.maxDepth)
    (htype : c.typeOf e = .error cause) : ElementRun c depth e [] (.error cause)
  | childFailed {depth : Nat} {e : Element} {type : String} {calls : List PutCall}
    {results : List (Option (Except EncodeError Address))} {cause : EncodeError}
    (hdepth : depth ≤ c.config.maxDepth) (htype : c.typeOf e = .ok type)
    (hchildren : ChildrenRun c (depth + 1) e.children calls results)
    (hfailed : some (.error cause) ∈ results) : ElementRun c depth e calls (.error cause)
  | built {depth : Nat} {e : Element} {type : String} {calls own : List PutCall}
    {addresses : List Address} {outcome : Except EncodeError Address}
    (hdepth : depth ≤ c.config.maxDepth) (htype : c.typeOf e = .ok type)
    (hchildren : ChildrenRun c (depth + 1) e.children calls (addresses.map fun a => some (.ok a)))
    (hshape : ShapeRun (c.shapeOf e type addresses) own outcome) :
    ElementRun c depth e (calls ++ own) outcome

/-- A child without a result has been left out. -/
inductive ChildrenRun (c : Encoder) :
    Nat → List Element → List PutCall → List (Option (Except EncodeError Address)) → Prop
  | nil {depth : Nat} : ChildrenRun c depth [] [] []
  | run {depth : Nat} {child : Element} {rest : List Element} {calls later all : List PutCall}
    {outcome : Except EncodeError Address} {results : List (Option (Except EncodeError Address))}
    (hchild : ElementRun c depth child calls outcome)
    (hrest : ChildrenRun c depth rest later results) (hshuffle : Shuffle calls later all) :
    ChildrenRun c depth (child :: rest) all (some outcome :: results)
  | skipped {depth : Nat} {child : Element} {rest : List Element} {calls : List PutCall}
    {results : List (Option (Except EncodeError Address))}
    (hrest : ChildrenRun c depth rest calls results) :
    ChildrenRun c depth (child :: rest) calls (none :: results)

end

theorem ChildrenRun.all_skipped (c : Encoder) (depth : Nat) (children : List Element) :
    ChildrenRun c depth children [] (children.map fun _ => none) := by
  induction children with
  | nil => exact .nil
  | cons child rest ih => exact .skipped ih

theorem ElementRun.of_childless {c : Encoder} {depth : Nat} {e : Element} {type : String}
    {shape : Shape} {o : Object} (hchildren : e.children = []) (hdepth : depth ≤ c.config.maxDepth)
    (htype : c.typeOf e = .ok type) (hshape : c.shapeOf e type [] = .ok shape)
    (hobject : Object.ofNode shape.toNode = .ok o) :
    ElementRun c depth e [.stored o] (.ok o.address) := by
  have hnone : ChildrenRun c (depth + 1) e.children [] (List.map (fun a => some (.ok a)) []) := by
    rw [hchildren]
    exact .nil
  exact .built hdepth htype hnone (.stored hshape hobject)

section

variable {σ : Type} {put : Put σ} {shape : Shape} {o : Object} {s next : σ}

theorem storeShape_of_ok (hobject : Object.ofNode shape.toNode = .ok o)
    (hput : put o s = (.ok (), next)) : storeShape put shape s = (.ok o.address, next) := by
  have hstore : store put o s = (.ok (), next) := by rw [store, hput]
  rw [storeShape, hobject]
  dsimp only
  rw [Stateful.bind_of_ok hstore]
  rfl

theorem storeShape_of_error {cause : StoreError} (hobject : Object.ofNode shape.toNode = .ok o)
    (hput : put o s = (.error cause, next)) :
    storeShape put shape s = (.error (.store cause), next) := by
  have hstore : store put o s = (.error (.store cause), next) := by rw [store, hput]
  rw [storeShape, hobject]
  exact Stateful.bind_of_error hstore

end

variable {σ : Type} (put : Put σ)

theorem exists_shapeRun (shape : Except EncodeError Shape) (s : σ) :
    ∃ calls, ShapeRun shape calls ((liftExcept shape >>= storeShape put) s).1 ∧
      Replays put s calls ((liftExcept shape >>= storeShape put) s).2 := by
  cases shape with
  | error cause => exact ⟨[], .conflict rfl, .nil⟩
  | ok built =>
    have hlift : (pure built : Stateful EncodeError σ Shape) s = (.ok built, s) := rfl
    rw [liftExcept, Stateful.bind_of_ok hlift]
    cases hobject : Object.ofNode built.toNode with
    | error cause =>
      rw [storeShape, hobject]
      exact ⟨[], .unbuilt rfl hobject, .nil⟩
    | ok o =>
      cases hput : put o s with
      | mk result next =>
        cases result with
        | error cause =>
          rw [storeShape_of_error hobject hput]
          exact ⟨[.refused o cause], .refused rfl hobject, .refused hput .nil⟩
        | ok _ =>
          rw [storeShape_of_ok hobject hput]
          exact ⟨[.stored o], .stored rfl hobject, .stored hput .nil⟩

theorem encodeElement_eq (c : Encoder) (depth : Nat) (e : Element) :
    encodeElement c put depth e = (do
      if c.config.maxDepth < depth then throw (.tooDeep c.config.maxDepth)
      let type ← liftExcept (c.typeOf e)
      let addresses ← encodeChildren c put (depth + 1) e.children
      let shape ← liftExcept (c.shapeOf e type addresses)
      storeShape put shape) := by
  cases e
  rw [encodeElement]

theorem exists_childrenRun {c : Encoder} {depth : Nat} {children : List Element}
    (ih : ∀ child ∈ children, ∀ s : σ, ∃ calls,
      ElementRun c depth child calls (encodeElement c put depth child s).1 ∧
        Replays put s calls (encodeElement c put depth child s).2) (s : σ) :
    ∃ calls results, ChildrenRun c depth children calls results ∧
      Replays put s calls (encodeChildren c put depth children s).2 ∧
      match (encodeChildren c put depth children s).1 with
      | .ok addresses => results = addresses.map (fun a => some (.ok a))
      | .error cause => some (.error cause) ∈ results := by
  induction children generalizing s with
  | nil => exact ⟨[], [], .nil, .nil, rfl⟩
  | cons child rest ihrest =>
    obtain ⟨calls, hrun, hreplay⟩ := ih child List.mem_cons_self s
    rw [encodeChildren]
    cases hchild : encodeElement c put depth child s with
    | mk outcome next =>
      rw [hchild] at hrun hreplay
      cases outcome with
      | error cause =>
        rw [Stateful.bind_of_error hchild]
        exact ⟨calls, _, .run hrun (ChildrenRun.all_skipped c depth rest) (Shuffle.nil_right calls),
          hreplay, List.mem_cons_self⟩
      | ok address =>
        obtain ⟨later, results, hlater, hlaterReplay, hresults⟩ :=
          ihrest (fun child h => ih child (List.mem_cons_of_mem _ h)) next
        have hall := ChildrenRun.run hrun hlater (Shuffle.append calls later)
        refine ⟨calls ++ later, _, hall, ?_⟩
        rw [Stateful.bind_of_ok hchild]
        cases hrest : encodeChildren c put depth rest next with
        | mk outcome last =>
          rw [hrest] at hlaterReplay hresults
          cases outcome with
          | error cause =>
            rw [Stateful.bind_of_error hrest]
            exact ⟨hreplay.append hlaterReplay, List.mem_cons_of_mem _ hresults⟩
          | ok addresses =>
            rw [Stateful.bind_of_ok hrest]
            exact ⟨hreplay.append hlaterReplay, congrArg _ hresults⟩

/-- What the encoder does with a store is one of its runs, in which siblings come one after the
other. -/
theorem exists_elementRun (c : Encoder) (depth : Nat) (e : Element) (s : σ) :
    ∃ calls, ElementRun c depth e calls (encodeElement c put depth e s).1 ∧
      Replays put s calls (encodeElement c put depth e s).2 := by
  induction e generalizing depth s with
  | element e ih =>
    rw [encodeElement_eq]
    by_cases hdepth : c.config.maxDepth < depth
    · rw [if_pos hdepth]
      exact ⟨[], .tooDeep hdepth, .nil⟩
    · have hle := Nat.not_lt.mp hdepth
      rw [if_neg hdepth]
      cases htype : c.typeOf e with
      | error cause => exact ⟨[], .untyped hle htype, .nil⟩
      | ok type =>
        obtain ⟨calls, results, hchildren, hreplay, hresults⟩ :=
          exists_childrenRun put (fun child h s => ih child h (depth + 1) s) s
        show ∃ calls, ElementRun c depth e calls
            ((encodeChildren c put (depth + 1) e.children >>= fun addresses =>
              liftExcept (c.shapeOf e type addresses) >>= storeShape put) s).1 ∧
          Replays put s calls
            ((encodeChildren c put (depth + 1) e.children >>= fun addresses =>
              liftExcept (c.shapeOf e type addresses) >>= storeShape put) s).2
        cases hresult : encodeChildren c put (depth + 1) e.children s with
        | mk outcome next =>
          rw [hresult] at hreplay hresults
          cases outcome with
          | error cause =>
            rw [Stateful.bind_of_error hresult]
            exact ⟨calls, .childFailed hle htype hchildren hresults, hreplay⟩
          | ok addresses =>
            obtain rfl := hresults
            obtain ⟨own, hshape, hown⟩ := exists_shapeRun put (c.shapeOf e type addresses) next
            rw [Stateful.bind_of_ok hresult]
            exact ⟨calls ++ own, .built hle htype hchildren hshape, hreplay.append hown⟩

theorem exists_run_of_encode {put : Put σ} {c : Encoder} {root : Element} {s last : σ} {r : Address}
    (h : c.encode put root s = (.ok r, last)) :
    ∃ calls, ElementRun c 1 root calls (.ok r) ∧ Replays put s calls last := by
  obtain ⟨calls, hrun, hreplay⟩ := exists_elementRun put c 1 root s
  rw [show encodeElement c put 1 root s = _ from h] at hrun hreplay
  exact ⟨calls, hrun, hreplay⟩

end Encoder

end ContentGraph
