import ContentGraph.Converter
import ContentGraph.Proofs.Schedules

/-! The encoder asks for the types of the elements of a document and for nothing else, so resolvers
that agree on these cannot be told apart by it. A context behind others decides only about names
that none of them knows, and a context that names no element decides nothing. -/

namespace ContentGraph

open Xml (Element)

namespace Encoder

/-- The resolvers have the same type for every element of the tree, or both have none. -/
def AgreeOn (root : Element) (resolve other : Resolver) : Prop :=
  ∀ e, root.Holds e → resolve e.uri e.name = other e.uri e.name

variable {resolve other : Resolver} {config : EncoderConfig} {root e child : Element}

theorem AgreeOn.symm (h : AgreeOn root resolve other) : AgreeOn root other resolve :=
  fun e he => (h e he).symm

theorem AgreeOn.of_mem (h : AgreeOn root resolve other) (hchild : child ∈ root.children) :
    AgreeOn child resolve other :=
  fun e he => h e (.inner hchild he)

theorem AgreeOn.typeOf_eq (h : AgreeOn root resolve other) :
    typeOf ⟨resolve, config⟩ root = typeOf ⟨other, config⟩ root := by
  rw [typeOf, typeOf]
  dsimp only
  rw [h root (.root root)]

section

variable {σ : Type} (put : Put σ)

theorem encodeChildren_congr {c c' : Encoder} {depth : Nat} {children : List Element}
    (h : ∀ child ∈ children, encodeElement c put depth child = encodeElement c' put depth child) :
    encodeChildren c put depth children = encodeChildren c' put depth children := by
  induction children with
  | nil => rw [encodeChildren, encodeChildren]
  | cons child rest ih =>
    obtain ⟨hfirst, hrest⟩ := List.forall_mem_cons.mp h
    rw [encodeChildren, encodeChildren, hfirst, ih hrest]

theorem encodeElement_congr (h : AgreeOn e resolve other) (depth : Nat) :
    encodeElement ⟨resolve, config⟩ put depth e = encodeElement ⟨other, config⟩ put depth e := by
  induction e generalizing depth with
  | element e ih =>
    have hchildren := encodeChildren_congr put fun child hchild =>
      ih child hchild (h.of_mem hchild) (depth + 1)
    rw [encodeElement_eq, encodeElement_eq, h.typeOf_eq, hchildren]
    rfl

end

mutual

theorem ElementRun.congr {depth : Nat} {e : Element} {calls : List PutCall}
    {outcome : Except EncodeError Address} : ElementRun ⟨resolve, config⟩ depth e calls outcome →
      AgreeOn e resolve other → ElementRun ⟨other, config⟩ depth e calls outcome
  | .tooDeep hdepth => fun _ => .tooDeep hdepth
  | .untyped hdepth htype => fun h => .untyped hdepth (h.typeOf_eq.symm.trans htype)
  | .childFailed hdepth htype hchildren hfailed => by
    intro h
    have hsame := hchildren.congr fun child hchild => h.of_mem hchild
    exact .childFailed hdepth (h.typeOf_eq.symm.trans htype) hsame hfailed
  | .built hdepth htype hchildren hshape => by
    intro h
    have hsame := hchildren.congr fun child hchild => h.of_mem hchild
    exact .built hdepth (h.typeOf_eq.symm.trans htype) hsame hshape

theorem ChildrenRun.congr {depth : Nat} {children : List Element} {calls : List PutCall}
    {results : List (Option (Except EncodeError Address))} :
    ChildrenRun ⟨resolve, config⟩ depth children calls results →
      (∀ child ∈ children, AgreeOn child resolve other) →
        ChildrenRun ⟨other, config⟩ depth children calls results
  | .nil => fun _ => .nil
  | .run hchild hrest hshuffle => by
    intro h
    obtain ⟨hfirst, hlater⟩ := List.forall_mem_cons.mp h
    exact .run (hchild.congr hfirst) (hrest.congr hlater) hshuffle
  | .skipped hrest => by
    intro h
    obtain ⟨-, hlater⟩ := List.forall_mem_cons.mp h
    exact .skipped (hrest.congr hlater)

end

theorem StoredAs.exists_type {c : Encoder} {held : Element → Object → Prop} {root e : Element}
    {o : Object} (h : StoredAs c held root o) (he : root.Holds e) :
    ∃ type, c.resolve e.uri e.name = some type := by
  obtain ⟨o', ho'⟩ := h.of_holds he
  obtain ⟨type, -, -, -, htype, -⟩ := ho'.exists_children
  exact ⟨type, resolve_of_typeOf htype⟩

/-- Both encoders do the same with a document: whatever put they are given, be it one that notes
what it is handed, and in each of their runs. -/
structure Alike (c c' : Encoder) (root : Element) : Prop where
  encode : ∀ {σ : Type} (put : Put σ) (s : σ), c.encode put root s = c'.encode put root s
  handed : c.handed root = c'.handed root
  runs : ∀ calls outcome, c.ElementRun 1 root calls outcome ↔ c'.ElementRun 1 root calls outcome

theorem AgreeOn.alike (h : AgreeOn root resolve other) :
    Alike ⟨resolve, config⟩ ⟨other, config⟩ root where
  encode put s := congrFun (encodeElement_congr put h 1) s
  handed := congrArg Prod.snd (congrFun (encodeElement_congr noting h 1) [])
  runs _ _ := ⟨fun hrun => hrun.congr h, fun hrun => hrun.congr h.symm⟩

end Encoder

namespace Context

theorem resolveInOrder_append (earlier later : List Context) (uri : Option String) (name : String) :
    resolveInOrder (earlier ++ later) uri name =
      (resolveInOrder earlier uri name).or (resolveInOrder later uri name) :=
  List.findSome?_append

/-- One of the terms is the element's name, with or without its namespace. -/
def Names (c : Context) (e : Element) : Prop :=
  ∃ term ∈ c.terms.keys, term = e.name ∨ ∃ uri, e.uri = some uri ∧
    term = Xml.qualifiedName uri e.name

theorem lookup_eq_none {c : Context} {name : String} (h : name ∉ c.terms.keys) :
    c.lookup name = none := by
  refine List.lookup_eq_none_iff.mpr fun p hp => ?_
  have hne : name ≠ p.1 := by
    rintro rfl
    exact h (List.mem_map_of_mem hp)
  simpa using hne

theorem resolve_of_not_names {c : Context} {e : Element} (h : ¬c.Names e) :
    c.resolve e.uri e.name = none := by
  have hbare : c.lookup e.name = none :=
    lookup_eq_none fun hterm => h ⟨e.name, hterm, .inl rfl⟩
  have hqualified : (e.uri.bind fun uri => c.lookup (Xml.qualifiedName uri e.name)) = none := by
    cases huri : e.uri with
    | none => rfl
    | some uri =>
      exact lookup_eq_none fun hterm => h ⟨_, hterm, .inr ⟨uri, huri, rfl⟩⟩
  rw [resolve, hqualified]
  exact hbare

end Context

open Context

namespace Converter

variable {config : EncoderConfig} {root : Element}

theorem alike_append {earlier later : List Context}
    (h : ∀ e, root.Holds e → ∃ type, resolveInOrder earlier e.uri e.name = some type) :
    Encoder.Alike (Converter.mk (earlier ++ later) config).encoder
      (Converter.mk earlier config).encoder root := by
  refine Encoder.AgreeOn.alike fun e he => ?_
  obtain ⟨type, htype⟩ := h e he
  rw [resolveInOrder_append, htype, Option.some_or]

theorem alike_insert {front back : List Context} {added : Context}
    (h : ∀ e, root.Holds e → ¬added.Names e) :
    Encoder.Alike (Converter.mk (front ++ added :: back) config).encoder
      (Converter.mk (front ++ back) config).encoder root := by
  refine Encoder.AgreeOn.alike fun e he => ?_
  have hadded : resolveInOrder (added :: back) e.uri e.name = resolveInOrder back e.uri e.name := by
    rw [resolveInOrder, List.findSome?_cons, resolve_of_not_names (h e he)]
    rfl
  rw [resolveInOrder_append, resolveInOrder_append, hadded]

theorem exists_type_of_run {contexts : List Context} {calls : List PutCall} {a : Address}
    (h : (Converter.mk contexts config).encoder.ElementRun 1 root calls (.ok a)) (e : Element)
    (he : root.Holds e) : ∃ type, resolveInOrder contexts e.uri e.name = some type := by
  obtain ⟨o, -, hstored⟩ := h.exists_storedAs (Nat.le_refl 1) a rfl
  exact hstored.exists_type he

/-- A document that is encoded under some contexts is encoded alike when more contexts stand behind
these, whatever they say of its names. And a context that says nothing of its names makes no
difference to a document wherever it stands, be it one that cannot be encoded. -/
theorem earlier_contexts_decide (config : EncoderConfig) (root : Element) :
    (∀ (earlier later : List Context) {σ : Type} (put : Put σ) (s last : σ) (a : Address),
      (Converter.mk earlier config).encoder.encode put root s = (.ok a, last) →
        (Converter.mk (earlier ++ later) config).encoder.encode put root s = (.ok a, last) ∧
        Encoder.Alike (Converter.mk (earlier ++ later) config).encoder
          (Converter.mk earlier config).encoder root) ∧
    (∀ (earlier later : List Context) (calls : List PutCall) (a : Address),
      (Converter.mk earlier config).encoder.ElementRun 1 root calls (.ok a) →
        Encoder.Alike (Converter.mk (earlier ++ later) config).encoder
          (Converter.mk earlier config).encoder root) ∧
    ∀ (front back : List Context) (added : Context), (∀ e, root.Holds e → ¬added.Names e) →
      Encoder.Alike (Converter.mk (front ++ added :: back) config).encoder
        (Converter.mk (front ++ back) config).encoder root := by
  have hbehind (earlier later : List Context) (calls : List PutCall) (a : Address)
      (hrun : (Converter.mk earlier config).encoder.ElementRun 1 root calls (.ok a)) :
      Encoder.Alike (Converter.mk (earlier ++ later) config).encoder
        (Converter.mk earlier config).encoder root := alike_append (exists_type_of_run hrun)
  refine ⟨?_, hbehind, fun front back added => alike_insert⟩
  intro earlier later σ put s last a hencode
  obtain ⟨calls, hrun, -⟩ :=
    Encoder.exists_elementRun put (Converter.mk earlier config).encoder 1 root s
  rw [show Encoder.encodeElement _ put 1 root s = _ from hencode] at hrun
  have halike := hbehind earlier later calls a hrun
  exact ⟨(halike.encode put s).trans hencode, halike⟩

end Converter

def namespacedLeaf : Element :=
  ⟨some "u", "a", [], [], ["x"]⟩

def bareContext : Context :=
  .ofTerms [("a", "Title")]

/-- Knows the leaf with its namespace, which counts only where no context stands before this one. -/
def qualifiedContext : Context :=
  .ofTerms [("u:a", "Other")]

def unrelatedContext : Context :=
  .ofTerms [("b", "Other")]

theorem unrelatedContext_not_names {e : Element} (he : namespacedLeaf.Holds e) :
    ¬unrelatedContext.Names e := by
  cases he with
  | root =>
    rintro ⟨term, hterm, hname⟩
    obtain rfl := List.mem_singleton.mp hterm
    rcases hname with hname | ⟨uri, huri, hname⟩
    · exact absurd hname (by decide)
    · cases huri
      exact absurd hname (by decide)
  | inner hchild => cases hchild

theorem namespacedLeaf_run : (Converter.mk [bareContext] {}).encoder.ElementRun 1 namespacedLeaf
    [.stored Encoder.smallLeafObject] (.ok Encoder.smallLeafObject.address) :=
  @Encoder.ElementRun.of_childless _ 1 namespacedLeaf "Title" Encoder.smallLeafShape _ rfl
    (by decide) rfl rfl rfl

theorem earlier_contexts_decide_for_leaf :
    resolveInOrder [qualifiedContext, bareContext] (some "u") "a" = some "Other" ∧
      (Converter.mk [bareContext, qualifiedContext] {}).encoder.ElementRun 1 namespacedLeaf
        [.stored Encoder.smallLeafObject] (.ok Encoder.smallLeafObject.address) ∧
      (Converter.mk [unrelatedContext, bareContext] {}).encoder.ElementRun 1 namespacedLeaf
        [.stored Encoder.smallLeafObject] (.ok Encoder.smallLeafObject.address) := by
  obtain ⟨-, hbehind, hinserted⟩ := Converter.earlier_contexts_decide {} namespacedLeaf
  have hlater := hbehind [bareContext] [qualifiedContext] _ _ namespacedLeaf_run
  have hfirst := hinserted [] [bareContext] unrelatedContext fun _ => unrelatedContext_not_names
  exact ⟨rfl, (hlater.runs _ _).mpr namespacedLeaf_run, (hfirst.runs _ _).mpr namespacedLeaf_run⟩

end ContentGraph
