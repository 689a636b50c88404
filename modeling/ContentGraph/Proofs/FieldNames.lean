import ContentGraph.Proofs.DocumentReading
import ContentGraph.Proofs.ElementPaths

/-! Which children of an element share a field. A child goes by its bare name if it has no namespace
or the one of its parent, so two of these with one name are stored together. Any other child goes by
its name behind its namespace and a colon. -/

namespace ContentGraph

namespace Xml

theorem qualifiedName_ne_of_no_colon {uri name bare : String} (h : ':' ∉ bare.toList) :
    qualifiedName uri name ≠ bare := by
  rintro rfl
  exact h (by simp [qualifiedName])

theorem qualifiedName_ne_name (uri name : String) : qualifiedName uri name ≠ name := by
  intro h
  have hlength := length_lt_qualifiedName uri name
  rw [h] at hlength
  exact Nat.lt_irrefl _ hlength

theorem qualifiedName_inj_left {uri other name : String} :
    qualifiedName uri name = qualifiedName other name ↔ uri = other := by
  rw [qualifiedName, qualifiedName, String.append_left_inj, String.append_left_inj]

/-- A name without colons is what stands behind the last one. -/
theorem takeWhile_reverse_qualifiedName {name : String} (h : ':' ∉ name.toList) (uri : String) :
    (qualifiedName uri name).toList.reverse.takeWhile (· ≠ ':') = name.toList.reverse := by
  have hname : ∀ c ∈ name.toList.reverse, decide (c ≠ ':') = true := by
    intro c hc
    refine decide_eq_true ?_
    rintro rfl
    exact h (List.mem_reverse.mp hc)
  rw [qualifiedName, String.toList_append, List.reverse_append, List.takeWhile_append_of_pos hname]
  simp

theorem name_eq_of_qualifiedName_eq {uri other name name' : String} (hname : ':' ∉ name.toList)
    (hname' : ':' ∉ name'.toList) (h : qualifiedName uri name = qualifiedName other name') :
    name = name' := by
  have hreverse := takeWhile_reverse_qualifiedName hname uri
  rw [h, takeWhile_reverse_qualifiedName hname'] at hreverse
  exact String.toList_inj.mp (List.reverse_inj.mp hreverse).symm

namespace Element

/-- The child has no namespace, or the one of its parent. -/
def Bare (e child : Element) : Prop :=
  child.uri = none ∨ child.uri = e.uri

/-- The children have one local name, and either one namespace or none but the parent's. -/
def NamedAlike (e x y : Element) : Prop :=
  x.name = y.name ∧ (x.uri = y.uri ∨ e.Bare x ∧ e.Bare y)

/-- No colon in a local name can be taken for the one behind a namespace. -/
def ColonSafe (x y : Element) : Prop :=
  x.name = y.name ∨ ':' ∉ x.name.toList ∧ ':' ∉ y.name.toList

variable {e x y child : Element}

instance (e child : Element) : Decidable (e.Bare child) :=
  inferInstanceAs (Decidable (_ ∨ _))

instance (e x y : Element) : Decidable (e.NamedAlike x y) :=
  inferInstanceAs (Decidable (_ ∧ _))

theorem Bare.of_uri_eq (h : e.Bare x) (huri : x.uri = y.uri) : e.Bare y :=
  h.imp huri.symm.trans huri.symm.trans

theorem NamedAlike.symm (h : e.NamedAlike x y) : e.NamedAlike y x :=
  ⟨h.1.symm, h.2.imp Eq.symm And.symm⟩

theorem ColonSafe.symm (h : ColonSafe x y) : ColonSafe y x :=
  h.imp Eq.symm And.symm

theorem childFieldName_of_bare (h : e.Bare child) : e.childFieldName child = child.name := by
  unfold childFieldName fieldNameIn
  split
  · rfl
  · next uri huri =>
    rcases h with h | h
    · rw [huri] at h
      cases h
    · rw [if_pos (h.symm.trans huri)]

theorem exists_childFieldName_of_not_bare (h : ¬e.Bare child) :
    ∃ uri, child.uri = some uri ∧ e.childFieldName child = qualifiedName uri child.name := by
  unfold childFieldName fieldNameIn
  split
  · next huri => exact absurd (.inl huri) h
  · next uri huri =>
    exact ⟨uri, huri, if_neg fun hsame => h (.inr (huri.trans hsame.symm))⟩

theorem childFieldName_ne_of_bare (hsafe : ColonSafe x y) (hx : e.Bare x) (hy : ¬e.Bare y) :
    e.childFieldName x ≠ e.childFieldName y := by
  obtain ⟨uri, -, hfield⟩ := exists_childFieldName_of_not_bare hy
  rw [childFieldName_of_bare hx, hfield]
  rcases hsafe with hname | ⟨hcolon, -⟩
  · rw [hname]
    exact (qualifiedName_ne_name uri y.name).symm
  · exact (qualifiedName_ne_of_no_colon hcolon).symm

theorem not_namedAlike_of_bare (hx : e.Bare x) (hy : ¬e.Bare y) : ¬e.NamedAlike x y := by
  rintro ⟨-, huri | ⟨-, hbare⟩⟩
  · exact hy (hx.of_uri_eq huri)
  · exact hy hbare

theorem childFieldName_eq_iff (hsafe : ColonSafe x y) :
    e.childFieldName x = e.childFieldName y ↔ e.NamedAlike x y := by
  by_cases hx : e.Bare x
  · by_cases hy : e.Bare y
    · rw [childFieldName_of_bare hx, childFieldName_of_bare hy]
      exact ⟨fun hname => ⟨hname, .inr ⟨hx, hy⟩⟩, And.left⟩
    · exact iff_of_false (childFieldName_ne_of_bare hsafe hx hy) (not_namedAlike_of_bare hx hy)
  · by_cases hy : e.Bare y
    · exact iff_of_false (childFieldName_ne_of_bare hsafe.symm hy hx).symm
        (mt NamedAlike.symm (not_namedAlike_of_bare hy hx))
    · obtain ⟨uri, huri, hfield⟩ := exists_childFieldName_of_not_bare hx
      obtain ⟨uri', huri', hfield'⟩ := exists_childFieldName_of_not_bare hy
      rw [hfield, hfield']
      constructor
      · intro hsame
        have hname : x.name = y.name :=
          hsafe.elim id fun hcolon => name_eq_of_qualifiedName_eq hcolon.1 hcolon.2 hsame
        rw [hname] at hsame
        rw [NamedAlike, huri, huri', qualifiedName_inj_left.mp hsame]
        exact ⟨hname, .inl rfl⟩
      · rintro ⟨hname, hsame | ⟨hbare, -⟩⟩
        · rw [huri, huri'] at hsame
          rw [hname, Option.some.inj hsame]
        · exact absurd hbare hx

end Element

end Xml

namespace Encoder

open Xml (Element)

/-- The addresses of the children that are named like one of them, in the order of the children. -/
def alikeTargets (e : Element) (addresses : List Address) (x : Element) : List Address :=
  ((e.children.zip addresses).filter fun p => e.NamedAlike p.1 x).map (·.2)

theorem targetsOf_eq_alikeTargets {e x : Element} {addresses : List Address}
    (hsafe : ∀ child ∈ e.children, child.ColonSafe x) :
    targetsOf e addresses (e.childFieldName x) = alikeTargets e addresses x := by
  have hsame : ∀ p ∈ e.children.zip addresses,
      decide (e.childFieldName p.1 = e.childFieldName x) = decide (e.NamedAlike p.1 x) :=
    fun p hp => decide_eq_decide.mpr
      (Element.childFieldName_eq_iff (hsafe p.1 (List.of_mem_zip hp).1))
  rw [targetsOf, alikeTargets, List.filter_congr hsame]

/-- Children have one field if they are named alike, and then they are linked from one list. -/
theorem fields_are_shared_by_names :
    (∀ e x y : Element, x.ColonSafe y →
      (e.childFieldName x = e.childFieldName y ↔ e.NamedAlike x y)) ∧
    ∀ (e x : Element) (addresses : List Address), addresses.length = e.children.length →
      x ∈ e.children → (∀ child ∈ e.children, child.ColonSafe x) →
        (groupByField e addresses).get? (e.childFieldName x) =
          some (alikeTargets e addresses x) := by
  constructor
  · intro e x y hsafe
    exact Element.childFieldName_eq_iff hsafe
  · intro e x addresses hlength hx hsafe
    rw [get?_groupByField, if_neg (targetsOf_ne_nil hlength hx), targetsOf_eq_alikeTargets hsafe]

def labelQ : Xml.Label := ⟨⟨"q", by decide, by simp⟩, by decide⟩

/-- The document `<q:a xmlns:q="n"><q:b/><b/></q:a>`. -/
def mixedTree : Xml.Tree :=
  .pair
    { name := ⟨some labelQ, Xml.nameA⟩
      entries := [.declaration ⟨some labelQ, "n", by decide, by decide, by decide⟩]
      distinct := by decide }
    (.child [] (.single ⟨⟨some labelQ, Xml.nameB⟩, [], List.nodup_nil⟩)
      (.child [] (.single ⟨⟨none, Xml.nameB⟩, [], List.nodup_nil⟩) (.last [])))

def qualifiedChild : Element :=
  ⟨some "n", "b", [], [], [""]⟩

def bareChild : Element :=
  ⟨none, "b", [], [], [""]⟩

def mixedElement : Element :=
  ⟨some "n", "a", [], [qualifiedChild, bareChild], ["", "", ""]⟩

theorem mixedTree_parse : Xml.parseDocument 256 (utf8 mixedTree.written) = .ok mixedElement := by
  have hheight : mixedTree.height ≤ 256 := by decide
  rw [Xml.parseDocument_written hheight]
  rfl

/-- Of the children one has a namespace and one has none, and they are linked from one list. -/
theorem namespaces_are_merged :
    Xml.parseDocument 256 (utf8 mixedTree.written) = .ok mixedElement ∧
      mixedElement.children = [qualifiedChild, bareChild] ∧ qualifiedChild.uri ≠ bareChild.uri ∧
      mixedElement.childFieldName qualifiedChild = mixedElement.childFieldName bareChild ∧
      ∀ a b, (groupByField mixedElement [a, b]).get? "b" = some [a, b] := by
  refine ⟨mixedTree_parse, rfl, by decide, rfl, fun a b => ?_⟩
  have htargets : targetsOf mixedElement [a, b] "b" = [a, b] := rfl
  rw [get?_groupByField, htargets, if_neg (List.cons_ne_nil a [b])]

theorem fields_are_shared_by_names_in_mixedElement :
    (mixedElement.childFieldName qualifiedChild = mixedElement.childFieldName bareChild ↔
      mixedElement.NamedAlike qualifiedChild bareChild) ∧
    ∀ a b, (groupByField mixedElement [a, b]).get? (mixedElement.childFieldName bareChild) =
      some (alikeTargets mixedElement [a, b] bareChild) :=
  have hsafe : ∀ child ∈ mixedElement.children, child.ColonSafe bareChild := by
    simp [mixedElement, qualifiedChild, bareChild, Element.ColonSafe]
  ⟨fields_are_shared_by_names.1 _ _ _ (hsafe qualifiedChild List.mem_cons_self), fun a b =>
    fields_are_shared_by_names.2 mixedElement bareChild [a, b] rfl
      (List.mem_cons_of_mem _ List.mem_cons_self) hsafe⟩

end Encoder

end ContentGraph
