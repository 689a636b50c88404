import ContentGraph.Xml.Namespace

/-! The element tree of a document, and the names its parts are stored under. -/

namespace ContentGraph.Xml

/-- A name together with its namespace. -/
def qualifiedName (uri name : String) : String :=
  uri ++ ":" ++ name

theorem length_lt_qualifiedName (uri name : String) :
    name.length < (qualifiedName uri name).length := by
  rw [qualifiedName, String.length_append, String.length_append]
  have hcolon : ":".length = 1 := rfl
  omega

structure Attribute where
  uri : Option String
  name : String
  value : String
  deriving DecidableEq

/-- The field an attribute is stored under. Attributes of the XML namespace go by their bare name, as
those without a namespace do. -/
def Attribute.fieldName (a : Attribute) : String :=
  match a.uri with
  | none => a.name
  | some uri => if uri = xmlNamespace then a.name else qualifiedName uri a.name

/-- The text runs stand between the children: the first before the first child, the last behind the
last one. -/
structure Element where
  uri : Option String
  name : String
  attributes : List Attribute
  children : List Element
  textRuns : List String
  deriving Inhabited

namespace Element

@[elab_as_elim, induction_eliminator]
theorem tree_induction {motive : Element → Prop}
    (element : ∀ e, (∀ child ∈ e.children, motive child) → motive e) (e : Element) : motive e :=
  match e with
  | ⟨uri, name, attributes, children, textRuns⟩ =>
    element ⟨uri, name, attributes, children, textRuns⟩ fun child _ => tree_induction element child
decreasing_by
  have := List.sizeOf_lt_of_mem ‹child ∈ children›
  simp only [Element.mk.sizeOf_spec]
  omega

def displayName (e : Element) : String :=
  match e.uri with
  | none => e.name
  | some uri => qualifiedName uri e.name

def isLeaf (e : Element) : Bool :=
  e.children.isEmpty

def text (e : Element) : String :=
  String.join e.textRuns

/-- The field that a child is stored under in an element with the namespace `outer`. A child without
a namespace, or with the same one, goes by its bare name. -/
def fieldNameIn (outer : Option String) (child : Element) : String :=
  match child.uri with
  | none => child.name
  | some uri => if outer = some uri then child.name else qualifiedName uri child.name

def childFieldName (e child : Element) : String :=
  child.fieldNameIn e.uri

mutual

/-- The number of elements on the longest way down. -/
def height (e : Element) : Nat :=
  match e with
  | ⟨_, _, _, children, _⟩ => heightOfChildren children + 1

def heightOfChildren : List Element → Nat
  | [] => 0
  | child :: rest => max (height child) (heightOfChildren rest)

end

end Element

end ContentGraph.Xml
