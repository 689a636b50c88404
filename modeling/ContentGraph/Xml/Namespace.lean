import ContentGraph.Xml.Attribute

/-! Namespace declarations and the scope they make. An inner declaration hides an outer one with the
same prefix, and an empty namespace takes a prefix out of use. -/

namespace ContentGraph.Xml

def xmlNamespace : String := "http://www.w3.org/XML/1998/namespace"

def xmlnsNamespace : String := "http://www.w3.org/2000/xmlns/"

/-- A prefix, or none for the default namespace, and the bytes it stands for. -/
structure Binding where
  label : Option Bytes
  uri : Bytes
  deriving DecidableEq

/-- The declarations in force, innermost first. -/
abbrev Scope := List Binding

def outermostScope : Scope :=
  [⟨some (utf8 "xml"), utf8 xmlNamespace⟩, ⟨some (utf8 "xmlns"), utf8 xmlnsNamespace⟩]

/-- The prefix that an attribute declares, if it is a declaration, where `xmlns` alone declares the
default namespace. -/
def declaredLabel? (key : Bytes) : Option (Option Bytes) :=
  if key = utf8 "xmlns" then some none
  else if (utf8 "xmlns:").isPrefixOf key then some (some (key.drop 6))
  else none

/-- The prefix `xml` may only be bound to its own namespace, which no other prefix may be bound to,
`xmlns` may not be bound, and no prefix may be bound to the namespace of `xmlns`. -/
def mayBind (label uri : Bytes) : Bool :=
  if label = utf8 "xml" then uri = utf8 xmlNamespace
  else label ≠ utf8 "xmlns" && uri ≠ utf8 xmlNamespace && uri ≠ utf8 xmlnsNamespace

/-- An empty prefix is bound as the default namespace is. -/
def Scope.declare (scope : Scope) (a : RawAttribute) : Except MarkupError Scope :=
  match declaredLabel? a.key with
  | none => .ok scope
  | some none => .ok (⟨none, a.value⟩ :: scope)
  | some (some label) =>
    if mayBind label a.value then
      .ok (⟨if label = [] then none else some label, a.value⟩ :: scope)
    else .error (.badBinding label a.value)

/-- The scope inside a tag. Declarations behind a malformed attribute do not count. -/
def Scope.enter (scope : Scope) (content : Bytes) : Except MarkupError Scope :=
  (attributesOf false content).attributes.foldlM Scope.declare scope

/-- The prefix and the local part of a name, which the first colon divides. -/
def splitName (name : Bytes) : Option Bytes × Bytes :=
  match name.dropWhile (· ≠ ':'.toUInt8) with
  | [] => (none, name)
  | _ :: localPart => (some (name.takeWhile (· ≠ ':'.toUInt8)), localPart)

/-- The namespace that a prefix stands for, or an error with a prefix that stands for none. -/
def Scope.lookup (scope : Scope) (label : Bytes) : Except Bytes Bytes :=
  match scope.find? fun b => b.label = some label with
  | some b => if b.uri = [] then .error label else .ok b.uri
  | none => .error label

def Scope.default? (scope : Scope) : Option Bytes :=
  match scope.find? fun b => b.label = none with
  | some b => if b.uri = [] then none else some b.uri
  | none => none

/-- The namespace of an element. -/
def Scope.ofElement (scope : Scope) (label : Option Bytes) : Except Bytes (Option Bytes) :=
  match label with
  | none => .ok scope.default?
  | some label => some <$> scope.lookup label

/-- The namespace of an attribute, which without a prefix has none. -/
def Scope.ofAttribute (scope : Scope) (label : Option Bytes) : Except Bytes (Option Bytes) :=
  match label with
  | none => .ok none
  | some label => some <$> scope.lookup label

end ContentGraph.Xml
