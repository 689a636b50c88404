import ContentGraph.Blank
import ContentGraph.Context
import ContentGraph.Shape
import ContentGraph.Xml.Document

/-! Documents become linked objects: every element one object, stored after its children, whose
addresses it holds. -/

namespace ContentGraph

structure EncoderConfig where
  maxDepth : Nat := 256
  /-- Siblings may be encoded at the same time. A document that can be encoded has the same objects
  then, and one that fails may leave others and for another reason. -/
  parallel : Bool := false
  /-- Text is stored without the blanks around it. -/
  trimText : Bool := false
  deriving DecidableEq

structure Encoder where
  resolve : Resolver
  config : EncoderConfig := {}

/-- What hands an object over to be stored. -/
abbrev Put (σ : Type) := Object → Stateful StoreError σ Unit

namespace Encoder

open Xml (Element)

def typeOf (c : Encoder) (e : Element) : Except EncodeError String :=
  match c.resolve e.uri e.name with
  | some type => .ok type
  | none => .error (.missingContext e.displayName)

/-- Of attributes with the same field the last one counts. -/
def attributesOf (e : Element) : Table String :=
  Table.ofList (e.attributes.map fun a => (a.fieldName, a.value))

def storedText (c : Encoder) (s : String) : String :=
  if c.config.trimText then trimmed s else s

/-- Blank runs between children are layout and not stored. -/
def storedRuns (c : Encoder) (runs : List String) : List String :=
  (runs.filter fun run => !isBlankText run).map c.storedText

/-- The children's addresses under their fields, in the order of the children. -/
def groupByField (e : Element) (addresses : List Address) : Table (List Address) :=
  (e.children.zip addresses).foldl
    (fun groups p =>
      let field := e.childFieldName p.1
      groups.insert field ((groups.get? field).getD [] ++ [p.2]))
    .empty

def fieldOf : List Address → Field
  | [target] => .link target
  | targets => .links targets

/-- The first child whose field is an attribute as well. -/
def conflict? (e : Element) : Option Element :=
  e.children.find? fun child => (attributesOf e).contains (e.childFieldName child)

/-- The shape of an element whose children are stored under `addresses`. -/
def shapeOf (c : Encoder) (e : Element) (type : String) (addresses : List Address) :
    Except EncodeError Shape :=
  if e.isLeaf then .ok (.leaf type (c.storedText e.text) (attributesOf e))
  else
    match conflict? e with
    | some child => .error (.fieldConflict e.displayName (e.childFieldName child))
    | none =>
      .ok (.composite type (attributesOf e) ((groupByField e addresses).mapValues fieldOf)
        (c.storedRuns e.textRuns))

/-- Runs `put`, with its failure as one of encoding. -/
def store {σ : Type} (put : Put σ) (o : Object) : Stateful EncodeError σ Unit := fun state =>
  match put o state with
  | (.ok (), state) => (.ok (), state)
  | (.error cause, state) => (.error (.store cause), state)

def storeShape {σ : Type} (put : Put σ) (shape : Shape) : Stateful EncodeError σ Address :=
  match Object.ofNode shape.toNode with
  | .error cause => throw (.store cause)
  | .ok o => do
    store put o
    return o.address

mutual

/-- Encodes an element at a depth, where the root is at depth one: first the depth is checked, then
the type is looked up, then the children are encoded, and then the element is stored. -/
def encodeElement {σ : Type} (c : Encoder) (put : Put σ) (depth : Nat) (e : Element) :
    Stateful EncodeError σ Address :=
  match e with
  | ⟨uri, name, attributes, children, textRuns⟩ => do
    if c.config.maxDepth < depth then throw (.tooDeep c.config.maxDepth)
    let e : Element := ⟨uri, name, attributes, children, textRuns⟩
    let type ← liftExcept (c.typeOf e)
    let addresses ← encodeChildren c put (depth + 1) children
    let shape ← liftExcept (c.shapeOf e type addresses)
    storeShape put shape

/-- Siblings in their order, which is one of the orders there may be if they are encoded at the same
time. -/
def encodeChildren {σ : Type} (c : Encoder) (put : Put σ) (depth : Nat) :
    List Element → Stateful EncodeError σ (List Address)
  | [] => return []
  | child :: rest => do
    let address ← encodeElement c put depth child
    let addresses ← encodeChildren c put depth rest
    return address :: addresses

end

/-- The address of the root's object. What was stored before a failure stays stored. -/
def encode {σ : Type} (c : Encoder) (put : Put σ) (root : Element) :
    Stateful EncodeError σ Address :=
  encodeElement c put 1 root

/-- Reads a document and encodes it. -/
def encodeDocument {σ : Type} (c : Encoder) (put : Put σ) (data : Bytes) :
    Stateful EncodeError σ Address := do
  match Xml.parseDocument c.config.maxDepth data with
  | .error cause => throw (.document cause)
  | .ok root => c.encode put root

end Encoder

end ContentGraph
