import ContentGraph.EncodeError
import ContentGraph.Object

/-! The two shapes that an element takes as an object: a leaf with its text, or a composite with
links to its children. Attributes are fields beside them. -/

namespace ContentGraph

/-- A child that is the only one of its name is linked by itself, others in the order in which they
stand. -/
inductive Field
  | link (target : Address)
  | links (targets : List Address)
  deriving DecidableEq

def Field.toNode : Field → Node
  | .link target => .link target
  | .links targets => .list (targets.map .link)

/-- The text of a composite is the runs of it between its children. -/
inductive Shape
  | leaf (type value : String) (attributes : Table String)
  | composite (type : String) (attributes : Table String) (fields : Table Field)
      (text : List String)

namespace Shape

def type : Shape → String
  | .leaf type _ _ => type
  | .composite type _ _ _ => type

def attributes : Shape → Table String
  | .leaf _ _ attributes => attributes
  | .composite _ attributes _ _ => attributes

/-- One run is stored as text, several as a list, and none not at all. -/
def textEntries : List String → List (String × Node)
  | [] => []
  | [run] => [(valueField, .string run)]
  | runs => [(valueField, .list (runs.map .string))]

/-- The entries in the order in which they are stored: a later one replaces an earlier one with the
same name. -/
def storedEntries : Shape → List (String × Node)
  | .leaf type value attributes =>
    Entries.mapValues .string attributes.entries ++
      [(valueField, .string value), (typeField, .string type)]
  | .composite type attributes fields text =>
    Entries.mapValues .string attributes.entries ++ Entries.mapValues Field.toNode fields.entries ++
      textEntries text ++ [(typeField, .string type)]

def toNode (s : Shape) : Node :=
  .map (Entries.ofList s.storedEntries)

/-- What the entries of an object have shown so far. -/
structure Parts where
  attributes : Table String
  fields : Table Field
  value : Option String
  text : List String

def Parts.empty : Parts := ⟨.empty, .empty, none, []⟩

/-- All the texts in a list, if it holds nothing else. -/
def textsOf? (items : List Node) : Option (List String) :=
  items.mapM Node.asString?

/-- All the links in a list, if it holds nothing else. -/
def linksOf? (items : List Node) : Option (List Address) :=
  items.mapM Node.asLink?

def Parts.add (parts : Parts) (name : String) (n : Node) : Except ShapeFault Parts :=
  if name = typeField then .ok parts
  else
    match n with
    | .string s =>
      if name = valueField then .ok { parts with value := some s, text := [s] }
      else .ok { parts with attributes := parts.attributes.insert name s }
    | .list items =>
      if name = valueField then
        match textsOf? items with
        | some text => .ok { parts with text }
        | none => .error .badText
      else
        match linksOf? items with
        | some targets => .ok { parts with fields := parts.fields.insert name (.links targets) }
        | none => .error .badLinks
    | .link target => .ok { parts with fields := parts.fields.insert name (.link target) }
    | other => .error (.badField name other.kind)

def Parts.ofEntries (entries : List (String × Node)) : Except ShapeFault Parts :=
  entries.foldlM (fun parts e => parts.add e.1 e.2) .empty

/-- With a link it is a composite, and without one a leaf, which has to have a text. -/
def Parts.toShape (type : String) (parts : Parts) : Except ShapeFault Shape :=
  if parts.fields.entries = [] then
    match parts.value with
    | some value => .ok (.leaf type value parts.attributes)
    | none => .error .noValue
  else .ok (.composite type parts.attributes parts.fields parts.text)

def read (tree : Node) (declaredType : Option String) : Except ShapeFault Shape :=
  match tree, declaredType with
  | .map entries, some type => do (← Parts.ofEntries entries).toShape type
  | .map _, none => .error .noType
  | _, _ => .error .notAMap

def ofObject (o : Object) : Except EncodeError Shape :=
  match read o.tree o.declaredType with
  | .ok shape => .ok shape
  | .error fault => .error (.unexpectedShape o.address fault)

end Shape

end ContentGraph
