import ContentGraph.NodeJson
import ContentGraph.StoreError

/-! Blocks are bytes that hash to the address they are filed under; objects are blocks that hold a
tree. Neither can be had without its checks. -/

namespace ContentGraph

structure Block where
  address : Address
  data : Bytes
  derived : Address.derive address.codec data = address

namespace Block

/-- The version is checked before the hash. -/
def make (address : Address) (data : Bytes) : Except StoreError Block :=
  if address.version ≠ Address.currentVersion then .error (.invalidVersion address.version)
  else if h : Address.derive address.codec data = address then .ok ⟨address, data, h⟩
  else .error (.addressMismatch address (Address.derive address.codec data))

def ofData (codec : Codec) (data : Bytes) : Block :=
  ⟨Address.derive codec data, data, rfl⟩

end Block

def typeField : String := "@type"

def valueField : String := "@value"

namespace Node

/-- The type that a tree declares for itself, which has to be a string if it is there. -/
def declaredType (n : Node) : Except StoreError (Option String) :=
  match n.child? typeField with
  | none => .ok none
  | some (.string name) => .ok (some name)
  | some other => .error (.invalidType other.kind)

/-- Goes down the tree along a path, as far as a link or another tree without children. Gives the
tree reached and the rest of the path, or nothing if a segment is missing. -/
def descend : Node → List String → Option (Node × List String)
  | n, [] => some (n, [])
  | n, segment :: rest =>
    if n.isTerminal then some (n, segment :: rest)
    else (n.child? segment).bind fun child => descend child rest

end Node

structure Object where
  block : Block
  tree : Node
  declaredType : Option String
  isNode : block.address.codec = .node
  encoded : tree.encode = block.data
  declared : tree.declaredType = .ok declaredType

namespace Object

/-- The codec is checked first, then the bytes are decoded, then the declared type is looked at. -/
def ofBlock (block : Block) : Except StoreError Object :=
  if hcodec : block.address.codec = .node then
    match hdecode : Node.decode block.data with
    | .error cause => .error (.undecodable cause)
    | .ok tree =>
      match htype : tree.declaredType with
      | .error e => .error e
      | .ok name => .ok ⟨block, tree, name, hcodec, Node.encode_of_decode hdecode, htype⟩
  else .error (.invalidCodec block.address.codec)

/-- The object stored as `data` under an address. -/
def read (address : Address) (data : Bytes) : Except StoreError Object := do
  ofBlock (← Block.make address data)

/-- The object that holds a tree. Its nesting is not limited here. -/
def ofNode (tree : Node) : Except StoreError Object :=
  match htype : tree.declaredType with
  | .error e => .error e
  | .ok name => .ok ⟨Block.ofData .node tree.encode, tree, name, rfl, rfl, htype⟩

def ofValue (value : Value) : Except StoreError Object :=
  match value.toJson with
  | .error cause => .error (.unencodable cause)
  | .ok json => ofNode (.ofJson json)

def address (o : Object) : Address :=
  o.block.address

def data (o : Object) : Bytes :=
  o.block.data

/-- Empty for an object without a type. -/
def typeName (o : Object) : String :=
  o.declaredType.getD ""

def resolve (o : Object) (path : List String) : Except StoreError (Node × List String) :=
  match o.tree.descend path with
  | some reached => .ok reached
  | none => .error (.pathNotFound path)

def field? (o : Object) (name : String) : Option Node :=
  o.tree.child? name

def stringField (o : Object) (name : String) : Except StoreError String :=
  match o.field? name with
  | none => .error (.pathNotFound [name])
  | some (.string value) => .ok value
  | some other => .error (.notString name other.kind)

def summary (o : Object) : String :=
  s!"Object \x7b address: {o.address.summary}, type: {quoted o.typeName}, size: {o.data.length} \x7d"

end Object

end ContentGraph
