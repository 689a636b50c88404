import ContentGraph.Node

/-! The canonical bytes of a tree: a tag of four bytes, then the value, with every length written in
eight bytes, and all numbers least significant byte first. -/

namespace ContentGraph

def lengthPrefix (n : Nat) : Bytes :=
  littleEndian 8 n

def prefixed (data : Bytes) : Bytes :=
  lengthPrefix data.length ++ data

namespace NodeKind

def tag : NodeKind → Nat
  | .null => 0
  | .bool => 1
  | .integer => 2
  | .float => 3
  | .string => 4
  | .bytes => 5
  | .link => 6
  | .list => 7
  | .map => 8

def ofTag? : Nat → Option NodeKind
  | 0 => some .null
  | 1 => some .bool
  | 2 => some .integer
  | 3 => some .float
  | 4 => some .string
  | 5 => some .bytes
  | 6 => some .link
  | 7 => some .list
  | 8 => some .map
  | _ => none

def tagBytes (kind : NodeKind) : Bytes :=
  littleEndian 4 kind.tag

end NodeKind

/-- What stands behind a tag: a number of bytes, bytes behind their length, or values behind their
number, in a map each one behind its key. -/
inductive Layout
  | fixed (size : Nat)
  | prefixed
  | container (isMap : Bool)

def NodeKind.layout : NodeKind → Layout
  | .null => .fixed 0
  | .bool => .fixed 1
  | .integer | .float => .fixed 8
  | .string | .bytes | .link => .prefixed
  | .list => .container false
  | .map => .container true

namespace Node

mutual

def encode : Node → Bytes
  | .null => NodeKind.null.tagBytes
  | .bool value => NodeKind.bool.tagBytes ++ [if value then 1 else 0]
  | .integer value => NodeKind.integer.tagBytes ++ littleEndian 8 value.toUInt64.toNat
  | .float bits => NodeKind.float.tagBytes ++ littleEndian 8 bits.toNat
  | .string value => NodeKind.string.tagBytes ++ prefixed (utf8 value)
  | .bytes value => NodeKind.bytes.tagBytes ++ prefixed value
  | .link target => NodeKind.link.tagBytes ++ prefixed target.toBytes
  | .list items => NodeKind.list.tagBytes ++ (lengthPrefix items.length ++ encodeItems items)
  | .map entries => NodeKind.map.tagBytes ++ (lengthPrefix entries.length ++ encodeEntries entries)

def encodeItems : List Node → Bytes
  | [] => []
  | n :: rest => encode n ++ encodeItems rest

def encodeEntries : List (String × Node) → Bytes
  | [] => []
  | (key, n) :: rest => prefixed (utf8 key) ++ (encode n ++ encodeEntries rest)

end

end Node

end ContentGraph
