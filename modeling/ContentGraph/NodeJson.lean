import ContentGraph.Json
import ContentGraph.Node

/-! Trees as JSON, and JSON as trees. Bytes become a list of numbers and a link a map with the one
member `/`, so not every tree is read back from its JSON form; but every JSON value is a tree. -/

namespace ContentGraph

namespace Node

mutual

def toJson : Node → Json
  | .null => .null
  | .bool value => .bool value
  | .integer value => .integer value.toInt
  | .float bits => if Double.isFinite bits then .float bits else .null
  | .string value => .string value
  | .bytes value => .array (value.map fun b => .integer b.toNat)
  | .link target => .object [("/", .string target.text)]
  | .list items => .array (jsonOfItems items)
  | .map entries => .object (jsonOfEntries entries)

def jsonOfItems : List Node → List Json
  | [] => []
  | n :: rest => toJson n :: jsonOfItems rest

def jsonOfEntries : List (String × Node) → List (String × Json)
  | [] => []
  | (key, n) :: rest => (key, toJson n) :: jsonOfEntries rest

end

/-- Integers beyond 64 signed bits become the nearest floating-point number. -/
def ofJsonInteger (value : Int) : Node :=
  if value ≤ Int64.maxValue.toInt then .integer (Int64.ofInt value)
  else .float (Double.ofNat value.toNat)

mutual

def ofJson : Json → Node
  | .null => .null
  | .bool value => .bool value
  | .integer value => ofJsonInteger value
  | .float bits => .float bits
  | .string value => .string value
  | .array items => .list (ofJsonItems items)
  | .object members => .map (ofJsonMembers members)

def ofJsonItems : List Json → List Node
  | [] => []
  | json :: rest => ofJson json :: ofJsonItems rest

def ofJsonMembers : List (String × Json) → List (String × Node)
  | [] => []
  | (name, json) :: rest => (name, ofJson json) :: ofJsonMembers rest

end

end Node

end ContentGraph
