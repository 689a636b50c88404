import ContentGraph.Address
import ContentGraph.Entries

/-! The value tree stored inside every object. A map's entries stand in increasing order of their
keys, and a path descends through maps by key and through lists by decimal index. -/

namespace ContentGraph

/-- A floating-point number is kept as its 64 bits, so that no two numbers are confused. -/
inductive Node
  | null
  | bool (value : Bool)
  | integer (value : Int64)
  | float (bits : UInt64)
  | string (value : String)
  | bytes (value : Bytes)
  | link (target : Address)
  | list (items : List Node)
  | map (entries : List (String × Node))
  deriving Inhabited

@[elab_as_elim, induction_eliminator]
theorem Node.tree_induction {motive : Node → Prop} (null : motive .null)
    (bool : ∀ value, motive (.bool value)) (integer : ∀ value, motive (.integer value))
    (float : ∀ bits, motive (.float bits)) (string : ∀ value, motive (.string value))
    (bytes : ∀ value, motive (.bytes value)) (link : ∀ target, motive (.link target))
    (list : ∀ items, (∀ n ∈ items, motive n) → motive (.list items))
    (map : ∀ entries, (∀ e ∈ entries, motive e.2) → motive (.map entries)) (n : Node) :
    motive n :=
  match n with
  | .null => null
  | .bool value => bool value
  | .integer value => integer value
  | .float bits => float bits
  | .string value => string value
  | .bytes value => bytes value
  | .link target => link target
  | .list items =>
    list items fun n _ => tree_induction null bool integer float string bytes link list map n
  | .map entries =>
    map entries fun e _ => tree_induction null bool integer float string bytes link list map e.2
decreasing_by
  · have := List.sizeOf_lt_of_mem ‹n ∈ items›
    simp only [Node.list.sizeOf_spec]
    omega
  · have := List.sizeOf_lt_of_mem ‹e ∈ entries›
    obtain ⟨key, n⟩ := e
    simp only [Node.map.sizeOf_spec, Prod.mk.sizeOf_spec] at *
    omega

inductive NodeKind
  | null | bool | integer | float | string | bytes | link | list | map
  deriving DecidableEq

def NodeKind.name : NodeKind → String
  | .null => "null"
  | .bool => "bool"
  | .integer => "integer"
  | .float => "float"
  | .string => "string"
  | .bytes => "bytes"
  | .link => "link"
  | .list => "list"
  | .map => "map"

def decimalValue (digits : List Char) : Nat :=
  digits.foldl (fun n c => 10 * n + (c.toNat - 48)) 0

/-- The list position that a path segment denotes: decimal digits, a plus sign allowed before them,
for a number of 64 bits. -/
def indexOfSegment? (segment : String) : Option Nat :=
  let digits := match segment.toList with
    | '+' :: rest => rest
    | chars => chars
  if digits ≠ [] ∧ digits.all (fun c => '0' ≤ c && c ≤ '9') ∧ decimalValue digits < UInt64.size then
    some (decimalValue digits)
  else none

namespace Node

def kind : Node → NodeKind
  | .null => .null
  | .bool _ => .bool
  | .integer _ => .integer
  | .float _ => .float
  | .string _ => .string
  | .bytes _ => .bytes
  | .link _ => .link
  | .list _ => .list
  | .map _ => .map

def asString? : Node → Option String
  | .string s => some s
  | _ => none

def asLink? : Node → Option Address
  | .link a => some a
  | _ => none

/-- A tree without children: a path can go no further in it. -/
def isTerminal : Node → Bool
  | .list _ | .map _ => false
  | _ => true

def child? : Node → String → Option Node
  | .map entries, segment => Entries.get? entries segment
  | .list items, segment => (indexOfSegment? segment).bind (items[·]?)
  | _, _ => none

mutual

/-- Every map in the tree lists its entries in strictly increasing order of their keys. -/
def Ordered : Node → Prop
  | .list items => OrderedItems items
  | .map entries => Entries.Sorted entries ∧ OrderedEntries entries
  | _ => True

def OrderedItems : List Node → Prop
  | [] => True
  | n :: rest => Ordered n ∧ OrderedItems rest

def OrderedEntries : List (String × Node) → Prop
  | [] => True
  | (_, n) :: rest => Ordered n ∧ OrderedEntries rest

end

mutual

/-- How deep the non-empty lists and maps of a tree nest. -/
def nesting : Node → Nat
  | .list items => nestingOfItems items
  | .map entries => nestingOfEntries entries
  | _ => 0

/-- One more than the deepest nesting among the items, if there are any. -/
def nestingOfItems : List Node → Nat
  | [] => 0
  | n :: rest => max (nesting n + 1) (nestingOfItems rest)

def nestingOfEntries : List (String × Node) → Nat
  | [] => 0
  | (_, n) :: rest => max (nesting n + 1) (nestingOfEntries rest)

end

end Node

end ContentGraph
