import ContentGraph.Json

/-! Values that a program hands over to be stored, and their JSON form. Their maps may have keys of
several types, which JSON writes as text, and may repeat them. -/

namespace ContentGraph

inductive Value
  | unit
  | none
  | some (value : Value)
  | bool (value : Bool)
  | integer (value : Int)
  | float (bits : UInt64)
  | text (value : String)
  | bytes (value : Bytes)
  | sequence (items : List Value)
  | map (entries : List (Value × Value))
  | variant (name : String) (value : Value)
  deriving Inhabited

inductive ValueError
  | numberOutOfRange
  | keyNotText
  | keyNotFinite
  deriving DecidableEq

def ValueError.reason : ValueError → String
  | .numberOutOfRange => "number out of range"
  | .keyNotText => "key must be a string"
  | .keyNotFinite => "float key must be finite (got NaN or +/-inf)"

namespace Value

def keyText : Value → Except ValueError String
  | .text value => .ok value
  | .integer value => .ok (toString value)
  | .bool value => .ok (if value then "true" else "false")
  | .float bits => if Double.isFinite bits then .ok (Json.floatText bits) else .error .keyNotFinite
  | _ => .error .keyNotText

mutual

/-- JSON has the integers of 64 bits, signed or unsigned, and the finite numbers. -/
def toJson : Value → Except ValueError Json
  | .unit | .none => .ok .null
  | .some value => toJson value
  | .bool value => .ok (.bool value)
  | .integer value =>
    if Int64.minValue.toInt ≤ value ∧ value < UInt64.size then .ok (.integer value)
    else .error .numberOutOfRange
  | .float bits => .ok (if Double.isFinite bits then .float bits else .null)
  | .text value => .ok (.string value)
  | .bytes value => .ok (.array (value.map fun b => .integer b.toNat))
  | .sequence items => .array <$> jsonItems items
  | .map entries => .object <$> jsonMembers [] entries
  | .variant name value => (fun json => .object [(name, json)]) <$> toJson value

def jsonItems : List Value → Except ValueError (List Json)
  | [] => .ok []
  | value :: rest => do
    let json ← toJson value
    let items ← jsonItems rest
    return json :: items

/-- Adds the entries in turn: of entries whose keys read alike the last one counts. -/
def jsonMembers (members : Entries Json) :
    List (Value × Value) → Except ValueError (Entries Json)
  | [] => .ok members
  | (key, value) :: rest => do
    let name ← keyText key
    let json ← toJson value
    jsonMembers (Entries.insert members name json) rest

end

end Value

end ContentGraph
