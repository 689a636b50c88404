import ContentGraph.Xml.Markup

/-! The attributes in a tag, as they are written: a key and a quoted value. -/

namespace ContentGraph.Xml

structure RawAttribute where
  key : Bytes
  value : Bytes
  deriving DecidableEq

def tagName (content : Bytes) : Bytes :=
  content.takeWhile fun b => !isBlank b

/-- A place in a tag's content. -/
structure Place where
  position : Nat
  rest : Bytes

namespace Place

def skipWhile (p : UInt8 → Bool) (place : Place) : Place :=
  ⟨place.position + (place.rest.takeWhile p).length, place.rest.dropWhile p⟩

def skipBlanks (place : Place) : Place :=
  place.skipWhile isBlank

end Place

def isKeyByte (b : UInt8) : Bool :=
  b ≠ '='.toUInt8 && !isBlank b

/-- A key and the equals sign behind it. The key's first byte may be any but a blank. -/
def readKey (first : UInt8) (place : Place) : Except AttributeError (Bytes × Place) :=
  let key := first :: place.rest.takeWhile isKeyByte
  let place := (place.skipWhile isKeyByte).skipBlanks
  match place.rest with
  | [] => .error (.expectedEquals place.position)
  | b :: rest =>
    if b = '='.toUInt8 then .ok (key, ⟨place.position + 1, rest⟩)
    else .error (.expectedEquals place.position)

def readValue (place : Place) : Except AttributeError (Bytes × Place) :=
  let place := place.skipBlanks
  match place.rest with
  | [] => .error (.expectedValue place.position)
  | quote :: rest =>
    if quote = '"'.toUInt8 || quote = '\''.toUInt8 then
      let inside := Place.skipWhile (· ≠ quote) ⟨place.position + 1, rest⟩
      match inside.rest with
      | [] => .error (.expectedQuote inside.position (Char.ofNat quote.toNat))
      | _ :: after => .ok (rest.takeWhile (· ≠ quote), ⟨inside.position + 1, after⟩)
    else .error (.unquotedValue place.position)

/-- Attributes up to the first fault, and that fault. -/
structure AttributeList where
  attributes : List RawAttribute
  fault : Option AttributeError

/-- The attributes from a place on. `seen` has the keys before it with their positions; with `checked`
a key that occurs again is a fault. Every attribute takes a byte, so the number of bytes bounds the
number of attributes. -/
def readAttributes (checked : Bool) (seen : List (Bytes × Nat)) (place : Place) :
    Nat → AttributeList
  | 0 => ⟨[], none⟩
  | fuel + 1 =>
    let place := place.skipBlanks
    match place.rest with
    | [] => ⟨[], none⟩
    | first :: rest =>
      match readKey first ⟨place.position + 1, rest⟩ with
      | .error e => ⟨[], some e⟩
      | .ok (key, afterKey) =>
        match if checked then seen.lookup key else none with
        | some earlier => ⟨[], some (.duplicated place.position earlier)⟩
        | none =>
          match readValue afterKey with
          | .error e => ⟨[], some e⟩
          | .ok (value, afterValue) =>
            let others := readAttributes checked ((key, place.position) :: seen) afterValue fuel
            ⟨⟨key, value⟩ :: others.attributes, others.fault⟩

def attributesOf (checked : Bool) (content : Bytes) : AttributeList :=
  let name := tagName content
  readAttributes checked [] ⟨name.length, content.drop name.length⟩ content.length

end ContentGraph.Xml
