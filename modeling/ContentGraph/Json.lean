import ContentGraph.Double
import ContentGraph.Entries
import ContentGraph.Hex

/-! JSON values and their text, on one line or indented. -/

namespace ContentGraph

/-- An object's members stand in increasing order of their names. -/
inductive Json
  | null
  | bool (value : Bool)
  | integer (value : Int)
  | float (bits : UInt64)
  | string (value : String)
  | array (items : List Json)
  | object (members : List (String × Json))
  deriving Inhabited

namespace Json

def escapedChar (c : Char) : List Char :=
  match c with
  | '"' => ['\\', '"']
  | '\\' => ['\\', '\\']
  | '\x08' => ['\\', 'b']
  | '\x0c' => ['\\', 'f']
  | '\n' => ['\\', 'n']
  | '\r' => ['\\', 'r']
  | '\t' => ['\\', 't']
  | _ =>
    if c < ' ' then ['\\', 'u', '0', '0'] ++ hexOfByte (UInt8.ofNat c.toNat) else [c]

def stringText (s : String) : String :=
  String.ofList ('"' :: s.toList.flatMap escapedChar ++ ['"'])

def digitChars (digits : List Nat) : List Char :=
  digits.map hexDigit

/-- A number is written without an exponent if its first digit stands at most five places behind the
point or at most sixteen before it. -/
def decimalText (d : Decimal) : List Char :=
  let digits := digitChars d.digits
  if d.digits = [] then ['0', '.', '0']
  else if -4 ≤ d.point ∧ d.point ≤ 0 then
    '0' :: '.' :: List.replicate (-d.point).toNat '0' ++ digits
  else if 0 < d.point ∧ d.point ≤ 16 then
    let whole := d.point.toNat
    let fraction := digits.drop whole
    digits.take whole ++ List.replicate (whole - digits.length) '0' ++ '.' ::
      (if fraction = [] then ['0'] else fraction)
  else
    let exponent := d.point - 1
    let fraction := digits.drop 1
    digits.take 1 ++ (if fraction = [] then [] else '.' :: fraction) ++ 'e' ::
      (if 0 ≤ exponent then '+' else '-') :: Nat.toDigits 10 exponent.natAbs

/-- A finite number by its shortest digits. JSON has no other numbers. -/
def floatText (bits : UInt64) : String :=
  if Double.isFinite bits then
    let unsigned := decimalText (Decimal.shortest (Double.magnitude bits))
    String.ofList (if Double.isNegative bits then '-' :: unsigned else unsigned)
  else "null"

mutual

/-- The text without spaces. -/
def compact : Json → String
  | .null => "null"
  | .bool value => if value then "true" else "false"
  | .integer value => toString value
  | .float bits => floatText bits
  | .string value => stringText value
  | .array items => "[" ++ ",".intercalate (compactItems items) ++ "]"
  | .object members => "\x7b" ++ ",".intercalate (compactMembers members) ++ "\x7d"

def compactItems : List Json → List String
  | [] => []
  | item :: rest => compact item :: compactItems rest

def compactMembers : List (String × Json) → List String
  | [] => []
  | (name, value) :: rest => (stringText name ++ ":" ++ compact value) :: compactMembers rest

end

/-- Lines between brackets, indented by two places more than the brackets. -/
def bracketed (opening closing : String) (indent : Nat) (lines : List String) : String :=
  if lines = [] then opening ++ closing
  else
    let margin (n : Nat) := "\n" ++ String.ofList (List.replicate n ' ')
    opening ++ margin (indent + 2) ++ ("," ++ margin (indent + 2)).intercalate lines ++
      margin indent ++ closing

mutual

/-- The text with one item or member a line. -/
def indented (indent : Nat) : Json → String
  | .array items => bracketed "[" "]" indent (indentedItems (indent + 2) items)
  | .object members => bracketed "\x7b" "\x7d" indent (indentedMembers (indent + 2) members)
  | .null => "null"
  | .bool value => if value then "true" else "false"
  | .integer value => toString value
  | .float bits => floatText bits
  | .string value => stringText value

def indentedItems (indent : Nat) : List Json → List String
  | [] => []
  | item :: rest => indented indent item :: indentedItems indent rest

def indentedMembers (indent : Nat) : List (String × Json) → List String
  | [] => []
  | (name, value) :: rest =>
    (stringText name ++ ": " ++ indented indent value) :: indentedMembers indent rest

end

def pretty (value : Json) : String :=
  indented 0 value

end Json

end ContentGraph
