import ContentGraph.Xml.Error

/-! References in text: the five predefined entities, and characters by their number. -/

namespace ContentGraph.Xml

def predefined? : List Char → Option Char
  | ['l', 't'] => some '<'
  | ['g', 't'] => some '>'
  | ['a', 'm', 'p'] => some '&'
  | ['a', 'p', 'o', 's'] => some '\''
  | ['q', 'u', 'o', 't'] => some '"'
  | _ => none

def digitIn? (base : Nat) (c : Char) : Option Nat :=
  let value :=
    if '0' ≤ c ∧ c ≤ '9' then c.toNat - 48
    else if 'a' ≤ c ∧ c ≤ 'f' then c.toNat - 87
    else if 'A' ≤ c ∧ c ≤ 'F' then c.toNat - 55
    else base
  if value < base then some value else none

/-- Digits are read in turn, and a digit that makes the number too large ends the reading. -/
def numberIn (base n : Nat) : List Char → Except ReferenceError Nat
  | [] => .ok n
  | c :: rest =>
    match digitIn? base c with
    | none => .error .badDigit
    | some digit =>
      if base * n + digit < UInt32.size then numberIn base (base * n + digit) rest
      else .error .tooLarge

def referenceNumber (base : Nat) (digits : List Char) : Except ReferenceError Nat :=
  match digits with
  | [] => .error .empty
  | '+' :: _ => .error .sign
  | '-' :: _ => .error .sign
  | digits => numberIn base 0 digits

/-- The character with a number, in decimal or behind an `x` in hexadecimal digits. -/
def referencedChar (digits : List Char) : Except ReferenceError Char := do
  let code ← match digits with
    | 'x' :: digits => referenceNumber 16 digits
    | digits => referenceNumber 10 digits
  if code = 0 then throw .zero
  else if code.isValidChar then return Char.ofNat code
  else throw (.noCharacter code)

/-- What stands between `&` and `;`, where `first` is the position of the name. -/
def resolveEntity (first : Nat) (name : List Char) : Except EntityError Char :=
  match name with
  | '#' :: digits =>
    match referencedChar digits with
    | .ok c => .ok c
    | .error cause => .error (.badReference cause)
  | name =>
    match predefined? name with
    | some c => .ok c
    | none =>
      let text := String.ofList name
      .error (.unrecognized first (first + text.utf8ByteSize) text)

/-- Text of `total` bytes from `position` on. Inside a reference, `pending` has the position of its
ampersand and the characters of its name so far, the last one first. -/
def unescapeFrom (total position : Nat) (pending : Option (Nat × List Char)) :
    List Char → Except EntityError (List Char)
  | [] =>
    match pending with
    | none => .ok []
    | some (start, _) => .error (.unterminated start total)
  | c :: rest =>
    match pending with
    | none =>
      if c = '&' then unescapeFrom total (position + 1) (some (position, [])) rest
      else (c :: ·) <$> unescapeFrom total (position + c.utf8Size) none rest
    | some (start, name) =>
      if c = ';' then do
        let resolved ← resolveEntity (start + 1) name.reverse
        (resolved :: ·) <$> unescapeFrom total (position + 1) none rest
      else if c = '&' then .error (.unterminated start total)
      else unescapeFrom total (position + c.utf8Size) (some (start, c :: name)) rest

def unescape (s : String) : Except EntityError String :=
  String.ofList <$> unescapeFrom s.utf8ByteSize 0 none s.toList

end ContentGraph.Xml
