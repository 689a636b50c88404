import ContentGraph.Datum

/-! Reading JSON text. A reader takes what it reads from the front of the characters and gives the
others back, or nothing if the text is not JSON. -/

namespace ContentGraph.JsonReader

def isBlank (c : Char) : Bool :=
  c = ' ' || c = '\t' || c = '\n' || c = '\r'

def skipBlanks (chars : List Char) : List Char :=
  chars.dropWhile isBlank

def isDigit (c : Char) : Bool :=
  '0' ≤ c && c ≤ '9'

def digitValue (c : Char) : Nat :=
  c.toNat - 48

def hexDigitValue? (c : Char) : Option Nat :=
  if isDigit c then some (c.toNat - 48)
  else if 'a' ≤ c && c ≤ 'f' then some (c.toNat - 87)
  else if 'A' ≤ c && c ≤ 'F' then some (c.toNat - 55)
  else none

/-- Four hexadecimal digits. -/
def codeUnit? : List Char → Option (Nat × List Char)
  | a :: b :: c :: d :: rest => do
    let a ← hexDigitValue? a
    let b ← hexDigitValue? b
    let c ← hexDigitValue? c
    let d ← hexDigitValue? d
    return (4096 * a + 256 * b + 16 * c + d, rest)
  | _ => none

/-- The character behind `\u`. One beyond U+FFFF is written as two surrogates. A surrogate that stands
alone is no character. -/
def unicodeEscape? (chars : List Char) : Option (Option Char × List Char) := do
  let (unit, rest) ← codeUnit? chars
  if 0xD800 ≤ unit ∧ unit < 0xE000 then
    match rest with
    | '\\' :: 'u' :: more =>
      let (low, more) ← codeUnit? more
      if unit < 0xDC00 ∧ 0xDC00 ≤ low ∧ low < 0xE000 then
        return (some (Char.ofNat (0x10000 + 1024 * (unit - 0xD800) + (low - 0xDC00))), more)
      else return (none, rest)
    | _ => return (none, rest)
  else return (some (Char.ofNat unit), rest)

def simpleEscape? : Char → Option Char
  | '"' => some '"'
  | '\\' => some '\\'
  | '/' => some '/'
  | 'b' => some '\x08'
  | 'f' => some '\x0c'
  | 'n' => some '\n'
  | 'r' => some '\r'
  | 't' => some '\t'
  | _ => none

/-- The text up to the closing quotation mark, behind the characters read so far, which stand in
reverse. It is nothing if an escape in it is no character. The number bounds the characters to be
read. -/
def stringBody (read : Option (List Char)) :
    Nat → List Char → Option (Option String × List Char)
  | 0, _ => none
  | _ + 1, [] => none
  | fuel + 1, c :: rest =>
    if c = '"' then some (read.map fun chars => String.ofList chars.reverse, rest)
    else if c = '\\' then
      match rest with
      | 'u' :: rest => do
        let (c, rest) ← unicodeEscape? rest
        let read := do return (← c) :: (← read)
        stringBody read fuel rest
      | e :: rest => do
        let c ← simpleEscape? e
        stringBody (read.map (c :: ·)) fuel rest
      | [] => none
    else if c < ' ' then none
    else stringBody (read.map (c :: ·)) fuel rest

def digits (chars : List Char) : List Char × List Char :=
  chars.span isDigit

/-- A point and digits, an exponent, or neither. -/
def fraction? (chars : List Char) : Option (Bool × List Char) :=
  match chars with
  | '.' :: rest => if (digits rest).1 = [] then none else some (true, (digits rest).2)
  | _ => some (false, chars)

def exponent? (chars : List Char) : Option (Bool × List Char) :=
  match chars with
  | c :: rest =>
    if c = 'e' || c = 'E' then
      let rest := match rest with
        | '+' :: rest => rest
        | '-' :: rest => rest
        | _ => rest
      if (digits rest).1 = [] then none else some (true, (digits rest).2)
    else some (false, chars)
  | [] => some (false, chars)

/-- A number without a fraction and an exponent is an integer, but for a negative zero. -/
def number? (chars : List Char) : Option (Datum × List Char) := do
  let (negative, chars) := match chars with
    | '-' :: rest => (true, rest)
    | _ => (false, chars)
  let (whole, rest) := digits chars
  if whole = [] ∨ (whole.head? = some '0' ∧ whole.length ≠ 1) then none
  else
    let (hasFraction, rest) ← fraction? rest
    let (hasExponent, rest) ← exponent? rest
    let n := whole.foldl (fun n c => 10 * n + digitValue c) 0
    if hasFraction || hasExponent || (negative && n = 0) then return (.other, rest)
    else return (.integer (if negative then -n else n), rest)

def word? (word : String) (value : Datum) (chars : List Char) : Option (Datum × List Char) :=
  if word.toList.isPrefixOf chars then some (value, chars.drop word.length) else none

mutual

/-- The number bounds the calls to come: two for each character are enough, and leave enough for the
characters of a string. -/
def value? : Nat → List Char → Option (Datum × List Char)
  | 0, _ => none
  | fuel + 1, chars =>
    match skipBlanks chars with
    | [] => none
    | '"' :: rest => do
      let (s, rest) ← stringBody (some []) fuel rest
      return (match s with
        | some s => .text s
        | none => .other, rest)
    | '[' :: rest =>
      match skipBlanks rest with
      | ']' :: rest => some (.list [], rest)
      | rest => do
        let (items, rest) ← items? fuel rest
        return (.list items, rest)
    | '\x7b' :: rest =>
      match skipBlanks rest with
      | '\x7d' :: rest => some (.table [], rest)
      | rest => do
        let (members, rest) ← members? fuel rest
        return (match members with
          | some members => .table members
          | none => .other, rest)
    | 'n' :: rest => word? "ull" .null rest
    | 't' :: rest => word? "rue" (.flag true) rest
    | 'f' :: rest => word? "alse" (.flag false) rest
    | chars => number? chars

def items? : Nat → List Char → Option (List Datum × List Char)
  | 0, _ => none
  | fuel + 1, chars => do
    let (item, rest) ← value? fuel chars
    match skipBlanks rest with
    | ',' :: rest =>
      let (items, rest) ← items? fuel rest
      return (item :: items, rest)
    | ']' :: rest => return ([item], rest)
    | _ => none

/-- Nothing if a member's name is no text. -/
def members? : Nat → List Char → Option (Option (List (String × Datum)) × List Char)
  | 0, _ => none
  | fuel + 1, chars =>
    match skipBlanks chars with
    | '"' :: rest => do
      let (name, rest) ← stringBody (some []) fuel rest
      match skipBlanks rest with
      | ':' :: rest =>
        let (value, rest) ← value? fuel rest
        let member := name.map fun name => (name, value)
        match skipBlanks rest with
        | ',' :: rest =>
          let (members, rest) ← members? fuel rest
          return (do return (← member) :: (← members), rest)
        | '\x7d' :: rest => return (member.map ([·]), rest)
        | _ => none
      | _ => none
    | _ => none

end

end JsonReader

/-- The value that a JSON text holds, with nothing but blanks around it. -/
def readJson? (s : String) : Option Datum := do
  let chars := s.toList
  let (value, rest) ← JsonReader.value? (2 * chars.length + 2) chars
  if JsonReader.skipBlanks rest = [] then return value else none

end ContentGraph
