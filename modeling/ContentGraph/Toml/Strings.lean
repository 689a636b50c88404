import ContentGraph.Toml.Scan

/-! Strings and keys. Quotation marks open strings with escapes and apostrophes open strings without,
and three of either open a string of several lines. -/

namespace ContentGraph.Toml

def hexValue? (c : Char) : Option Nat :=
  if isDigit c then some (c.toNat - 48)
  else if 'a' ≤ c && c ≤ 'f' then some (c.toNat - 87)
  else if 'A' ≤ c && c ≤ 'F' then some (c.toNat - 55)
  else none

/-- As many hexadecimal digits as are asked for, behind those that have the value `n`. -/
def hexNumber (n : Nat) : Nat → Scan Nat
  | 0 => return n
  | count + 1 => do
    let c ← satisfy fun c => (hexValue? c).isSome
    hexNumber (16 * n + (hexValue? c).getD 0) count

def scalar (n : Nat) : Scan Char :=
  if n < 0xD800 ∨ (0xDFFF < n ∧ n < 0x110000) then return Char.ofNat n else failure

/-- What stands for a character behind a backslash. -/
def escape : Scan Char := do
  match ← satisfy fun _ => true with
  | 'b' => return '\x08'
  | 't' => return '\t'
  | 'n' => return '\n'
  | 'f' => return '\x0c'
  | 'r' => return '\r'
  | '"' => return '"'
  | '\\' => return '\\'
  | 'u' => scalar (← hexNumber 0 4)
  | 'U' => scalar (← hexNumber 0 8)
  | _ => failure

/-- A string of one line, up to the mark that closes it. The number bounds its characters, and those
read so far stand in reverse. -/
def lineBody (mark : Char) (escapes : Bool) (read : List Char) : Nat → Scan String
  | 0 => failure
  | n + 1 => do
    let c ← satisfy isTextChar
    if c = mark then return String.ofList read.reverse
    else if escapes && c = '\\' then lineBody mark escapes ((← escape) :: read) n
    else lineBody mark escapes (c :: read) n

/-- Three marks close a string of several lines, and up to two more before them belong to it. A line
end behind a backslash does not count, with all the blanks and line ends that follow. -/
def linesBody (mark : Char) (escapes : Bool) (read : List Char) : Nat → Scan String
  | 0 => failure
  | n + 1 => do
    let marks ← takeWhile (· = mark)
    if 3 ≤ marks.length then
      if marks.length ≤ 5 then return String.ofList (marks.drop 3 ++ read).reverse else failure
    else if marks ≠ [] then linesBody mark escapes (marks ++ read) n
    else if ← accept "\r\n" then linesBody mark escapes ('\n' :: read) n
    else
      let c ← satisfy fun c => c = '\n' || isTextChar c
      if escapes && c = '\\' then
        (do
          skipBlanks
          newline
          skipGaps false n
          linesBody mark escapes read n)
        <|> (do linesBody mark escapes ((← escape) :: read) n)
      else linesBody mark escapes (c :: read) n

def room : Scan Nat := do
  return (← get).length + 1

def lineString : Scan String := do
  if ← accept "\"" then lineBody '"' true [] (← room)
  else
    expect "'"
    lineBody '\'' false [] (← room)

/-- A line end right behind the marks that open a string of several lines is no part of it. -/
def string : Scan String := do
  if ← accept "\"\"\"" then
    newline <|> pure ()
    linesBody '"' true [] (← room)
  else if ← accept "'''" then
    newline <|> pure ()
    linesBody '\'' false [] (← room)
  else lineString

def isKeyChar (c : Char) : Bool :=
  c.isAlphanum || c = '_' || c = '-'

def simpleKey : Scan String :=
  lineString <|> do
    let chars ← takeWhile isKeyChar
    if chars = [] then failure else return String.ofList chars

def moreKeys : Nat → Scan (List String)
  | 0 => return []
  | n + 1 => do
    skipBlanks
    if ← accept "." then
      skipBlanks
      let key ← simpleKey
      return key :: (← moreKeys n)
    else return []

/-- The greatest depth of keys, lists and tables is one less. -/
def depthLimit : Nat := 80

/-- Keys with points between them. -/
def dottedKey : Scan (List String) := do
  skipBlanks
  let first ← simpleKey
  let key := first :: (← moreKeys (← room))
  if key.length < depthLimit then return key else failure

end ContentGraph.Toml
