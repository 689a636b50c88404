/-! Taking text from the front: the parts of TOML that carry nothing. -/

namespace ContentGraph.Toml

/-- Takes a value from the front of the characters and leaves the rest, or fails. -/
abbrev Scan := StateT (List Char) Option

def takeWhile (p : Char → Bool) : Scan (List Char) :=
  modifyGet fun chars => chars.span p

/-- The next character, if it is `p`. -/
def satisfy (p : Char → Bool) : Scan Char := fun
  | c :: rest => if p c then some (c, rest) else none
  | [] => none

def expect (word : String) : Scan Unit := fun chars =>
  if word.toList.isPrefixOf chars then some ((), chars.drop word.length) else none

/-- Whether a word is next. It is taken if it is. -/
def accept (word : String) : Scan Bool := fun chars =>
  if word.toList.isPrefixOf chars then some (true, chars.drop word.length)
  else some (false, chars)

def isBlank (c : Char) : Bool :=
  c = ' ' || c = '\t'

/-- Tabs and everything that is no control character. -/
def isTextChar (c : Char) : Bool :=
  c = '\t' || (' ' ≤ c && c ≠ '\x7f')

def isDigit (c : Char) : Bool :=
  '0' ≤ c && c ≤ '9'

def skipBlanks : Scan Unit := do
  discard (takeWhile isBlank)

def newline : Scan Unit :=
  expect "\n" <|> expect "\r\n"

def comment : Scan Unit := do
  expect "#"
  discard (takeWhile isTextChar)

def endOfText : Scan Unit := fun chars =>
  if chars = [] then some ((), []) else none

/-- The rest of a line on which everything has been said. -/
def lineEnd : Scan Unit := do
  skipBlanks
  comment <|> pure ()
  newline <|> endOfText

/-- As many blanks, line ends and, where they may stand, comments as there are, up to a number. -/
def skipGaps (comments : Bool) : Nat → Scan Unit
  | 0 => pure ()
  | n + 1 =>
    (do
      discard (satisfy isBlank) <|> newline <|> (if comments then comment else failure)
      skipGaps comments n)
    <|> pure ()

end ContentGraph.Toml
