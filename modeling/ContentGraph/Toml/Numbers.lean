import ContentGraph.Datum
import ContentGraph.Toml.Strings

/-! Numbers and dates. Underscores may stand between the digits of a number. -/

namespace ContentGraph.Toml

/-- Digits and single underscores between them, behind a digit. -/
def moreDigits (p : Char → Bool) : Nat → Scan (List Char)
  | 0 => return []
  | n + 1 => do
    if ← accept "_" then
      let c ← satisfy p
      return c :: (← moreDigits p n)
    else
      match ← (some <$> satisfy p) <|> pure none with
      | some c => return c :: (← moreDigits p n)
      | none => return []

def digits (p : Char → Bool) : Scan (List Char) := do
  let c ← satisfy p
  return c :: (← moreDigits p (← room))

def valueOf (base : Nat) (digits : List Char) : Nat :=
  digits.foldl (fun n c => base * n + (hexValue? c).getD 0) 0

/-- Whether there is a minus sign. -/
def sign : Scan Bool := do
  if ← accept "-" then return true
  else
    discard (accept "+")
    return false

/-- A zero stands alone before the point. -/
def wholeDigits : Scan (List Char) := do
  if ← accept "0" then return ['0'] else digits isDigit

def sixtyFour (n : Int) : Scan Datum :=
  if Int64.minValue.toInt ≤ n ∧ n ≤ Int64.maxValue.toInt then return .integer n else failure

def decimal : Scan Datum := do
  let negative ← sign
  let n := valueOf 10 (← wholeDigits)
  sixtyFour (if negative then -n else n)

def inBase (mark : String) (base : Nat) (p : Char → Bool) : Scan Datum := do
  expect mark
  sixtyFour (valueOf base (← digits p))

def integer : Scan Datum :=
  inBase "0x" 16 (fun c => (hexValue? c).isSome) <|> inBase "0o" 8 (fun c => '0' ≤ c && c ≤ '7')
    <|> inBase "0b" 2 (fun c => c = '0' || c = '1') <|> decimal

/-- The least number too large for a double: half a step beyond the greatest one. -/
def doubleBound : Nat := 1 <<< 1024 - 1 <<< 970

/-- Whether the number with these digits and this power of ten is too large for a double. -/
def overflows (digits : List Char) (exponent : Int) : Bool :=
  let n := valueOf 10 digits
  if n = 0 then false
  else if 400 < exponent then true
  else if exponent < -(digits.length : Int) then false
  else doubleBound * Nat.pow 10 (-exponent).toNat ≤ n * Nat.pow 10 exponent.toNat

def exponent : Scan Int := do
  expect "e" <|> expect "E"
  let negative ← sign
  let n : Int := valueOf 10 (← digits isDigit)
  return if negative then -n else n

def fraction : Scan (List Char) := do
  expect "."
  digits isDigit

/-- With a point, an exponent or both. A number may be too small, but not too large. -/
def float : Scan Datum := do
  let negative ← sign
  let whole ← wholeDigits
  let (places, power) ←
    (do return ([], ← exponent)) <|> (do return (← fraction, ← exponent <|> pure 0))
  if !negative && overflows (whole ++ places) (power - places.length) then failure
  else return .other

def special : Scan Datum := do
  discard sign
  expect "inf" <|> expect "nan"
  return .other

/-- A number of so many digits, within bounds. -/
def fixed (count least greatest : Nat) : Scan Nat := do
  let rec go : Nat → Scan (List Char)
    | 0 => return []
    | n + 1 => do
      let c ← satisfy isDigit
      return c :: (← go n)
  let n := valueOf 10 (← go count)
  if least ≤ n ∧ n ≤ greatest then return n else failure

def isLeapYear (year : Nat) : Bool :=
  year % 4 = 0 && (year % 100 ≠ 0 || year % 400 = 0)

def daysIn (year month : Nat) : Nat :=
  if month = 2 then if isLeapYear year then 29 else 28
  else if month ∈ [4, 6, 9, 11] then 30
  else 31

def date : Scan Unit := do
  let year ← fixed 4 0 9999
  expect "-"
  let month ← fixed 2 1 12
  expect "-"
  discard (fixed 2 1 (daysIn year month))

/-- A minute may have a leap second. -/
def time : Scan Unit := do
  discard (fixed 2 0 23)
  expect ":"
  discard (fixed 2 0 59)
  expect ":"
  discard (fixed 2 0 60)
  (do
    expect "."
    discard (satisfy isDigit)
    discard (takeWhile isDigit))
  <|> pure ()

def offset : Scan Unit :=
  expect "Z" <|> expect "z" <|> do
    expect "+" <|> expect "-"
    discard (fixed 2 0 23)
    expect ":"
    discard (fixed 2 0 59)

/-- A date, a time or both. It is a table, of parts that are no settings. -/
def moment : Scan Datum := do
  (do
    date
    (do
      expect "T" <|> expect "t" <|> expect " "
      time
      offset <|> pure ())
    <|> pure ())
  <|> time
  return .table []

def number : Scan Datum :=
  moment <|> float <|> special <|> integer

end ContentGraph.Toml
