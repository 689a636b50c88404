/-! Double-precision numbers as their 64 bits: the number a bit pattern stands for, the pattern
nearest to a natural number, and the shortest decimal that no other pattern is nearer to. -/

namespace ContentGraph

/-- The magnitude `mantissa * 2 ^ exponent`. -/
structure Magnitude where
  mantissa : Nat
  exponent : Int
  deriving DecidableEq

namespace Double

/-- What the leading one of a mantissa counts, which the bits leave out. -/
def leadingOne : Nat := 1 <<< 52

def isNegative (bits : UInt64) : Bool :=
  bits.toNat >>> 63 = 1

def exponentField (bits : UInt64) : Nat :=
  bits.toNat >>> 52 % 2048

def fraction (bits : UInt64) : Nat :=
  bits.toNat % leadingOne

def isFinite (bits : UInt64) : Bool :=
  exponentField bits ≠ 2047

def magnitude (bits : UInt64) : Magnitude :=
  if exponentField bits = 0 then ⟨fraction bits, -1074⟩
  else ⟨leadingOne + fraction bits, (exponentField bits : Int) - 1075⟩

/-- `n / d` to the nearest natural number, from the middle to the even one. -/
def roundHalfEven (n d : Nat) : Nat :=
  let q := n / d
  let twice := 2 * (n % d)
  if d < twice ∨ (twice = d ∧ q % 2 = 1) then q + 1 else q

/-- The number nearest to `n`, which has to be below `2 ^ 1023`. A mantissa that rounds up to
`2 ^ 53` carries into the exponent field. -/
def ofNat (n : Nat) : UInt64 :=
  if n = 0 then 0
  else
    let scaled :=
      if n.log2 ≤ 52 then n <<< (52 - n.log2) else roundHalfEven n (1 <<< (n.log2 - 52))
    UInt64.ofNat ((n.log2 + 1022) * leadingOne + scaled)

end Double

/-- The decimal `0.d₁d₂… * 10 ^ point`, whose first and last digits are not zero. -/
structure Decimal where
  digits : List Nat
  point : Int
  deriving DecidableEq

namespace Decimal

/-- The numbers that round to a magnitude, in quarters of its last place: they lie between `low` and
`high`, which belong to them if `closed` is true. -/
structure Neighbourhood where
  low : Nat
  middle : Nat
  high : Nat
  closed : Bool

/-- Below a power of two the numbers lie closer together, except at the bottom of the range. -/
def Neighbourhood.of (m : Magnitude) : Neighbourhood where
  low := if m.mantissa = Double.leadingOne ∧ m.exponent ≠ -1074 then 4 * m.mantissa - 1
    else 4 * m.mantissa - 2
  middle := 4 * m.mantissa
  high := 4 * m.mantissa + 2
  closed := m.mantissa % 2 = 0

/-- The positive number `n * 2 ^ two * 10 ^ ten`, for exponents of either sign, as a fraction. -/
def fractionOf (n : Nat) (two ten : Int) : Nat × Nat :=
  (n <<< two.toNat * Nat.pow 10 ten.toNat, 1 <<< (-two).toNat * Nat.pow 10 (-ten).toNat)

/-- The greatest `e` with `10 ^ e` at most the magnitude, which is not zero. The quotient stands for
the decimal logarithm of two, and is exact enough for every double. -/
def leadingPlace (m : Magnitude) : Int :=
  let estimate := ((m.mantissa.log2 : Int) + m.exponent) * 30103 / 100000
  let (n, d) := fractionOf m.mantissa m.exponent (-(estimate + 1))
  if d ≤ n then estimate + 1 else estimate

def digitsOf (n : Nat) : List Nat :=
  (Nat.toDigits 10 n).map fun c => c.toNat - 48

def dropTrailingZeros (digits : List Nat) : List Nat :=
  (digits.reverse.dropWhile (· = 0)).reverse

/-- The multiple of `10 ^ place` nearest to the magnitude among those that round to it: of its two
neighbours on that grid the nearer one, from the middle the even one. -/
def onGrid? (m : Magnitude) (place : Int) : Option Nat :=
  let near := Neighbourhood.of m
  let (low, _) := fractionOf near.low (m.exponent - 2) (-place)
  let (middle, unit) := fractionOf near.middle (m.exponent - 2) (-place)
  let (high, _) := fractionOf near.high (m.exponent - 2) (-place)
  let rounds (n : Nat) : Bool :=
    if near.closed then low ≤ n * unit && n * unit ≤ high else low < n * unit && n * unit < high
  let below := middle / unit
  let above := below + 1
  let nearest := Double.roundHalfEven middle unit
  if rounds nearest then some nearest
  else if rounds below then some below
  else if rounds above then some above
  else none

/-- The shortest decimal that rounds to the magnitude, with at most `count` digits more than have been
tried. Seventeen digits are enough for every double. -/
def shortestFrom (m : Magnitude) (place : Int) : Nat → Decimal
  | 0 => ⟨[], 0⟩
  | count + 1 =>
    match onGrid? m place with
    | some n =>
      let digits := digitsOf n
      ⟨dropTrailingZeros digits, place + digits.length⟩
    | none => shortestFrom m (place - 1) count

def shortest (m : Magnitude) : Decimal :=
  if m.mantissa = 0 then ⟨[], 0⟩ else shortestFrom m (leadingPlace m) 17

end Decimal

end ContentGraph
