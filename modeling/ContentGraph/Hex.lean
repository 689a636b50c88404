import ContentGraph.Bytes

/-! Bytes as pairs of hexadecimal digits: written in lower case, read in either case. -/

namespace ContentGraph

def hexDigit (n : Nat) : Char :=
  Char.ofNat (if n < 10 then 48 + n else 87 + n)

def hexOfByte (b : UInt8) : List Char :=
  [hexDigit (b.toNat / 16), hexDigit (b.toNat % 16)]

def hexOfBytes (data : Bytes) : List Char :=
  data.flatMap hexOfByte

def hexText (data : Bytes) : String :=
  String.ofList (hexOfBytes data)

/-- The value of an ASCII digit or letter as a hexadecimal digit. -/
def hexValue? (b : UInt8) : Option Nat :=
  let n := b.toNat
  if 48 ≤ n ∧ n ≤ 57 then some (n - 48)
  else if 97 ≤ n ∧ n ≤ 102 then some (n - 87)
  else if 65 ≤ n ∧ n ≤ 70 then some (n - 55)
  else none

inductive HexError
  | oddLength
  | badDigit (digit : UInt8) (index : Nat)
  deriving DecidableEq

/-- Pairs of digits, the first of them at `index`. -/
def bytesOfPairs (index : Nat) : Bytes → Except HexError Bytes
  | [] => .ok []
  | [_] => .error .oddLength
  | high :: low :: rest =>
    match hexValue? high, hexValue? low with
    | none, _ => .error (.badDigit high index)
    | some _, none => .error (.badDigit low (index + 1))
    | some h, some l => do
      let data ← bytesOfPairs (index + 2) rest
      return UInt8.ofNat (16 * h + l) :: data

/-- An odd number of digits is reported before any of them is looked at. -/
def bytesOfHex (digits : Bytes) : Except HexError Bytes :=
  if digits.length % 2 = 1 then .error .oddLength else bytesOfPairs 0 digits

end ContentGraph
