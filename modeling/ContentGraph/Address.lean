import ContentGraph.Blake3
import ContentGraph.Hex
import ContentGraph.Quoted
import ContentGraph.Utf8

/-! An address names a byte string by its hash, and says how the bytes are encoded and hashed. It is
written in binary as four bytes and the digest, and in text as the hexadecimal digits of that form
behind an `m`. -/

namespace ContentGraph

inductive Codec
  | raw
  | node
  deriving DecidableEq, Repr

namespace Codec

def code : Codec → UInt8
  | .raw => 0x55
  | .node => 0x6D

def name : Codec → String
  | .raw => "raw"
  | .node => "node"

/-- The tag hashed before the data, so that equal bytes have different addresses under different
codecs. -/
def domain : Codec → String
  | .raw => "meta-raw-v1"
  | .node => "meta-node-v1"

end Codec

inductive HashFunction
  | blake3
  deriving DecidableEq, Repr

namespace HashFunction

def code : HashFunction → UInt8
  | .blake3 => 0x1E

def name : HashFunction → String
  | .blake3 => "blake3"

end HashFunction

inductive AddressError
  | missingMark
  | invalidHex (cause : HexError)
  | invalidLength (expected actual : Nat)
  | unknownCodec (code : UInt8)
  | unknownHashFunction (code : UInt8)
  deriving DecidableEq

def HexError.message : HexError → String
  | .oddLength => "Odd number of digits"
  | .badDigit digit index =>
    s!"Invalid character {quotedChar (Char.ofNat digit.toNat)} at position {index}"

def AddressError.message : AddressError → String
  | .missingMark => "address string must start with 'm'"
  | .invalidHex cause => s!"invalid hex string: {cause.message}"
  | .invalidLength expected actual => s!"invalid byte length: expected {expected}, got {actual}"
  | .unknownCodec code => s!"unknown codec id 0x{hexText [code]}"
  | .unknownHashFunction code => s!"unknown hash function id 0x{hexText [code]}"

def Codec.ofCode (code : UInt8) : Except AddressError Codec :=
  if code = 0x55 then .ok .raw
  else if code = 0x6D then .ok .node
  else .error (.unknownCodec code)

def HashFunction.ofCode (code : UInt8) : Except AddressError HashFunction :=
  if code = 0x1E then .ok .blake3 else .error (.unknownHashFunction code)

structure Address where
  version : UInt8
  codec : Codec
  hash : HashFunction
  digest : Vector UInt8 32
  deriving DecidableEq

namespace Address

/-- The version that derived addresses have, and the only one whose blocks are accepted. -/
def currentVersion : UInt8 := 1

def digestLength : Nat := 32

def binaryLength : Nat := 36

def toBytes (a : Address) : Bytes :=
  a.version :: a.codec.code :: a.hash.code :: UInt8.ofNat digestLength :: a.digest.toList

/-- The length is checked first, then the codec, the hash function and the digest's length. -/
def ofBytes : Bytes → Except AddressError Address
  | version :: codecCode :: hashCode :: digestSize :: digest =>
    if h : digest.length = digestLength then do
      let codec ← Codec.ofCode codecCode
      let hash ← HashFunction.ofCode hashCode
      if digestSize.toNat = digestLength then
        return ⟨version, codec, hash, ⟨digest.toArray, by simpa [digestLength] using h⟩⟩
      else throw (.invalidLength digestLength digestSize.toNat)
    else .error (.invalidLength binaryLength (digest.length + 4))
  | short => .error (.invalidLength binaryLength short.length)

/-- The text form, which is also the key an object is stored under. -/
def text (a : Address) : String :=
  String.ofList ('m' :: hexOfBytes a.toBytes)

def ofText (s : String) : Except AddressError Address :=
  match s.toList with
  | 'm' :: digits =>
    match bytesOfHex (utf8 (String.ofList digits)) with
    | .error cause => .error (.invalidHex cause)
    | .ok data => ofBytes data
  | _ => .error .missingMark

/-- The first four bytes of the digest. -/
def shortText (a : Address) : String :=
  hexText (a.digest.toList.take 4)

def summary (a : Address) : String :=
  s!"Address({a.codec.name}:{a.shortText})"

/-- The address of `data` under `codec`: the hash of the codec's domain, a colon and the data. -/
def derive (codec : Codec) (data : Bytes) : Address where
  version := currentVersion
  codec := codec
  hash := .blake3
  digest := Blake3.hash (utf8 codec.domain ++ utf8 ":" ++ data)

def verifies (a : Address) (codec : Codec) (data : Bytes) : Bool :=
  derive codec data = a

/-- Addresses are ordered by version, codec, hash function and digest, which is the order of their
binary forms. -/
instance : LE Address := ⟨fun a b => a.toBytes ≤ b.toBytes⟩

instance (a b : Address) : Decidable (a ≤ b) :=
  inferInstanceAs (Decidable (a.toBytes ≤ b.toBytes))

/-- The addresses that occur in a list, in order and each once. -/
def distinct (addresses : List Address) : List Address :=
  (addresses.mergeSort fun a b => a ≤ b).eraseDups

end Address

end ContentGraph
