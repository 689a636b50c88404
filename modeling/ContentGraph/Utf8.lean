import ContentGraph.Bytes

/-! Text as UTF-8. Reading reports where the first ill-formed sequence begins, and how many bytes
of it were well formed before it went wrong. -/

namespace ContentGraph

def utf8 (s : String) : Bytes :=
  s.toList.flatMap String.utf8EncodeChar

inductive Utf8Error
  | invalid (width index : Nat)
  | incomplete (index : Nat)
  deriving DecidableEq

def Utf8Error.message : Utf8Error → String
  | .invalid width index => s!"invalid utf-8 sequence of {width} bytes from index {index}"
  | .incomplete index => s!"incomplete utf-8 byte sequence from index {index}"

/-- The least and the greatest byte that may follow `lead` in a sequence of three or four bytes.
The bounds leave out overlong forms, surrogates and what lies beyond U+10FFFF. -/
def secondByteRange (lead : UInt8) : UInt8 × UInt8 :=
  if lead = 0xE0 then (0xA0, 0xBF)
  else if lead = 0xED then (0x80, 0x9F)
  else if lead = 0xF0 then (0x90, 0xBF)
  else if lead = 0xF4 then (0x80, 0x8F)
  else (0x80, 0xBF)

def isContinuation (b : UInt8) : Bool :=
  0x80 ≤ b && b ≤ 0xBF

def followsLead (lead b : UInt8) : Bool :=
  (secondByteRange lead).1 ≤ b && b ≤ (secondByteRange lead).2

/-- The number whose high part is `n` and whose six low bits come from a continuation byte. -/
def pushSixBits (n : Nat) (b : UInt8) : Nat :=
  64 * n + b.toNat % 64

def charsOfUtf8 (index : Nat) : Bytes → Except Utf8Error (List Char)
  | [] => .ok []
  | b :: rest =>
    if b < 0x80 then
      (Char.ofNat b.toNat :: ·) <$> charsOfUtf8 (index + 1) rest
    else if b < 0xC2 then .error (.invalid 1 index)
    else if b < 0xE0 then
      match rest with
      | [] => .error (.incomplete index)
      | c :: rest =>
        if isContinuation c then
          (Char.ofNat (pushSixBits (b.toNat % 32) c) :: ·) <$> charsOfUtf8 (index + 2) rest
        else .error (.invalid 1 index)
    else if b < 0xF0 then
      match rest with
      | [] => .error (.incomplete index)
      | c :: rest =>
        if !followsLead b c then .error (.invalid 1 index)
        else
          match rest with
          | [] => .error (.incomplete index)
          | d :: rest =>
            if isContinuation d then
              (Char.ofNat (pushSixBits (pushSixBits (b.toNat % 16) c) d) :: ·) <$>
                charsOfUtf8 (index + 3) rest
            else .error (.invalid 2 index)
    else if b < 0xF5 then
      match rest with
      | [] => .error (.incomplete index)
      | c :: rest =>
        if !followsLead b c then .error (.invalid 1 index)
        else
          match rest with
          | [] => .error (.incomplete index)
          | d :: rest =>
            if !isContinuation d then .error (.invalid 2 index)
            else
              match rest with
              | [] => .error (.incomplete index)
              | e :: rest =>
                if isContinuation e then
                  (Char.ofNat (pushSixBits (pushSixBits (pushSixBits (b.toNat % 8) c) d) e) :: ·)
                    <$> charsOfUtf8 (index + 4) rest
                else .error (.invalid 3 index)
    else .error (.invalid 1 index)

def textOfUtf8 (data : Bytes) : Except Utf8Error String :=
  String.ofList <$> charsOfUtf8 0 data

/-- The characters of the well-formed parts, with U+FFFD in place of each ill-formed one. Each of them
takes a byte, so the number of bytes bounds their number. -/
def lossyChars : Nat → Bytes → List Char
  | 0, _ => []
  | fuel + 1, data =>
    match charsOfUtf8 0 data with
    | .ok chars => chars
    | .error (.incomplete index) => lossyChars fuel (data.take index) ++ ['\ufffd']
    | .error (.invalid width index) =>
      lossyChars fuel (data.take index) ++ '\ufffd' :: lossyChars fuel (data.drop (index + width))

def lossyText (data : Bytes) : String :=
  String.ofList (lossyChars (data.length + 1) data)

end ContentGraph
