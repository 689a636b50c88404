import ContentGraph.Hex
import ContentGraph.Unprintable

/-! Text in quotation marks, as messages show it: the mark and the backslash are escaped, and a
character that does not show is written as its code point. -/

namespace ContentGraph

def escaped (mark c : Char) : List Char :=
  match c with
  | '\x00' => ['\\', '0']
  | '\t' => ['\\', 't']
  | '\r' => ['\\', 'r']
  | '\n' => ['\\', 'n']
  | '\\' => ['\\', '\\']
  | _ =>
    if c = mark then ['\\', c]
    else if ' ' ≤ c ∧ c ≤ '~' then [c]
    else if isUnprintable c then ['\\', 'u', '\x7b'] ++ Nat.toDigits 16 c.toNat ++ ['\x7d']
    else [c]

def quoted (s : String) : String :=
  String.ofList ('"' :: s.toList.flatMap (escaped '"') ++ ['"'])

def quotedChar (c : Char) : String :=
  String.ofList ('\'' :: escaped '\'' c ++ ['\''])

end ContentGraph
