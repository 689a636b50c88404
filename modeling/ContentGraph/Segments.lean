/-! Text divided at slashes. -/

namespace ContentGraph

/-- The parts between the marks, of which there is one more than there are marks. -/
def splitChars (mark : Char) : List Char → List (List Char)
  | [] => [[]]
  | c :: rest =>
    if c = mark then [] :: splitChars mark rest
    else
      match splitChars mark rest with
      | [] => [[c]]
      | part :: parts => (c :: part) :: parts

def segments (s : String) : List String :=
  (splitChars '/' s.toList).map String.ofList

end ContentGraph
