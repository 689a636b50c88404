import ContentGraph.Segments

/-! Paths as they are written, and the places they lead to. -/

namespace ContentGraph

/-- The names on the way from the root to a file or a directory. -/
abbrev Place := List String

/-- One dot leads nowhere and two dots lead back, from the root to itself. -/
def Place.step (place : Place) (name : String) : Place :=
  if name = "." then place
  else if name = ".." then place.dropLast
  else place ++ [name]

structure Path where
  text : String
  deriving DecidableEq

namespace Path

/-- The names between the slashes, dots among them. -/
def steps (p : Path) : List String :=
  (segments p.text).filter (· ≠ "")

/-- The names that lead somewhere. -/
def names (p : Path) : List String :=
  p.steps.filter (· ≠ ".")

/-- It leads from the root, and not from the working directory. -/
def isAbsolute (p : Path) : Bool :=
  p.text.toList.head? = some '/'

/-- It can only lead to a directory. -/
def endsInSlash (p : Path) : Bool :=
  p.text.toList.getLast? = some '/'

/-- The path of a name in the directory that a path leads to. -/
def join (p : Path) (name : String) : Path :=
  ⟨if p.text = "" || p.endsInSlash then p.text ++ name else p.text ++ "/" ++ name⟩

end Path

end ContentGraph
