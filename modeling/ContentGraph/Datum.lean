/-! Values read from a file that people write, in whatever notation it is in. The members of a table
stand as they were written, with any repeats. -/

namespace ContentGraph

/-- Numbers other than integers, dates, and texts with half a character in them are recognised but
carry nothing: no setting is one. -/
inductive Datum
  | null
  | flag (value : Bool)
  | integer (value : Int)
  | other
  | text (value : String)
  | list (items : List Datum)
  | table (members : List (String × Datum))
  deriving Inhabited

namespace Datum

def flag? : Datum → Option Bool
  | .flag value => some value
  | _ => none

def integer? : Datum → Option Int
  | .integer value => some value
  | _ => none

def text? : Datum → Option String
  | .text value => some value
  | _ => none

def list? : Datum → Option (List Datum)
  | .list items => some items
  | _ => none

/-- The first member of a name. -/
def member? (d : Datum) (name : String) : Option Datum :=
  match d with
  | .table members => members.lookup name
  | _ => none

end Datum

end ContentGraph
