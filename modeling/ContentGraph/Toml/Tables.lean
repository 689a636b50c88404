import ContentGraph.Datum

/-! Tables put together from keys with values and from headers. No key is defined twice, and a table
is extended only in the way in which it came about. -/

namespace ContentGraph.Toml

/-- How a table came about: on the way to a header's table, on the way to a key with points, or by a
header of its own. -/
inductive Origin
  | implied
  | dotted
  | header
  deriving DecidableEq

/-- Values are complete, with all the tables within them. Of tables in a list the last one is being
written. -/
inductive Entry
  | value (d : Datum)
  | table (origin : Origin) (members : List (String × Entry))
  | tables (earlier : List (List (String × Entry))) (last : List (String × Entry))

abbrev Members := List (String × Entry)

mutual

def Entry.toDatum : Entry → Datum
  | .value d => d
  | .table _ members => .table (dataOf members)
  | .tables earlier last => .list (dataOfTables earlier ++ [.table (dataOf last)])

def dataOf : List (String × Entry) → List (String × Datum)
  | [] => []
  | (key, entry) :: rest => (key, entry.toDatum) :: dataOf rest

def dataOfTables : List (List (String × Entry)) → List Datum
  | [] => []
  | members :: rest => .table (dataOf members) :: dataOfTables rest

end

/-- Replaces the entry of a key by what `change` makes of it, or adds one. -/
def Members.alter (change : Option Entry → Option Entry) (members : Members) (key : String) :
    Option Members :=
  match members with
  | [] => (change none).map fun entry => [(key, entry)]
  | (k, entry) :: rest =>
    if k = key then (change (some entry)).map fun entry => (k, entry) :: rest
    else (Members.alter change rest key).map ((k, entry) :: ·)

/-- Changes the members of an entry's table, or of its last table. A table that is missing is made
with the `origin`. -/
def inside (origin : Origin) (change : Members → Option Members) : Option Entry → Option Entry
  | none => (change []).map (.table origin)
  | some (.table origin members) => (change members).map (.table origin)
  | some (.tables earlier last) => (change last).map (.tables earlier)
  | some (.value _) => none

/-- Goes down to the table of a header, or to the table around it. -/
def Members.at (change : Members → Option Members) (members : Members) :
    List String → Option Members
  | [] => change members
  | key :: rest =>
    members.alter (inside .implied fun inner => Members.at change inner rest) key

def define (d : Datum) : Option Entry → Option Entry
  | none => some (.value d)
  | some _ => none

/-- Gives a key a value. The tables on the way there must not have headers of their own, and the last
of them must be there for keys with points only. -/
def Members.put (members : Members) (d : Datum) : List String → Option Members
  | [] => none
  | [key] => members.alter (define d) key
  | key :: rest =>
    members.alter
      (fun entry =>
        match entry, rest with
        | some (.table .header _), _ => none
        | some (.table .implied _), [_] => none
        | some (.tables _ _), [_] => none
        | entry, _ => inside .dotted (fun inner => Members.put inner d rest) entry)
      key

def openTable : Option Entry → Option Entry
  | none => some (.table .header [])
  | some (.table .implied members) => some (.table .header members)
  | some _ => none

def openElement : Option Entry → Option Entry
  | none => some (.tables [] [])
  | some (.tables earlier last) => some (.tables (earlier ++ [last]) [])
  | some _ => none

inductive Statement
  | pair (key : List String) (d : Datum)
  | header (key : List String)
  | element (key : List String)

/-- The table that pairs go into, and everything so far. -/
structure Assembly where
  current : List String := []
  members : Members := []

def Assembly.openWith (a : Assembly) (change : Option Entry → Option Entry) (key : List String) :
    Option Assembly := do
  let last ← key.getLast?
  let members ← a.members.at (fun inner => inner.alter change last) key.dropLast
  return ⟨key, members⟩

def Assembly.add (a : Assembly) : Statement → Option Assembly
  | .pair key d => do
    return { a with members := ← a.members.at (fun inner => inner.put d key) a.current }
  | .header key => a.openWith openTable key
  | .element key => a.openWith openElement key

/-- The members of a table that is written in one value. -/
def inlineMembers (pairs : List (List String × Datum)) : Option (List (String × Datum)) := do
  let members ← pairs.foldlM (fun (members : Members) p => members.put p.2 p.1) []
  return dataOf members

end ContentGraph.Toml
