import ContentGraph.GraphError
import ContentGraph.Object

/-! Paths that lead from an object through links into others. An object is fetched only when a path
goes on behind its link, and a path follows no more links than its graph allows. -/

namespace ContentGraph

/-- Where the objects behind links come from. -/
abbrev Fetch := Address → Except StoreError Object

/-- A path without segments leads to the root itself, and any other to a tree. -/
inductive Resolved
  | object (root : Object)
  | value (tree : Node)

namespace Resolved

def asValue? : Resolved → Option Node
  | .object _ => none
  | .value tree => some tree

def asString? (r : Resolved) : Option String :=
  r.asValue?.bind Node.asString?

def asLink? (r : Resolved) : Option Address :=
  r.asValue?.bind Node.asLink?

end Resolved

/-- A result, and the addresses that were fetched for it, in order. -/
structure Trace (α : Type) where
  fetched : List Address
  result : Except GraphError α

structure GraphConfig where
  /-- How many links a path may follow. -/
  maxHops : Nat := 64
  deriving DecidableEq

structure Graph where
  fetch : Fetch
  root : Object
  config : GraphConfig := {}

namespace Graph

def «open» (fetch : Fetch) (address : Address) : Except GraphError Graph :=
  match fetch address with
  | .ok root => .ok { fetch, root }
  | .error cause => .error (.store cause)

/-- A path of one empty segment counts as empty. -/
def isRootPath (path : List String) : Bool :=
  path = [] ∨ path = [""]

/-- Follows a path from a tree, over as many links as there are hops left. A segment that is missing
is reported with the `whole` path. -/
def follow (g : Graph) (whole : List String) (hops : Nat) (tree : Node) (path : List String) :
    Trace Node :=
  match tree.descend path with
  | none => ⟨[], .error (.pathNotFound whole)⟩
  | some (reached, []) => ⟨[], .ok reached⟩
  | some (reached, segment :: rest) =>
    match reached with
    | .link target =>
      match hops with
      | 0 => ⟨[], .error (.depthExceeded g.config.maxHops)⟩
      | hops + 1 =>
        match g.fetch target with
        | .error cause => ⟨[target], .error (.store cause)⟩
        | .ok o =>
          let later := follow g whole hops o.tree (segment :: rest)
          ⟨target :: later.fetched, later.result⟩
    | other => ⟨[], .error (.expectedLink segment other.kind)⟩

def traceGet (g : Graph) (path : List String) : Trace Resolved :=
  if isRootPath path then ⟨[], .ok (.object g.root)⟩
  else
    let found := g.follow path g.config.maxHops g.root.tree path
    ⟨found.fetched, .value <$> found.result⟩

/-- A link at the end of the path is itself what the path leads to. -/
def get (g : Graph) (path : List String) : Except GraphError Resolved :=
  (g.traceGet path).result

def traceObject (g : Graph) (path : List String) : Trace Object :=
  let found := g.traceGet path
  match found.result with
  | .error e => ⟨found.fetched, .error e⟩
  | .ok (.object root) => ⟨found.fetched, .ok root⟩
  | .ok (.value (.link target)) =>
    ⟨found.fetched ++ [target],
      match g.fetch target with
      | .ok o => .ok o
      | .error cause => .error (.store cause)⟩
  | .ok (.value other) =>
    ⟨found.fetched, .error (.expectedLink (path.getLast?.getD "") other.kind)⟩

/-- The object behind the link that a path leads to. -/
def getObject (g : Graph) (path : List String) : Except GraphError Object :=
  (g.traceObject path).result

end Graph

end ContentGraph
