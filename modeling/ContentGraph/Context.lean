import ContentGraph.EncodeError
import ContentGraph.Store
import ContentGraph.Xml.Element

/-! Contexts give the names in documents their types. A context is stored as an object of its own,
and of several contexts the first one that knows a name decides. -/

namespace ContentGraph

/-- The type of a name, with or without a namespace. -/
abbrev Resolver := Option String → String → Option String

structure Context where
  terms : Table String

def contextField : String := "@context"

def contextType : String := "Context"

namespace Context

def ofTerms (terms : List (String × String)) : Context :=
  ⟨Table.ofList terms⟩

def insert (c : Context) (name type : String) : Context :=
  ⟨c.terms.insert name type⟩

def lookup (c : Context) (name : String) : Option String :=
  c.terms.get? name

def size (c : Context) : Nat :=
  c.terms.size

/-- The name is looked up with its namespace first, and then by itself. -/
def resolve (c : Context) : Resolver := fun uri name =>
  match uri.bind fun uri => c.lookup (Xml.qualifiedName uri name) with
  | some type => some type
  | none => c.lookup name

def toNode (c : Context) : Node :=
  .map (Entries.ofList
    [(typeField, .string contextType),
      (contextField, .map (Entries.mapValues .string c.terms.entries))])

def toObject (c : Context) : Except StoreError Object :=
  Object.ofNode c.toNode

/-- The terms in the order of their names; the first that is no text is the fault. -/
def termsOf : List (String × Node) → Except ContextFault (List (String × String))
  | [] => .ok []
  | (name, value) :: rest =>
    match value with
    | .string type => do
      let terms ← termsOf rest
      return (name, type) :: terms
    | other => .error (.badTerm name other.kind)

def ofNode (n : Node) : Except ContextFault Context :=
  match n.child? contextField with
  | none => .error .missing
  | some (.map entries) => ofTerms <$> termsOf entries
  | some _ => .error .notAMap

def ofObject (o : Object) : Except EncodeError Context :=
  match ofNode o.tree with
  | .ok c => .ok c
  | .error fault => .error (.invalidContext o.address fault)

def load {σ : Type} [Backend σ] (state : σ) (address : Address) : Except EncodeError Context :=
  match Store.get state address with
  | .ok o => ofObject o
  | .error cause => .error (.contextUnavailable address cause)

/-- Contexts in their order, up to the first one that fails. -/
def loadAll {σ : Type} [Backend σ] (state : σ) : List Address → Except EncodeError (List Context)
  | [] => .ok []
  | address :: rest => do
    let c ← load state address
    let others ← loadAll state rest
    return c :: others

/-- A later context never overrides an earlier one, even where it knows the name with its namespace
and the earlier one does not. -/
def resolveInOrder (contexts : List Context) : Resolver := fun uri name =>
  contexts.findSome? fun c => c.resolve uri name

end Context

end ContentGraph
