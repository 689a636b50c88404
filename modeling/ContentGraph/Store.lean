import ContentGraph.Object
import ContentGraph.Store.Backend

/-! Objects kept in a backend under the text of their addresses. What is read is checked against its
address again, whatever the backend may have done to it. -/

namespace ContentGraph

namespace Store

variable {σ : Type} [Backend σ]

def get (state : σ) (address : Address) : Except StoreError Object :=
  match Backend.read state address.text with
  | .error e => .error (.io e)
  | .ok none => .error (.notFound address)
  | .ok (some data) => Object.read address data

def put (o : Object) : Stateful StoreError σ Unit := fun state =>
  match Backend.write state o.address.text o.data with
  | (.ok (), state) => (.ok (), state)
  | (.error e, state) => (.error (.io e), state)

/-- Whether there is an entry, whatever it holds. -/
def has (state : σ) (address : Address) : Except StoreError Bool :=
  match Backend.has state address.text with
  | .error e => .error (.io e)
  | .ok found => .ok found

end Store

end ContentGraph
