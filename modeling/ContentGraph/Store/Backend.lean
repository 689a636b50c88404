import ContentGraph.StoreError

/-! What a store keeps its bytes in: values under keys, where a key that has a value keeps it. -/

namespace ContentGraph

/-- A state that values are read from and written to. A write may fail and still change the state. -/
class Backend (σ : Type) where
  read : σ → String → Except IoError (Option Bytes)
  write : σ → String → Bytes → Except IoError Unit × σ
  has : σ → String → Except IoError Bool := fun state key => Option.isSome <$> read state key

/-- A backend of one of two kinds. -/
instance {σ τ : Type} [Backend σ] [Backend τ] : Backend (σ ⊕ τ) where
  read
    | .inl state => Backend.read state
    | .inr state => Backend.read state
  write
    | .inl state => fun key value => (Backend.write state key value).map id .inl
    | .inr state => fun key value => (Backend.write state key value).map id .inr
  has
    | .inl state => Backend.has state
    | .inr state => Backend.has state

end ContentGraph
