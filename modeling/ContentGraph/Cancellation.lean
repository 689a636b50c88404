/-! Cancelling what is under way. A handle and the signals made with it share a cell, and the signals
fire once the cell is cancelled, whether or not the handle is still held. -/

namespace ContentGraph

structure CancelHandle where
  cell : Nat
  deriving DecidableEq

/-- A signal without a cell never fires. -/
structure CancelSignal where
  cell : Option Nat
  deriving DecidableEq

def CancelHandle.signal (h : CancelHandle) : CancelSignal :=
  ⟨some h.cell⟩

def CancelSignal.never : CancelSignal :=
  ⟨none⟩

/-- Every cell there is, and those of them that are cancelled. -/
structure Cancellations where
  cells : Nat
  cancelled : List Nat

namespace Cancellations

def empty : Cancellations := ⟨0, []⟩

def create (c : Cancellations) : CancelHandle × Cancellations :=
  (⟨c.cells⟩, { c with cells := c.cells + 1 })

def cancel (c : Cancellations) (h : CancelHandle) : Cancellations :=
  { c with cancelled := h.cell :: c.cancelled }

def isCancelled (c : Cancellations) (h : CancelHandle) : Bool :=
  h.cell ∈ c.cancelled

def fires (c : Cancellations) (s : CancelSignal) : Bool :=
  match s.cell with
  | some cell => cell ∈ c.cancelled
  | none => false

theorem fires_signal (c : Cancellations) (h : CancelHandle) :
    c.fires h.signal = c.isCancelled h := rfl

theorem fires_cancel {c : Cancellations} {h : CancelHandle} {s : CancelSignal} :
    (c.cancel h).fires s = true ↔ s = h.signal ∨ c.fires s = true := by
  obtain ⟨cell⟩ := s
  cases cell <;> simp [fires, cancel, CancelHandle.signal]

end Cancellations

end ContentGraph
