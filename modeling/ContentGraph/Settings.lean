import ContentGraph.Datum
import ContentGraph.Dispatch
import ContentGraph.Encoder

/-! Settings read from data. A table gives them by name and a list in their order. What is left out
keeps its default, and names that are no settings do not matter. -/

namespace ContentGraph

namespace Datum

def count? (d : Datum) : Option Nat :=
  d.integer?.bind fun n => if 0 ≤ n ∧ n < UInt64.size then some n.toNat else none

/-- The settings among `names` that are given, none of which may be given twice. A list may be longer
than the names only where `surplus` says so. -/
def given? (surplus : Bool) (names : List String) : Datum → Option (List (String × Datum))
  | .table members =>
    let given := members.filter fun m => m.1 ∈ names
    if (given.map (·.1)).Nodup then some given else none
  | .list items => if surplus || items.length ≤ names.length then some (names.zip items) else none
  | _ => none

end Datum

def setting? {α : Type} (given : List (String × Datum)) (name : String) (default : α)
    (read? : Datum → Option α) : Option α :=
  match given.lookup name with
  | none => some default
  | some d => read? d

def EncoderConfig.ofDatum? (surplus : Bool) (d : Datum) : Option EncoderConfig := do
  let given ← d.given? surplus ["max_depth", "parallel", "trim_text"]
  let standard : EncoderConfig := {}
  return {
    maxDepth := ← setting? given "max_depth" standard.maxDepth Datum.count?
    parallel := ← setting? given "parallel" standard.parallel Datum.flag?
    trimText := ← setting? given "trim_text" standard.trimText Datum.flag? }

def GraphConfig.ofDatum? (surplus : Bool) (d : Datum) : Option GraphConfig := do
  let given ← d.given? surplus ["max_hops"]
  let standard : GraphConfig := {}
  return { maxHops := ← setting? given "max_hops" standard.maxHops Datum.count? }

def DispatchConfig.ofDatum? (surplus : Bool) (d : Datum) : Option DispatchConfig := do
  let given ← d.given? surplus ["skip_unknown"]
  let standard : DispatchConfig := {}
  return { skipUnknown := ← setting? given "skip_unknown" standard.skipUnknown Datum.flag? }

/-- What the command line works with. -/
structure Settings where
  storeDirectory : String := ".meta"
  /-- Addresses of the contexts that every import consults first. -/
  contexts : List Address := []
  encoder : EncoderConfig := {}
  graph : GraphConfig := {}

def Datum.address? (d : Datum) : Option Address :=
  d.text?.bind fun s => (Address.ofText s).toOption

def Settings.ofDatum? (surplus : Bool) (d : Datum) : Option Settings := do
  let given ← d.given? surplus ["store_dir", "contexts", "encoder", "graph"]
  let standard : Settings := {}
  return {
    storeDirectory := ← setting? given "store_dir" standard.storeDirectory Datum.text?
    contexts := ← setting? given "contexts" standard.contexts fun d =>
      d.list?.bind fun items => items.mapM Datum.address?
    encoder := ← setting? given "encoder" standard.encoder (EncoderConfig.ofDatum? surplus)
    graph := ← setting? given "graph" standard.graph (GraphConfig.ofDatum? surplus) }

end ContentGraph
