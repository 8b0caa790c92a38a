import Blueprint.Extraction.Walk
import Blueprint.Extraction.FieldNames

/-!
# `Blueprint/Extraction.lean` — from a document to its graph

A document is walked, references by field name are resolved, and what is left in the state is the
graph.
-/

set_option autoImplicit false

namespace Blueprint

/-- The outcome of an extraction: a graph or an error, and in either case the state of the key
source and what was reported. -/
structure Extraction (σ : Type) where
  graph : Except Error Graph
  keys : σ
  events : List Event

namespace Extraction

variable {σ : Type}

/-- The whole of an extraction. -/
def steps (source : KeySource σ) (document : Json) : Step σ Unit := do
  let _ ← walk source document Path.root none
  resolveFieldNames
  let state ← current
  report (.extracted state.table.size state.edges.length)

/-- The state before the first step. -/
def initial (keys : σ) : State σ := ⟨keys, .empty, [], []⟩

end Extraction

/-- Takes a document apart. -/
def extract {σ : Type} (source : KeySource σ) (document : Json) (keys : σ) : Extraction σ :=
  match Extraction.steps source document (Extraction.initial keys) with
  | (.ok _, state) => ⟨.ok ⟨state.table, state.edges⟩, state.keys, state.events⟩
  | (.error e, state) => ⟨.error e, state.keys, state.events⟩

end Blueprint
