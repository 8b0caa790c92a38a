import Blueprint.Document.Path

/-!
# `Blueprint/Event.lean` — what happens along the way

Extraction and ordering report what they do as data. An event knows how serious it is; how it is
written into a log is `Blueprint/CommandLine/Log.lean`.
-/

set_option autoImplicit false

namespace Blueprint

/-- Something worth telling. -/
inductive Event where
  /-- A component was found. -/
  | component (key : String) (path : Path)
  /-- A component needs a node, in one of its arguments. -/
  | argument (dependency dependent : String) (slot : Path)
  /-- An entry needs a node. -/
  | result (dependency dependent : String)
  /-- A top-level field was found to hold results. -/
  | entry (key : String)
  /-- A reference named the field that holds a component, and now names the component. -/
  | fieldName (field key : String)
  /-- A document was taken apart. -/
  | extracted (nodes edges : Nat)
  /-- Nodes were left out of the order. -/
  | leftOut (keys : List String)
  /-- The order was found. -/
  | ordered (keys : List String)
deriving DecidableEq, Repr

/-- How serious an event is. -/
inductive Severity where
  | warning
  | debugging
deriving DecidableEq, Repr

/-- Only nodes that are left out are a warning. -/
def Event.severity : Event → Severity
  | .leftOut _ => .warning
  | _ => .debugging

end Blueprint
