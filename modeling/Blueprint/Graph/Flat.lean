import Blueprint.Document.Shape
import Blueprint.Graph.Basic

/-!
# `Blueprint/Graph/Flat.lean` — the flat document of a graph

A graph written as a document again, with every node in a top-level field named by its key, and
markers where nodes point to each other. A node that several others need is written once.
-/

set_option autoImplicit false

namespace Blueprint

namespace Value

mutual

/-- A value as it is written in a document. -/
def toDocument : Value → Json
  | .null => .null
  | .bool value => .bool value
  | .number value => .number value
  | .string text => .string text
  | .sequence items => .array (toDocumentItems items)
  | .mapping entries => .object (Json.bindAll (toDocumentPairs entries))
  | .reference key => .string (Marker.written key)
  | .call target method params =>
    .object
      [(Field.callTarget, .string target),
       (Field.callName, .string method),
       (Field.params, .object (Json.bindAll (toDocumentPairs params)))]

/-- A list of values as it is written in a document. -/
def toDocumentItems : List Value → List Json
  | [] => []
  | item :: rest => toDocument item :: toDocumentItems rest

/-- Entries with their values as they are written in a document. -/
def toDocumentPairs : List (String × Value) → List (String × Json)
  | [] => []
  | (name, value) :: rest => (name, toDocument value) :: toDocumentPairs rest

end

end Value

/-- The field that names what a component constructs. -/
def Callable.toMember : Callable → String × Json
  | .className name => (Field.className, .string name)
  | .classType name => (Field.classType, .string name)

/-- A component as it is written in a flat document. Empty arguments are left out. -/
def Component.toDocument (c : Component) : Json :=
  .object
    ([(Field.module, .string c.module)]
      ++ (c.callable.map Callable.toMember).toList
      ++ [(Field.objectKey, .string c.key)]
      ++ (if c.params.isEmpty then []
          else [(Field.params, .object (Json.bindAll (Value.toDocumentPairs c.params)))])
      ++ (if c.methodArgs.isEmpty then []
          else [(Field.methodArgs, .array (Value.toDocumentItems c.methodArgs))]))

/-- An entry as it is written in a flat document: a single result stands alone. -/
def Entry.toDocument (e : Entry) : Json :=
  match e.results with
  | [single] => single.toDocument
  | results => .array (Value.toDocumentItems results)

/-- A node as it is written in a flat document. -/
def Node.toDocument : Node → Json
  | .component c => c.toDocument
  | .entry e => e.toDocument

/-- The flat document of a graph, in table order. -/
def Graph.flatten (graph : Graph) : Json :=
  .object (graph.table.nodes.map fun node => (node.key, node.toDocument))

end Blueprint
