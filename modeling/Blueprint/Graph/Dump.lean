import Blueprint.Graph.Basic

/-!
# `Blueprint/Graph/Dump.lean` — a graph as data

Everything that is in a graph, as a JSON value. In contrast to the flat document this form is not
meant to be read back as a document: values carry their kind, and mappings are lists of pairs.
-/

set_option autoImplicit false

namespace Blueprint

/-- A path as an array of names and indices. -/
def Path.dump (path : Path) : Json :=
  .array (path.segments.map fun segment =>
    match segment with
    | .key name => .string name
    | .index position => .number (.integer position))

namespace Value

/-- A value together with its kind. -/
def tagged (kind : String) (value : Json) : Json :=
  .object [("kind", .string kind), ("value", value)]

mutual

/-- A value with its kind, and the values in it with theirs. -/
def dump : Value → Json
  | .null => .object [("kind", .string "null")]
  | .bool value => tagged "bool" (.bool value)
  | .number value => tagged "number" (.number value)
  | .string text => tagged "string" (.string text)
  | .sequence items => tagged "sequence" (.array (dumpItems items))
  | .mapping entries => tagged "mapping" (.array (dumpPairs entries))
  | .reference key => tagged "reference" (.string key)
  | .call target method params =>
    tagged "call" (.object
      [("target", .string target),
       ("callable", .string method),
       ("params", .array (dumpPairs params))])

/-- A list of values with their kinds. -/
def dumpItems : List Value → List Json
  | [] => []
  | item :: rest => dump item :: dumpItems rest

/-- Entries as pairs of a name and a value. -/
def dumpPairs : List (String × Value) → List Json
  | [] => []
  | (name, value) :: rest => .array [.string name, dump value] :: dumpPairs rest

end

end Value

/-- The class or the type of a component. -/
def Callable.dump : Callable → Json
  | .className name => .object [("class_name", .string name)]
  | .classType name => .object [("class_type", .string name)]

/-- A node with its kind and all that it holds. -/
def Node.dump : Node → Json
  | .component c =>
    .object
      [("kind", .string "spec"),
       ("key", .string c.key),
       ("module", .string c.module),
       ("callable", (c.callable.map Callable.dump).getD .null),
       ("params", .array (Value.dumpPairs c.params)),
       ("method_args", .array (Value.dumpItems c.methodArgs)),
       ("name", .string c.name),
       ("path", c.path.dump)]
  | .entry e =>
    .object
      [("kind", .string "entry"),
       ("key", .string e.key),
       ("cue", .array (Value.dumpItems e.results))]

/-- An edge with its place. -/
def Edge.dump (edge : Edge) : Json :=
  .object
    [("dependency", .string edge.dependency),
     ("dependent", .string edge.dependent),
     ("path", edge.path.dump)]

/-- The members of a graph's dump: its nodes, in table order, and its edges. -/
def Graph.dumpMembers (graph : Graph) : List (String × Json) :=
  [("nodes", .object [("nodes", .array (graph.table.nodes.map Node.dump))]),
   ("edges", .array (graph.edges.map Edge.dump))]

/-- A graph as data. -/
def Graph.dump (graph : Graph) : Json := .object graph.dumpMembers

end Blueprint
