import Blueprint.Graph.Table

/-!
# `Blueprint/Graph/Basic.lean` — the dependency graph

A table of nodes and the edges between them, in the order in which the document mentions them.
Edges may repeat, and nothing in the type says that their ends are in the table: `checkReferences`
does.
-/

set_option autoImplicit false

namespace Blueprint

/-- Nodes and their dependencies. -/
structure Graph where
  table : Table
  edges : List Edge

namespace Graph

/-- The graph without nodes. -/
def empty : Graph := ⟨.empty, []⟩

/-- The keys that a key needs, each once, in the order of the edges. -/
def prerequisites (graph : Graph) (key : String) : List String :=
  ((graph.edges.filter (·.dependent = key)).map Edge.dependency).eraseDups

/-- The keys that need a key, each once, in the order of the edges. -/
def dependents (graph : Graph) (key : String) : List String :=
  ((graph.edges.filter (·.dependency = key)).map Edge.dependent).eraseDups

/-- The nodes that need nothing. -/
def sources (graph : Graph) : List Node :=
  graph.table.nodes.filter fun node => graph.edges.all (·.dependent ≠ node.key)

/-- The nodes that nothing needs. -/
def sinks (graph : Graph) : List Node :=
  graph.table.nodes.filter fun node => graph.edges.all (·.dependency ≠ node.key)

/-- Both ends of an edge are in the table. -/
def checkEdge (table : Table) (edge : Edge) : Except Error Unit :=
  if !table.contains edge.dependency then
    .error (.structural edge.path (.unknownDependency edge.dependency))
  else if !table.contains edge.dependent then
    .error (.structural edge.path (.unknownDependent edge.dependent))
  else .ok ()

/-- Both ends of every edge are in the table; the first edge that fails is reported. -/
def checkReferences (graph : Graph) : Except Error Unit :=
  graph.edges.forM (checkEdge graph.table)

/-- Renames the nodes to which the values in the table point. -/
def renameValues (graph : Graph) (naming : String → String) : Graph :=
  { graph with table := graph.table.edit (Node.rename naming) (Node.key_rename naming) }

end Graph

end Blueprint
