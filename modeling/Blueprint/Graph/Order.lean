import Blueprint.Graph.Basic

/-!
# `Blueprint/Graph/Order.lean` — the order of construction

Nodes that need nothing come first, in table order. From each of them the walk goes on to its
dependents, depth first and in the order of the edges, and takes a node as soon as everything it
needs has been taken. A node that is not ready when the walk meets it is met again from the last
of its prerequisites to be taken, so only nodes on a cycle, or behind one, are left over.

The walk keeps two lists: the nodes that still wait, in table order, and the keys that it has
still to look at. A node is taken by removing it from the first, which is why the walk ends.
-/

set_option autoImplicit false

namespace Blueprint

/-- What becomes of nodes that cannot be ordered. -/
inductive CyclePolicy where
  /-- They are an error. -/
  | refuse
  /-- They are left out. -/
  | leaveOut
deriving DecidableEq, Repr

/-- The nodes that were ordered, in their order, and the others, in table order. -/
structure Placement where
  placed : List Node
  omitted : List Node

namespace Graph

/-- Whether a key is among the nodes. -/
def isAmong (nodes : List Node) (key : String) : Bool := nodes.any (·.key = key)

/-- Whether nothing that a key needs is still waiting. -/
def isReady (graph : Graph) (waiting : List Node) (key : String) : Bool :=
  (graph.prerequisites key).all fun needed => !isAmong waiting needed

/-- Looks at the pending keys in turn. A key whose node waits and is ready is taken, and its
dependents are looked at next. -/
def settle (graph : Graph) (waiting : List Node) (pending : List String) : Placement :=
  match pending with
  | [] => ⟨[], waiting⟩
  | key :: rest =>
    match _h : waiting.find? (·.key = key) with
    | none => settle graph waiting rest
    | some node =>
      if graph.isReady waiting key then
        let later := settle graph (waiting.eraseP (·.key = key)) (graph.dependents key ++ rest)
        ⟨node :: later.placed, later.omitted⟩
      else settle graph waiting rest
termination_by (waiting.length, pending.length)
decreasing_by
  · exact Prod.Lex.right _ (by simp)
  · have found := List.mem_of_find?_eq_some _h
    have same := List.find?_some _h
    have : (waiting.eraseP (·.key = key)).length = waiting.length - 1 :=
      List.length_eraseP_of_mem found same
    have := List.length_pos_of_mem found
    exact Prod.Lex.left _ _ (by omega)
  · exact Prod.Lex.right _ (by simp)

/-- The order of the nodes, and those that have none. -/
def placement (graph : Graph) : Placement :=
  let sources := graph.sources
  let waiting := graph.table.nodes.filter fun node => !isAmong sources node.key
  let later := graph.settle waiting (sources.flatMap fun node => graph.dependents node.key)
  ⟨sources ++ later.placed, later.omitted⟩

/-! ## Cycles -/

/-- What a search for a cycle comes to. -/
inductive Search where
  /-- A cycle: keys each of which needs the one before it, from a key to the same key. -/
  | cycle (chain : List String)
  /-- No cycle, and the keys that are finished: none can be reached from them. -/
  | clear (finished : List String)

/-- Searches for a cycle from each of the pending keys in turn, depth first, from a key to what it
needs. The trail holds the keys from which the search has come, latest first, and a key on the
trail that is met again closes a cycle. `fresh` are the keys of the table off the trail. -/
def search (graph : Graph) (fresh trail finished pending : List String) : Search :=
  match pending with
  | [] => .clear finished
  | key :: rest =>
    if finished.contains key then search graph fresh trail finished rest
    else if trail.contains key then .cycle (key :: trail.takeWhile (· ≠ key) ++ [key])
    else if _h : key ∈ fresh then
      match search graph (fresh.erase key) (key :: trail) finished (graph.prerequisites key) with
      | .cycle chain => .cycle chain
      | .clear finished => search graph fresh trail (key :: finished) rest
    else search graph fresh trail (key :: finished) rest
termination_by (fresh.length, pending.length)
decreasing_by
  · exact Prod.Lex.right _ (by simp)
  · have := List.length_erase_of_mem _h
    have := List.length_pos_of_mem _h
    exact Prod.Lex.left _ _ (by omega)
  · exact Prod.Lex.right _ (by simp)
  · exact Prod.Lex.right _ (by simp)

/-- Why nodes are left over. -/
def cycleReason (graph : Graph) (omitted : List Node) : Reason :=
  match graph.search graph.table.keys [] [] (omitted.map Node.key) with
  | .cycle chain => .cycle chain
  | .clear _ => .unplaced (omitted.map Node.key)

/-- The order under a policy. Edges to unknown nodes are refused first. -/
def order (graph : Graph) (policy : CyclePolicy) : Except Error Placement := do
  graph.checkReferences
  let placement := graph.placement
  match policy, placement.omitted with
  | .refuse, first :: _ =>
    throw (.structural first.path (graph.cycleReason placement.omitted))
  | _, _ => return placement

end Graph

end Blueprint
