import Blueprint.Proofs.Graph.Placement

/-!
# `Blueprint/Proofs/Graph/LeftOut.lean` — what is left out of an order

An order that leaves nodes out never says why it left one out: the walk ends, and some nodes are
still waiting. They are the ones that are `Caught`, on a cycle or behind one, and this holds
whatever the order of the edges and of the table was, because neither occurs in the definition.

One half is the finiteness of the table (`exists_cycle_of_omitted`). The other one is that what was
placed can be followed backwards without leaving what was placed, and stays clear of cycles there.
-/

set_option autoImplicit false

namespace Blueprint.Graph

/-- The key is on a cycle, or it needs a key on a cycle, directly or through others. -/
def Caught (graph : Graph) (key : String) : Prop :=
  ∃ turn, Relation.ReflTransGen graph.Precedes turn key ∧
    Relation.TransGen graph.Precedes turn turn

section

variable {graph : Graph} (href : graph.Referenced)

include href

/-- What a placed node needs, directly or through others, is placed. -/
theorem exists_placed_of_reflTransGen {needed key : String}
    (hneeded : Relation.ReflTransGen graph.Precedes needed key) {node : Node}
    (hplaced : node ∈ graph.placement.placed) (hkey : node.key = key) :
    ∃ other ∈ graph.placement.placed, other.key = needed := by
  rcases Relation.reflTransGen_iff_eq_or_transGen.mp hneeded with rfl | hneeded
  · exact ⟨node, hplaced, hkey⟩
  · obtain ⟨before, after, hsplit⟩ := List.append_of_mem hplaced
    obtain ⟨other, hother, hsame⟩ :=
      List.mem_map.mp (placement_after_transGen href hneeded hsplit hkey)
    refine ⟨other, ?_, hsame⟩
    rw [hsplit]
    exact List.mem_append_left _ hother

theorem not_caught_of_placed {node : Node} (hplaced : node ∈ graph.placement.placed) :
    ¬ graph.Caught node.key := by
  intro hcaught
  obtain ⟨turn, hbehind, hturn⟩ := hcaught
  obtain ⟨other, hother, rfl⟩ := exists_placed_of_reflTransGen href hbehind hplaced rfl
  exact not_transGen_of_placed href hother hturn

/-- The nodes that are placed are those that are not caught. -/
theorem mem_placed_iff {node : Node} :
    node ∈ graph.placement.placed ↔ node ∈ graph.table.nodes ∧ ¬ graph.Caught node.key := by
  constructor
  · intro hplaced
    exact ⟨mem_table_of_placed hplaced, not_caught_of_placed href hplaced⟩
  · intro h
    obtain ⟨htable, hfree⟩ := h
    rcases List.mem_append.mp (graph.placement_perm.mem_iff.mpr htable) with hplaced | hleft
    · exact hplaced
    · exact absurd (exists_cycle_of_omitted href hleft) hfree

/-- An edge whose dependent is placed has its dependency placed, and further to the front. -/
theorem exists_split_of_edge {edge : Edge} (hedge : edge ∈ graph.edges)
    (hdependent : edge.dependent ∈ graph.placement.placed.map Node.key) :
    ∃ before between after dependency dependent,
      graph.placement.placed = before ++ dependency :: (between ++ dependent :: after) ∧
        dependency.key = edge.dependency ∧ dependent.key = edge.dependent := by
  obtain ⟨dependent, hplaced, hkey⟩ := List.mem_map.mp hdependent
  obtain ⟨front, after, hsplit⟩ := List.append_of_mem hplaced
  have hneeded : graph.Precedes edge.dependency dependent.key := ⟨edge, hedge, rfl, hkey.symm⟩
  obtain ⟨dependency, hfront, hsame⟩ := List.mem_map.mp (placement_after href hsplit hneeded)
  obtain ⟨before, between, rfl⟩ := List.append_of_mem hfront
  exact ⟨before, between, after, dependency, dependent, by simpa using hsplit, hsame, hkey⟩

end

/-- The nodes without prerequisites, in table order. -/
theorem sources_eq (graph : Graph) :
    graph.sources =
      graph.table.nodes.filter fun node => (graph.prerequisites node.key).isEmpty := by
  unfold sources
  refine List.filter_congr fun node _ => ?_
  rw [Bool.eq_iff_iff, all_dependent_ne_iff, List.isEmpty_iff, List.eq_nil_iff_forall_not_mem]
  exact forall_congr' fun needed => not_congr mem_prerequisites.symm

/-- Ordering with nodes left out succeeds whenever the edges have both ends in the table. The order
holds, each of them once, the nodes that are neither on a cycle nor behind one. What such a node
needs is placed as well, and before it; and the nodes that need nothing come first, in table
order. -/
theorem order_leaveOut_keeps_uncaught (graph : Graph) (h : graph.checkReferences = .ok ()) :
    ∃ placement, graph.order .leaveOut = .ok placement ∧
      (placement.placed.map Node.key).Nodup ∧
      (∀ node, node ∈ placement.placed ↔
        node ∈ graph.table.nodes ∧ ¬ graph.Caught node.key) ∧
      (∀ node ∈ placement.placed, ∀ needed ∈ graph.prerequisites node.key,
        needed ∈ placement.placed.map Node.key) ∧
      (∀ edge ∈ graph.edges, edge.dependent ∈ placement.placed.map Node.key →
        ∃ before between after dependency dependent,
          placement.placed = before ++ dependency :: (between ++ dependent :: after) ∧
            dependency.key = edge.dependency ∧ dependent.key = edge.dependent) ∧
      (graph.table.nodes.filter fun node => (graph.prerequisites node.key).isEmpty) <+:
        placement.placed := by
  have href := checkReferences_eq_ok_iff.mp h
  have horder : graph.order .leaveOut = .ok graph.placement :=
    order_eq_ok_iff.mpr ⟨href, rfl, fun hrefuse => by cases hrefuse⟩
  refine ⟨graph.placement, horder, graph.nodup_placement_keys.of_append_left,
    fun node => mem_placed_iff href, ?_, fun edge => exists_split_of_edge href, ?_⟩
  · intro node hplaced needed hneeded
    have hstep := Relation.ReflTransGen.single (mem_prerequisites.mp hneeded)
    obtain ⟨other, hother, rfl⟩ := exists_placed_of_reflTransGen href hstep hplaced rfl
    exact List.mem_map_of_mem hother
  · rw [← sources_eq, placement_eq]
    exact List.prefix_append _ _

/-- A component that is only imported. -/
def importOf (key : String) : Node := .component ⟨key, key, none, [], [], key, Path.root.key key⟩

/-- Two nodes that need each other, one that both of them lead to, one that one of them needs, and
one that stands aside with what it needs. -/
def circleGraph : Graph where
  table :=
    { nodes := [importOf "below", importOf "left", importOf "aside", importOf "right",
        importOf "top"]
      indexed := .of_nodup (by decide) }
  edges :=
    [⟨"right", "below", Path.root.key "below"⟩, ⟨"left", "below", Path.root.key "below"⟩,
     ⟨"right", "left", Path.root.key "left"⟩, ⟨"top", "aside", Path.root.key "aside"⟩,
     ⟨"top", "right", Path.root.key "right"⟩, ⟨"left", "right", Path.root.key "right"⟩]

theorem order_leaveOut_keeps_uncaught_circleGraph :
    circleGraph.checkReferences = .ok () ∧
    ∃ placement, circleGraph.order .leaveOut = .ok placement ∧
      (placement.placed.map Node.key).Nodup ∧
      (∀ node, node ∈ placement.placed ↔
        node ∈ circleGraph.table.nodes ∧ ¬ circleGraph.Caught node.key) ∧
      (∀ node ∈ placement.placed, ∀ needed ∈ circleGraph.prerequisites node.key,
        needed ∈ placement.placed.map Node.key) ∧
      (∀ edge ∈ circleGraph.edges, edge.dependent ∈ placement.placed.map Node.key →
        ∃ before between after dependency dependent,
          placement.placed = before ++ dependency :: (between ++ dependent :: after) ∧
            dependency.key = edge.dependency ∧ dependent.key = edge.dependent) ∧
      (circleGraph.table.nodes.filter fun node =>
        (circleGraph.prerequisites node.key).isEmpty) <+: placement.placed :=
  ⟨rfl, order_leaveOut_keeps_uncaught circleGraph rfl⟩

example : circleGraph.placement.placed.map Node.key = ["top", "aside"] := by cbv

end Blueprint.Graph
