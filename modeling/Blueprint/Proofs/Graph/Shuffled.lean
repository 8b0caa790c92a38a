import Blueprint.Proofs.Graph.Reordered

/-!
# `Blueprint/Proofs/Graph/Shuffled.lean` — graphs with the same nodes and edges in another order

Nothing that is decided about a graph as a whole depends on the order of its table or of its edges:
whether the edges have both ends in the table, whether they run in a circle, so whether there is an
order under either policy, and which nodes it places. The order itself does depend on both.
-/

set_option autoImplicit false

namespace Blueprint.Graph

/-- The same nodes and the same edges, each as often, in any order. -/
structure Shuffled (a b : Graph) : Prop where
  nodes : a.table.nodes.Perm b.table.nodes
  edges : a.edges.Perm b.edges

namespace Shuffled

variable {a b : Graph} (h : a.Shuffled b)

include h

theorem symm : b.Shuffled a := ⟨h.nodes.symm, h.edges.symm⟩

theorem mem_keys_iff {key : String} : key ∈ a.table.keys ↔ key ∈ b.table.keys :=
  (h.nodes.map Node.key).mem_iff

theorem sameNeeds : a.SameNeeds b := by
  intro needed key
  constructor
  · rintro ⟨edge, hedge, hends⟩
    exact ⟨edge, h.edges.mem_iff.mp hedge, hends⟩
  · rintro ⟨edge, hedge, hends⟩
    exact ⟨edge, h.edges.mem_iff.mpr hedge, hends⟩

theorem referenced (href : a.Referenced) : b.Referenced := by
  intro edge hedge
  obtain ⟨hdependency, hdependent⟩ := href edge (h.edges.mem_iff.mpr hedge)
  exact ⟨h.mem_keys_iff.mp hdependency, h.mem_keys_iff.mp hdependent⟩

theorem acyclic (hacyclic : a.Acyclic) : b.Acyclic := by
  unfold Acyclic at *
  rw [← h.sameNeeds.precedes_eq]
  exact hacyclic

/-- A policy under which the one graph has an order gives the other one an order too. -/
theorem exists_order {policy : CyclePolicy} (horder : ∃ placement, a.order policy = .ok placement) :
    ∃ placement, b.order policy = .ok placement := by
  obtain ⟨placement, horder⟩ := horder
  obtain ⟨href, -, hnone⟩ := order_eq_ok_iff.mp horder
  have href' := h.referenced href
  refine ⟨b.placement, order_eq_ok_iff.mpr ⟨href', rfl, ?_⟩⟩
  intro hrefuse
  have hacyclic := (omitted_eq_nil_iff_acyclic href).mp (hnone hrefuse)
  exact (omitted_eq_nil_iff_acyclic href').mpr (h.acyclic hacyclic)

theorem order_isOk_iff (policy : CyclePolicy) :
    (∃ placement, a.order policy = .ok placement) ↔
      ∃ placement, b.order policy = .ok placement :=
  ⟨h.exists_order, h.symm.exists_order⟩

/-- The two orders hold the same nodes. -/
theorem placed_perm {policy : CyclePolicy} {placement placement' : Placement}
    (horder : a.order policy = .ok placement) (horder' : b.order policy = .ok placement') :
    placement.placed.Perm placement'.placed := by
  obtain ⟨href, rfl, -⟩ := order_eq_ok_iff.mp horder
  obtain ⟨href', rfl, -⟩ := order_eq_ok_iff.mp horder'
  exact placed_perm_of_nodes_perm h.nodes.symm h.symm.sameNeeds href' href

end Shuffled

end Blueprint.Graph
