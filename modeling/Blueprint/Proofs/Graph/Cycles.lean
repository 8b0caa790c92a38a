import Blueprint.Proofs.Graph.LeftOut
import Mathlib.Data.List.Chain

/-!
# `Blueprint/Proofs/Graph/Cycles.lean` — the cycle that an order reports

An order that refuses cycles reports one, and the first node that is left out. The node need not be
on the cycle: it may stand behind it. The search goes from the node to what it needs, and two facts
about it, each of them one induction along the search, make the report.

What the search comes to as a cycle is one (`search_cycle`), because every key on the trail is
needed by the one below it, and so is a key that is met again. And a search from a key that is left
out does come to a cycle (`search_clear`): it is finished with a key only once it is finished with
all that the key needs, and a key that is left out needs another one that is.
-/

set_option autoImplicit false

namespace Blueprint.Graph

/-- Each key is needed by the next one, from a key around to the same key, and no key comes twice on
the way. -/
def IsCycle (graph : Graph) (chain : List String) : Prop :=
  ∃ key inner, chain = key :: inner ++ [key] ∧ (key :: inner).Nodup ∧
    chain.IsChain graph.Precedes

section

variable {graph : Graph} {fresh trail finished pending : List String}

/-- A key of the trail that is met again closes a cycle with the keys above it. -/
theorem isCycle_of_mem_trail {key : String} (hmem : key ∈ trail) (hnodup : trail.Nodup)
    (hchain : (key :: trail).IsChain graph.Precedes) :
    graph.IsCycle (key :: trail.takeWhile (· ≠ key) ++ [key]) := by
  obtain ⟨above, below, rfl, habove⟩ := List.eq_append_cons_of_mem hmem
  have htaken : (above ++ key :: below).takeWhile (· ≠ key) = above := by
    rw [List.takeWhile_append_of_pos, List.takeWhile_cons_of_neg (by simp), List.append_nil]
    intro other hother
    have hne : other ≠ key := fun hsame => habove (hsame ▸ hother)
    simpa using hne
  rw [htaken]
  refine ⟨key, above, rfl, ?_, ?_⟩
  · exact List.nodup_cons.mpr ⟨habove, hnodup.of_append_left⟩
  · exact hchain.prefix ⟨below, by simp⟩

/-- Let the trail, with any key on top that is still to be searched from, be a chain in which each
key is needed by the next, and let `goal` need all of them. Then the search comes to nothing but
cycles, and `goal` needs every key on them. -/
theorem search_cycle {goal : String} {chain : List String}
    (h : graph.search fresh trail finished pending = .cycle chain)
    (hnodup : trail.Nodup)
    (hchain : ∀ key ∈ pending, (key :: trail).IsChain graph.Precedes)
    (htrail : ∀ key ∈ trail, Relation.ReflTransGen graph.Precedes key goal)
    (hpending : ∀ key ∈ pending, Relation.ReflTransGen graph.Precedes key goal) :
    graph.IsCycle chain ∧ ∀ key ∈ chain, Relation.ReflTransGen graph.Precedes key goal := by
  fun_induction search graph fresh trail finished pending with
  | case1 => cases h
  | case2 fresh trail finished key rest hfinished ih =>
    obtain ⟨-, hchain⟩ := List.forall_mem_cons.mp hchain
    obtain ⟨-, hpending⟩ := List.forall_mem_cons.mp hpending
    exact ih h hnodup hchain htrail hpending
  | case3 fresh trail finished key rest _ hmet =>
    cases h
    obtain ⟨hkey, -⟩ := List.forall_mem_cons.mp hpending
    have hmem : key ∈ trail := by simpa using hmet
    refine ⟨isCycle_of_mem_trail hmem hnodup (hchain key List.mem_cons_self), ?_⟩
    intro other hother
    rcases List.mem_append.mp hother with hother | hother
    · rcases List.mem_cons.mp hother with rfl | hother
      · exact hkey
      · exact htrail other ((List.takeWhile_sublist _).subset hother)
    · obtain rfl := List.mem_singleton.mp hother
      exact hkey
  | case4 fresh trail finished key rest _ hnew hfresh found hsearch ih =>
    cases h
    obtain ⟨hkey, -⟩ := List.forall_mem_cons.mp hpending
    have hnew : key ∉ trail := by simpa using hnew
    refine ih hsearch (List.nodup_cons.mpr ⟨hnew, hnodup⟩) ?_
      (List.forall_mem_cons.mpr ⟨hkey, htrail⟩) ?_
    · intro needed hneeded
      exact .cons_cons (mem_prerequisites.mp hneeded) (hchain key List.mem_cons_self)
    · intro needed hneeded
      exact hkey.head (mem_prerequisites.mp hneeded)
  | case5 fresh trail finished key rest _ _ hfresh done hsearch _ ih =>
    obtain ⟨-, hchain⟩ := List.forall_mem_cons.mp hchain
    obtain ⟨-, hpending⟩ := List.forall_mem_cons.mp hpending
    exact ih h hnodup hchain htrail hpending
  | case6 fresh trail finished key rest _ _ hforeign ih =>
    obtain ⟨-, hchain⟩ := List.forall_mem_cons.mp hchain
    obtain ⟨-, hpending⟩ := List.forall_mem_cons.mp hpending
    exact ih h hnodup hchain htrail hpending

/-- A search that comes to no cycle was not given a key that is left out, if every such key needs
another one. -/
theorem search_clear {left : String → Prop} {done : List String}
    (h : graph.search fresh trail finished pending = .clear done)
    (hblocked : ∀ key, left key → ∃ needed, graph.Precedes needed key ∧ left needed)
    (hknown : ∀ key, left key → key ∈ fresh ∨ key ∈ trail)
    (hfinished : ∀ key ∈ finished, ¬ left key) :
    (∀ key ∈ done, ¬ left key) ∧ ∀ key ∈ pending, ¬ left key := by
  fun_induction search graph fresh trail finished pending generalizing done with
  | case1 =>
    cases h
    exact ⟨hfinished, by simp⟩
  | case2 fresh trail finished key rest hmem ih =>
    obtain ⟨hdone, hrest⟩ := ih h hknown hfinished
    exact ⟨hdone, List.forall_mem_cons.mpr ⟨hfinished key (by simpa using hmem), hrest⟩⟩
  | case3 => cases h
  | case4 => cases h
  | case5 fresh trail finished key rest _ _ hfresh found hsearch ihInner ihRest =>
    have hstill : ∀ other, left other → other ∈ fresh.erase key ∨ other ∈ key :: trail := by
      intro other hother
      by_cases hsame : other = key
      · exact Or.inr (hsame ▸ List.mem_cons_self)
      · rcases hknown other hother with hmem | hmem
        · exact Or.inl ((List.mem_erase_of_ne hsame).mpr hmem)
        · exact Or.inr (List.mem_cons_of_mem _ hmem)
    obtain ⟨hfound, hneeds⟩ := ihInner hsearch hstill hfinished
    -- all that the key needs was searched from, and none of it is left out
    have hkey : ¬ left key := by
      intro hleft
      obtain ⟨needed, hneeded, hneededLeft⟩ := hblocked key hleft
      exact hneeds needed (mem_prerequisites.mpr hneeded) hneededLeft
    obtain ⟨hdone, hrest⟩ := ihRest h hknown (List.forall_mem_cons.mpr ⟨hkey, hfound⟩)
    exact ⟨hdone, List.forall_mem_cons.mpr ⟨hkey, hrest⟩⟩
  | case6 fresh trail finished key rest _ hnew hforeign ih =>
    have hkey : ¬ left key := by
      intro hleft
      rcases hknown key hleft with hmem | hmem
      · exact hforeign hmem
      · exact hnew (by simpa using hmem)
    obtain ⟨hdone, hrest⟩ := ih h hknown (List.forall_mem_cons.mpr ⟨hkey, hfinished⟩)
    exact ⟨hdone, List.forall_mem_cons.mpr ⟨hkey, hrest⟩⟩

end

/-- The first node that is left out stands in the table after placed nodes only. -/
theorem exists_split_of_omitted {graph : Graph} {first : Node} {rest : List Node}
    (hleft : graph.placement.omitted = first :: rest) :
    ∃ before after, graph.table.nodes = before ++ first :: after ∧
      ∀ node ∈ before, node ∈ graph.placement.placed := by
  have hsub := graph.placement_omitted_sublist
  rw [hleft] at hsub
  obtain ⟨front, back, hnodes, hfirst, hrest⟩ := List.cons_sublist_iff.mp hsub
  obtain ⟨before, middle, rfl⟩ := List.append_of_mem hfirst
  have hsplit : graph.table.nodes = before ++ first :: (middle ++ back) := by
    rw [hnodes, List.append_assoc, List.cons_append]
  refine ⟨before, middle ++ back, hsplit, ?_⟩
  intro node hnode
  have hmem : node ∈ graph.table.nodes := by
    rw [hsplit]
    exact List.mem_append_left _ hnode
  rcases List.mem_append.mp (graph.placement_perm.mem_iff.mpr hmem) with hplaced | homitted
  · exact hplaced
  · have hnodup : (before ++ first :: (middle ++ back)).Nodup :=
      hsplit ▸ graph.table.distinct.of_map
    have hafter : node ∈ first :: (middle ++ back) := by
      rw [hleft] at homitted
      rcases List.mem_cons.mp homitted with rfl | hlater
      · exact List.mem_cons_self
      · exact List.mem_cons_of_mem _ (List.mem_append_right _ (hrest.subset hlater))
    exact absurd hafter fun h => (List.nodup_append.mp hnodup).2.2 node hnode node h rfl

section

variable {graph : Graph} (href : graph.Referenced)

include href

/-- The search from the nodes that are left out comes to a cycle, and the first of them needs every
key on it. -/
theorem exists_cycle_of_search {first : Node} {rest : List Node}
    (hleft : graph.placement.omitted = first :: rest) :
    ∃ chain, graph.search graph.table.keys [] [] (graph.placement.omitted.map Node.key) =
        .cycle chain ∧
      graph.IsCycle chain ∧
      ∀ key ∈ chain, Relation.ReflTransGen graph.Precedes key first.key := by
  have hblocked : ∀ key, key ∈ graph.placement.omitted.map Node.key →
      ∃ needed, graph.Precedes needed key ∧ needed ∈ graph.placement.omitted.map Node.key := by
    intro key hkey
    obtain ⟨node, hnode, rfl⟩ := List.mem_map.mp hkey
    exact placement_blocked href hnode
  have hknown : ∀ key, key ∈ graph.placement.omitted.map Node.key → key ∈ graph.table.keys :=
    fun key hkey => (graph.placement_omitted_sublist.map Node.key).subset hkey
  have hfirst : first.key ∈ graph.placement.omitted.map Node.key := by
    rw [hleft]
    exact List.mem_cons_self
  -- the first key is searched from with nothing on the trail but itself
  cases hsearch : graph.search (graph.table.keys.erase first.key) [first.key] []
      (graph.prerequisites first.key) with
  | clear done =>
    have hstill : ∀ key, key ∈ graph.placement.omitted.map Node.key →
        key ∈ graph.table.keys.erase first.key ∨ key ∈ [first.key] := by
      intro key hkey
      by_cases hsame : key = first.key
      · exact Or.inr (List.mem_singleton.mpr hsame)
      · exact Or.inl ((List.mem_erase_of_ne hsame).mpr (hknown key hkey))
    obtain ⟨-, hneeds⟩ := search_clear hsearch hblocked hstill (by simp)
    obtain ⟨needed, hneeded, hneededLeft⟩ := hblocked first.key hfirst
    exact absurd hneededLeft (hneeds needed (mem_prerequisites.mpr hneeded))
  | cycle chain =>
    refine ⟨chain, ?_, search_cycle hsearch (List.nodup_singleton _) ?_ ?_ ?_⟩
    · rw [hleft, List.map_cons, search]
      simp [hknown first.key hfirst, hsearch]
    · intro needed hneeded
      exact List.isChain_pair.mpr (mem_prerequisites.mp hneeded)
    · intro key hkey
      rw [List.mem_singleton.mp hkey]
    · intro needed hneeded
      exact .single (mem_prerequisites.mp hneeded)

/-- An order that refuses cycles fails at the first node that is left out. -/
theorem order_refuse_of_omitted {first : Node} {rest : List Node}
    (hleft : graph.placement.omitted = first :: rest) :
    graph.order .refuse =
      .error (.structural first.path (graph.cycleReason graph.placement.omitted)) := by
  unfold order
  rw [checkReferences_eq_ok_iff.mpr href]
  simp only [hleft]
  rfl

end

theorem message_of_cycle (place : Path) (chain : List String) :
    (Error.structural place (.cycle chain)).message =
      "structural error at " ++ place.text ++ ": dependency cycle: " ++
        String.intercalate " -> " chain := by
  show "structural error at " ++ place.text ++ ": " ++
    ("dependency cycle: " ++ String.intercalate " -> " chain) = _
  generalize String.intercalate " -> " chain = names
  apply String.toList_inj.mp
  simp [String.toList_append]

/-- With a cycle among its edges a graph has no order that refuses cycles. The error stands at the
first node of the table that is on a cycle or behind one, and it names a cycle: keys each of which
is needed by the next, around to the key at which it started, with none of them twice. The node of
the error needs every key that is named, directly or through others, or is the one. -/
theorem order_refuse_reports_cycle (graph : Graph) (hcheck : graph.checkReferences = .ok ())
    (hcycle : ¬ graph.Acyclic) :
    ∃ before first after key inner,
      graph.order .refuse =
        .error (.structural first.path (.cycle (key :: inner ++ [key]))) ∧
      (Error.structural first.path (.cycle (key :: inner ++ [key]))).message =
        "structural error at " ++ first.path.text ++ ": dependency cycle: " ++
          String.intercalate " -> " (key :: inner ++ [key]) ∧
      graph.table.nodes = before ++ first :: after ∧
      (∀ node ∈ before, ¬ graph.Caught node.key) ∧ graph.Caught first.key ∧
      (key :: inner).Nodup ∧ (key :: inner ++ [key]).IsChain graph.Precedes ∧
      ∀ named ∈ key :: inner, Relation.ReflTransGen graph.Precedes named first.key := by
  have href := checkReferences_eq_ok_iff.mp hcheck
  obtain ⟨first, rest, hleft⟩ : ∃ first rest, graph.placement.omitted = first :: rest :=
    List.exists_cons_of_ne_nil (mt (omitted_eq_nil_iff_acyclic href).mp hcycle)
  obtain ⟨before, after, hsplit, hbefore⟩ := exists_split_of_omitted hleft
  obtain ⟨chain, hsearch, ⟨key, inner, hchain, hdistinct, hneeds⟩, hbehind⟩ :=
    exists_cycle_of_search href hleft
  have horder : graph.order .refuse = .error (.structural first.path (.cycle chain)) := by
    rw [order_refuse_of_omitted href hleft, cycleReason, hsearch]
  have hcaught : graph.Caught first.key :=
    exists_cycle_of_omitted href (by rw [hleft]; exact List.mem_cons_self)
  have hnamed : ∀ named ∈ key :: inner, named ∈ chain := by
    intro named hmem
    rw [hchain]
    exact List.mem_append_left _ hmem
  rw [hchain] at horder hneeds
  refine ⟨before, first, after, key, inner, horder, message_of_cycle _ _, hsplit, ?_, hcaught,
    hdistinct, hneeds, fun named hmem => hbehind named (hnamed named hmem)⟩
  intro node hnode
  exact not_caught_of_placed href (hbefore node hnode)

/-- The first node of the table that is left out stands behind the circle, not on it. -/
theorem order_refuse_reports_cycle_circleGraph :
    circleGraph.checkReferences = .ok () ∧ ¬ circleGraph.Acyclic ∧
    ∃ before first after key inner,
      circleGraph.order .refuse =
        .error (.structural first.path (.cycle (key :: inner ++ [key]))) ∧
      (Error.structural first.path (.cycle (key :: inner ++ [key]))).message =
        "structural error at " ++ first.path.text ++ ": dependency cycle: " ++
          String.intercalate " -> " (key :: inner ++ [key]) ∧
      circleGraph.table.nodes = before ++ first :: after ∧
      (∀ node ∈ before, ¬ circleGraph.Caught node.key) ∧ circleGraph.Caught first.key ∧
      (key :: inner).Nodup ∧ (key :: inner ++ [key]).IsChain circleGraph.Precedes ∧
      ∀ named ∈ key :: inner, Relation.ReflTransGen circleGraph.Precedes named first.key := by
  have hcycle : ¬ circleGraph.Acyclic := by
    intro hacyclic
    have hleft : circleGraph.Precedes "left" "right" :=
      mem_prerequisites.mp (by decide)
    have hright : circleGraph.Precedes "right" "left" :=
      mem_prerequisites.mp (by decide)
    exact hacyclic "left" (.tail (.single hleft) hright)
  exact ⟨rfl, hcycle, order_refuse_reports_cycle circleGraph rfl hcycle⟩

example : circleGraph.order .refuse =
    .error (.structural (Path.root.key "below") (.cycle ["right", "left", "right"])) := by
  cbv

end Blueprint.Graph
