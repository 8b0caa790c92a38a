import Blueprint.Proofs.Graph.LeftOut

/-!
# `Blueprint/Proofs/Graph/Reordered.lean` — when the order of the edges does not matter

The order of construction depends on the order of the edges, through the order in which the walk
looks at the dependents of a node. It depends on it less than it seems. A key that waits for
something may be looked at or not: it will be met again, from the last of the nodes it waits for
(`settle_drop`). So of the keys that the walk is still to look at only those matter that can be
taken at once (`settle_filter`).

Now suppose that two dependents come in the wrong order, the later one in the table first, but only
if the earlier one needs the later one (`Tidy`). Then the two can never be taken at the same time,
and whichever can be taken come in the order of the table. So two graphs with the same table whose
edges are both tidy, and say the same, have the same order (`placement_eq_of_tidy`).
-/

set_option autoImplicit false

namespace Blueprint.Graph

/-! ## The walk, by the key that it looks at -/

section

variable {graph : Graph} {waiting : List Node} {key : String}

theorem settle_of_gone (h : waiting.find? (·.key = key) = none) (rest : List String) :
    graph.settle waiting (key :: rest) = graph.settle waiting rest := by
  rw [settle]
  split
  · rfl
  · rename_i node hsome
    rw [h] at hsome
    cases hsome

theorem settle_of_stuck (h : graph.isReady waiting key = false) (rest : List String) :
    graph.settle waiting (key :: rest) = graph.settle waiting rest := by
  rw [settle]
  split
  · rfl
  · rw [h]
    rfl

theorem settle_of_ready {node : Node} (h : waiting.find? (·.key = key) = some node)
    (hready : graph.isReady waiting key = true) (rest : List String) :
    graph.settle waiting (key :: rest) =
      ⟨node :: (graph.settle (waiting.eraseP (·.key = key))
          (graph.dependents key ++ rest)).placed,
        (graph.settle (waiting.eraseP (·.key = key)) (graph.dependents key ++ rest)).omitted⟩ := by
  rw [settle]
  split
  · rename_i hnone
    rw [h] at hnone
    cases hnone
  · rename_i other hsome
    rw [h] at hsome
    cases hsome
    rw [hready]
    rfl

end

/-! ## Keys that can be taken -/

/-- The key waits, and nothing that it needs does. -/
def isFree (graph : Graph) (waiting : List Node) (key : String) : Bool :=
  isAmong waiting key && graph.isReady waiting key

section

variable {graph : Graph} {waiting : List Node} {key : String}

theorem isFree_iff :
    graph.isFree waiting key = true ↔
      key ∈ waiting.map Node.key ∧
        ∀ needed, graph.Precedes needed key → needed ∉ waiting.map Node.key := by
  unfold isFree
  rw [Bool.and_eq_true, isAmong_iff, isReady_iff]

/-- The walk passes over a key that cannot be taken. -/
theorem settle_of_not_free (h : graph.isFree waiting key = false) (rest : List String) :
    graph.settle waiting (key :: rest) = graph.settle waiting rest := by
  cases hfind : waiting.find? (·.key = key) with
  | none => exact settle_of_gone hfind rest
  | some node =>
    have hamong : isAmong waiting key = true :=
      isAmong_iff.mpr (List.mem_map.mpr
        ⟨node, List.mem_of_find?_eq_some hfind, by simpa using List.find?_some hfind⟩)
    apply settle_of_stuck
    unfold isFree at h
    rw [hamong] at h
    simpa using h

theorem exists_split_of_free (h : graph.isFree waiting key = true) :
    ∃ front node back, waiting = front ++ node :: back ∧ node.key = key := by
  obtain ⟨node, hnode, hkey⟩ := List.mem_map.mp (isFree_iff.mp h).1
  obtain ⟨front, back, hsplit⟩ := List.append_of_mem hnode
  exact ⟨front, node, back, hsplit, hkey⟩

end

section

variable {graph : Graph} {front back : List Node} {node : Node}
  (hnodup : ((front ++ node :: back).map Node.key).Nodup)

include hnodup

theorem not_mem_of_nodup_middle : node.key ∉ (front ++ back).map Node.key := by
  rw [List.map_append, List.map_cons] at hnodup
  rw [List.map_append]
  exact (List.nodup_middle.mp hnodup).notMem

theorem nodup_of_nodup_middle : ((front ++ back).map Node.key).Nodup := by
  rw [List.map_append, List.map_cons] at hnodup
  rw [List.map_append]
  exact (List.nodup_middle.mp hnodup).of_cons

/-- The walk takes a key that can be taken, and its dependents are next. -/
theorem settle_of_free (hfree : graph.isFree (front ++ node :: back) node.key = true)
    (rest : List String) :
    graph.settle (front ++ node :: back) (node.key :: rest) =
      ⟨node :: (graph.settle (front ++ back) (graph.dependents node.key ++ rest)).placed,
        (graph.settle (front ++ back) (graph.dependents node.key ++ rest)).omitted⟩ := by
  have hfront : ∀ other ∈ front, ¬ other.key = node.key := by
    intro other hother hsame
    apply not_mem_of_nodup_middle hnodup
    rw [← hsame]
    exact List.mem_map_of_mem (List.mem_append_left _ hother)
  have hfind : (front ++ node :: back).find? (·.key = node.key) = some node := by
    refine List.find?_eq_some_iff_append.mpr ⟨by simp, front, back, rfl, ?_⟩
    intro other hother
    simpa using hfront other hother
  have herase : (front ++ node :: back).eraseP (·.key = node.key) = front ++ back := by
    rw [List.eraseP_append_right _ (fun other hother => by simpa using hfront other hother)]
    exact congrArg (front ++ ·) (List.eraseP_cons_of_pos (by simp))
  have hready : graph.isReady (front ++ node :: back) node.key = true :=
    (Bool.and_eq_true_iff.mp hfree).2
  rw [settle_of_ready hfind hready, herase]

end

/-! ## Keys that may be dropped -/

/-- There is no need to look at the key once more: it cannot be taken, or is looked at earlier. -/
def Droppable (graph : Graph) (waiting : List Node) (earlier : List String) (key : String) : Prop :=
  graph.isFree waiting key = false ∨ key ∈ earlier

theorem Droppable.skip {graph : Graph} {waiting : List Node} {first key : String}
    {rest : List String} (h : graph.Droppable waiting (first :: rest) key)
    (hfirst : graph.isFree waiting first = false) : graph.Droppable waiting rest key := by
  rcases h with h | h
  · exact Or.inl h
  · rcases List.mem_cons.mp h with rfl | h
    · exact Or.inl hfirst
    · exact Or.inr h

/-- A key that can be taken only now needs the node just taken, and is looked at next. -/
theorem Droppable.take {graph : Graph} {front back : List Node} {node : Node} {key : String}
    {rest : List String} (hnodup : ((front ++ node :: back).map Node.key).Nodup)
    (h : graph.Droppable (front ++ node :: back) (node.key :: rest) key) :
    graph.Droppable (front ++ back) (graph.dependents node.key ++ rest) key := by
  by_cases hneeds : graph.Precedes node.key key
  · exact Or.inr (List.mem_append_left _ (mem_dependents.mpr hneeds))
  rcases h with h | h
  · left
    by_contra hfree
    rw [Bool.not_eq_false, isFree_iff] at hfree
    obtain ⟨hwaits, hready⟩ := hfree
    have hbefore : graph.isFree (front ++ node :: back) key = true := by
      refine isFree_iff.mpr ⟨?_, ?_⟩
      · simp only [List.map_append, List.map_cons, List.mem_append, List.mem_cons] at hwaits ⊢
        exact hwaits.imp_right Or.inr
      · intro needed hneeded hmem
        have hne : needed ≠ node.key := fun hsame => hneeds (hsame ▸ hneeded)
        exact hready needed hneeded (by simpa [hne] using hmem)
    rw [h] at hbefore
    cases hbefore
  · rcases List.mem_cons.mp h with rfl | h
    · left
      have hgone := not_mem_of_nodup_middle hnodup
      rw [← isAmong_iff] at hgone
      simp [isFree, hgone]
    · exact Or.inr (List.mem_append_right _ h)

/-- By the time the walk gets to a droppable key, the key has been met or still cannot be taken. -/
theorem settle_drop (graph : Graph) {waiting : List Node} {earlier : List String} {key : String}
    (hnodup : (waiting.map Node.key).Nodup) (h : graph.Droppable waiting earlier key)
    (later : List String) :
    graph.settle waiting (earlier ++ key :: later) = graph.settle waiting (earlier ++ later) := by
  induction hsize : waiting.length using Nat.strong_induction_on generalizing waiting earlier with
  | _ size ih =>
    induction earlier with
    | nil =>
      rcases h with h | h
      · exact settle_of_not_free h later
      · cases h
    | cons first rest ihRest =>
      rw [List.cons_append, List.cons_append]
      cases hfirst : graph.isFree waiting first with
      | false =>
        rw [settle_of_not_free hfirst, settle_of_not_free hfirst]
        exact ihRest (h.skip hfirst)
      | true =>
        obtain ⟨front, node, back, rfl, rfl⟩ := exists_split_of_free hfirst
        have hsmaller : (front ++ back).length < size := by
          rw [← hsize]
          simp
        have hdropped := ih _ hsmaller (nodup_of_nodup_middle hnodup) (h.take hnodup) rfl
        rw [List.append_assoc, List.append_assoc] at hdropped
        rw [settle_of_free hnodup hfirst, settle_of_free hnodup hfirst, hdropped]

/-- Only the keys matter that can be taken at once. -/
theorem settle_filter (graph : Graph) {waiting : List Node}
    (hnodup : (waiting.map Node.key).Nodup) (pending : List String) :
    graph.settle waiting pending =
      graph.settle waiting (pending.filter (graph.isFree waiting)) := by
  have hgeneral : ∀ earlier, graph.settle waiting (earlier ++ pending) =
      graph.settle waiting (earlier ++ pending.filter (graph.isFree waiting)) := by
    induction pending with
    | nil =>
      intro earlier
      rfl
    | cons key rest ih =>
      intro earlier
      cases hkey : graph.isFree waiting key with
      | false =>
        rw [settle_drop graph hnodup (Or.inl hkey), ih, List.filter_cons_of_neg (by simp [hkey])]
      | true =>
        rw [List.filter_cons_of_pos hkey]
        have hlonger := ih (earlier ++ [key])
        simpa using hlonger
  exact hgeneral []

/-! ## Two graphs that say the same -/

/-- Whatever needs a waiting key waits as well. -/
def Closed (graph : Graph) (waiting : List Node) : Prop :=
  ∀ needed key, graph.Precedes needed key → needed ∈ waiting.map Node.key →
    key ∈ waiting.map Node.key

/-- A key that needs a waiting one, directly or through others, cannot be taken. -/
theorem Closed.not_free {graph : Graph} {waiting : List Node} (hclosed : graph.Closed waiting)
    {needed key : String} (hneeds : Relation.TransGen graph.Precedes needed key)
    (hneeded : needed ∈ waiting.map Node.key) : graph.isFree waiting key = false := by
  obtain ⟨last, hmiddle, hlast⟩ := Relation.TransGen.tail'_iff.mp hneeds
  clear hneeds
  have hwaits : last ∈ waiting.map Node.key := by
    clear hlast
    induction hmiddle with
    | refl => exact hneeded
    | tail _ hstep ih => exact hclosed _ _ hstep ih
  by_contra hfree
  rw [Bool.not_eq_false, isFree_iff] at hfree
  exact hfree.2 last hlast hwaits

theorem Closed.take {graph : Graph} {front back : List Node} {node : Node}
    (hclosed : graph.Closed (front ++ node :: back))
    (hfree : graph.isFree (front ++ node :: back) node.key = true) :
    graph.Closed (front ++ back) := by
  intro needed key hneeds hneeded
  have hwaits : needed ∈ (front ++ node :: back).map Node.key := by
    simp only [List.map_append, List.map_cons, List.mem_append, List.mem_cons] at hneeded ⊢
    exact hneeded.imp_right Or.inr
  have hne : key ≠ node.key := by
    rintro rfl
    exact (isFree_iff.mp hfree).2 needed hneeds hwaits
  have hkey := hclosed needed key hneeds hwaits
  simpa [hne] using hkey

theorem closed_waitingNodes {graph : Graph} (href : graph.Referenced) :
    graph.Closed graph.waitingNodes := by
  intro needed key hneeds _
  have hkey : key ∈ graph.table.keys := by
    obtain ⟨edge, hedge, -, rfl⟩ := hneeds
    exact (href edge hedge).2
  have hparts := (graph.sources_append_waitingNodes_perm.map Node.key).mem_iff.mpr hkey
  rw [List.map_append] at hparts
  rcases List.mem_append.mp hparts with hsource | hwaits
  · obtain ⟨source, hmem, rfl⟩ := List.mem_map.mp hsource
    exact absurd hneeds ((mem_sources.mp hmem).2 needed)
  · exact hwaits

/-- The edges of two graphs say the same, each graph perhaps in an order of its own. -/
def SameNeeds (a b : Graph) : Prop := ∀ needed key, a.Precedes needed key ↔ b.Precedes needed key

theorem SameNeeds.precedes_eq {a b : Graph} (h : a.SameNeeds b) : a.Precedes = b.Precedes := by
  funext needed key
  exact propext (h needed key)

theorem SameNeeds.isFree_eq {a b : Graph} (h : a.SameNeeds b) (waiting : List Node) :
    b.isFree waiting = a.isFree waiting := by
  funext key
  rw [Bool.eq_iff_iff, isFree_iff, isFree_iff]
  simp only [h _ key]

/-- Two walks agree if at every moment the dependents that can be taken come in the same order. -/
theorem settle_congr {a b : Graph} (hneeds : a.SameNeeds b)
    (hdependents : ∀ waiting key, a.Closed waiting →
      (a.dependents key).filter (a.isFree waiting) = (b.dependents key).filter (a.isFree waiting))
    {waiting : List Node} (hnodup : (waiting.map Node.key).Nodup) (hclosed : a.Closed waiting)
    {pending pending' : List String}
    (hpending : pending.filter (a.isFree waiting) = pending'.filter (a.isFree waiting)) :
    a.settle waiting pending = b.settle waiting pending' := by
  induction hsize : waiting.length using Nat.strong_induction_on
    generalizing waiting pending pending' with
  | _ size ih =>
    rw [a.settle_filter hnodup pending, b.settle_filter hnodup pending', hneeds.isFree_eq,
      ← hpending]
    cases hfree : pending.filter (a.isFree waiting) with
    | nil => rw [settle, settle]
    | cons key rest =>
      have hkey : a.isFree waiting key = true := by
        have hmem : key ∈ pending.filter (a.isFree waiting) := by
          rw [hfree]
          exact List.mem_cons_self
        exact (List.mem_filter.mp hmem).2
      obtain ⟨front, node, back, rfl, rfl⟩ := exists_split_of_free hkey
      have hkey' : b.isFree (front ++ node :: back) node.key = true := by
        rw [hneeds.isFree_eq]
        exact hkey
      have hclosed' := hclosed.take hkey
      have hsmaller : (front ++ back).length < size := by
        rw [← hsize]
        simp
      have hlater : a.settle (front ++ back) (a.dependents node.key ++ rest) =
          b.settle (front ++ back) (b.dependents node.key ++ rest) := by
        apply ih _ hsmaller (nodup_of_nodup_middle hnodup) hclosed' _ rfl
        rw [List.filter_append, List.filter_append, hdependents _ _ hclosed']
      rw [settle_of_free hnodup hkey, settle_of_free hnodup hkey', hlater]

/-! ## Tidy edges -/

/-- If an edge of a later node of the table comes before an edge of an earlier one, then the earlier
node needs the later one, directly or through others. -/
def Tidy (graph : Graph) : Prop :=
  graph.edges.Pairwise fun a b =>
    graph.table.keys.idxOf a.dependent ≤ graph.table.keys.idxOf b.dependent ∨
      Relation.TransGen graph.Precedes a.dependent b.dependent

/-- If the edges are tidy, the dependents that can be taken come in the order of the table. -/
theorem Tidy.pairwise_free {graph : Graph} (htidy : graph.Tidy) {waiting : List Node}
    (hclosed : graph.Closed waiting) (key : String) :
    ((graph.dependents key).filter (graph.isFree waiting)).Pairwise fun a b =>
      graph.table.keys.idxOf a ≤ graph.table.keys.idxOf b := by
  have htidy' : (graph.dependents key).Pairwise fun a b =>
      graph.table.keys.idxOf a ≤ graph.table.keys.idxOf b ∨
        Relation.TransGen graph.Precedes a b := by
    apply pairwise_dependents
    exact htidy
  refine (htidy'.filter _).imp_of_mem ?_
  intro a b ha hb h
  rcases h with hle | hneeds
  · exact hle
  · have hwaits := (isFree_iff.mp (List.mem_filter.mp ha).2).1
    have hstuck := hclosed.not_free hneeds hwaits
    rw [(List.mem_filter.mp hb).2] at hstuck
    cases hstuck

/-- Two graphs with the same table whose edges are tidy and say the same have the same order. -/
theorem placement_eq_of_tidy {a b : Graph} (htable : a.table = b.table) (hneeds : a.SameNeeds b)
    (href : a.Referenced) (ha : a.Tidy) (hb : b.Tidy) : a.placement = b.placement := by
  have hdependents : ∀ waiting key, a.Closed waiting →
      (a.dependents key).filter (a.isFree waiting) =
        (b.dependents key).filter (a.isFree waiting) := by
    intro waiting key hclosed
    have hclosed' : b.Closed waiting := fun needed key h => hclosed needed key ((hneeds _ _).mpr h)
    have hsorted := hb.pairwise_free hclosed' key
    rw [hneeds.isFree_eq, ← htable] at hsorted
    apply List.Perm.eq_of_pairwise _ (ha.pairwise_free hclosed key) hsorted
    · apply List.Perm.filter
      refine (List.perm_ext_iff_of_nodup (a.nodup_dependents key) (b.nodup_dependents key)).mpr ?_
      intro other
      rw [mem_dependents, mem_dependents]
      exact hneeds key other
    · intro x y hx _ hxy hyx
      have hknown : x ∈ a.table.keys := by
        obtain ⟨edge, hedge, -, rfl⟩ := mem_dependents.mp (List.mem_filter.mp hx).1
        exact (href edge hedge).2
      exact (List.idxOf_inj hknown).mp (Nat.le_antisymm hxy hyx)
  have hsources : a.sources = b.sources := by
    unfold sources
    rw [htable]
    refine List.filter_congr ?_
    intro node _
    rw [Bool.eq_iff_iff, all_dependent_ne_iff, all_dependent_ne_iff]
    simp only [hneeds _ node.key]
  have hwaiting : a.waitingNodes = b.waitingNodes := by
    unfold waitingNodes
    rw [htable, hsources]
  have hclosed := closed_waitingNodes href
  have hwalk : a.settle a.waitingNodes a.firstKeys = b.settle b.waitingNodes b.firstKeys := by
    rw [← hwaiting]
    apply settle_congr hneeds hdependents _ hclosed
    · unfold firstKeys
      rw [List.filter_flatMap, List.filter_flatMap, ← hsources]
      simp only [hdependents _ _ hclosed]
    · exact a.table.distinct.sublist (List.filter_sublist.map Node.key)
  rw [placement_eq, placement_eq, hsources, hwalk]

/-- Without any condition on their order, nor on that of the nodes, edges that say the same place
the same nodes. -/
theorem placed_perm_of_nodes_perm {a b : Graph} (hnodes : a.table.nodes.Perm b.table.nodes)
    (hneeds : a.SameNeeds b) (href : a.Referenced) (href' : b.Referenced) :
    b.placement.placed.Perm a.placement.placed := by
  have hnodup : ∀ graph : Graph, graph.placement.placed.Nodup :=
    fun graph => graph.nodup_placement_keys.of_append_left.of_map
  refine (List.perm_ext_iff_of_nodup (hnodup b) (hnodup a)).mpr ?_
  intro node
  rw [mem_placed_iff href', mem_placed_iff href, hnodes.mem_iff, Caught, Caught,
    hneeds.precedes_eq]

theorem placed_perm_of_sameNeeds {a b : Graph} (htable : a.table = b.table)
    (hneeds : a.SameNeeds b) (href : a.Referenced) (href' : b.Referenced) :
    b.placement.placed.Perm a.placement.placed :=
  placed_perm_of_nodes_perm (htable ▸ .refl _) hneeds href href'

/-! ## Nodes that only keep their keys -/

section

variable {a b : Graph} {change : Node → Node} (keeps : ∀ node, (change node).key = node.key)
  (hedges : b.edges = a.edges)

include keeps

theorem isAmong_map (nodes : List Node) (key : String) :
    isAmong (nodes.map change) key = isAmong nodes key := by
  rw [Bool.eq_iff_iff, isAmong_iff, isAmong_iff, List.map_map]
  rw [show Node.key ∘ change = Node.key from funext keeps]

include hedges

/-- The walk looks at nothing of a node but its key. -/
theorem settle_map (waiting : List Node) (pending : List String) :
    b.settle (waiting.map change) pending =
      ⟨(a.settle waiting pending).placed.map change,
        (a.settle waiting pending).omitted.map change⟩ := by
  have hready : ∀ waiting key, b.isReady (waiting.map change) key = a.isReady waiting key := by
    intro waiting key
    unfold isReady prerequisites
    simp only [isAmong_map keeps, hedges]
  have hfind : ∀ (waiting : List Node) (key : String),
      (waiting.map change).find? (·.key = key) =
        (waiting.find? (·.key = key)).map change := by
    intro waiting key
    rw [List.find?_map]
    simp only [Function.comp_def, keeps]
  have herase : ∀ (waiting : List Node) (key : String),
      (waiting.map change).eraseP (·.key = key) =
        (waiting.eraseP (·.key = key)).map change := by
    intro waiting key
    rw [List.eraseP_map]
    simp only [Function.comp_def, keeps]
  fun_induction settle a waiting pending with
  | case1 waiting =>
    rw [settle]
    rfl
  | case2 waiting key rest hnone ih =>
    have hnone' : (waiting.map change).find? (·.key = key) = none := by
      rw [hfind, hnone]
      rfl
    rw [settle_of_gone hnone', ih]
  | case3 waiting key rest node hsome hfree later ih =>
    have hsome' : (waiting.map change).find? (·.key = key) = some (change node) := by
      rw [hfind, hsome]
      rfl
    have hdependents : b.dependents key = a.dependents key := by
      unfold dependents
      rw [hedges]
    rw [settle_of_ready hsome' (by rw [hready]; exact hfree), herase, hdependents, ih]
    rfl
  | case4 waiting key rest node hsome hstuck ih =>
    rw [settle_of_stuck (by rw [hready]; simpa using hstuck), ih]

theorem placement_map (hnodes : b.table.nodes = a.table.nodes.map change) :
    b.placement = ⟨a.placement.placed.map change, a.placement.omitted.map change⟩ := by
  have hsources : b.sources = a.sources.map change := by
    unfold sources
    rw [hnodes, List.filter_map, hedges]
    simp only [Function.comp_def, keeps]
  have hwaiting : b.waitingNodes = a.waitingNodes.map change := by
    unfold waitingNodes
    rw [hnodes, List.filter_map, hsources]
    simp only [Function.comp_def, keeps, isAmong_map keeps]
  have hfirst : b.firstKeys = a.firstKeys := by
    unfold firstKeys dependents
    rw [hsources, List.flatMap_map, hedges]
    simp only [keeps]
  rw [placement_eq, placement_eq, hsources, hwaiting, hfirst, settle_map keeps hedges,
    List.map_append]

end

end Blueprint.Graph
