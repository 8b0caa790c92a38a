import Blueprint.Graph.Order
import Blueprint.Proofs.Graph.Dependency
import Mathlib.Data.Fintype.Card
import Mathlib.Data.Set.Finite.Basic
import Mathlib.Order.WellFounded

/-!
# `Blueprint/Proofs/Graph/Placement.lean` — what the order of construction places

The walk of `settle` passes over a node that is not ready and counts on meeting it again. That it
does is the content of one invariant, `Pended`: **every node that waits and is ready is among the
keys still to be looked at**. Taking a node keeps it, because a node that becomes ready by that is a
dependent of the node taken, and its dependents are what the walk looks at next. When nothing is
left to look at, no waiting node is ready: each of those left over still needs another of them.

The other half needs no invariant of its own. A node is taken only when nothing it needs is waiting,
so it stands after everything it needs, directly or through others, and a node on a cycle would
have to stand before itself.

The two halves meet in `order_refuse_iff_acyclic`. They are stated of `placement`, without a policy,
so they say as much about an order that leaves nodes out.
-/

set_option autoImplicit false

namespace Blueprint.Graph

/-! ## Waiting nodes -/

theorem isAmong_iff {nodes : List Node} {key : String} :
    isAmong nodes key = true ↔ key ∈ nodes.map Node.key := by
  unfold isAmong
  simp only [List.any_eq_true, List.mem_map, decide_eq_true_eq]

theorem isReady_iff {graph : Graph} {waiting : List Node} {key : String} :
    graph.isReady waiting key = true ↔
      ∀ needed, graph.Precedes needed key → needed ∉ waiting.map Node.key := by
  unfold isReady
  rw [List.all_eq_true]
  constructor
  · intro hall needed hneeded hwaits
    have := hall needed (mem_prerequisites.mpr hneeded)
    rw [isAmong_iff.mpr hwaits] at this
    exact absurd this (by simp)
  · intro hall needed hneeded
    have := hall needed (mem_prerequisites.mp hneeded)
    rw [← isAmong_iff] at this
    simpa using this

/-- Taking the node with a key out of the waiting ones leaves what stands before and after it. -/
theorem exists_split_of_find? {waiting : List Node} {key : String} {node : Node}
    (h : waiting.find? (·.key = key) = some node) :
    ∃ front back, waiting = front ++ node :: back ∧
      waiting.eraseP (·.key = key) = front ++ back ∧ node.key = key := by
  obtain ⟨hkey, front, back, rfl, hfront⟩ := List.find?_eq_some_iff_append.mp h
  refine ⟨front, back, rfl, ?_, by simpa using hkey⟩
  rw [List.eraseP_append_right _ (fun other hmem => by simpa using hfront other hmem)]
  exact congrArg (front ++ ·) (List.eraseP_cons_of_pos (by exact hkey))

/-! ## The walk -/

/-- Nothing is lost: what the walk was given is either placed or left over. -/
theorem settle_perm (graph : Graph) (waiting : List Node) (pending : List String) :
    ((graph.settle waiting pending).placed ++ (graph.settle waiting pending).omitted).Perm
      waiting := by
  fun_induction settle graph waiting pending with
  | case1 waiting => exact List.Perm.refl _
  | case2 waiting key rest hfind ih => exact ih
  | case3 waiting key rest node hfind hready later ih =>
    obtain ⟨front, back, hwaiting, herase, -⟩ := exists_split_of_find? hfind
    have htaken : (node :: waiting.eraseP (·.key = key)).Perm waiting := by
      rw [herase, hwaiting]
      exact List.perm_middle.symm
    exact (ih.cons node).trans htaken
  | case4 waiting key rest node hfind hready ih => exact ih

/-- What is left over keeps the order of the table. -/
theorem settle_omitted_sublist (graph : Graph) (waiting : List Node) (pending : List String) :
    (graph.settle waiting pending).omitted.Sublist waiting := by
  fun_induction settle graph waiting pending with
  | case1 waiting => exact List.Sublist.refl _
  | case2 waiting key rest hfind ih => exact ih
  | case3 waiting key rest node hfind hready later ih =>
    exact ih.trans List.eraseP_sublist
  | case4 waiting key rest node hfind hready ih => exact ih

/-- A node is placed after whatever it needs, if that was waiting too. -/
theorem settle_after (graph : Graph) (waiting : List Node) (pending : List String) :
    ∀ before node after, (graph.settle waiting pending).placed = before ++ node :: after →
      ∀ needed, graph.Precedes needed node.key → needed ∈ waiting.map Node.key →
        needed ∈ before.map Node.key := by
  fun_induction settle graph waiting pending with
  | case1 waiting => intro before node after hsplit; simp at hsplit
  | case2 waiting key rest hfind ih => exact ih
  | case3 waiting key rest taken hfind hready later ih =>
    obtain ⟨front, back, hwaiting, herase, hkey⟩ := exists_split_of_find? hfind
    intro before node after hsplit needed hneeded hwaits
    cases before with
    | nil =>
      -- the node just taken: it was ready, so nothing it needs waits
      obtain ⟨rfl, -⟩ : taken = node ∧ _ := by simpa using hsplit
      rw [hkey] at hneeded
      exact absurd hwaits (isReady_iff.mp hready needed hneeded)
    | cons head before =>
      obtain ⟨rfl, hlater⟩ : taken = head ∧ later.placed = before ++ node :: after := by
        simpa using hsplit
      by_cases hsame : needed = taken.key
      · exact hsame ▸ List.mem_cons_self
      · refine List.mem_cons_of_mem _ (ih before node after hlater needed hneeded ?_)
        rw [herase]
        rw [hwaiting] at hwaits
        simpa [hsame] using hwaits
  | case4 waiting key rest node hfind hready ih => exact ih

/-- Every node that waits and is ready is still to be looked at. -/
def Pended (graph : Graph) (waiting : List Node) (pending : List String) : Prop :=
  ∀ node ∈ waiting, graph.isReady waiting node.key = true → node.key ∈ pending

/-- Passing over a key keeps the invariant, if no node with that key waits and is ready. -/
theorem Pended.skip {graph : Graph} {waiting : List Node} {key : String} {rest : List String}
    (h : graph.Pended waiting (key :: rest))
    (hskip : ∀ node ∈ waiting, node.key = key → graph.isReady waiting key = false) :
    graph.Pended waiting rest := by
  intro node hmem hready
  rcases List.mem_cons.mp (h node hmem hready) with hkey | hrest
  · rw [hkey, hskip node hmem hkey] at hready
    exact absurd hready (by simp)
  · exact hrest

/-- Taking a node keeps the invariant, if its dependents are looked at next. -/
theorem Pended.take {graph : Graph} {front back : List Node} {node : Node} {rest : List String}
    (hnodup : ((front ++ node :: back).map Node.key).Nodup)
    (h : graph.Pended (front ++ node :: back) (node.key :: rest)) :
    graph.Pended (front ++ back) (graph.dependents node.key ++ rest) := by
  intro other hmem hready
  have hmem' : other ∈ front ++ node :: back := by
    rcases List.mem_append.mp hmem with hfront | hback
    · exact List.mem_append_left _ hfront
    · exact List.mem_append_right _ (List.mem_cons_of_mem _ hback)
  have hne : other.key ≠ node.key := by
    intro hkey
    rw [List.map_append, List.map_cons] at hnodup
    have hnot := (List.nodup_middle.mp hnodup).notMem
    rw [← List.map_append] at hnot
    exact hnot (hkey ▸ List.mem_map_of_mem hmem)
  -- either it was ready before, or what it waited for was the node taken
  by_cases hbefore : graph.Precedes node.key other.key
  · exact List.mem_append_left _ (mem_dependents.mpr hbefore)
  · refine List.mem_append_right _ ?_
    have hready' : graph.isReady (front ++ node :: back) other.key = true := by
      refine isReady_iff.mpr fun needed hneeded hwaits => ?_
      have hnot := isReady_iff.mp hready needed hneeded
      have : needed = node.key := by
        by_contra hother
        exact hnot (by simpa [hother] using hwaits)
      exact hbefore (this ▸ hneeded)
    exact (List.mem_cons.mp (h other hmem' hready')).resolve_left hne

/-- Each node that is left over needs another node that is left over. -/
theorem settle_blocked (graph : Graph) (waiting : List Node) (pending : List String) :
    (waiting.map Node.key).Nodup → graph.Pended waiting pending →
      ∀ node ∈ (graph.settle waiting pending).omitted, ∃ needed,
        graph.Precedes needed node.key ∧
          needed ∈ (graph.settle waiting pending).omitted.map Node.key := by
  fun_induction settle graph waiting pending with
  | case1 waiting =>
    intro _ hpended node hmem
    have hwaits : ¬ graph.isReady waiting node.key = true :=
      fun hready => absurd (hpended node hmem hready) (by simp)
    rw [isReady_iff] at hwaits
    push Not at hwaits
    exact hwaits
  | case2 waiting key rest hfind ih =>
    intro hnodup hpended
    refine ih hnodup (hpended.skip fun node hmem hkey => ?_)
    exact absurd hkey (by simpa using List.find?_eq_none.mp hfind node hmem)
  | case3 waiting key rest node hfind hready later ih =>
    obtain ⟨front, back, hwaiting, herase, rfl⟩ := exists_split_of_find? hfind
    intro hnodup hpended
    refine ih (hnodup.sublist (List.eraseP_sublist.map Node.key)) ?_
    rw [herase]
    subst hwaiting
    exact hpended.take hnodup
  | case4 waiting key rest node hfind hready ih =>
    intro hnodup hpended
    exact ih hnodup (hpended.skip fun _ _ _ => by simpa using hready)

/-! ## The placement -/

/-- The nodes that wait when the walk begins: those that need something. -/
def waitingNodes (graph : Graph) : List Node :=
  graph.table.nodes.filter fun node => !isAmong graph.sources node.key

/-- The keys that the walk is to look at when it begins. -/
def firstKeys (graph : Graph) : List String :=
  graph.sources.flatMap fun node => graph.dependents node.key

theorem placement_eq (graph : Graph) :
    graph.placement =
      ⟨graph.sources ++ (graph.settle graph.waitingNodes graph.firstKeys).placed,
        (graph.settle graph.waitingNodes graph.firstKeys).omitted⟩ := rfl

/-- A node of the table is among the sources, by its key, exactly if it is one. -/
theorem isAmong_sources_iff {graph : Graph} {node : Node} (hmem : node ∈ graph.table.nodes) :
    isAmong graph.sources node.key = true ↔ node ∈ graph.sources := by
  rw [isAmong_iff]
  constructor
  · intro hkey
    obtain ⟨source, hsource, hsame⟩ := List.mem_map.mp hkey
    have hsame := Table.eq_of_key_eq (mem_sources.mp hsource).1 hmem hsame
    exact hsame ▸ hsource
  · exact fun hsource => List.mem_map_of_mem hsource

theorem sources_append_waitingNodes_perm (graph : Graph) :
    (graph.sources ++ graph.waitingNodes).Perm graph.table.nodes := by
  have hsources : graph.sources = graph.table.nodes.filter (isAmong graph.sources ·.key) := by
    refine List.filter_congr fun node hmem => ?_
    rw [Bool.eq_iff_iff, isAmong_sources_iff hmem, all_dependent_ne_iff, mem_sources]
    exact ⟨fun h => ⟨hmem, h⟩, fun h => h.2⟩
  have hparts := List.filter_append_perm (isAmong graph.sources ·.key) graph.table.nodes
  rw [← hsources] at hparts
  exact hparts

theorem placement_perm (graph : Graph) :
    (graph.placement.placed ++ graph.placement.omitted).Perm graph.table.nodes := by
  rw [placement_eq, List.append_assoc]
  have hwalk := graph.settle_perm graph.waitingNodes graph.firstKeys
  exact (hwalk.append_left graph.sources).trans graph.sources_append_waitingNodes_perm

theorem mem_table_of_placed {graph : Graph} {node : Node}
    (hmem : node ∈ graph.placement.placed) : node ∈ graph.table.nodes :=
  graph.placement_perm.subset (List.mem_append_left _ hmem)

theorem nodup_placement_keys (graph : Graph) :
    (graph.placement.placed.map Node.key ++ graph.placement.omitted.map Node.key).Nodup := by
  rw [← List.map_append]
  exact (graph.placement_perm.map Node.key).nodup_iff.mpr graph.table.distinct

theorem placement_omitted_sublist (graph : Graph) :
    graph.placement.omitted.Sublist graph.table.nodes :=
  (graph.settle_omitted_sublist _ _).trans List.filter_sublist

/-- A placed node stands after everything it needs. -/
theorem placement_after {graph : Graph} (href : graph.Referenced) {before after : List Node}
    {node : Node} (hsplit : graph.placement.placed = before ++ node :: after) {needed : String}
    (hneeded : graph.Precedes needed node.key) : needed ∈ before.map Node.key := by
  have hkey : needed ∈ graph.table.keys := by
    obtain ⟨edge, hedge, rfl, -⟩ := hneeded
    exact (href edge hedge).1
  have hparts : needed ∈ (graph.sources ++ graph.waitingNodes).map Node.key :=
    (graph.sources_append_waitingNodes_perm.map Node.key).mem_iff.mpr hkey
  have hnot : node ∉ graph.sources :=
    fun hsource => (mem_sources.mp hsource).2 needed hneeded
  -- the sources come first and the node is none of them, so the walk has placed it
  obtain ⟨middle, rfl, hwalk⟩ : ∃ middle, before = graph.sources ++ middle ∧
      (graph.settle graph.waitingNodes graph.firstKeys).placed = middle ++ node :: after := by
    rw [placement_eq] at hsplit
    rcases List.append_eq_append_iff.mp hsplit with ⟨middle, hbefore, hwalk⟩ |
      ⟨middle, hsources, hafter⟩
    · exact ⟨middle, hbefore, hwalk⟩
    · cases middle with
      | nil => exact ⟨[], by simpa using hsources.symm, by simpa using hafter.symm⟩
      | cons head middle =>
        obtain ⟨rfl, -⟩ : node = head ∧ _ := by simpa using hafter
        exact absurd (by rw [hsources]; simp) hnot
  rw [List.map_append] at hparts ⊢
  rcases List.mem_append.mp hparts with hsource | hwaits
  · exact List.mem_append_left _ hsource
  · exact List.mem_append_right _
      (graph.settle_after _ _ middle node after hwalk needed hneeded hwaits)

/-- Each node that is left over needs another node that is left over. -/
theorem placement_blocked {graph : Graph} (href : graph.Referenced) {node : Node}
    (hmem : node ∈ graph.placement.omitted) :
    ∃ needed, graph.Precedes needed node.key ∧
      needed ∈ graph.placement.omitted.map Node.key := by
  refine graph.settle_blocked graph.waitingNodes graph.firstKeys ?_ ?_ node hmem
  · exact graph.table.distinct.sublist (List.filter_sublist.map Node.key)
  · -- a waiting node needs something; if it is ready, that is a source, which is looked at first
    intro waiter hwaiter hready
    obtain ⟨htable, hnot⟩ := List.mem_filter.mp hwaiter
    have hnot : waiter ∉ graph.sources := by
      intro hsource
      rw [(isAmong_sources_iff htable).mpr hsource] at hnot
      exact absurd hnot (by simp)
    obtain ⟨needed, hneeded⟩ : ∃ needed, graph.Precedes needed waiter.key := by
      by_contra hnone
      push Not at hnone
      exact hnot (mem_sources.mpr ⟨htable, hnone⟩)
    have hkey : needed ∈ graph.table.keys := by
      obtain ⟨edge, hedge, rfl, -⟩ := hneeded
      exact (href edge hedge).1
    obtain ⟨dependency, hdependency, rfl⟩ := List.mem_map.mp hkey
    have hsource : dependency ∈ graph.sources := by
      have hparts := graph.sources_append_waitingNodes_perm.mem_iff.mpr hdependency
      refine (List.mem_append.mp hparts).resolve_right fun hwaits => ?_
      exact isReady_iff.mp hready _ hneeded (List.mem_map_of_mem hwaits)
    exact List.mem_flatMap.mpr ⟨dependency, hsource, mem_dependents.mpr hneeded⟩

/-! ## Cycles -/

/-- A placed node stands after everything it needs, directly or through others. -/
theorem placement_after_transGen {graph : Graph} (href : graph.Referenced) {needed key : String}
    (hneeded : Relation.TransGen graph.Precedes needed key) :
    ∀ {before after : List Node} {node : Node},
      graph.placement.placed = before ++ node :: after → node.key = key →
        needed ∈ before.map Node.key := by
  induction hneeded with
  | single hstep =>
    rintro before after node hsplit rfl
    exact placement_after href hsplit hstep
  | tail _ hstep ih =>
    rintro before after node hsplit rfl
    obtain ⟨middle, hmiddle, hkey⟩ := List.mem_map.mp (placement_after href hsplit hstep)
    obtain ⟨front, back, rfl⟩ := List.append_of_mem hmiddle
    have hinner : graph.placement.placed = front ++ middle :: (back ++ node :: after) := by
      simpa using hsplit
    rw [List.map_append]
    exact List.mem_append_left _ (ih hinner hkey)

/-- No placed node is on a cycle. -/
theorem not_transGen_of_placed {graph : Graph} (href : graph.Referenced) {node : Node}
    (hmem : node ∈ graph.placement.placed) :
    ¬ Relation.TransGen graph.Precedes node.key node.key := by
  intro hcycle
  obtain ⟨before, after, hsplit⟩ := List.append_of_mem hmem
  have hbefore := placement_after_transGen href hcycle hsplit rfl
  have hnodup := graph.nodup_placement_keys.of_append_left
  rw [hsplit, List.map_append, List.map_cons] at hnodup
  exact (List.nodup_middle.mp hnodup).notMem (List.mem_append_left _ hbefore)

/-- A node that is left over is on a cycle or behind one: among the keys that it needs and that are
left over, each needs another, and there are only finitely many. -/
theorem exists_cycle_of_omitted {graph : Graph} (href : graph.Referenced) {node : Node}
    (hmem : node ∈ graph.placement.omitted) :
    ∃ turn, Relation.ReflTransGen graph.Precedes turn node.key ∧
      Relation.TransGen graph.Precedes turn turn := by
  by_contra hnone
  push Not at hnone
  let behind : Set String := { key | key ∈ graph.placement.omitted.map Node.key ∧
    Relation.ReflTransGen graph.Precedes key node.key }
  have hfinite : Finite behind :=
    (List.finite_toSet (graph.placement.omitted.map Node.key)).subset fun _ hkey => hkey.1
  let needs : behind → behind → Prop := fun a b => Relation.TransGen graph.Precedes a.1 b.1
  have htrans : IsTrans behind needs := ⟨fun _ _ _ => Relation.TransGen.trans⟩
  have hirrefl : Std.Irrefl needs := ⟨fun key => hnone key.1 key.2.2⟩
  have hwf : WellFounded needs := Finite.wellFounded_of_trans_of_irrefl needs
  obtain ⟨⟨least, hleft, hbehind⟩, -, hleast⟩ :=
    hwf.has_min Set.univ ⟨⟨node.key, List.mem_map_of_mem hmem, .refl⟩, trivial⟩
  obtain ⟨other, hother, rfl⟩ := List.mem_map.mp hleft
  obtain ⟨needed, hneeded, hneededLeft⟩ := placement_blocked href hother
  exact hleast ⟨needed, hneededLeft, .head hneeded hbehind⟩ trivial
    (Relation.TransGen.single hneeded)

theorem not_acyclic_of_omitted {graph : Graph} (href : graph.Referenced)
    (hleft : graph.placement.omitted ≠ []) : ¬ graph.Acyclic := by
  intro hacyclic
  obtain ⟨first, hfirst⟩ := List.exists_mem_of_ne_nil _ hleft
  obtain ⟨turn, -, hturn⟩ := exists_cycle_of_omitted href hfirst
  exact hacyclic turn hturn

/-- Nothing is left over exactly if no key needs itself. -/
theorem omitted_eq_nil_iff_acyclic {graph : Graph} (href : graph.Referenced) :
    graph.placement.omitted = [] ↔ graph.Acyclic := by
  constructor
  · intro hnone key hcycle
    have hkey : key ∈ graph.table.keys := by
      obtain ⟨middle, -, edge, hedge, -, rfl⟩ := Relation.TransGen.tail'_iff.mp hcycle
      exact (href edge hedge).2
    obtain ⟨node, hnode, rfl⟩ := List.mem_map.mp hkey
    have hplaced := graph.placement_perm.mem_iff.mpr hnode
    rw [hnone, List.append_nil] at hplaced
    exact not_transGen_of_placed href hplaced hcycle
  · intro hacyclic
    by_contra hleft
    exact not_acyclic_of_omitted href hleft hacyclic

/-! ## The order -/

/-- An order under either policy is the placement of a graph whose edges have both ends. -/
theorem order_eq_ok_iff {graph : Graph} {policy : CyclePolicy} {placement : Placement} :
    graph.order policy = .ok placement ↔
      graph.Referenced ∧ placement = graph.placement ∧
        (policy = .refuse → graph.placement.omitted = []) := by
  have hok : (.ok graph.placement : Except Error Placement) = .ok placement ↔
      placement = graph.placement := ⟨fun h => by cases h; rfl, fun h => by rw [h]⟩
  rw [← checkReferences_eq_ok_iff]
  unfold order
  cases hcheck : graph.checkReferences with
  | error e => simp [bind, Except.bind]
  | ok _ =>
    cases policy with
    | refuse =>
      cases homitted : graph.placement.omitted with
      | nil => simpa [bind, Except.bind, pure, Except.pure, homitted] using hok
      | cons first rest => simp [bind, Except.bind, throw, throwThe, MonadExceptOf.throw, homitted]
    | leaveOut => simpa [bind, Except.bind, pure, Except.pure] using hok

/-- Ordering with cycles refused succeeds exactly on the graphs whose edges have both ends in the
table and run in no circle. The order then holds every node of the table once, each after everything
it needs. -/
theorem order_refuse_iff_acyclic (graph : Graph) :
    (graph.checkReferences = .ok () ↔ graph.Referenced) ∧
    ((∃ placement, graph.order .refuse = .ok placement) ↔
      graph.Referenced ∧ graph.Acyclic) ∧
    ∀ placement, graph.order .refuse = .ok placement →
      placement.placed.Perm graph.table.nodes ∧
      ∀ edge ∈ graph.edges, ∃ before between after dependency dependent,
        placement.placed = before ++ dependency :: (between ++ dependent :: after) ∧
          dependency.key = edge.dependency ∧ dependent.key = edge.dependent := by
  refine ⟨checkReferences_eq_ok_iff, ?_, ?_⟩
  · constructor
    · rintro ⟨placement, horder⟩
      obtain ⟨href, -, hnone⟩ := order_eq_ok_iff.mp horder
      exact ⟨href, (omitted_eq_nil_iff_acyclic href).mp (hnone rfl)⟩
    · rintro ⟨href, hacyclic⟩
      exact ⟨graph.placement, order_eq_ok_iff.mpr
        ⟨href, rfl, fun _ => (omitted_eq_nil_iff_acyclic href).mpr hacyclic⟩⟩
  · intro placement horder
    obtain ⟨href, rfl, hnone⟩ := order_eq_ok_iff.mp horder
    have hperm : graph.placement.placed.Perm graph.table.nodes := by
      have hparts := graph.placement_perm
      rwa [hnone rfl, List.append_nil] at hparts
    refine ⟨hperm, fun edge hedge => ?_⟩
    obtain ⟨dependent, hdependent, hkey⟩ := List.mem_map.mp (href edge hedge).2
    obtain ⟨front, after, hsplit⟩ := List.append_of_mem (hperm.mem_iff.mpr hdependent)
    have hneeded : graph.Precedes edge.dependency dependent.key := ⟨edge, hedge, rfl, hkey.symm⟩
    obtain ⟨dependency, hmem, hsame⟩ := List.mem_map.mp (placement_after href hsplit hneeded)
    obtain ⟨before, between, rfl⟩ := List.append_of_mem hmem
    exact ⟨before, between, after, dependency, dependent, by simpa using hsplit, hsame, hkey⟩

end Blueprint.Graph
