import Blueprint.Proofs.Graph.LeftOut
import Blueprint.Proofs.Graph.Reordered

/-!
# `Blueprint/Proofs/Graph/Preorder.lean` — the order without a test for readiness

Before a node takes its place the walk asks whether everything that it needs has been taken. On a
graph in which no node needs two others the question is idle: a node is looked at because something
that it needs has just been taken, and there is nothing else that it could need. So the order is
the plain one, the sources first and then, from each of them in turn, whatever is reached for the
first time, depth first (`order_eq_plainOrder`).

The plain walk remembers the keys it has reached, and the other one the nodes that still wait. They
are two descriptions of one set (`unreached`), and with that the two walks run in step. The plain
walk calls itself, while the other puts the dependents in front of what it has still to look at;
therefore what is shown is said with more keys behind (`settle_unreached`).
-/

set_option autoImplicit false

namespace Blueprint

/-- A placement with some nodes placed in front. -/
def Placement.after (taken : List Node) (placement : Placement) : Placement :=
  ⟨taken ++ placement.placed, placement.omitted⟩

theorem Placement.after_after (a b : List Node) (placement : Placement) :
    (placement.after b).after a = placement.after (a ++ b) := by
  unfold after
  rw [List.append_assoc]

namespace Graph

/-! ## The plain walk -/

/-- The nodes of the table that have not been reached, in table order. -/
def unreached (graph : Graph) (reached : List String) : List Node :=
  graph.table.nodes.filter fun node => decide (node.key ∉ reached)

theorem mem_unreached {graph : Graph} {reached : List String} {node : Node} :
    node ∈ graph.unreached reached ↔ node ∈ graph.table.nodes ∧ node.key ∉ reached := by
  rw [unreached, List.mem_filter, decide_eq_true_eq]

theorem unreached_cons (graph : Graph) (key : String) (reached : List String) :
    graph.unreached (key :: reached) =
      (graph.unreached reached).filter fun node => decide (node.key ≠ key) := by
  rw [unreached, unreached, List.filter_filter]
  refine List.filter_congr fun node _ => ?_
  rw [← Bool.decide_and]
  exact decide_eq_decide.mpr (by rw [List.mem_cons, not_or])

theorem unreached_congr (graph : Graph) {reached reached' : List String}
    (h : ∀ key, key ∈ reached ↔ key ∈ reached') :
    graph.unreached reached = graph.unreached reached' := by
  exact List.filter_congr fun node _ => decide_eq_decide.mpr (not_congr (h node.key))

/-- Reaching more leaves less, and a node that is reached for the first time is no longer left. -/
theorem length_unreached_lt {graph : Graph} {key : String} {node : Node}
    {reached reached' : List String} (hnode : graph.table.find? key = some node)
    (hfirst : key ∉ reached) (hkey : key ∈ reached') (hmore : reached ⊆ reached') :
    (graph.unreached reached').length < (graph.unreached reached).length := by
  have hmem : node ∈ graph.unreached reached :=
    mem_unreached.mpr ⟨Table.mem_nodes_of_find? hnode, Table.key_of_find? hnode ▸ hfirst⟩
  have hless : graph.unreached reached' =
      (graph.unreached reached).filter fun node => decide (node.key ∉ reached') := by
    rw [unreached, unreached, List.filter_filter]
    refine List.filter_congr fun other _ => ?_
    rw [← Bool.decide_and, decide_eq_decide, iff_self_and]
    exact fun hnot hother => hnot (hmore hother)
  rw [hless]
  refine List.length_filter_lt_length_iff_exists.mpr ⟨node, hmem, ?_⟩
  simpa [Table.key_of_find? hnode] using hkey

/-- The plain walk from some keys in turn: a node that is reached for the first time is taken, then
what is reached from its dependents, and then what is reached from the other keys. The dependents
come in the order of their first edges, and `dependents_eq_iff` says this of the edges alone. -/
def preorder (graph : Graph) (reached : List String) : List String → List Node
  | [] => []
  | key :: rest =>
    if _hreached : key ∈ reached then preorder graph reached rest
    else match _hnode : graph.table.find? key with
      | none => preorder graph reached rest
      | some node =>
        let below := preorder graph (key :: reached) (graph.dependents key)
        node :: (below ++ preorder graph (below.map Node.key ++ key :: reached) rest)
termination_by pending => ((graph.unreached reached).length, pending.length)
decreasing_by
  · exact Prod.Lex.right _ (by simp)
  · exact Prod.Lex.right _ (by simp)
  · exact Prod.Lex.left _ _ (length_unreached_lt _hnode _hreached (by simp) (by simp))
  · exact Prod.Lex.left _ _ (length_unreached_lt _hnode _hreached (by simp) (by simp))

/-- The plain walk from the dependents of some nodes, node by node. -/
def preorderFrom (graph : Graph) (reached : List String) : List Node → List Node
  | [] => []
  | start :: rest =>
    let below := preorder graph reached (graph.dependents start.key)
    below ++ preorderFrom graph (below.map Node.key ++ reached) rest

/-- The nodes without prerequisites, in table order, and then what the plain walk takes from each of
them. -/
def plainOrder (graph : Graph) : List Node :=
  let starts := graph.table.nodes.filter fun node => (graph.prerequisites node.key).isEmpty
  starts ++ graph.preorderFrom (starts.map Node.key) starts

/-! ## The two walks in step -/

/-- No key needs two others. -/
def NeedsOne (graph : Graph) : Prop :=
  ∀ needed other key, graph.Precedes needed key → graph.Precedes other key → needed = other

/-- Everything that the keys need has been reached. -/
def Supplied (graph : Graph) (reached pending : List String) : Prop :=
  ∀ key ∈ pending, ∀ needed, graph.Precedes needed key → needed ∈ reached

section

variable {graph : Graph} {reached : List String}

theorem Supplied.tail {key : String} {rest : List String}
    (h : graph.Supplied reached (key :: rest)) : graph.Supplied reached rest :=
  fun other hother => h other (List.mem_cons_of_mem key hother)

theorem Supplied.mono {reached' pending : List String} (h : graph.Supplied reached pending)
    (hmore : reached ⊆ reached') : graph.Supplied reached' pending :=
  fun key hkey needed hneeded => hmore (h key hkey needed hneeded)

/-- The dependents of a key that has been reached need that key only. -/
theorem NeedsOne.supplied (hone : graph.NeedsOne) {key : String} (hkey : key ∈ reached) :
    graph.Supplied reached (graph.dependents key) := by
  intro dependent hdependent needed hneeded
  rw [hone needed key dependent hneeded (mem_dependents.mp hdependent)]
  exact hkey

theorem find?_unreached_of_mem {key : String} (h : key ∈ reached) :
    (graph.unreached reached).find? (·.key = key) = none := by
  refine List.find?_eq_none.mpr fun node hnode => ?_
  have hnot := (mem_unreached.mp hnode).2
  simpa using fun hkey : node.key = key => hnot (hkey ▸ h)

theorem find?_unreached_of_find? {key : String} (h : graph.table.find? key = none) :
    (graph.unreached reached).find? (·.key = key) = none := by
  refine List.find?_eq_none.mpr fun node hnode => ?_
  have hmem := (mem_unreached.mp hnode).1
  have hnot := Table.find?_eq_none_iff.mp h
  simpa using fun hkey : node.key = key => hnot (hkey ▸ List.mem_map_of_mem hmem)

theorem nodup_unreached : ((graph.unreached reached).map Node.key).Nodup :=
  graph.table.distinct.sublist (List.filter_sublist.map Node.key)

/-- A node that is reached for the first time, with all that it needs reached, is taken. -/
theorem settle_reach {key : String} {node : Node} {rest : List String}
    (hnode : graph.table.find? key = some node) (hfirst : key ∉ reached)
    (hneeds : ∀ needed, graph.Precedes needed key → needed ∈ reached) :
    graph.settle (graph.unreached reached) (key :: rest) =
      (graph.settle (graph.unreached (key :: reached))
        (graph.dependents key ++ rest)).after [node] := by
  obtain rfl : node.key = key := Table.key_of_find? hnode
  have hmem : node ∈ graph.unreached reached :=
    mem_unreached.mpr ⟨Table.mem_nodes_of_find? hnode, hfirst⟩
  have hfree : graph.isFree (graph.unreached reached) node.key = true := by
    refine isFree_iff.mpr ⟨List.mem_map_of_mem hmem, fun needed hneeded hwaits => ?_⟩
    obtain ⟨other, hother, rfl⟩ := List.mem_map.mp hwaits
    exact (mem_unreached.mp hother).2 (hneeds other.key hneeded)
  have hnodup : ((graph.unreached reached).map Node.key).Nodup := nodup_unreached
  rw [unreached_cons]
  obtain ⟨front, back, hsplit⟩ := List.append_of_mem hmem
  rw [hsplit] at hfree hnodup ⊢
  have hothers : ∀ other ∈ front ++ back, decide (other.key ≠ node.key) = true := by
    intro other hother
    refine decide_eq_true fun hsame => not_mem_of_nodup_middle hnodup ?_
    exact hsame ▸ List.mem_map_of_mem hother
  have htaken : (front ++ node :: back).filter (fun other => decide (other.key ≠ node.key)) =
      front ++ back := by
    rw [List.filter_append, List.filter_cons_of_neg (by simp), ← List.filter_append]
    exact List.filter_eq_self.mpr hothers
  rw [htaken]
  exact settle_of_free hnodup hfree rest

/-- The walk that tests takes what the plain walk takes, and goes on with the keys behind. -/
theorem settle_unreached (hone : graph.NeedsOne) (pending : List String) :
    graph.Supplied reached pending → ∀ later,
      graph.settle (graph.unreached reached) (pending ++ later) =
        (graph.settle (graph.unreached
          ((graph.preorder reached pending).map Node.key ++ reached)) later).after
            (graph.preorder reached pending) := by
  fun_induction preorder graph reached pending with
  | case1 reached =>
    intro _ later
    rfl
  | case2 reached key rest hreached ih =>
    intro hsupplied later
    rw [List.cons_append, settle_of_gone (find?_unreached_of_mem hreached)]
    exact ih hsupplied.tail later
  | case3 reached key rest hreached hnode ih =>
    intro hsupplied later
    rw [List.cons_append, settle_of_gone (find?_unreached_of_find? hnode)]
    exact ih hsupplied.tail later
  | case4 reached key rest hreached node hnode below ihBelow ihRest =>
    intro hsupplied later
    -- the keys for which the plain walk calls itself come next, and the others stand behind them
    have hbelow : graph.settle (graph.unreached (key :: reached))
        (graph.dependents key ++ (rest ++ later)) =
          (graph.settle (graph.unreached (below.map Node.key ++ key :: reached))
            (rest ++ later)).after below :=
      ihBelow (hone.supplied List.mem_cons_self) (rest ++ later)
    have hrest := ihRest (hsupplied.tail.mono (by simp)) later
    -- the keys that have been reached in the end, as the two calls count them and as the whole does
    have hkeys : ∀ other, other ∈ (graph.preorder (below.map Node.key ++ key :: reached) rest).map
          Node.key ++ (below.map Node.key ++ key :: reached) ↔
        other ∈ (node :: (below ++ graph.preorder (below.map Node.key ++ key :: reached) rest)).map
          Node.key ++ reached := by
      intro other
      simp only [List.map_cons, List.map_append, List.mem_append, List.mem_cons,
        Table.key_of_find? hnode]
      tauto
    rw [graph.unreached_congr hkeys] at hrest
    rw [List.cons_append, settle_reach hnode hreached (hsupplied key List.mem_cons_self), hbelow,
      hrest, Placement.after_after, Placement.after_after]
    rfl

/-- The same from the dependents of nodes that have been reached. -/
theorem settle_unreached_flatMap (hone : graph.NeedsOne) {starts : List Node} :
    starts.map Node.key ⊆ reached →
      (graph.settle (graph.unreached reached)
        (starts.flatMap fun node => graph.dependents node.key)).placed =
          graph.preorderFrom reached starts := by
  induction starts generalizing reached with
  | nil =>
    intro _
    rw [List.flatMap_nil, settle]
    rfl
  | cons start rest ih =>
    intro hreached
    rw [List.map_cons, List.cons_subset] at hreached
    obtain ⟨hstart, hrest⟩ := hreached
    rw [List.flatMap_cons, settle_unreached hone _ (hone.supplied hstart), preorderFrom]
    exact congrArg _ (ih (List.subset_append_of_subset_right _ hrest))

end

/-! ## The order -/

theorem waitingNodes_eq_unreached (graph : Graph) :
    graph.waitingNodes = graph.unreached (graph.sources.map Node.key) := by
  refine List.filter_congr fun node _ => ?_
  rw [Bool.eq_iff_iff, Bool.not_eq_true', decide_eq_true_eq, ← isAmong_iff, Bool.not_eq_true]

/-- If every node has at most one prerequisite, so has every key that an edge mentions. -/
theorem needsOne_of_length_prerequisites {graph : Graph} (href : graph.Referenced)
    (hone : ∀ node ∈ graph.table.nodes, (graph.prerequisites node.key).length ≤ 1) :
    graph.NeedsOne := by
  intro needed other key hneeded hother
  have hkey : key ∈ graph.table.keys := by
    obtain ⟨edge, hedge, -, rfl⟩ := hneeded
    exact (href edge hedge).2
  obtain ⟨node, hnode, rfl⟩ := List.mem_map.mp hkey
  have hlength := hone node hnode
  rw [← mem_prerequisites] at hneeded hother
  match graph.prerequisites node.key, hlength, hneeded, hother with
  | [only], _, hneeded, hother =>
    exact (List.mem_singleton.mp hneeded).trans (List.mem_singleton.mp hother).symm

/-- If no node has two prerequisites, then the order that leaves nodes out is the plain one. -/
theorem order_eq_plainOrder (graph : Graph) (h : graph.checkReferences = .ok ())
    (hone : ∀ node ∈ graph.table.nodes, (graph.prerequisites node.key).length ≤ 1) :
    ∃ placement, graph.order .leaveOut = .ok placement ∧
      placement.placed = graph.plainOrder := by
  have href := checkReferences_eq_ok_iff.mp h
  have horder : graph.order .leaveOut = .ok graph.placement :=
    order_eq_ok_iff.mpr ⟨href, rfl, fun hrefuse => by cases hrefuse⟩
  refine ⟨graph.placement, horder, ?_⟩
  rw [placement_eq, plainOrder, ← sources_eq, waitingNodes_eq_unreached, firstKeys]
  exact congrArg _ (settle_unreached_flatMap (needsOne_of_length_prerequisites href hone)
    (List.Subset.refl _))

/-- Two trees and two nodes that need each other. One of the trees is mentioned from the leaves up,
and one of its edges twice. -/
def treesAndCircle : Graph where
  table :=
    { nodes := [importOf "leaf", importOf "left", importOf "alone", importOf "branch",
        importOf "root", importOf "right", importOf "bud"]
      indexed := .of_nodup (by decide) }
  edges :=
    [⟨"branch", "leaf", Path.root.key "leaf"⟩, ⟨"root", "bud", Path.root.key "bud"⟩,
     ⟨"root", "branch", Path.root.key "branch"⟩, ⟨"left", "right", Path.root.key "right"⟩,
     ⟨"branch", "leaf", Path.root.key "leaf"⟩, ⟨"right", "left", Path.root.key "left"⟩]

theorem order_eq_plainOrder_treesAndCircle :
    treesAndCircle.checkReferences = .ok () ∧
    (∀ node ∈ treesAndCircle.table.nodes,
      (treesAndCircle.prerequisites node.key).length ≤ 1) ∧
    ∃ placement, treesAndCircle.order .leaveOut = .ok placement ∧
      placement.placed = treesAndCircle.plainOrder :=
  have hone : ∀ node ∈ treesAndCircle.table.nodes,
      (treesAndCircle.prerequisites node.key).length ≤ 1 := by decide
  ⟨rfl, hone, order_eq_plainOrder treesAndCircle rfl hone⟩

example : treesAndCircle.plainOrder.map Node.key = ["alone", "root", "bud", "branch", "leaf"] := by
  cbv

end Graph

end Blueprint
