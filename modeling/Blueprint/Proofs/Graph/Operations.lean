import Blueprint.Proofs.Graph.Arena

/-!
# `Blueprint/Proofs/Graph/Operations.lean` — what a run of operations leaves in an arena

The nodes of an arena and its index are changed by different hands: an insertion extends both, an
edit reaches the nodes through the index or goes over all of them, and it may be any of these in
any order that comes next. `consistent_run` says what this can lead to, starting from nothing.

One operation keeps the index right (`indexed_apply`), and what it does to the list of nodes is to
revise what is there and to put at most one node behind it (`nodes_apply`). A run does the same
(`indexed_run`, `nodes_run`): its nodes are those of the insertions that succeeded, in the order of
these insertions, each with the edits that came after it. All answers of an arena follow from that.
-/

set_option autoImplicit false

namespace Blueprint.Arena

variable {arena : Arena}

/-! ## Runs of operations -/

/-- The operations of an arena. No edit changes a key. An edit of all nodes may still treat each of
them in its own way, since their keys tell them apart (`exists_edit`). -/
inductive Operation where
  | insert (node : Node)
  | edit (change : Node → Node) (keeps : ∀ node, (change node).key = node.key)
  | editAt (key : String) (change : Node → Node) (keeps : ∀ node, (change node).key = node.key)

namespace Operation

/-- What comes of an operation, and the arena after it. -/
def apply : Operation → Arena → Except Error Unit × Arena
  | .insert node, arena => arena.insert node
  | .edit change _, arena => (.ok (), arena.edit change)
  | .editAt key change _, arena => (.ok (), arena.editAt key change)

/-- The node that an operation puts in, if it is an insertion that succeeds. -/
def inserted? : Operation → Arena → Option Node
  | .insert node, arena =>
    match arena.insert node with
    | (.ok (), _) => some node
    | (.error _, _) => none
  | .edit _ _, _ => none
  | .editAt _ _ _, _ => none

/-- What an operation makes of a node that is stored. -/
def revise : Operation → Node → Node
  | .insert _, stored => stored
  | .edit change _, stored => change stored
  | .editAt key change _, stored => if stored.key = key then change stored else stored

end Operation

/-- The arena after some operations, whether or not each of them succeeds. -/
def run : List Operation → Arena → Arena
  | [], arena => arena
  | operation :: later, arena => run later (operation.apply arena).2

/-- The nodes that a run puts in, one for each insertion that succeeds, in the order of these
insertions, and each of them with the operations that come after it. -/
def inserted : List Operation → Arena → List (Node × List Operation)
  | [], _ => []
  | operation :: later, arena =>
    (operation.inserted? arena).toList.map (fun node => (node, later)) ++
      inserted later (operation.apply arena).2

/-- What some operations make of a node that is stored. -/
def revised (operations : List Operation) (stored : Node) : Node :=
  operations.foldl (fun node operation => operation.revise node) stored

@[simp] theorem key_revise (operation : Operation) (stored : Node) :
    (operation.revise stored).key = stored.key := by
  cases operation with
  | insert node => rfl
  | edit change keeps => exact keeps stored
  | editAt key change keeps =>
    show (if stored.key = key then change stored else stored).key = stored.key
    split
    · exact keeps stored
    · rfl

theorem key_revised (operations : List Operation) (stored : Node) :
    (revised operations stored).key = stored.key := by
  induction operations generalizing stored with
  | nil => rfl
  | cons operation later ih => exact (ih (operation.revise stored)).trans (by simp)

theorem indexed_apply (h : arena.Indexed) (operation : Operation) :
    (operation.apply arena).2.Indexed := by
  cases operation with
  | insert node => exact h.insert node
  | edit change keeps => exact h.edit keeps
  | editAt key change keeps => exact h.editAt keeps key

theorem indexed_run (h : arena.Indexed) (operations : List Operation) :
    (run operations arena).Indexed := by
  induction operations generalizing arena with
  | nil => exact h
  | cons operation later ih => exact ih (indexed_apply h operation)

/-- An operation revises what is stored, and it may put one node behind it. -/
theorem nodes_apply (h : arena.Indexed) (operation : Operation) :
    (operation.apply arena).2.nodes =
      arena.nodes.map operation.revise ++ (operation.inserted? arena).toList := by
  cases operation with
  | insert node =>
    have hkept : arena.nodes.map (Operation.insert node).revise = arena.nodes := List.map_id _
    rw [hkept]
    unfold Operation.apply Operation.inserted?
    cases hfind : arena.find? node.key with
    | none => simp [insert_of_free hfind]
    | some stored => simp [insert_of_taken hfind]
  | edit change keeps => exact (List.append_nil _).symm
  | editAt key change keeps => exact (h.nodes_editAt change key).trans (List.append_nil _).symm

theorem nodes_run (h : arena.Indexed) (operations : List Operation) :
    (run operations arena).nodes =
      arena.nodes.map (revised operations) ++
        (inserted operations arena).map fun (node, later) => revised later node := by
  induction operations generalizing arena with
  | nil =>
    have hkept : arena.nodes.map (revised []) = arena.nodes := List.map_id _
    simp [run, inserted, hkept]
  | cons operation later ih =>
    have hstep : revised (operation :: later) = revised later ∘ operation.revise := rfl
    unfold run inserted
    rw [ih (indexed_apply h operation), nodes_apply h, hstep]
    simp

/-! ## Edits that treat each node in its own way -/

/-- What stands in an arena under the key of a node, or the node itself if nothing does. -/
def counterpart (arena : Arena) (node : Node) : Node := (arena.find? node.key).getD node

theorem key_counterpart (h : arena.Indexed) (node : Node) :
    (arena.counterpart node).key = node.key := by
  unfold counterpart
  cases hfind : arena.find? node.key with
  | none => rfl
  | some found => exact (h.find?_eq_some_iff.mp hfind).2

theorem map_counterpart (h : arena.Indexed) {nodes : List Node}
    (hkeys : arena.keys = nodes.map Node.key) : nodes.map arena.counterpart = arena.nodes := by
  refine List.ext_getElem? fun position => ?_
  have hkey : (arena.nodes[position]?).map Node.key = (nodes[position]?).map Node.key := by
    rw [← List.getElem?_map, ← List.getElem?_map, ← hkeys]
    rfl
  rw [List.getElem?_map]
  cases hnode : nodes[position]? with
  | none =>
    rw [hnode] at hkey
    exact (Option.map_eq_none_iff.mp hkey).symm
  | some node =>
    rw [hnode] at hkey
    obtain ⟨other, hother, hsame⟩ := Option.map_eq_some_iff.mp hkey
    have hfind : arena.find? node.key = some other :=
      h.find?_eq_some_iff.mpr ⟨List.mem_of_getElem? hother, hsame⟩
    rw [hother, Option.map_some, counterpart, hfind]
    rfl

/-- Whatever keeps the keys is an edit: the change looks up, by the key of a node, what the node is
to become. -/
theorem exists_edit (h : arena.Indexed) {nodes : List Node}
    (hkeys : nodes.map Node.key = arena.keys) :
    ∃ change : Node → Node, (∀ node, (change node).key = node.key) ∧
      arena.edit change = { arena with nodes } := by
  let edited : Arena := { arena with nodes }
  have hedited : edited.Indexed := fun key position => by
    show arena.index key = some position ↔ (nodes.map Node.key)[position]? = some key
    rw [hkeys]
    exact h key position
  have hnodes : arena.nodes.map edited.counterpart = nodes := map_counterpart hedited hkeys
  refine ⟨edited.counterpart, key_counterpart hedited, ?_⟩
  unfold edit
  rw [hnodes]

/-! ## Consistency -/

/-- An arena is consistent if its index, its nodes and its answers tell the same story, the story
being the nodes that were put in, each with the operations that came after it. -/
structure Consistent (arena : Arena) (history : List (Node × List Operation)) : Prop where
  /-- The index leads to a position exactly if the node there has the key. -/
  index_iff : ∀ key position, arena.index key = some position ↔
    ∃ node, arena.nodes[position]? = some node ∧ node.key = key
  /-- No two nodes have the same key. -/
  distinct : arena.keys.Nodup
  /-- The nodes are those that were put in, in that order, with the edits that came later. -/
  nodes_eq : arena.nodes = history.map fun (node, later) => revised later node
  /-- So their keys are the keys that were put in. -/
  keys_eq : arena.keys = history.map fun (node, _) => node.key
  /-- The size counts the insertions that succeeded. -/
  size_eq : arena.size = history.length
  /-- Looking up finds what going over the nodes finds. -/
  find?_iff : ∀ key node, arena.find? key = some node ↔ node ∈ arena.nodes ∧ node.key = key
  contains_iff : ∀ key, arena.contains key = true ↔ ∃ node ∈ arena.nodes, node.key = key
  /-- An insertion fails exactly if the key is there. -/
  insert_fails_iff : ∀ node, (∃ e, (arena.insert node).1 = .error e) ↔ node.key ∈ arena.keys
  /-- It then names the place of the node that is stored before that of the new one, and leaves the
  arena as it is. -/
  insert_taken : ∀ node, ∀ stored ∈ arena.nodes, stored.key = node.key →
    arena.insert node = (.error (.keyCollision node.key stored.path node.path), arena)
  /-- Every change of the nodes that keeps their keys is one that an edit can make. -/
  edit_any : ∀ nodes : List Node, nodes.map Node.key = arena.keys →
    ∃ change : Node → Node, (∀ node, (change node).key = node.key) ∧
      arena.edit change = { arena with nodes }

/-- Every run from the empty arena leaves a consistent one. -/
theorem consistent_run (operations : List Operation) :
    (run operations empty).Consistent (inserted operations empty) := by
  have h : (run operations empty).Indexed := indexed_run indexed_empty operations
  have hnodes : (run operations empty).nodes =
      (inserted operations empty).map fun (node, later) => revised later node :=
    nodes_run indexed_empty operations
  refine
    { index_iff := fun key position => h.index_eq_some_iff
      distinct := h.nodup_keys
      nodes_eq := hnodes
      keys_eq := ?_
      size_eq := ?_
      find?_iff := fun key node => h.find?_eq_some_iff
      contains_iff := fun key => h.contains_iff.trans List.mem_map
      insert_fails_iff := fun node => ?_
      insert_taken := fun node stored hstored hkey => ?_
      edit_any := fun nodes hkeys => exists_edit h hkeys }
  · unfold keys
    rw [hnodes, List.map_map]
    exact List.map_congr_left fun (node, later) _ => key_revised later node
  · unfold size
    rw [hnodes, List.length_map]
  · cases hfind : (run operations empty).find? node.key with
    | none => simpa [insert_of_free hfind] using h.find?_eq_none_iff.mp hfind
    | some stored =>
      obtain ⟨hmem, hkey⟩ := h.find?_eq_some_iff.mp hfind
      have htaken : node.key ∈ (run operations empty).keys := hkey ▸ List.mem_map_of_mem hmem
      simpa [insert_of_taken hfind] using htaken
  · exact insert_of_taken (h.find?_eq_some_iff.mpr ⟨hstored, hkey⟩)

example :
    (run [.insert (.entry ⟨"a", []⟩), .insert (.entry ⟨"b", []⟩), .insert (.entry ⟨"a", [.null]⟩),
        .editAt "b" (Node.collect .null) (Node.key_collect .null), .insert (.entry ⟨"c", []⟩)]
      empty).nodes = [.entry ⟨"a", []⟩, .entry ⟨"b", [.null]⟩, .entry ⟨"c", []⟩] := by
  rfl

end Blueprint.Arena
