import Blueprint.Graph.Arena
import Mathlib.Data.List.Induction

/-!
# `Blueprint/Proofs/Graph/Arena.lean` — what the operations of an arena do

While index and nodes agree, an arena is known from its nodes alone: the answers that go through
the index are stated here as facts about the list of nodes, and an edit at the position of a key as
an edit of every node that has the key.
-/

set_option autoImplicit false

namespace Blueprint.Arena

variable {arena : Arena} {node stored : Node} {key : String}

/-! ## Looking up and going over all nodes -/

theorem Indexed.contains_iff (h : arena.Indexed) :
    arena.contains key = true ↔ key ∈ arena.keys := by
  unfold contains
  rw [Option.isSome_iff_exists, List.mem_iff_getElem?]
  exact exists_congr fun position => h key position

/-- Two nodes of one key would need two positions for it. -/
theorem Indexed.nodup_keys (h : arena.Indexed) : arena.keys.Nodup := by
  refine List.pairwise_iff_getElem.mpr fun i j hi hj hlt hsame => Nat.ne_of_lt hlt ?_
  have hfirst := (h _ i).mpr (List.getElem?_eq_getElem hi)
  have hsecond := (h _ j).mpr (List.getElem?_eq_getElem hj)
  rw [hsame] at hfirst
  exact Option.some.inj (hfirst.symm.trans hsecond)

/-- An arena that is given by its nodes, with distinct keys, has the right index. -/
theorem Indexed.of_nodup {nodes : List Node} (h : (nodes.map Node.key).Nodup) :
    Indexed ⟨nodes, positions nodes⟩ := by
  induction nodes using List.reverseRecOn with
  | nil => exact indexed_empty
  | append_singleton nodes node ih =>
    rw [List.map_append, List.nodup_append] at h
    have hpositions : positions (nodes ++ [node]) =
        withPosition (positions nodes) node.key nodes.length := by
      simp [positions, List.zipIdx_append]
    rw [hpositions]
    refine (ih h.1).append fun hmem => h.2.2 _ hmem _ ?_ rfl
    exact List.mem_singleton_self _

/-! ## One operation -/

theorem insert_of_taken (h : arena.find? node.key = some stored) :
    arena.insert node = (.error (.keyCollision node.key stored.path node.path), arena) := by
  unfold insert
  rw [h]

theorem insert_of_free (h : arena.find? node.key = none) :
    arena.insert node =
      (.ok (), ⟨arena.nodes ++ [node], withPosition arena.index node.key arena.size⟩) := by
  unfold insert
  rw [h]

theorem find?_edit (change : Node → Node) (key : String) :
    (arena.edit change).find? key = (arena.find? key).map change := by
  unfold find? edit
  cases arena.index key with
  | none => rfl
  | some position => exact List.getElem?_map

/-- The position of a key is the only one with a node of that key. -/
theorem Indexed.nodes_editAt (h : arena.Indexed) (change : Node → Node) (key : String) :
    (arena.editAt key change).nodes =
      arena.nodes.map fun node => if node.key = key then change node else node := by
  refine List.ext_getElem? fun position => ?_
  rw [List.getElem?_map]
  unfold Arena.editAt
  cases hindex : arena.index key with
  | none =>
    cases hnode : arena.nodes[position]? with
    | none => rfl
    | some node =>
      have hother : node.key ≠ key := fun hkey => by
        rw [h.index_eq_some_iff.mpr ⟨node, hnode, hkey⟩] at hindex
        cases hindex
      simp [hother]
  | some place =>
    show (arena.nodes.modify place change)[position]? = _
    rw [List.getElem?_modify]
    cases hnode : arena.nodes[position]? with
    | none => rfl
    | some node =>
      have hplace : place = position ↔ node.key = key := by
        have hindexed : arena.index key = some position ↔
            ∃ other, arena.nodes[position]? = some other ∧ other.key = key := h.index_eq_some_iff
        simpa [hindex, hnode] using hindexed
      simp [hplace]

end Blueprint.Arena
