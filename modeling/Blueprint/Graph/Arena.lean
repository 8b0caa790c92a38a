import Blueprint.Error
import Blueprint.Graph.Node

/-!
# `Blueprint/Graph/Arena.lean` — nodes and where they stand

Nodes are stored in the order in which they were first met, and beside them stands an index: the
position of the node with a key. Looking up goes through the index, going over all nodes does not;
inserting extends both, and editing leaves the index as it is.

Nothing in the type makes the two agree. `Indexed` says that they do, and it is kept by every
operation as long as no edit changes a key.
-/

set_option autoImplicit false

namespace Blueprint

/-- An index with a position for one more key. -/
def withPosition (index : String → Option Nat) (key : String) (position : Nat) :
    String → Option Nat := fun other => if other = key then some position else index other

/-- The index of nodes that are put in one after the other. -/
def positions (nodes : List Node) : String → Option Nat :=
  nodes.zipIdx.foldl (fun index placed => withPosition index placed.1.key placed.2) fun _ => none

/-- Nodes in the order of their insertion, and the position of each key among them. -/
structure Arena where
  nodes : List Node
  index : String → Option Nat := positions nodes

namespace Arena

/-- The arena without nodes. -/
def empty : Arena := ⟨[], fun _ => none⟩

/-- The keys, in order. -/
def keys (arena : Arena) : List String := arena.nodes.map Node.key

/-- The number of nodes. -/
def size (arena : Arena) : Nat := arena.nodes.length

/-- The node at the position of a key. While the arena is `Indexed`, there is one at every position
that the index gives. -/
def find? (arena : Arena) (key : String) : Option Node :=
  match arena.index key with
  | some position => arena.nodes[position]?
  | none => none

/-- Whether a key has a position. -/
def contains (arena : Arena) (key : String) : Bool := (arena.index key).isSome

/-- Puts a node last, and says what came of it. A key that is taken is refused, with the place of
the node that has it and then the place of the new one. -/
def insert (arena : Arena) (node : Node) : Except Error Unit × Arena :=
  match arena.find? node.key with
  | some stored => (.error (.keyCollision node.key stored.path node.path), arena)
  | none =>
    (.ok (),
      { nodes := arena.nodes ++ [node]
        index := withPosition arena.index node.key arena.size })

/-- Edits every node. -/
def edit (arena : Arena) (change : Node → Node) : Arena :=
  { arena with nodes := arena.nodes.map change }

/-- Edits the node at the position of a key. -/
def editAt (arena : Arena) (key : String) (change : Node → Node) : Arena :=
  match arena.index key with
  | some position => { arena with nodes := arena.nodes.modify position change }
  | none => arena

/-- The index leads from a key to a position exactly if the node there has the key. -/
def Indexed (arena : Arena) : Prop :=
  ∀ key position, arena.index key = some position ↔ arena.keys[position]? = some key

/-! ## Editing keeps the keys -/

variable {arena : Arena}

theorem keys_edit {change : Node → Node} (keeps : ∀ node, (change node).key = node.key) :
    (arena.edit change).keys = arena.keys := by
  unfold edit keys
  rw [List.map_map]
  exact List.map_congr_left fun node _ => keeps node

theorem keys_editAt {change : Node → Node} (keeps : ∀ node, (change node).key = node.key)
    (key : String) : (arena.editAt key change).keys = arena.keys := by
  unfold editAt
  split
  · refine List.ext_getElem? fun position => ?_
    simp only [keys, List.getElem?_map, List.getElem?_modify]
    cases arena.nodes[position]? with
    | none => rfl
    | some node =>
      simp only [Option.map_eq_map, Option.map_some]
      split
      · rw [keeps node]
      · rfl
  · rfl

theorem index_editAt (change : Node → Node) (key : String) :
    (arena.editAt key change).index = arena.index := by
  unfold editAt
  split <;> rfl

/-! ## The index and the nodes agree -/

theorem getElem?_concat_new {keys : List String} {key : String} {position : Nat}
    (h : key ∉ keys) : (keys ++ [key])[position]? = some key ↔ position = keys.length := by
  constructor
  · intro hposition
    rcases Nat.lt_or_ge position keys.length with hbefore | hafter
    · rw [List.getElem?_append_left hbefore] at hposition
      exact absurd (List.mem_of_getElem? hposition) h
    · obtain ⟨hinside, -⟩ := List.getElem?_eq_some_iff.mp hposition
      rw [List.length_append, List.length_singleton] at hinside
      exact Nat.le_antisymm (Nat.le_of_lt_succ hinside) hafter
  · rintro rfl
    exact List.getElem?_concat_length

theorem getElem?_concat_other {keys : List String} {key other : String} {position : Nat}
    (h : other ≠ key) :
    (keys ++ [key])[position]? = some other ↔ keys[position]? = some other := by
  rcases Nat.lt_or_ge position keys.length with hbefore | hafter
  · rw [List.getElem?_append_left hbefore]
  · rw [List.getElem?_append_right hafter, List.getElem?_eq_none hafter]
    constructor
    · intro hlast
      exact absurd (List.mem_singleton.mp (List.mem_of_getElem? hlast)) h
    · intro hnone
      cases hnone

theorem indexed_empty : empty.Indexed := fun key position => by simp [empty, keys]

namespace Indexed

theorem index_eq_some_iff (h : arena.Indexed) {key : String} {position : Nat} :
    arena.index key = some position ↔
      ∃ node, arena.nodes[position]? = some node ∧ node.key = key := by
  rw [h key position, keys, List.getElem?_map, Option.map_eq_some_iff]

theorem find?_eq_some_iff (h : arena.Indexed) {key : String} {node : Node} :
    arena.find? key = some node ↔ node ∈ arena.nodes ∧ node.key = key := by
  unfold find?
  constructor
  · intro hfind
    split at hfind
    · rename_i position hindex
      obtain ⟨there, hthere, hkey⟩ := h.index_eq_some_iff.mp hindex
      obtain rfl := Option.some.inj (hthere.symm.trans hfind)
      exact ⟨List.mem_of_getElem? hfind, hkey⟩
    · cases hfind
  · rintro ⟨hmem, hkey⟩
    obtain ⟨position, hposition⟩ := List.mem_iff_getElem?.mp hmem
    rw [h.index_eq_some_iff.mpr ⟨node, hposition, hkey⟩]
    exact hposition

theorem find?_eq_none_iff (h : arena.Indexed) {key : String} :
    arena.find? key = none ↔ key ∉ arena.keys := by
  rw [Option.eq_none_iff_forall_ne_some]
  constructor
  · intro hnone hmem
    obtain ⟨node, hnode, hkey⟩ := List.mem_map.mp hmem
    exact hnone node (h.find?_eq_some_iff.mpr ⟨hnode, hkey⟩)
  · intro hkey node hfind
    obtain ⟨hmem, rfl⟩ := h.find?_eq_some_iff.mp hfind
    exact hkey (List.mem_map_of_mem hmem)

/-- A new key has the last position, and the other keys have the positions that they had. -/
theorem append (h : arena.Indexed) {node : Node} (hnew : node.key ∉ arena.keys) :
    Indexed ⟨arena.nodes ++ [node], withPosition arena.index node.key arena.size⟩ := by
  have hkeys : (arena.nodes ++ [node]).map Node.key = arena.keys ++ [node.key] := List.map_append
  have hlength : arena.keys.length = arena.size := List.length_map Node.key
  intro key position
  show withPosition arena.index node.key arena.size key = some position ↔
    ((arena.nodes ++ [node]).map Node.key)[position]? = some key
  rw [hkeys, ← hlength]
  unfold withPosition
  split
  · subst key
    rw [getElem?_concat_new hnew, Option.some.injEq, eq_comm]
  · rename_i hother
    rw [h key position, getElem?_concat_other hother]

theorem insert (h : arena.Indexed) (node : Node) : (arena.insert node).2.Indexed := by
  unfold Arena.insert
  split
  · exact h
  · rename_i hfind
    exact h.append (h.find?_eq_none_iff.mp hfind)

theorem edit (h : arena.Indexed) {change : Node → Node}
    (keeps : ∀ node, (change node).key = node.key) :
    (arena.edit change).Indexed := fun key position => by
  rw [keys_edit keeps]
  exact h key position

theorem editAt (h : arena.Indexed) {change : Node → Node}
    (keeps : ∀ node, (change node).key = node.key) (key : String) :
    (arena.editAt key change).Indexed := fun other position => by
  rw [keys_editAt keeps, index_editAt]
  exact h other position

end Indexed

end Arena

end Blueprint
