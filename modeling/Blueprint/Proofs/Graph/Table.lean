import Blueprint.Graph.Table
import Blueprint.Proofs.Graph.Arena
import Mathlib.Data.List.Nodup

/-!
# `Blueprint/Proofs/Graph/Table.lean` — what the operations of a table do

One statement for each operation, through two views of a table: the list of its nodes and `find?`.
That the index and the nodes agree is part of the type, and it is used here to say that `find?`
finds *the* node with a key; later files work with the views and never with the index.
-/

set_option autoImplicit false

namespace Blueprint.Table

/-- The index is known from the nodes, so the nodes are all of a table. -/
theorem eq_of_nodes_eq {a b : Table} (h : a.nodes = b.nodes) : a = b := by
  have hindex : a.index = b.index := by
    funext key
    refine Option.ext fun position => ?_
    rw [a.indexed key position, b.indexed key position]
    unfold Arena.keys
    rw [h]
  obtain ⟨⟨nodes, index⟩, hindexed⟩ := a
  cases h
  cases hindex
  rfl

/-- No two nodes have the same key. -/
theorem distinct (table : Table) : (table.nodes.map Node.key).Nodup := table.indexed.nodup_keys

theorem contains_iff_mem_keys {table : Table} {key : String} :
    table.contains key = true ↔ key ∈ table.keys := table.indexed.contains_iff

/-! ## Finding -/

theorem find?_eq_none_iff {table : Table} {key : String} :
    table.find? key = none ↔ key ∉ table.keys := table.indexed.find?_eq_none_iff

theorem eq_of_key_eq {table : Table} {a b : Node} (ha : a ∈ table.nodes) (hb : b ∈ table.nodes)
    (hkey : a.key = b.key) : a = b :=
  List.inj_on_of_nodup_map table.distinct ha hb hkey

theorem find?_eq_some_iff {table : Table} {key : String} {node : Node} :
    table.find? key = some node ↔ node ∈ table.nodes ∧ node.key = key :=
  table.indexed.find?_eq_some_iff

theorem mem_nodes_of_find? {table : Table} {key : String} {node : Node}
    (h : table.find? key = some node) : node ∈ table.nodes := (find?_eq_some_iff.mp h).1

theorem key_of_find? {table : Table} {key : String} {node : Node}
    (h : table.find? key = some node) : node.key = key := (find?_eq_some_iff.mp h).2

theorem mem_keys_of_find? {table : Table} {key : String} {node : Node}
    (h : table.find? key = some node) : key ∈ table.keys := by
  obtain ⟨hmem, rfl⟩ := find?_eq_some_iff.mp h
  exact List.mem_map_of_mem hmem

/-- Going through the nodes finds what the index leads to. -/
theorem find?_eq_search (table : Table) (key : String) :
    table.find? key = table.nodes.find? fun node => node.key == key := by
  cases hsearch : table.nodes.find? fun node => node.key == key with
  | some node =>
    have hkey : node.key = key := by simpa using List.find?_some hsearch
    exact find?_eq_some_iff.mpr ⟨List.mem_of_find?_eq_some hsearch, hkey⟩
  | none =>
    refine find?_eq_none_iff.mpr fun hmem => ?_
    obtain ⟨node, hnode, rfl⟩ := List.mem_map.mp hmem
    simpa using List.find?_eq_none.mp hsearch node hnode

/-! ## Inserting -/

theorem insert_eq_ok_iff {table grown : Table} {node : Node} :
    table.insert node = .ok grown ↔
      node.key ∉ table.keys ∧ grown.nodes = table.nodes ++ [node] := by
  rw [← find?_eq_none_iff]
  unfold insert
  split
  · rename_i hinsert
    refine ⟨fun h => absurd h (by simp), fun h => ?_⟩
    rw [Arena.insert_of_free h.1] at hinsert
    cases hinsert
  · rename_i hinsert
    cases hfind : table.find? node.key with
    | some stored =>
      rw [Arena.insert_of_taken hfind] at hinsert
      cases hinsert
    | none =>
      rw [Arena.insert_of_free hfind] at hinsert
      cases hinsert
      refine ⟨fun h => ⟨rfl, ?_⟩, fun h => congrArg Except.ok (eq_of_nodes_eq h.2.symm)⟩
      cases h
      rfl

theorem exists_insert {table : Table} (node : Node) (h : node.key ∉ table.keys) :
    ∃ grown, table.insert node = .ok grown := by
  have hindexed := table.indexed.insert node
  rw [Arena.insert_of_free (find?_eq_none_iff.mpr h)] at hindexed
  exact ⟨⟨_, hindexed⟩, insert_eq_ok_iff.mpr ⟨h, rfl⟩⟩

/-- A node that was inserted is found, and the others are found as before. -/
theorem find?_of_nodes_append {table grown : Table} {node : Node}
    (hgrown : grown.nodes = table.nodes ++ [node]) (key : String) :
    grown.find? key = if key = node.key then some node else table.find? key := by
  split
  · rename_i hkey
    exact find?_eq_some_iff.mpr ⟨by rw [hgrown]; simp, hkey.symm⟩
  · rename_i hkey
    refine Option.ext fun found => ?_
    rw [find?_eq_some_iff, find?_eq_some_iff, hgrown, List.mem_append, List.mem_singleton]
    constructor
    · rintro ⟨hold | rfl, hfound⟩
      · exact ⟨hold, hfound⟩
      · exact absurd hfound.symm hkey
    · rintro ⟨hold, hfound⟩
      exact ⟨.inl hold, hfound⟩

theorem keys_of_nodes_append {table grown : Table} {node : Node}
    (hgrown : grown.nodes = table.nodes ++ [node]) : grown.keys = table.keys ++ [node.key] := by
  unfold Arena.keys
  rw [hgrown, List.map_append]
  rfl

theorem forall_nodes_insert {table grown : Table} {node : Node} {P : Node → Prop}
    (hinserted : table.insert node = .ok grown) (htable : ∀ other ∈ table.nodes, P other)
    (hnode : P node) : ∀ other ∈ grown.nodes, P other := by
  intro other hother
  rw [(insert_eq_ok_iff.mp hinserted).2] at hother
  rcases List.mem_append.mp hother with hold | hnew
  · exact htable other hold
  · obtain rfl := List.mem_singleton.mp hnew
    exact hnode

/-! ## Editing -/

variable {change : Node → Node} (keeps : ∀ node, (change node).key = node.key)

theorem nodes_edit (table : Table) : (table.edit change keeps).nodes = table.nodes.map change := rfl

theorem keys_edit (table : Table) : (table.edit change keeps).keys = table.keys :=
  Arena.keys_edit keeps

theorem find?_edit (table : Table) (key : String) :
    (table.edit change keeps).find? key = (table.find? key).map change :=
  Arena.find?_edit change key

theorem nodes_editAt (table : Table) (key : String) :
    (table.editAt key change keeps).nodes =
      table.nodes.map fun node => if node.key = key then change node else node :=
  table.indexed.nodes_editAt change key

/-- Editing at a key is editing every node, with a change that leaves other keys alone. -/
theorem editAt_eq (table : Table) (key : String) :
    table.editAt key change keeps =
      table.edit (fun node => if node.key = key then change node else node) fun node => by
        split
        · exact keeps node
        · rfl :=
  eq_of_nodes_eq (nodes_editAt keeps table key)

theorem keys_editAt (table : Table) (key : String) :
    (table.editAt key change keeps).keys = table.keys := Arena.keys_editAt keeps key

/-- Editing at a key changes what is found there and nothing else. -/
theorem find?_editAt (table : Table) (key other : String) :
    (table.editAt key change keeps).find? other =
      if other = key then (table.find? other).map change else table.find? other := by
  rw [editAt_eq, find?_edit]
  cases h : table.find? other with
  | none => simp
  | some node =>
    obtain ⟨-, hkey⟩ := find?_eq_some_iff.mp h
    rw [hkey.symm]
    by_cases hsame : node.key = key
    · simp [hsame]
    · simp [hsame]

/-- What holds of every node, and is kept by a change, holds of every node after an edit. -/
theorem forall_nodes_editAt {table : Table} {P : Node → Prop} (key : String)
    (htable : ∀ node ∈ table.nodes, P node) (hchange : ∀ node, P node → P (change node)) :
    ∀ node ∈ (table.editAt key change keeps).nodes, P node := by
  intro node hnode
  rw [nodes_editAt] at hnode
  obtain ⟨old, hold, rfl⟩ := List.mem_map.mp hnode
  by_cases hkey : old.key = key
  · rw [if_pos hkey]
    exact hchange old (htable old hold)
  · rw [if_neg hkey]
    exact htable old hold

end Blueprint.Table
