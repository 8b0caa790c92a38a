import Blueprint.Graph.Basic
import Blueprint.Proofs.Graph.Table
import Mathlib.Data.List.Induction
import Mathlib.Logic.Relation

/-!
# `Blueprint/Proofs/Graph/Dependency.lean` — dependency as a relation

The program asks a graph for lists: the prerequisites of a key, its dependents, the sources. What
the order of construction has to respect is a relation on keys, and this file says what the lists
mean in terms of it. For the dependents it also says in which order they come, since the walk looks
at them in that order (`dependents_eq_iff`). Nothing after this file opens `eraseDups` or the loop
over the edges again.

Two properties of a graph are stated here because every result about the order needs one of them:
`Referenced`, which is what `checkReferences` tests, and `Acyclic`, which nothing tests, and which
the order finds out by running.
-/

set_option autoImplicit false

namespace Blueprint.Graph

/-- The edges say that `key` needs `needed`. -/
def Precedes (graph : Graph) (needed key : String) : Prop :=
  ∃ edge ∈ graph.edges, edge.dependency = needed ∧ edge.dependent = key

/-- Both ends of every edge are keys of the table. -/
def Referenced (graph : Graph) : Prop :=
  ∀ edge ∈ graph.edges,
    edge.dependency ∈ graph.table.keys ∧ edge.dependent ∈ graph.table.keys

/-- No key needs itself, directly or through others. An edge from a key to itself is the shortest
way to fail this. -/
def Acyclic (graph : Graph) : Prop :=
  ∀ key, ¬ Relation.TransGen graph.Precedes key key

theorem mem_prerequisites {graph : Graph} {needed key : String} :
    needed ∈ graph.prerequisites key ↔ graph.Precedes needed key := by
  unfold prerequisites Precedes
  rw [List.mem_eraseDups, List.mem_map]
  constructor
  · rintro ⟨edge, hmem, hneeded⟩
    obtain ⟨hedge, hkey⟩ := List.mem_filter.mp hmem
    exact ⟨edge, hedge, hneeded, by simpa using hkey⟩
  · rintro ⟨edge, hedge, hneeded, hkey⟩
    exact ⟨edge, List.mem_filter.mpr ⟨hedge, by simpa using hkey⟩, hneeded⟩

theorem mem_dependents {graph : Graph} {needed key : String} :
    key ∈ graph.dependents needed ↔ graph.Precedes needed key := by
  unfold dependents Precedes
  rw [List.mem_eraseDups, List.mem_map]
  constructor
  · rintro ⟨edge, hmem, hkey⟩
    obtain ⟨hedge, hneeded⟩ := List.mem_filter.mp hmem
    exact ⟨edge, hedge, by simpa using hneeded, hkey⟩
  · rintro ⟨edge, hedge, hneeded, hkey⟩
    exact ⟨edge, List.mem_filter.mpr ⟨hedge, by simpa using hneeded⟩, hkey⟩

theorem eraseDups_sublist (keys : List String) : keys.eraseDups.Sublist keys := by
  match keys with
  | [] => exact List.Sublist.refl _
  | key :: rest =>
    rw [List.eraseDups_cons]
    exact ((eraseDups_sublist _).trans List.filter_sublist).cons_cons key
termination_by keys.length
decreasing_by exact Nat.lt_succ_of_le (List.length_filter_le _ _)

theorem nodup_eraseDups (keys : List String) : keys.eraseDups.Nodup := by
  match keys with
  | [] => exact List.nodup_nil
  | key :: rest =>
    rw [List.eraseDups_cons]
    refine List.nodup_cons.mpr ⟨?_, nodup_eraseDups _⟩
    rw [List.mem_eraseDups]
    simp
termination_by keys.length
decreasing_by exact Nat.lt_succ_of_le (List.length_filter_le _ _)

theorem eraseDups_perm {names names' : List String} (hperm : names.Perm names') :
    names.eraseDups.Perm names'.eraseDups := by
  refine (List.perm_ext_iff_of_nodup (nodup_eraseDups _) (nodup_eraseDups _)).mpr ?_
  intro name
  rw [List.mem_eraseDups, List.mem_eraseDups, hperm.mem_iff]

theorem nodup_dependents (graph : Graph) (key : String) : (graph.dependents key).Nodup :=
  nodup_eraseDups _

/-- What holds between the dependents of any two edges in a row holds between the dependents of a
key in a row. -/
theorem pairwise_dependents {graph : Graph} {R : String → String → Prop}
    (h : graph.edges.Pairwise fun a b => R a.dependent b.dependent) (key : String) :
    (graph.dependents key).Pairwise R := by
  unfold dependents
  refine List.Pairwise.sublist (eraseDups_sublist _) (List.pairwise_map.mpr ?_)
  exact h.sublist List.filter_sublist

/-! ## The order of the dependents -/

/-- The position of the first edge that says that `key` needs `needed`. -/
def firstEdge (graph : Graph) (needed key : String) : Nat :=
  graph.edges.findIdx fun edge => edge.dependency = needed ∧ edge.dependent = key

section

variable {graph : Graph} {table : Table} {edges : List Edge} {edge : Edge} {needed key : String}

theorem firstEdge_lt_iff :
    graph.firstEdge needed key < graph.edges.length ↔ graph.Precedes needed key := by
  unfold firstEdge Precedes
  rw [List.findIdx_lt_length]
  simp only [decide_eq_true_eq]

theorem firstEdge_concat (h : Precedes ⟨table, edges⟩ needed key) :
    firstEdge ⟨table, edges ++ [edge]⟩ needed key = firstEdge ⟨table, edges⟩ needed key := by
  have hlt := firstEdge_lt_iff.mpr h
  unfold firstEdge at hlt ⊢
  rw [List.findIdx_append, if_pos hlt]

theorem length_le_firstEdge_concat (h : ¬ Precedes ⟨table, edges⟩ needed key) :
    edges.length ≤ firstEdge ⟨table, edges ++ [edge]⟩ needed key := by
  have hnot := mt firstEdge_lt_iff.mp h
  unfold firstEdge at hnot ⊢
  rw [List.findIdx_append, if_neg hnot]
  exact Nat.le_add_left _ _

theorem dependents_concat_of_ne (h : edge.dependency ≠ needed) :
    dependents ⟨table, edges ++ [edge]⟩ needed = dependents ⟨table, edges⟩ needed := by
  unfold dependents
  rw [List.filter_append, List.filter_cons_of_neg (by simpa using h), List.filter_nil,
    List.append_nil]

theorem dependents_concat (h : edge.dependency = needed) :
    dependents ⟨table, edges ++ [edge]⟩ needed =
      dependents ⟨table, edges⟩ needed ++
        if edge.dependent ∈ dependents ⟨table, edges⟩ needed then [] else [edge.dependent] := by
  unfold dependents
  rw [List.filter_append, List.filter_cons_of_pos (by simpa using h), List.filter_nil,
    List.map_append, List.eraseDups_append]
  split
  · rename_i hknown
    simp [List.removeAll, List.mem_eraseDups.mp hknown]
  · rename_i hnew
    simp [List.removeAll, mt List.mem_eraseDups.mpr hnew, List.eraseDups_cons]

end

/-- The dependents of a key stand in the order of their first edges. -/
theorem pairwise_firstEdge (graph : Graph) (needed : String) :
    (graph.dependents needed).Pairwise fun a b =>
      graph.firstEdge needed a < graph.firstEdge needed b := by
  obtain ⟨table, edges⟩ := graph
  induction edges using List.reverseRecOn with
  | nil => exact List.Pairwise.nil
  | append_singleton earlier edge ih =>
    -- The first edge to a dependent that is known already stays where it is.
    have hsame : ∀ key ∈ dependents ⟨table, earlier⟩ needed,
        firstEdge ⟨table, earlier ++ [edge]⟩ needed key = firstEdge ⟨table, earlier⟩ needed key :=
      fun key hkey => firstEdge_concat (mem_dependents.mp hkey)
    have hearlier : (dependents ⟨table, earlier⟩ needed).Pairwise fun a b =>
        firstEdge ⟨table, earlier ++ [edge]⟩ needed a <
          firstEdge ⟨table, earlier ++ [edge]⟩ needed b := by
      refine ih.imp_of_mem fun ha hb hlt => ?_
      rw [hsame _ ha, hsame _ hb]
      exact hlt
    by_cases hneeded : edge.dependency = needed
    · rw [dependents_concat hneeded]
      split
      · rwa [List.append_nil]
      · rename_i hnew
        refine List.pairwise_append.mpr ⟨hearlier, List.pairwise_singleton _ _, ?_⟩
        intro key hkey added hadded
        rw [List.mem_singleton.mp hadded, hsame key hkey]
        calc
          firstEdge ⟨table, earlier⟩ needed key < earlier.length :=
            firstEdge_lt_iff.mpr (mem_dependents.mp hkey)
          _ ≤ firstEdge ⟨table, earlier ++ [edge]⟩ needed edge.dependent :=
            length_le_firstEdge_concat (mt mem_dependents.mpr hnew)
    · rw [dependents_concat_of_ne hneeded]
      exact hearlier

/-- The dependents of a key are the keys to which there is an edge from it, each once, in the order
of the first of these edges; and no other list is that. -/
theorem dependents_eq_iff {graph : Graph} {needed : String} {keys : List String} :
    graph.dependents needed = keys ↔
      (∀ key, key ∈ keys ↔ graph.Precedes needed key) ∧
        keys.Pairwise fun a b => graph.firstEdge needed a < graph.firstEdge needed b := by
  constructor
  · rintro rfl
    exact ⟨fun _ => mem_dependents, pairwise_firstEdge graph needed⟩
  · rintro ⟨hmem, hsorted⟩
    have hnodup : keys.Nodup :=
      hsorted.imp fun hlt hsame => absurd (hsame ▸ hlt) (Nat.lt_irrefl _)
    have hperm : (graph.dependents needed).Perm keys :=
      (List.perm_ext_iff_of_nodup (nodup_dependents graph needed) hnodup).mpr fun key =>
        mem_dependents.trans (hmem key).symm
    exact hperm.eq_of_pairwise (fun _ _ _ _ hab hba => absurd hab (Nat.lt_asymm hba))
      (pairwise_firstEdge graph needed) hsorted

/-! ## Sources -/

/-- The test that makes a node a source, in terms of the relation. -/
theorem all_dependent_ne_iff {graph : Graph} {key : String} :
    graph.edges.all (·.dependent ≠ key) = true ↔ ∀ needed, ¬ graph.Precedes needed key := by
  rw [List.all_eq_true]
  constructor
  · rintro hall needed ⟨edge, hedge, -, hkey⟩
    exact absurd hkey (by simpa using hall edge hedge)
  · intro hnone edge hedge
    have : edge.dependent ≠ key := fun hkey => hnone edge.dependency ⟨edge, hedge, rfl, hkey⟩
    simpa using this

theorem mem_sources {graph : Graph} {node : Node} :
    node ∈ graph.sources ↔
      node ∈ graph.table.nodes ∧ ∀ needed, ¬ graph.Precedes needed node.key := by
  unfold sources
  rw [List.mem_filter, all_dependent_ne_iff]

/-! ## What `checkReferences` tests -/

theorem checkEdge_eq_ok_iff {table : Table} {edge : Edge} :
    checkEdge table edge = .ok () ↔
      edge.dependency ∈ table.keys ∧ edge.dependent ∈ table.keys := by
  rw [← Table.contains_iff_mem_keys, ← Table.contains_iff_mem_keys]
  unfold checkEdge
  cases hdependency : table.contains edge.dependency with
  | false => simp
  | true =>
    cases hdependent : table.contains edge.dependent with
    | false => simp
    | true => simp

/-- A check of every item passes exactly if each of them passes. -/
theorem forM_eq_ok_iff {α : Type} {check : α → Except Error Unit} {items : List α} :
    items.forM check = .ok () ↔ ∀ item ∈ items, check item = .ok () := by
  induction items with
  | nil => exact ⟨fun _ item hmem => absurd hmem (by simp), fun _ => rfl⟩
  | cons item rest ih =>
    rw [List.forall_mem_cons, ← ih]
    show (check item >>= fun _ => rest.forM check) = _ ↔ _
    cases check item with
    | error e =>
      exact ⟨fun h => absurd h (by simp [bind, Except.bind]), fun h => absurd h.1 (by simp)⟩
    | ok _ => exact ⟨fun h => ⟨rfl, h⟩, fun h => h.2⟩

theorem checkReferences_eq_ok_iff {graph : Graph} :
    graph.checkReferences = .ok () ↔ graph.Referenced := by
  unfold checkReferences Referenced
  rw [forM_eq_ok_iff]
  exact forall₂_congr fun _ _ => checkEdge_eq_ok_iff

end Blueprint.Graph
