import Blueprint.Proofs.Graph.Table
import Blueprint.Proofs.Extraction.Contributions

/-!
# `Blueprint/Proofs/Graph/Views.lean` — a table, seen in four ways

A table holds components and entries in one list. Four views tell them apart: the origins (which key
belongs to which kind, in table order), the components, the entries, and the results under a key.
Each operation on a table is described here by what it does to the views; that is enough to follow a
walk, and it keeps the list of nodes itself out of later proofs.
-/

set_option autoImplicit false

namespace Blueprint

/-- The key of a component. -/
def Origin.component? : Origin → Option String
  | .component key => some key
  | .entry _ => none

/-- The key of an entry. -/
def Origin.entry? : Origin → Option String
  | .component _ => none
  | .entry key => some key

theorem Origin.entry?_inj (a b : Origin) (key : String) (ha : a.entry? = some key)
    (hb : b.entry? = some key) : a = b := by
  cases a <;> cases b <;> simp_all [Origin.entry?]

def Component.rename (naming : String → String) (c : Component) : Component :=
  { c with
    params := Value.renameEntries naming c.params
    methodArgs := Value.renameItems naming c.methodArgs }

def Entry.rename (naming : String → String) (e : Entry) : Entry :=
  { e with results := Value.renameItems naming e.results }

namespace Node

def origin : Node → Origin
  | .component c => .component c.key
  | .entry e => .entry e.key

def component? : Node → Option Component
  | .component c => some c
  | .entry _ => none

def entry? : Node → Option Entry
  | .component _ => none
  | .entry e => some e

def results : Node → List Value
  | .component _ => []
  | .entry e => e.results

@[simp] theorem key_origin (node : Node) : node.origin.key = node.key := by
  cases node <;> rfl

@[simp] theorem origin_collect (value : Value) (node : Node) :
    (node.collect value).origin = node.origin := by
  cases node <;> rfl

@[simp] theorem origin_fill (params : List (String × Value)) (methodArgs : List Value)
    (node : Node) : (node.fill params methodArgs).origin = node.origin := by
  cases node <;> rfl

@[simp] theorem origin_rename (naming : String → String) (node : Node) :
    (node.rename naming).origin = node.origin := by
  cases node <;> rfl

end Node

namespace Table

def origins (table : Table) : List Origin := table.nodes.map Node.origin

def components (table : Table) : List Component := table.nodes.filterMap Node.component?

def entries (table : Table) : List Entry := table.nodes.filterMap Node.entry?

/-- The results of the entry with a key, none if there is no such entry. -/
def results (table : Table) (key : String) : List Value := (table.find? key).elim [] Node.results

theorem map_key_origins (table : Table) : table.origins.map Origin.key = table.keys := by
  simp [origins, Arena.keys]

theorem entry_mem_origins_iff {table : Table} {key : String} :
    .entry key ∈ table.origins ↔ ∃ entry, table.find? key = some (.entry entry) := by
  unfold origins
  constructor
  · intro h
    obtain ⟨node, hnode, horigin⟩ := List.mem_map.mp h
    cases node with
    | component c => cases horigin
    | entry e =>
      cases horigin
      exact ⟨e, find?_eq_some_iff.mpr ⟨hnode, rfl⟩⟩
  · rintro ⟨entry, hfind⟩
    obtain ⟨hnode, rfl⟩ := find?_eq_some_iff.mp hfind
    exact List.mem_map.mpr ⟨_, hnode, rfl⟩

theorem component_mem_origins_iff {table : Table} {key : String} :
    .component key ∈ table.origins ↔ ∃ c, table.find? key = some (.component c) := by
  unfold origins
  constructor
  · intro h
    obtain ⟨node, hnode, horigin⟩ := List.mem_map.mp h
    cases node with
    | component c =>
      cases horigin
      exact ⟨c, find?_eq_some_iff.mpr ⟨hnode, rfl⟩⟩
    | entry e => cases horigin
  · rintro ⟨c, hfind⟩
    obtain ⟨hnode, rfl⟩ := find?_eq_some_iff.mp hfind
    exact List.mem_map.mpr ⟨_, hnode, rfl⟩

theorem not_mem_origins {table : Table} {origin : Origin} (h : origin.key ∉ table.keys) :
    origin ∉ table.origins := by
  intro hmem
  rw [← map_key_origins] at h
  exact h (List.mem_map_of_mem hmem)

/-! ## Inserting -/

section

variable {table grown : Table} {node : Node} (hgrown : grown.nodes = table.nodes ++ [node])

include hgrown

theorem origins_of_nodes_append : grown.origins = table.origins ++ [node.origin] := by
  simp [origins, hgrown]

theorem components_of_nodes_append :
    grown.components = table.components ++ node.component?.toList := by
  simp only [components, hgrown, List.filterMap_append]
  cases node <;> rfl

theorem results_of_nodes_append (hnew : node.key ∉ table.keys) (hempty : node.results = [])
    (key : String) : grown.results key = table.results key := by
  unfold results
  rw [find?_of_nodes_append hgrown]
  by_cases hkey : key = node.key
  · rw [if_pos hkey, hkey, find?_eq_none_iff.mpr hnew]
    exact hempty
  · rw [if_neg hkey]

end

/-! ## Editing -/

theorem origins_edit {change : Node → Node} (keeps : ∀ node, (change node).key = node.key)
    (horigin : ∀ node, (change node).origin = node.origin) (table : Table) :
    (table.edit change keeps).origins = table.origins := by
  simp [origins, nodes_edit, horigin]

theorem origins_editAt {change : Node → Node} (keeps : ∀ node, (change node).key = node.key)
    (horigin : ∀ node, (change node).origin = node.origin) (table : Table) (key : String) :
    (table.editAt key change keeps).origins = table.origins := by
  rw [editAt_eq]
  refine origins_edit _ (fun node => ?_) table
  split
  · exact horigin node
  · rfl

variable (table : Table) (key other : String) (value : Value) (params : List (String × Value))
  (methodArgs : List Value)

theorem components_collect :
    (table.editAt key (Node.collect value) (Node.key_collect value)).components =
      table.components := by
  unfold components
  rw [nodes_editAt, List.filterMap_map]
  refine congrArg (fun f => List.filterMap f table.nodes) (funext fun node => ?_)
  cases node with
  | component c =>
    by_cases hkey : c.key = key <;> simp [Node.key, Node.collect, hkey]
  | entry e =>
    by_cases hkey : e.key = key <;> simp [Node.key, Node.collect, Node.component?, hkey]

theorem components_fill :
    (table.editAt key (Node.fill params methodArgs) (Node.key_fill _ _)).components =
      table.components.map fun c => if c.key = key then { c with params, methodArgs } else c := by
  unfold components
  rw [nodes_editAt, List.filterMap_map, List.map_filterMap]
  refine congrArg (fun f => List.filterMap f table.nodes) (funext fun node => ?_)
  cases node with
  | component c =>
    by_cases hkey : c.key = key <;> simp [Node.key, Node.fill, Node.component?, hkey]
  | entry e =>
    by_cases hkey : e.key = key <;> simp [Node.key, Node.fill, Node.component?, hkey]

theorem results_fill :
    (table.editAt key (Node.fill params methodArgs) (Node.key_fill _ _)).results other =
      table.results other := by
  unfold results
  rw [find?_editAt]
  split
  · cases table.find? other with
    | none => rfl
    | some node => cases node <;> rfl
  · rfl

theorem results_collect (h : .entry key ∈ table.origins) :
    (table.editAt key (Node.collect value) (Node.key_collect value)).results other =
      table.results other ++ if other = key then [value] else [] := by
  unfold results
  rw [find?_editAt]
  by_cases hkey : other = key
  · obtain ⟨entry, hfind⟩ := entry_mem_origins_iff.mp h
    rw [if_pos hkey, if_pos hkey, hkey, hfind]
    rfl
  · rw [if_neg hkey, if_neg hkey, List.append_nil]

theorem components_rename (naming : String → String) :
    (table.edit (Node.rename naming) (Node.key_rename naming)).components =
      table.components.map (Component.rename naming) := by
  unfold components
  rw [nodes_edit, List.filterMap_map, List.map_filterMap]
  refine congrArg (fun f => List.filterMap f table.nodes) (funext fun node => ?_)
  cases node <;> rfl

theorem entries_rename (naming : String → String) :
    (table.edit (Node.rename naming) (Node.key_rename naming)).entries =
      table.entries.map (Entry.rename naming) := by
  unfold entries
  rw [nodes_edit, List.filterMap_map, List.map_filterMap]
  refine congrArg (fun f => List.filterMap f table.nodes) (funext fun node => ?_)
  cases node <;> rfl

/-- The entries are known from the other views. -/
theorem entries_eq :
    table.entries =
      (table.origins.filterMap Origin.entry?).map fun key => ⟨key, table.results key⟩ := by
  unfold entries origins
  rw [List.filterMap_map, List.map_filterMap]
  refine List.filterMap_congr fun node hnode => ?_
  cases node with
  | component c => rfl
  | entry e =>
    have hfind : table.find? e.key = some (.entry e) := find?_eq_some_iff.mpr ⟨hnode, rfl⟩
    simp [Node.entry?, Node.origin, Origin.entry?, results, hfind, Node.results]

/-- A table is its components and its entries. -/
theorem nodes_perm :
    table.nodes.Perm (table.components.map .component ++ table.entries.map .entry) := by
  unfold components entries
  induction table.nodes with
  | nil => exact .nil
  | cons node rest ih =>
    cases node with
    | component c => exact ih.cons _
    | entry e => exact (ih.cons _).trans List.perm_middle.symm

/-- Giving arguments to one of the components changes that one only. -/
theorem map_fill_of_nodup {before after : List Component} {c : Component}
    (h : ((before ++ c :: after).map Component.key).Nodup) :
    (before ++ c :: after).map (fun other =>
      if other.key = c.key then { other with params, methodArgs } else other) =
        before ++ { c with params, methodArgs } :: after := by
  have hother : ∀ other ∈ before ++ after, other.key ≠ c.key := by
    rw [List.map_append, List.map_cons, List.nodup_middle, ← List.map_append] at h
    intro other hmem hsame
    exact (List.nodup_cons.mp h).1 (hsame ▸ List.mem_map_of_mem hmem)
  have hkept : ∀ others : List Component, (∀ other ∈ others, other.key ≠ c.key) →
      others.map (fun other =>
        if other.key = c.key then { other with params, methodArgs } else other) = others := by
    intro others hothers
    conv_rhs => rw [← List.map_id others]
    exact List.map_congr_left fun other hmem => if_neg (hothers other hmem)
  rw [List.map_append, List.map_cons, if_pos rfl,
    hkept before fun other hmem => hother other (List.mem_append_left _ hmem),
    hkept after fun other hmem => hother other (List.mem_append_right _ hmem)]

theorem nodup_component_keys : (table.components.map Component.key).Nodup := by
  have hsub : (table.components.map Component.key).Sublist table.keys := by
    unfold components Arena.keys
    generalize table.nodes = nodes
    induction nodes with
    | nil => exact List.Sublist.slnil
    | cons node rest ih =>
      cases node with
      | component c => exact ih.cons_cons _
      | entry e => exact ih.cons _
  exact table.distinct.sublist hsub

end Table

end Blueprint
