import Blueprint.Proofs.Extraction.Agreement
import Blueprint.Proofs.Extraction.Recorded

/-!
# `Blueprint/Proofs/Extraction/Inventory.lean` — the graph of a document, read off its visits

What is left after a successful walk are the contributions of the visits (`Recorded`), and what the
second pass does is to point names at keys. This file puts the two together. Given the document, the
graph is three lists over its visits: the components, the entries with their results, and the edges.
A fourth one says how components and entries stand among each other in the table.

The keys of components come from the walk itself, in the order of the visits. Since no place is
visited twice, they are a function of the place: that is `Json.keyAt`.
-/

set_option autoImplicit false

namespace Blueprint

variable {σ : Type}

/-! ## Keys by place -/

namespace Json

variable (source : KeySource σ) (keys : σ) (document : Json)

/-- The components of a document by their places, with the keys that they get. -/
def places : List (Path × String) := Visit.assigned source document.visits keys

/-- The key of the component at a place. -/
def keyAt (place : Path) : String := ((document.places source keys).lookup place).getD ""

end Json

theorem lookup_of_mem {places : List (Path × String)} (hdistinct : (places.map Prod.fst).Nodup)
    {place : Path} {key : String} (h : (place, key) ∈ places) :
    places.lookup place = some key := by
  induction places with
  | nil => cases h
  | cons head rest ih =>
    obtain ⟨hnew, hrest⟩ := List.nodup_cons.mp hdistinct
    rcases List.mem_cons.mp h with rfl | h
    · simp
    · have hother : place ≠ head.1 := fun hsame => hnew (List.mem_map.mpr ⟨_, h, hsame⟩)
      have hskip : (place == head.1) = false := by simpa using hother
      rw [List.lookup_cons, hskip]
      exact ih hrest h

theorem lookup_perm {places places' : List (Path × String)} (hperm : places.Perm places')
    (hdistinct : (places.map Prod.fst).Nodup) (place : Path) :
    places.lookup place = places'.lookup place := by
  have hdistinct' := (hperm.map Prod.fst).nodup_iff.mp hdistinct
  cases hlookup : places.lookup place with
  | some key =>
    obtain ⟨before, after, hsplit, -⟩ := List.lookup_eq_some_iff.mp hlookup
    have hmem : (place, key) ∈ places := by simp [hsplit]
    exact (lookup_of_mem hdistinct' (hperm.mem_iff.mp hmem)).symm
  | none =>
    cases hlookup' : places'.lookup place with
    | none => rfl
    | some key =>
      obtain ⟨before, after, hsplit, -⟩ := List.lookup_eq_some_iff.mp hlookup'
      have hmem : (place, key) ∈ places' := by simp [hsplit]
      rw [lookup_of_mem hdistinct (hperm.mem_iff.mpr hmem)] at hlookup
      cases hlookup

theorem Json.named_keyAt {source : KeySource σ} {keys : σ} {document : Json}
    (h : document.Distinct) :
    Visit.Named (document.keyAt source keys) source document.visits keys := by
  intro place hplace
  have hdistinct : ((document.places source keys).map Prod.fst).Nodup :=
    (Json.nodup_paths h).sublist (Visit.assigned_sublist source document.visits keys)
  rw [Json.keyAt, lookup_of_mem hdistinct hplace]
  rfl

theorem Visit.map_component?_eq_drawn {keyAt : Path → String} {source : KeySource σ} {visit : Visit}
    {keys : σ} (named : Visit.Named keyAt source [visit] keys) :
    (visit.component? keyAt).map (fun c => (c.path, c.key)) =
      (visit.drawn source keys).1.map (visit.path, ·) := by
  cases hrole : visit.part.role with
  | component members =>
    cases hdrawn : (visit.drawn source keys).1 with
    | none => simp [Visit.drawn, hrole] at hdrawn
    | some key =>
      have hkey : keyAt visit.path = key :=
        named (visit.path, key) (by simp [Visit.assigned, hdrawn])
      simp [Visit.component?, hrole, hkey]
  | _ => simp [Visit.component?, Visit.drawn, hrole]

theorem Visit.map_component?_eq_assigned {keyAt : Path → String} {source : KeySource σ}
    {visits : List Visit} {keys : σ} (named : Visit.Named keyAt source visits keys) :
    (visits.filterMap (Visit.component? keyAt)).map (fun c => (c.path, c.key)) =
      Visit.assigned source visits keys := by
  induction visits generalizing keys with
  | nil => rfl
  | cons visit rest ih =>
    have hsplit : Visit.Named keyAt source ([visit] ++ rest) keys := named
    obtain ⟨namedHere, namedRest⟩ := Visit.named_append.mp hsplit
    have hhere := Visit.map_component?_eq_drawn namedHere
    have hrest := ih namedRest
    rw [← List.singleton_append, List.filterMap_append, List.map_append, hrest,
      Visit.assigned_append, Visit.filterMap_singleton, Visit.assigned, ← hhere]
    cases visit.component? keyAt <;> simp [Visit.assigned]

/-! ## Names of fields -/

/-- The node for which a name stands: the one that has it as its key, and else the component in the
top-level field of that name. -/
def pointed (places : List (Path × String)) (known : List String) (name : String) : String :=
  if name ∈ known then name else (places.lookup (Path.root.key name)).getD name

namespace Extraction

theorem fieldOf?_eq_some_iff {c : Component} {field : String} :
    fieldOf? c = some field ↔ c.path = Path.root.key field := by
  have hpath : c.path = Path.root.key field ↔ c.path.segments = [.key field] := by
    constructor
    · intro h
      rw [h]
      rfl
    · intro h
      rw [Path.root, Path.key, List.nil_append, ← h]
  rw [hpath]
  unfold fieldOf?
  split
  · rename_i name hsegments
    simp [hsegments]
  · rename_i hother
    constructor
    · intro h
      cases h
    · intro h
      exact absurd h (hother field)

/-- The name of a field that holds a component, with the key, unless the name is taken. -/
def fieldName? (taken : String → Bool) (c : Component) : Option (String × String) :=
  (fieldOf? c).bind fun field => if taken field then none else some (field, c.key)

theorem fieldNames_eq (table : Table) :
    fieldNames table = table.components.filterMap (fieldName? table.contains) := by
  unfold fieldNames Table.components
  rw [List.filterMap_filterMap]
  refine congrArg (fun f => List.filterMap f table.nodes) (funext fun node => ?_)
  cases node with
  | entry e => rfl
  | component c => cases hfield : fieldOf? c <;> simp [Node.component?, fieldName?, hfield]

theorem lookup_fieldName? (taken : String → Bool) (name : String) (components : List Component) :
    (components.filterMap (fieldName? taken)).lookup name =
      if taken name then none
      else (components.map fun c => (c.path, c.key)).lookup (Path.root.key name) := by
  induction components with
  | nil => simp
  | cons c rest ih =>
    rw [List.map_cons, List.lookup_cons]
    by_cases hpath : c.path = Path.root.key name
    · have hfield := fieldOf?_eq_some_iff.mpr hpath
      cases htaken : taken name with
      | true =>
        have hnone : fieldName? taken c = none := by simp [fieldName?, hfield, htaken]
        rw [List.filterMap_cons_none hnone, ih, htaken]
        rfl
      | false =>
        have hsome : fieldName? taken c = some (name, c.key) := by
          simp [fieldName?, hfield, htaken]
        simp [List.filterMap_cons_some hsome, hpath]
    · have hskip : (Path.root.key name == c.path) = false :=
        beq_eq_false_iff_ne.mpr fun hsame => hpath hsame.symm
      rw [hskip, ← ih]
      cases hhere : fieldName? taken c with
      | none => rw [List.filterMap_cons_none hhere]
      | some pair =>
        obtain ⟨field, hfield, hpair⟩ := Option.bind_eq_some_iff.mp hhere
        have hother : (name == field) = false := by
          rw [beq_eq_false_iff_ne]
          rintro rfl
          exact hpath (fieldOf?_eq_some_iff.mp hfield)
        split at hpair
        · cases hpair
        · cases hpair
          rw [List.filterMap_cons_some hhere, List.lookup_cons, hother]

theorem lookup_fieldNames (table : Table) (name : String) :
    (fieldNames table).lookup name =
      if name ∈ table.keys then none
      else (table.components.map fun c => (c.path, c.key)).lookup (Path.root.key name) := by
  rw [fieldNames_eq, lookup_fieldName?]
  simp only [Table.contains_iff_mem_keys]

theorem resolve_fieldNames (table : Table) :
    resolve (fieldNames table) =
      pointed (table.components.map fun c => (c.path, c.key)) table.keys := by
  funext name
  rw [resolve, lookup_fieldNames, pointed]
  split <;> rfl

theorem mem_keys_of_lookup {table : Table} {name key : String}
    (h : (fieldNames table).lookup name = some key) : key ∈ table.keys := by
  obtain ⟨before, after, hsplit, -⟩ := List.lookup_eq_some_iff.mp h
  have hpair : (name, key) ∈ table.components.filterMap (fieldName? table.contains) := by
    rw [← fieldNames_eq, hsplit]
    simp
  obtain ⟨c, hc, hname⟩ := List.mem_filterMap.mp hpair
  obtain ⟨field, -, hname⟩ := Option.bind_eq_some_iff.mp hname
  have hkey : c.key = key := by
    split at hname
    · cases hname
    · exact congrArg Prod.snd (Option.some.inj hname)
  obtain ⟨node, hnode, hcomponent⟩ := List.mem_filterMap.mp hc
  cases node with
  | entry e => cases hcomponent
  | component stored =>
    obtain rfl : stored = c := Option.some.inj hcomponent
    exact hkey ▸ List.mem_map_of_mem hnode

theorem resolve_of_mem_keys {table : Table} {key : String} (h : key ∈ table.keys) :
    resolve (fieldNames table) key = key := by
  rw [resolve, lookup_fieldNames, if_pos h]
  rfl

/-- A name stands for itself or for the key of a component. -/
theorem resolve_eq_or_mem_keys (table : Table) (name : String) :
    resolve (fieldNames table) name = name ∨ resolve (fieldNames table) name ∈ table.keys := by
  unfold resolve
  cases hlookup : (fieldNames table).lookup name with
  | none => exact Or.inl rfl
  | some key => exact Or.inr (mem_keys_of_lookup hlookup)

end Extraction

theorem Visit.bind_origin?_entry? (keyAt : Path → String) (visit : Visit) :
    (visit.origin? keyAt).bind Origin.entry? = visit.field? := by
  cases hrole : visit.part.role with
  | component members =>
    simp [Visit.origin?, hrole, Origin.entry?, Visit.field?, Visit.isResult, Visit.request?]
  | _ =>
    cases hresult : visit.isResult <;>
      simp [Visit.origin?, hrole, hresult, Origin.entry?, Visit.field?]

theorem fields_origins (keyAt : Path → String) (visits : List Visit) :
    (visits.filterMap (Visit.origin? keyAt)).filterMap Origin.entry? =
      visits.filterMap Visit.field? := by
  rw [List.filterMap_filterMap]
  simp only [Visit.bind_origin?_entry?]

/-! ## The graph -/

namespace Extraction

variable {source : KeySource σ} {document : Json} {keys : σ}

/-- The names that are resolved at the end of a walk are the fields that hold visited components. -/
theorem Recorded.lookup_names {keyAt : Path → String} {visits : List Visit} {state : State σ}
    (h : Recorded keyAt source visits (initial keys) state)
    (named : Visit.Named keyAt source visits keys) (name : String) :
    state.names.lookup name =
      if name ∈ state.table.keys then none
      else (Visit.assigned source visits keys).lookup (Path.root.key name) := by
  have hplaces : state.table.components.map (fun c => (c.path, c.key)) =
      Visit.assigned source visits keys := by
    rw [h.components]
    exact Visit.map_component?_eq_assigned named
  rw [State.names, lookup_fieldNames, hplaces]

theorem Recorded.resolve_names {keyAt : Path → String} {visits : List Visit} {state : State σ}
    (h : Recorded keyAt source visits (initial keys) state)
    (named : Visit.Named keyAt source visits keys) :
    resolve state.names = pointed (Visit.assigned source visits keys) state.table.keys := by
  funext name
  rw [resolve, h.lookup_names named, pointed]
  by_cases hknown : name ∈ state.table.keys
  · rw [if_pos hknown, if_pos hknown]
    rfl
  · rw [if_neg hknown, if_neg hknown]

/-- An extraction that succeeds has recorded all visits. -/
theorem exists_recorded_of_extract (hdistinct : document.Distinct) {graph : Graph}
    (h : (extract source document keys).graph = .ok graph) :
    ∃ state, Recorded (document.keyAt source keys) source document.visits (initial keys) state ∧
      state.Resolvable ∧ graph = state.graph := by
  obtain ⟨value, state, hwalked, hresolvable, hgraph⟩ := exists_walked_of_extract h
  have hrecorded := hwalked.recorded located_root (Json.named_keyAt hdistinct)
  exact ⟨state, hrecorded.2, hresolvable, hgraph⟩

/-- The nodes of the graph are the components and the results of the document. The components are
the visited ones, in the order of the visits. There is an entry for each top-level field under which
something is a result, and it holds the results of that field in the order of the visits. In the
table every component stands where it is visited, and every entry where its first result is. -/
theorem extract_nodes_eq_visits (hdistinct : document.Distinct) {graph : Graph}
    (h : (extract source document keys).graph = .ok graph) :
    graph.table.components =
      (document.visits.filterMap (Visit.component? (document.keyAt source keys))).map
        (Component.rename (pointed (document.places source keys) graph.table.keys)) ∧
    graph.table.entries =
      (document.visits.filterMap Visit.field?).eraseDups.map (fun field =>
        Entry.rename (pointed (document.places source keys) graph.table.keys)
          ⟨field, document.visits.filterMap
            (Visit.result? (document.keyAt source keys) field)⟩) ∧
    graph.table.origins =
      (document.visits.filterMap (Visit.origin? (document.keyAt source keys))).eraseDups := by
  obtain ⟨state, hrecorded, -, rfl⟩ := exists_recorded_of_extract hdistinct h
  have hnaming := hrecorded.resolve_names (Json.named_keyAt hdistinct)
  have horigins := hrecorded.origins
  unfold State.graph
  simp only [Table.keys_edit, Json.places, ← hnaming]
  refine ⟨?_, ?_, ?_⟩
  · rw [Table.components_rename, hrecorded.components]
    rfl
  · have hfields : state.table.origins.filterMap Origin.entry? =
        (document.visits.filterMap Visit.field?).eraseDups := by
      rw [horigins, filterMap_mentionAll Origin.entry?_inj, fields_origins]
      exact mentionAll_nil_eq _
    rw [Table.entries_rename, Table.entries_eq, hfields, List.map_map]
    refine List.map_congr_left fun field _ => ?_
    simp only [Function.comp_apply, hrecorded.results field]
    rfl
  · rw [Table.origins_edit _ (Node.origin_rename _), horigins]
    exact mentionAll_nil_eq _

theorem sampleDocument_distinct : sampleDocument.Distinct := by
  simp [sampleDocument, Json.Distinct, Json.DistinctItems, Json.DistinctMembers]

theorem extract_nodes_eq_visits_sample :
    sampleDocument.Distinct ∧
    (extract KeySource.sequential sampleDocument 0).graph = .ok sampleGraph ∧
    sampleGraph.table.components =
      (sampleDocument.visits.filterMap
        (Visit.component? (sampleDocument.keyAt KeySource.sequential 0))).map
          (Component.rename
            (pointed (sampleDocument.places KeySource.sequential 0) sampleGraph.table.keys)) ∧
    sampleGraph.table.entries =
      (sampleDocument.visits.filterMap Visit.field?).eraseDups.map (fun field =>
        Entry.rename
          (pointed (sampleDocument.places KeySource.sequential 0) sampleGraph.table.keys)
          ⟨field, sampleDocument.visits.filterMap
            (Visit.result? (sampleDocument.keyAt KeySource.sequential 0) field)⟩) ∧
    sampleGraph.table.origins =
      (sampleDocument.visits.filterMap
        (Visit.origin? (sampleDocument.keyAt KeySource.sequential 0))).eraseDups :=
  ⟨sampleDocument_distinct, extract_sampleDocument,
    extract_nodes_eq_visits sampleDocument_distinct extract_sampleDocument⟩

-- two results under one field, and a component that is visited between them and the end
example : sampleDocument.visits.filterMap
    (Visit.origin? (sampleDocument.keyAt KeySource.sequential 0)) =
      [.component "n", .entry "run", .entry "run", .component "o"] := by
  cbv

/-- The edges of the graph are the needs of the document, in the order of the visits: of each marker
and each call, and of each component that has another component or a call around it. -/
theorem extract_edges_eq_visits (hdistinct : document.Distinct) {graph : Graph}
    (h : (extract source document keys).graph = .ok graph) :
    graph.edges = document.visits.filterMap fun visit =>
      (visit.needs? (document.keyAt source keys)).map fun name =>
        { dependency := pointed (document.places source keys) graph.table.keys name
          dependent := visit.owner (document.keyAt source keys)
          path := visit.path } := by
  obtain ⟨state, hrecorded, -, rfl⟩ := exists_recorded_of_extract hdistinct h
  have hnaming := hrecorded.resolve_names (Json.named_keyAt hdistinct)
  unfold State.graph
  simp only [Table.keys_edit, Json.places, ← hnaming, hrecorded.edges]
  show (document.visits.filterMap _).map _ = _
  rw [List.map_filterMap]
  refine List.filterMap_congr fun visit _ => ?_
  rw [Visit.edge?, Option.map_map]
  rfl

theorem extract_edges_eq_visits_sample :
    sampleDocument.Distinct ∧
    (extract KeySource.sequential sampleDocument 0).graph = .ok sampleGraph ∧
    sampleGraph.edges = sampleDocument.visits.filterMap fun visit =>
      (visit.needs? (sampleDocument.keyAt KeySource.sequential 0)).map fun name =>
        { dependency :=
            pointed (sampleDocument.places KeySource.sequential 0) sampleGraph.table.keys name
          dependent := visit.owner (sampleDocument.keyAt KeySource.sequential 0)
          path := visit.path } :=
  ⟨sampleDocument_distinct, extract_sampleDocument,
    extract_edges_eq_visits sampleDocument_distinct extract_sampleDocument⟩

end Extraction

end Blueprint
