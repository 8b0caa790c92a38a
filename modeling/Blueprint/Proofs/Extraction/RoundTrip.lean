import Blueprint.Proofs.Extraction.FlatWalk
import Mathlib.Data.List.Perm.Basic

/-!
# `Blueprint/Proofs/Extraction/RoundTrip.lean` — a flat document gives its graph back

The graph of a document, written flat and extracted again, is the same graph up to the places of
its components, and the flat document of that graph is the same document. The one way to lose
something on the way is a reference whose key is no word, since it is then written as a marker that
is not read as that key.

Edges are not compared one by one. By the agreement of edges and values
(`Blueprint/Proofs/Extraction/Agreement.lean`), which holds of both graphs, the edges of a node are
determined by its content, so graphs with the same nodes have the same edges up to their order.
-/

set_option autoImplicit false

namespace Blueprint

/-! ## The same content -/

/-- The nodes are of the same kind, have the same key and hold the same; only the place of a
component may differ. -/
def Node.SameContent : Node → Node → Prop
  | .component a, .component b =>
    a.key = b.key ∧ a.module = b.module ∧ a.callable = b.callable ∧ a.params = b.params ∧
      a.methodArgs = b.methodArgs
  | .entry a, .entry b => a.key = b.key ∧ a.results = b.results
  | _, _ => False

/-- The key that is needed and the key that needs it. -/
def Edge.ends (edge : Edge) : String × String := (edge.dependency, edge.dependent)

/-- The nodes have the same content, in the same order, and there are the same dependencies, each
as often, in any order. -/
structure Graph.SameContent (a b : Graph) : Prop where
  nodes : List.Forall₂ Node.SameContent a.table.nodes b.table.nodes
  edges : (a.edges.map Edge.ends).Perm (b.edges.map Edge.ends)

namespace Node.SameContent

theorem placed (node : Node) : node.SameContent node.placed := by
  cases node with
  | component c => exact ⟨rfl, rfl, rfl, rfl, rfl⟩
  | entry e => exact ⟨rfl, rfl⟩

theorem key_eq {a b : Node} (h : a.SameContent b) : a.key = b.key := by
  cases a <;> cases b
  case component.component => exact h.1
  case entry.entry => exact h.1
  all_goals exact h.elim

theorem values_eq {a b : Node} (h : a.SameContent b) : a.values = b.values := by
  cases a <;> cases b
  case component.component a b =>
    obtain ⟨-, -, -, hparams, hmethodArgs⟩ := h
    show a.params.map Prod.snd ++ a.methodArgs = b.params.map Prod.snd ++ b.methodArgs
    rw [hparams, hmethodArgs]
  case entry.entry => exact h.2
  all_goals exact h.elim

end Node.SameContent

/-! ## Edges from content -/

theorem count_ends (edges : List Edge) (dependency dependent : String) :
    (edges.map Edge.ends).count (dependency, dependent) =
      (dependenciesOf edges dependent).count dependency := by
  induction edges with
  | nil => rfl
  | cons edge rest ih =>
    have hsplit := dependenciesOf_append [edge] rest dependent
    rw [List.singleton_append, dependenciesOf_singleton] at hsplit
    rw [hsplit, List.map_cons, List.count_cons, ih, List.count_append]
    by_cases hdependent : dependent = edge.dependent
    · by_cases hdependency : dependency = edge.dependency
      · simp [Edge.ends, hdependent, hdependency, Nat.add_comm]
      · simp [Edge.ends, hdependent, Ne.symm hdependency]
    · simp [Edge.ends, hdependent, Ne.symm hdependent]

/-- The edges of a key are the references of its node; a key without a node has no edges. -/
theorem Graph.Agrees.dependenciesOf_eq {graph : Graph} (h : graph.Agrees) (key : String) :
    dependenciesOf graph.edges key = graph.table.references key := by
  unfold Table.references
  cases hfind : graph.table.find? key with
  | some node =>
    obtain ⟨hnode, rfl⟩ := Table.find?_eq_some_iff.mp hfind
    exact h.references node hnode
  | none =>
    refine List.eq_nil_iff_forall_not_mem.mpr fun dependency hmem => ?_
    obtain ⟨edge, hedge, -, rfl⟩ := mem_dependenciesOf.mp hmem
    exact Table.find?_eq_none_iff.mp hfind (h.dependent_mem edge hedge)

theorem Graph.Agrees.not_mem_references {graph : Graph} (h : graph.Agrees) {node : Node}
    (hnode : node ∈ graph.table.nodes) : node.key ∉ node.references := by
  intro hself
  rw [← h.references node hnode] at hself
  obtain ⟨edge, hedge, hdependency, hdependent⟩ := mem_dependenciesOf.mp hself
  exact h.irreflexive edge hedge (hdependency.trans hdependent.symm)

theorem references_of_sameContent {a b : Table}
    (h : List.Forall₂ Node.SameContent a.nodes b.nodes) (key : String) :
    a.references key = b.references key := by
  unfold Table.references
  rw [Table.find?_eq_search, Table.find?_eq_search]
  generalize a.nodes = xs at h ⊢
  generalize b.nodes = ys at h ⊢
  induction h with
  | nil => rfl
  | @cons x y _ _ hsame _ ih =>
    rw [List.find?_cons, List.find?_cons, hsame.key_eq]
    cases y.key == key with
    | true => exact congrArg (List.flatMap Value.references) hsame.values_eq
    | false => exact ih

/-- If edges and values agree in both graphs, the same nodes have the same edges. -/
theorem Graph.Agrees.edges_perm {a b : Graph} (ha : a.Agrees) (hb : b.Agrees)
    (h : List.Forall₂ Node.SameContent a.table.nodes b.table.nodes) :
    (a.edges.map Edge.ends).Perm (b.edges.map Edge.ends) := by
  refine List.perm_iff_count.mpr ?_
  rintro ⟨dependency, dependent⟩
  rw [count_ends, count_ends, ha.dependenciesOf_eq, hb.dependenciesOf_eq,
    references_of_sameContent h]

/-! ## Renaming by nothing -/

namespace Value

variable {naming : String → String}

mutual

theorem rename_of_fixed (hnaming : ∀ key, naming key = key) :
    ∀ value : Value, value.rename naming = value
  | .null => rfl
  | .bool _ => rfl
  | .number _ => rfl
  | .string _ => rfl
  | .reference key => by rw [rename, hnaming]
  | .sequence items => by rw [rename, renameItems_of_fixed hnaming items]
  | .mapping entries => by rw [rename, renameEntries_of_fixed hnaming entries]
  | .call target method params => by rw [rename, hnaming, renameEntries_of_fixed hnaming params]

theorem renameItems_of_fixed (hnaming : ∀ key, naming key = key) :
    ∀ items : List Value, renameItems naming items = items
  | [] => rfl
  | item :: rest => by
    rw [renameItems, rename_of_fixed hnaming item, renameItems_of_fixed hnaming rest]

theorem renameEntries_of_fixed (hnaming : ∀ key, naming key = key) :
    ∀ entries : List (String × Value), renameEntries naming entries = entries
  | [] => rfl
  | (_, value) :: rest => by
    rw [renameEntries, rename_of_fixed hnaming value, renameEntries_of_fixed hnaming rest]

end

end Value

theorem Node.rename_of_fixed {naming : String → String} (hnaming : ∀ key, naming key = key)
    (node : Node) : node.rename naming = node := by
  cases node with
  | component c =>
    rw [rename, Value.renameEntries_of_fixed hnaming, Value.renameItems_of_fixed hnaming]
  | entry e => rw [rename, Value.renameItems_of_fixed hnaming]

namespace Extraction

variable {σ τ : Type}

/-- Where every component is at the field of its key, no other field stands for it. -/
theorem fieldNames_eq_nil {table : Table}
    (h : ∀ node ∈ table.nodes, node.path = Path.root.key node.key) : fieldNames table = [] := by
  refine List.filterMap_eq_nil_iff.mpr fun node hnode => ?_
  cases node with
  | entry e => rfl
  | component c =>
    have hpath : c.path = Path.root.key c.key := h _ hnode
    have hcontains : table.contains c.key = true :=
      Table.contains_iff_mem_keys.mpr (List.mem_map_of_mem hnode)
    simp [fieldOf?, hpath, Path.root, Path.key, hcontains]

/-- Then there is nothing to resolve, and the graph is what the walk left. -/
theorem State.graph_of_placed {state : State σ}
    (h : ∀ node ∈ state.table.nodes, node.path = Path.root.key node.key) :
    state.Resolvable ∧ state.graph = ⟨state.table, state.edges⟩ := by
  have hnames : state.names = [] := fieldNames_eq_nil h
  have hnaming : ∀ key, resolve state.names key = key := by
    intro key
    rw [hnames]
    rfl
  have htable : state.graph.table = state.table := by
    refine Table.eq_of_nodes_eq ?_
    show state.table.nodes.map _ = state.table.nodes
    rw [funext (Node.rename_of_fixed hnaming), List.map_id']
  have hedges : state.graph.edges = state.edges := by
    show state.edges.map _ = state.edges
    have hsame : ∀ edge, resolvedEdge state.names edge = edge := fun edge => by
      rw [resolvedEdge, hnaming]
    rw [funext hsame, List.map_id']
  refine ⟨fun edge _ => by rw [hnames]; simp, ?_⟩
  rw [← htable, ← hedges]

/-! ## There and back -/

section

variable {source : KeySource σ} {reader : KeySource τ} {document : Json} {keys : σ} {later : τ}
  {graph : Graph}

theorem flatten_of_placed {again : Graph}
    (h : again.table.nodes = graph.table.nodes.map Node.placed) :
    again.flatten = graph.flatten := by
  unfold Graph.flatten
  rw [h, List.map_map]
  refine congrArg Json.object (List.map_congr_left fun node _ => ?_)
  show (node.placed.key, node.placed.toDocument) = (node.key, node.toDocument)
  rw [Node.key_placed, Node.toDocument_placed]

theorem forall₂_placed (nodes : List Node) :
    List.Forall₂ Node.SameContent nodes (nodes.map Node.placed) := by
  induction nodes with
  | nil => exact .nil
  | cons node rest ih => exact .cons (Node.SameContent.placed node) ih

/-- Words only: the flat document is walked back to the nodes of the graph, each at its field. -/
theorem extract_flatten_of_legible (hdistinct : document.Distinct)
    (h : (extract source document keys).graph = .ok graph)
    (hplain : graph.flatten.shape = .object .mapping)
    (hlegible : ∀ node ∈ graph.table.nodes, node.Legible) :
    ∃ again, (extract reader graph.flatten later).graph = .ok again ∧
      (extract reader graph.flatten later).keys = later ∧
      again.table.nodes = graph.table.nodes.map Node.placed := by
  have hagrees := agrees_of_extract h
  have hreplays : ∀ node ∈ graph.table.nodes, Replays reader node := by
    intro node hnode
    obtain ⟨hread, hresults⟩ := readsBack_of_extract reader hdistinct h node hnode
    exact replays_node hread hresults (hlegible node hnode) (hagrees.not_mem_references hnode)
  obtain ⟨entries, state, hfields, hnodes, hkeys⟩ := walked_fields (initial later)
    graph.table.distinct (fun node _ hmem => by cases hmem) hreplays
  have hplaced : ∀ node ∈ state.table.nodes, node.path = Path.root.key node.key := by
    intro node hnode
    rw [hnodes] at hnode
    obtain ⟨old, -, rfl⟩ := List.mem_map.mp hnode
    rw [Node.path_placed, Node.key_placed]
  obtain ⟨hresolvable, hgraph⟩ := State.graph_of_placed hplaced
  obtain ⟨hextract, hdrawn⟩ :=
    extract_of_walked (.mapping (Shape.object.inj hplain) hfields) hresolvable
  refine ⟨state.graph, hextract, hdrawn.trans hkeys, ?_⟩
  rw [hgraph]
  exact hnodes

/-- Whatever the flat document is walked back to, its markers are words. -/
theorem legible_of_extract_flatten {again : Graph} (hdistinct : document.Distinct)
    (h : (extract source document keys).graph = .ok graph)
    (hplain : graph.flatten.shape = .object .mapping)
    (hagain : (extract reader graph.flatten later).graph = .ok again) :
    ∀ node ∈ again.table.nodes, node.Legible := by
  obtain ⟨value, state, hwalked, -, rfl⟩ := exists_walked_of_extract hagain
  have hread : ∀ node ∈ graph.table.nodes, NodeReadsBack reader node := fun node hnode =>
    (readsBack_of_extract reader hdistinct h node hnode).1
  have hshape := Shape.object.inj hplain
  have hsettled : state.Settled := by
    unfold Graph.flatten at hwalked
    cases hwalked with
    | mapping _ walked => exact settled_fields hread (fun node hmem => by cases hmem) walked
    | component other | call other | methodBlock other =>
      rw [hshape] at other
      exact absurd other (by simp)
  rw [(State.graph_of_placed fun node hnode => (hsettled node hnode).2).2]
  exact fun node hnode => (hsettled node hnode).1

theorem legible_of_sameContent {xs ys : List Node} (h : List.Forall₂ Node.SameContent xs ys)
    (hys : ∀ node ∈ ys, node.Legible) : ∀ node ∈ xs, node.Legible := by
  induction h with
  | nil => exact fun node hmem => by cases hmem
  | cons hsame _ ih =>
    obtain ⟨hfirst, hrest⟩ := List.forall_mem_cons.mp hys
    refine List.forall_mem_cons.mpr ⟨?_, ih hrest⟩
    unfold Node.Legible Node.markers at hfirst ⊢
    rw [hsame.values_eq]
    exact hfirst

end

/-- The graph of a document, written flat and extracted again, has the same content if and only if
every key in a reference is a word. In that case the second extraction draws no token, and its flat
document is the same. The keys of the graph must not make a component, a call or a method block of
the flat document as a whole; that no name repeats is so of every document that was read. -/
theorem extract_flatten_sameContent_iff (source : KeySource σ) (document : Json) (keys : σ)
    (graph : Graph) (reader : KeySource τ) (later : τ) (hdistinct : document.Distinct)
    (h : (extract source document keys).graph = .ok graph)
    (hplain : graph.flatten.shape = .object .mapping) :
    ((∃ again, (extract reader graph.flatten later).graph = .ok again ∧
        graph.SameContent again) ↔
      ∀ node ∈ graph.table.nodes, ∀ key ∈ node.markers, Marker.isWord key.toList = true) ∧
    ((∀ node ∈ graph.table.nodes, ∀ key ∈ node.markers, Marker.isWord key.toList = true) →
      (extract reader graph.flatten later).keys = later ∧
      ∃ again, (extract reader graph.flatten later).graph = .ok again ∧
        graph.SameContent again ∧ again.flatten = graph.flatten) := by
  have honwards : (∀ node ∈ graph.table.nodes, node.Legible) →
      (extract reader graph.flatten later).keys = later ∧
      ∃ again, (extract reader graph.flatten later).graph = .ok again ∧
        graph.SameContent again ∧ again.flatten = graph.flatten := by
    intro hlegible
    obtain ⟨again, hagain, hdrawn, hnodes⟩ :=
      extract_flatten_of_legible hdistinct h hplain hlegible
    have hsame : List.Forall₂ Node.SameContent graph.table.nodes again.table.nodes :=
      hnodes ▸ forall₂_placed graph.table.nodes
    refine ⟨hdrawn, again, hagain, ⟨hsame, ?_⟩, flatten_of_placed hnodes⟩
    exact (agrees_of_extract h).edges_perm (agrees_of_extract hagain) hsame
  refine ⟨⟨?_, ?_⟩, honwards⟩
  · rintro ⟨again, hagain, hsame⟩
    exact legible_of_sameContent hsame.nodes (legible_of_extract_flatten hdistinct h hplain hagain)
  · intro hlegible
    obtain ⟨-, again, hagain, hsame, -⟩ := honwards hlegible
    exact ⟨again, hagain, hsame⟩

/-- The text of `sampleDocument`. -/
def sampleText : String :=
  "\x7b\"net\": \x7b\"module\": \"models\", \"object_key\": \"n\"\x7d, \"run\": [\"\x7bnet\x7d\", " ++
  "\x7b\"reference_key\": \"n\", \"function_call\": \"fit\", \"params\": \x7b\"on\": " ++
  "\x7b\"module\": \"os\", \"object_key\": \"o\"\x7d\x7d\x7d]\x7d"

theorem extract_flatten_sameContent_iff_sample :
    Json.read? sampleText = some sampleDocument ∧
    (extract KeySource.sequential sampleDocument 0).graph = .ok sampleGraph ∧
    sampleGraph.flatten.shape = .object .mapping ∧
    (extract KeySource.sequential sampleGraph.flatten 0).keys = 0 ∧
    ∃ again, (extract KeySource.sequential sampleGraph.flatten 0).graph = .ok again ∧
      sampleGraph.SameContent again ∧ again.flatten = sampleGraph.flatten := by
  have hread : Json.read? sampleText = some sampleDocument := by cbv
  have hplain : sampleGraph.flatten.shape = .object .mapping := by decide
  have hwords : ∀ node ∈ sampleGraph.table.nodes, ∀ key ∈ node.markers,
      Marker.isWord key.toList = true := by
    simp only [sampleGraph, List.forall_mem_cons]
    decide
  exact ⟨hread, extract_sampleDocument, hplain,
    (extract_flatten_sameContent_iff _ _ _ _ KeySource.sequential 0 (Json.distinct_of_read? hread)
      extract_sampleDocument hplain).2 hwords⟩

-- a component whose key has a blank in it, inside another: the marker for it is malformed
example : (extract KeySource.sequential (.object
      [("x", .object [("module", .string "m"), ("object_key", .string "x"), ("params", .object
        [("y", .object [("module", .string "m"), ("object_key", .string "a b")])])])])
    0).graph.toOption.map (fun graph =>
      (extract KeySource.sequential graph.flatten 0).graph.isOk) = some false := by
  decide +kernel

end Extraction

end Blueprint
