import Blueprint.Proofs.Extraction.EdgeOrder
import Blueprint.Proofs.Extraction.RoundTrip
import Blueprint.Proofs.Program.Targets

/-!
# `Blueprint/Proofs/Program/Flattened.lean` — the program of a flat document

A flat document has the same nodes in the same order, and the same dependencies, but its edges are
grouped by node, while those of the document that it came from are in the order of the walk. So the
two programs are made of the same lines for the same nodes, and the order of the nodes may differ.

It does not differ if both lists of edges are tidy. Those of the flat document always are. Those of
the first document are tidy unless a top-level field has a component of its own between two of its
results, which is where the file ends: with a document whose program changes when it is flattened.
-/

set_option autoImplicit false

namespace Blueprint

namespace Graph

theorem precedes_iff_mem_ends {graph : Graph} {needed key : String} :
    graph.Precedes needed key ↔ (needed, key) ∈ graph.edges.map Edge.ends := by
  unfold Precedes
  rw [List.mem_map]
  constructor
  · intro h
    obtain ⟨edge, hedge, rfl, rfl⟩ := h
    exact ⟨edge, hedge, rfl⟩
  · intro h
    obtain ⟨edge, hedge, hends⟩ := h
    exact ⟨edge, hedge, congrArg Prod.fst hends, congrArg Prod.snd hends⟩

theorem sameNeeds_of_perm {a b : Graph}
    (h : (a.edges.map Edge.ends).Perm (b.edges.map Edge.ends)) : a.SameNeeds b := by
  intro needed key
  rw [precedes_iff_mem_ends, precedes_iff_mem_ends]
  exact h.mem_iff

theorem SameNeeds.referenced {a b : Graph} (h : a.SameNeeds b) (hkeys : a.table.keys = b.table.keys)
    (href : a.Referenced) : b.Referenced := by
  intro edge hedge
  obtain ⟨other, hother, hdependency, hdependent⟩ :=
    (h edge.dependency edge.dependent).mpr ⟨edge, hedge, rfl, rfl⟩
  rw [← hkeys, ← hdependency, ← hdependent]
  exact href other hother

/-- The graph with its nodes as they are and other edges. -/
def withEdges (graph : Graph) (edges : List Edge) : Graph := { graph with edges }

/-! ## What is written of a node -/

section

variable {graph again : Graph} (hnodes : again.table.nodes = graph.table.nodes.map Node.placed)

include hnodes

theorem keys_of_placed : graph.table.keys = again.table.keys := by
  unfold Arena.keys
  rw [hnodes, List.map_map]
  exact List.map_congr_left fun node _ => node.key_placed.symm

/-- Lines do not depend on where components stand. -/
theorem lines_placed (ordered : List Node) (settings : Settings) :
    again.lines (ordered.map Node.placed) settings = graph.lines ordered settings := by
  have hlines : ∀ node : Node, node.placed.lines settings = node.lines settings := by
    intro node
    cases node <;> rfl
  have hitems : ∀ node : Node,
      node.placed.item? (ordered.map Node.placed) = node.item? ordered := by
    intro node
    cases node with
    | component c => rfl
    | entry e =>
      show (if isAmong (ordered.map Node.placed) e.key = true then some e.item else none) = _
      rw [isAmong_map Node.key_placed]
      rfl
  unfold lines
  rw [hnodes, List.flatMap_map, List.filterMap_map]
  simp only [hlines, Function.comp_def, hitems]

/-- Where every component stands at the field of its key, no field has a component besides its
entry. -/
theorem gathered_of_placed : again.Gathered := by
  refine (List.pairwise_map.mp again.table.distinct).imp_of_mem ?_
  intro first second _ hsecond hne e c hentry hcomponent hpath
  rw [hnodes] at hsecond
  obtain ⟨node, -, hnode⟩ := List.mem_map.mp hsecond
  have hplace : c.path = Path.root.key c.key := by
    have hplaced := node.path_placed
    rw [← node.key_placed, hnode, hcomponent] at hplaced
    exact hplaced
  rw [hplace] at hpath
  rw [hentry, hcomponent] at hne
  exact absurd hpath.symm hne

end

/-! ## Two programs -/

/-- The program of a graph whose edges and values agree, once the nodes are in order. -/
theorem program_of_order {graph : Graph} (hagrees : graph.Agrees) {policy : CyclePolicy}
    {placement : Placement} (horder : graph.order policy = .ok placement) (settings : Settings) :
    graph.program placement.placed settings =
      .ok ("\n".intercalate (graph.lines graph.placement.placed settings)) := by
  rw [program_eq (forM_checkTargets_of_order hagrees horder)]
  obtain ⟨-, rfl, -⟩ := order_eq_ok_iff.mp horder
  rfl

/-- Edges that say the same are ordered under the same policies. -/
theorem SameNeeds.order_eq_ok {a b : Graph} (hneeds : a.SameNeeds b)
    (hkeys : a.table.keys = b.table.keys) {policy : CyclePolicy} {placement : Placement}
    (horder : a.order policy = .ok placement) : b.order policy = .ok b.placement := by
  obtain ⟨href, -, hnone⟩ := order_eq_ok_iff.mp horder
  have href' := hneeds.referenced hkeys href
  refine order_eq_ok_iff.mpr ⟨href', rfl, ?_⟩
  intro hrefuse
  have hacyclic := (omitted_eq_nil_iff_acyclic href).mp (hnone hrefuse)
  unfold Acyclic at hacyclic
  rw [hneeds.precedes_eq] at hacyclic
  exact (omitted_eq_nil_iff_acyclic href').mpr hacyclic

/-- Whether edges are tidy depends on the keys and not on the rest of the nodes. -/
theorem Tidy.withEdges {graph again : Graph} (htidy : again.Tidy)
    (hkeys : graph.table.keys = again.table.keys) : (graph.withEdges again.edges).Tidy := by
  unfold Tidy Graph.withEdges at *
  simp only [hkeys]
  exact htidy

end Graph

variable {σ τ : Type}

/-- The program of a flat document has the lines of the same nodes, in an order that may be another
one. If every component that a top-level field has after its entry leads to the entry, then the two
programs are the same. As for `extract_flatten_sameContent_iff`, the keys in references are words,
and the flat document is a mapping. -/
theorem generate_flatten (source : KeySource σ) (document : Json) (keys : σ) (graph : Graph)
    (reader : KeySource τ) (later : τ) (settings : Settings) (code : String)
    (hdistinct : document.Distinct) (h : (extract source document keys).graph = .ok graph)
    (hcode : (generate source document settings keys).code = .ok code)
    (hplain : graph.flatten.shape = .object .mapping)
    (hwords : ∀ node ∈ graph.table.nodes, ∀ key ∈ node.markers,
      Marker.isWord key.toList = true) :
    code = "\n".intercalate (graph.lines graph.placement.placed settings) ∧
    (∃ ordered, ordered.Perm graph.placement.placed ∧
      (generate reader graph.flatten settings later).code =
        .ok ("\n".intercalate (graph.lines ordered settings))) ∧
    (graph.Gathered → (generate reader graph.flatten settings later).code = .ok code) := by
  obtain ⟨graph', placement, hextract, horder, hprogram⟩ := generate_code_eq_ok_iff.mp hcode
  obtain rfl : graph' = graph := Except.ok.inj (hextract.symm.trans h)
  obtain ⟨again, hagain, -, hnodes⟩ : ∃ again,
      (extract reader graph'.flatten later).graph = .ok again ∧
        (extract reader graph'.flatten later).keys = later ∧
        again.table.nodes = graph'.table.nodes.map Node.placed :=
    Extraction.extract_flatten_of_legible hdistinct h hplain hwords
  have hagrees := Extraction.agrees_of_extract h
  have hagrees' := Extraction.agrees_of_extract hagain
  have hkeys := Graph.keys_of_placed hnodes
  have hneeds : graph'.SameNeeds again := by
    apply Graph.sameNeeds_of_perm
    apply hagrees.edges_perm hagrees'
    rw [hnodes]
    exact Extraction.forall₂_placed graph'.table.nodes
  -- the nodes of the one graph with the edges of the other: what the flat document is ordered like
  have hedges : again.edges = (graph'.withEdges again.edges).edges := rfl
  have hplacement : again.placement.placed =
      (graph'.withEdges again.edges).placement.placed.map Node.placed := by
    rw [Graph.placement_map Node.key_placed hedges hnodes]
  have hneeds' : graph'.SameNeeds (graph'.withEdges again.edges) := hneeds
  have href := (Graph.order_eq_ok_iff.mp horder).1
  rw [Graph.program_of_order hagrees horder] at hprogram
  obtain rfl := Except.ok.inj hprogram
  have hcode' : (generate reader graph'.flatten settings later).code =
      .ok ("\n".intercalate
        (graph'.lines (graph'.withEdges again.edges).placement.placed settings)) := by
    have horder' := hneeds.order_eq_ok hkeys horder
    refine generate_code_eq_ok_iff.mpr ⟨again, _, hagain, horder', ?_⟩
    rw [Graph.program_of_order hagrees' horder', hplacement, Graph.lines_placed hnodes]
  refine ⟨rfl, ⟨_, ?_, hcode'⟩, ?_⟩
  · exact Graph.placed_perm_of_sameNeeds rfl hneeds' href (hneeds'.referenced rfl href)
  · intro hgathered
    have htidy := Extraction.tidy_of_extract (Extraction.nodup_fields hdistinct) h hgathered
    have htidy' : again.Tidy := by
      refine Extraction.tidy_of_extract ?_ hagain (Graph.gathered_of_placed hnodes)
      show (List.map Prod.fst (List.map _ graph'.table.nodes)).Nodup
      rw [List.map_map]
      exact graph'.table.distinct
    have htable : graph'.table = (graph'.withEdges again.edges).table := rfl
    rw [hcode', ← Graph.placement_eq_of_tidy htable hneeds' href htidy (htidy'.withEdges hkeys)]

theorem gathered_sampleGraph : Extraction.sampleGraph.Gathered := by
  refine List.pairwise_cons.mpr ⟨?_, List.pairwise_cons.mpr ⟨?_, List.pairwise_singleton _ _⟩⟩
  · intro second _ e c hentry
    cases hentry
  · intro second hsecond e c hentry hcomponent _
    obtain rfl := List.mem_singleton.mp hsecond
    cases hentry
    cases hcomponent
    exact Relation.TransGen.single
      ⟨⟨"o", "run", ⟨[.key "run", .index 1, .key "params", .key "on"]⟩⟩, by decide, rfl, rfl⟩

theorem generate_flatten_sample :
    Extraction.sampleGraph.Gathered ∧
    ∃ code, (generate KeySource.sequential Extraction.sampleDocument {} 0).code = .ok code ∧
      (generate KeySource.sequential Extraction.sampleGraph.flatten {} 0).code = .ok code := by
  have hcode : (generate KeySource.sequential Extraction.sampleDocument {} 0).code =
      .ok ("import models\n\n\nimport os\n\n\n\n\nreturns = \x7b\n\t\"run\": [\n\t\tn,\n\t\t" ++
        "n.fit(\n\t\t\ton=o\n\t\t)\n\t],\n\x7d") := by cbv
  have hwords : ∀ node ∈ Extraction.sampleGraph.table.nodes, ∀ key ∈ node.markers,
      Marker.isWord key.toList = true := by
    simp only [Extraction.sampleGraph, List.forall_mem_cons]
    decide
  refine ⟨gathered_sampleGraph, _, hcode, ?_⟩
  exact (generate_flatten _ _ _ _ _ _ _ _ Extraction.sampleDocument_distinct
    Extraction.extract_sampleDocument hcode (by decide) hwords).2.2 gathered_sampleGraph

/-- A top-level field with a result, a component that nothing needs, and another result. -/
def looseDocument : Json := .object
  [("k", .object [("module", .string "m"), ("object_key", .string "k")]),
   ("a", .object [("module", .string "m"), ("object_key", .string "a")]),
   ("e", .array
     [.string "\x7ba\x7d",
      .object
        [("module", .string "m"), ("class_name", .string "D"), ("object_key", .string "d"),
         ("params", .object [("x", .string "\x7bk\x7d")])],
      .string "\x7bk\x7d"])]

/-- The graph of `looseDocument`. -/
def looseGraph : Graph where
  table :=
    { nodes :=
        [.component ⟨"k", "m", none, [], [], "k", ⟨[.key "k"]⟩⟩,
         .component ⟨"a", "m", none, [], [], "a", ⟨[.key "a"]⟩⟩,
         .entry ⟨"e", [.reference "a", .reference "k"]⟩,
         .component ⟨"d", "m", some (.className "D"), [("x", .reference "k")], [], "1",
           ⟨[.key "e", .index 1]⟩⟩]
      indexed := .of_nodup (by decide) }
  edges :=
    [⟨"a", "e", ⟨[.key "e", .index 0]⟩⟩,
     ⟨"k", "d", ⟨[.key "e", .index 1, .key "params", .key "x"]⟩⟩,
     ⟨"k", "e", ⟨[.key "e", .index 2]⟩⟩]

/-- The program of `looseDocument`. -/
def looseCode : String :=
  "import m\n\n\nimport m\n\n\nfrom m import D\nd = D(\n\tx=k\n)\n\n\n\n\n" ++
  "returns = \x7b\n\t\"e\": [\n\t\ta,\n\t\tk\n\t],\n\x7d"

/-- The program of the flat document of `looseGraph`: the empty lines of the entry come before the
component. -/
def flatLooseCode : String :=
  "import m\n\n\nimport m\n\n\n\n\nfrom m import D\nd = D(\n\tx=k\n)\n\n\n" ++
  "returns = \x7b\n\t\"e\": [\n\t\ta,\n\t\tk\n\t],\n\x7d"

/-- Flattening may change the program. In the document `k` is needed by the component first and by
the entry later, so the component is written first; in the flat document it is the other way
round. -/
theorem generate_flatten_looseDocument :
    looseDocument.Distinct ∧
    (extract KeySource.sequential looseDocument 0).graph = .ok looseGraph ∧
    looseGraph.flatten.shape = .object .mapping ∧
    (∀ node ∈ looseGraph.table.nodes, ∀ key ∈ node.markers, Marker.isWord key.toList = true) ∧
    (generate KeySource.sequential looseDocument {} 0).code = .ok looseCode ∧
    (generate KeySource.sequential looseGraph.flatten {}
      (extract KeySource.sequential looseDocument 0).keys).code = .ok flatLooseCode ∧
    (generate KeySource.sequential looseGraph.flatten {}
      (extract KeySource.sequential looseDocument 0).keys).code ≠
        (generate KeySource.sequential looseDocument {} 0).code := by
  have hcode : (generate KeySource.sequential looseDocument {} 0).code = .ok looseCode := by cbv
  have hflat : (generate KeySource.sequential looseGraph.flatten {}
      (extract KeySource.sequential looseDocument 0).keys).code = .ok flatLooseCode := by cbv
  refine ⟨?_, by cbv, by decide, ?_, hcode, hflat, ?_⟩
  · simp [looseDocument, Json.Distinct, Json.DistinctItems, Json.DistinctMembers]
  · simp only [looseGraph, List.forall_mem_cons]
    decide
  · rw [hcode, hflat]
    intro hsame
    exact absurd (Except.ok.inj hsame) (by decide)

end Blueprint
