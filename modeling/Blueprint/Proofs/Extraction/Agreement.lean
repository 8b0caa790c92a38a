import Blueprint.Proofs.Extraction.Accounts
import Mathlib

/-!
# `Blueprint/Proofs/Extraction/Agreement.lean` — edges and values agree

The account of `Blueprint/Proofs/Extraction/Accounts.lean` is kept by every walk, one case for each
kind of part, and closed at the root. What is left is the resolution of field names. It goes over
the edges and over the values separately, and it keeps them in agreement because both passes rename
by the same function, and renaming a value renames its references in place.
-/

set_option autoImplicit false

namespace Blueprint

/-! ## Renaming -/

namespace Value

variable (naming : String → String)

mutual

theorem references_rename : ∀ value : Value,
    (value.rename naming).references = value.references.map naming
  | .null => rfl
  | .bool _ => rfl
  | .number _ => rfl
  | .string _ => rfl
  | .reference _ => rfl
  | .sequence items => by
    rw [rename, references, references, referencesItems_rename items]
  | .mapping entries => by
    rw [rename, references, references, referencesEntries_rename entries]
  | .call target method params => by
    rw [rename, references, references, referencesEntries_rename params, List.map_cons]

theorem referencesItems_rename : ∀ items : List Value,
    referencesItems (renameItems naming items) = (referencesItems items).map naming
  | [] => rfl
  | item :: rest => by
    rw [renameItems, referencesItems, referencesItems, references_rename item,
      referencesItems_rename rest, List.map_append]

theorem referencesEntries_rename : ∀ entries : List (String × Value),
    referencesEntries (renameEntries naming entries) = (referencesEntries entries).map naming
  | [] => rfl
  | (_, value) :: rest => by
    rw [renameEntries, referencesEntries, referencesEntries, references_rename value,
      referencesEntries_rename rest, List.map_append]

end

end Value

theorem Node.references_rename (naming : String → String) (node : Node) :
    (node.rename naming).references = node.references.map naming := by
  cases node with
  | component c =>
    show ((Value.renameEntries naming c.params).map Prod.snd ++
      Value.renameItems naming c.methodArgs).flatMap Value.references = List.map naming
        ((c.params.map Prod.snd ++ c.methodArgs).flatMap Value.references)
    rw [List.flatMap_append, ← Value.referencesEntries_eq, ← Value.referencesItems_eq,
      Value.referencesEntries_rename, Value.referencesItems_rename, ← List.map_append,
      List.flatMap_append, Value.referencesEntries_eq, Value.referencesItems_eq]
  | entry e =>
    show (Value.renameItems naming e.results).flatMap Value.references =
      (e.results.flatMap Value.references).map naming
    rw [← Value.referencesItems_eq, Value.referencesItems_rename, Value.referencesItems_eq]

/-- Edges and values agree: every edge leads from one node to another node of the table, and the
edges of a node are its references. -/
structure Graph.Agrees (graph : Graph) : Prop where
  dependent_mem : ∀ edge ∈ graph.edges, edge.dependent ∈ graph.table.keys
  irreflexive : ∀ edge ∈ graph.edges, edge.dependency ≠ edge.dependent
  references : ∀ node ∈ graph.table.nodes, dependenciesOf graph.edges node.key = node.references

namespace Extraction

variable {σ : Type} {source : KeySource σ}

/-! ## Every walk keeps the account -/

theorem Yield.references_value (value : Value) :
    (Yield.value value).references = value.references := by
  show [value].flatMap Value.references = _
  rw [List.flatMap_singleton]

theorem Yield.references_items_cons (value : Value) (values : List Value) :
    (Yield.items (value :: values)).references =
      value.references ++ (Yield.items values).references := List.flatMap_cons

theorem Yield.references_entries_cons (name : String) (value : Value)
    (entries : List (String × Value)) :
    (Yield.entries ((name, value) :: entries)).references =
      value.references ++ (Yield.entries entries).references := List.flatMap_cons

theorem Walked.accounted {part : Part} {path : Path} {owner : Option Owner}
    {before after : State σ} {yield : Yield}
    (h : Walked source part path owner before yield after) (hosted : Hosted owner before) :
    Accounted owner yield.references before after := by
  induction h with
  | null | bool | number | plainText | itemsNil | membersNil | blockNil | noParams
  | noMethodArgs => exact Accounted.refl _ _
  | marker marks opened other =>
    rw [Yield.references_value]
    exact opened.accounted hosted other (Accounted.refl _ _) rfl
  | array _ ih =>
    rw [Yield.references_value, Value.references, Value.referencesItems_eq]
    exact ih hosted
  | @component _ path _ _ s₁ _ _ key _ _ shape entered _ _ ih₁ ih₂ =>
    -- while its arguments are walked, the component is the owner
    have hosted₁ : Hosted (some (.component key path.lastText)) s₁ := by
      obtain ⟨c, hnodes, hkey, -, -⟩ := entered.exists_nodes_eq hosted
      rintro _ ⟨⟩
      refine ⟨?_, rfl⟩
      rw [Table.keys_of_nodes_append hnodes]
      exact List.mem_append_right _ (List.mem_singleton.mpr hkey.symm)
    have hfirst := ih₁ hosted₁
    have hboth := hfirst.trans (ih₂ (hosted₁.mono hfirst))
    rw [Yield.references_value]
    refine entered.accounted_filled hosted ?_
    rw [List.flatMap_append]
    exact hboth
  | @call _ path _ _ s₁ _ found target _ _ shape callee opened other _ ih =>
    have hosted₁ : Hosted (some found.insideCall) (s₁.linked target found path) := by
      rintro _ ⟨⟩
      rw [Owner.insideCall_key]
      exact ⟨opened.mem_keys hosted, Owner.insideCall_collects _⟩
    rw [Yield.references_value]
    exact opened.accounted hosted other (ih hosted₁) (Value.references_call _ _ _)
  | methodBlock shape _ ih | mapping shape _ ih =>
    rw [Yield.references_value, Value.references, Value.referencesEntries_eq]
    exact ih hosted
  | itemsCons _ _ ih₁ ih₂ =>
    have hfirst := ih₁ hosted
    rw [Yield.references_items_cons, ← Yield.references_value]
    exact hfirst.trans (ih₂ (hosted.mono hfirst))
  | membersCons _ _ ih₁ ih₂ | blockCons _ _ _ ih₁ ih₂ =>
    have hfirst := ih₁ hosted
    rw [Yield.references_entries_cons, ← Yield.references_value]
    exact hfirst.trans (ih₂ (hosted.mono hfirst))
  | blockParams _ _ ih₁ ih₂ =>
    have hfirst := ih₁ hosted
    rw [Yield.references_entries_cons, Value.references, Value.referencesEntries_eq]
    exact hfirst.trans (ih₂ (hosted.mono hfirst))
  | someParams found _ ih | someMethodArgs found _ ih => exact ih hosted

/-- After the whole document has been walked every key is balanced. -/
theorem Walked.balanced_of_initial {document : Json} {keys : σ} {value : Value} {state : State σ}
    (h : Walked source (.value document) Path.root none (initial keys) (.value value) state) :
    state.Sound ∧ ∀ key, state.Balanced key := by
  have haccount := h.accounted (fun _ ho => absurd ho (by simp))
  refine ⟨haccount.sound fun edge hedge => absurd hedge (by simp [initial]), fun key => ?_⟩
  exact haccount.balanced key (fun _ ho => absurd ho (by simp)) rfl

/-! ## The graph -/

theorem dependenciesOf_resolved (names : List (String × String)) (edges : List Edge)
    (key : String) :
    dependenciesOf (edges.map (resolvedEdge names)) key =
      (dependenciesOf edges key).map (resolve names) := by
  unfold dependenciesOf
  rw [List.filter_map, List.map_map, List.map_map]
  rfl

theorem resolve_ne_of_resolvable {state : State σ} (hresolvable : state.Resolvable) {edge : Edge}
    (hedge : edge ∈ state.edges) (hother : edge.dependency ≠ edge.dependent) :
    resolve state.names edge.dependency ≠ edge.dependent := by
  have hnot := hresolvable edge hedge
  unfold resolve
  cases hlookup : state.names.lookup edge.dependency with
  | none => exact hother
  | some key =>
    rw [hlookup] at hnot
    exact fun hsame => hnot (congrArg some hsame)

theorem agrees_of_extract {document : Json} {keys : σ} {graph : Graph}
    (h : (extract source document keys).graph = .ok graph) : graph.Agrees := by
  obtain ⟨value, state, hwalked, hresolvable, rfl⟩ := exists_walked_of_extract h
  obtain ⟨hsound, hbalanced⟩ := hwalked.balanced_of_initial
  refine ⟨fun edge hedge => ?_, fun edge hedge => ?_, fun node hnode => ?_⟩
  · obtain ⟨old, hold, rfl⟩ := List.mem_map.mp hedge
    rw [State.graph, Table.keys_edit]
    exact (hsound old hold).1
  · obtain ⟨old, hold, rfl⟩ := List.mem_map.mp hedge
    exact resolve_ne_of_resolvable hresolvable hold (hsound old hold).2
  · obtain ⟨old, hold, rfl⟩ := List.mem_map.mp hnode
    have hfind : state.table.find? old.key = some old :=
      Table.find?_eq_some_iff.mpr ⟨hold, rfl⟩
    have hagree : dependenciesOf state.edges old.key = old.references := by
      have hkey := hbalanced old.key
      unfold State.Balanced Table.references at hkey
      rw [hkey, hfind]
      rfl
    show dependenciesOf (state.edges.map (resolvedEdge state.names)) (old.rename _).key =
      (old.rename _).references
    rw [Node.key_rename, dependenciesOf_resolved, hagree, Node.references_rename]

/-- In the graph of a document every edge leads from one node to another node of the table, and the
edges of a node are the references in its values, in the same order and with the same repeats. -/
theorem extract_edges_eq_references (source : KeySource σ) (document : Json) (keys : σ)
    (graph : Graph) (h : (extract source document keys).graph = .ok graph) :
    (∀ edge ∈ graph.edges,
      edge.dependent ∈ graph.table.keys ∧ edge.dependency ≠ edge.dependent) ∧
    ∀ node ∈ graph.table.nodes,
      (graph.edges.filter (·.dependent = node.key)).map Edge.dependency =
        node.values.flatMap Value.references := by
  have hagrees := agrees_of_extract h
  refine ⟨fun edge hedge => ?_, fun node hnode => hagrees.references node hnode⟩
  exact ⟨hagrees.dependent_mem edge hedge, hagrees.irreflexive edge hedge⟩

/-- A component under a field of another name, which a result names by the field, and a component
inside the arguments of a call. -/
def sampleDocument : Json := .object
  [("net", .object [("module", .string "models"), ("object_key", .string "n")]),
   ("run", .array
     [.string "\x7bnet\x7d",
      .object
        [("reference_key", .string "n"),
         ("function_call", .string "fit"),
         ("params", .object
           [("on", .object [("module", .string "os"), ("object_key", .string "o")])])]])]

/-- The graph of `sampleDocument`. -/
def sampleGraph : Graph where
  table :=
    { nodes :=
        [.component ⟨"n", "models", none, [], [], "net", ⟨[.key "net"]⟩⟩,
         .entry ⟨"run", [.reference "n", .call "n" "fit" [("on", .reference "o")]]⟩,
         .component ⟨"o", "os", none, [], [], "on",
           ⟨[.key "run", .index 1, .key "params", .key "on"]⟩⟩]
      indexed := .of_nodup (by decide) }
  edges :=
    [⟨"n", "run", ⟨[.key "run", .index 0]⟩⟩,
     ⟨"n", "run", ⟨[.key "run", .index 1]⟩⟩,
     ⟨"o", "run", ⟨[.key "run", .index 1, .key "params", .key "on"]⟩⟩]

theorem extract_sampleDocument :
    (extract KeySource.sequential sampleDocument 0).graph = .ok sampleGraph := by cbv

theorem extract_edges_eq_references_sample :
    (extract KeySource.sequential sampleDocument 0).graph = .ok sampleGraph ∧
    (∀ edge ∈ sampleGraph.edges,
      edge.dependent ∈ sampleGraph.table.keys ∧ edge.dependency ≠ edge.dependent) ∧
    ∀ node ∈ sampleGraph.table.nodes,
      (sampleGraph.edges.filter (·.dependent = node.key)).map Edge.dependency =
        node.values.flatMap Value.references :=
  ⟨extract_sampleDocument, extract_edges_eq_references _ _ _ _ extract_sampleDocument⟩

end Extraction

end Blueprint
