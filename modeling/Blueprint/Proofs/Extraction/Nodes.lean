import Blueprint.Proofs.Extraction.ReadBack

/-!
# `Blueprint/Proofs/Extraction/Nodes.lean` — the nodes of a graph read back

Values reach the table in two ways: a component is filled with its arguments, and an entry collects
references and calls. Both keep the table made of values that read back, and so does the resolution
of names at the end, because `Walked.readsBack` holds of renamed values as well.

For entries a second fact is needed. An entry is written as its results, so one without results
would leave nothing behind to be read. There is none: an entry is opened for the sake of a
dependency, which is recorded at once, and by then the account of
`Blueprint/Proofs/Extraction/Accounts.lean` is bound to be settled with a result.
-/

set_option autoImplicit false

namespace Blueprint

namespace Value

theorem renameItems_eq (naming : String → String) (items : List Value) :
    renameItems naming items = items.map (rename naming) := by
  induction items with
  | nil => simp [renameItems]
  | cons item rest ih => simp [renameItems, ih]

end Value

namespace Extraction

variable {σ τ : Type}

/-- Arguments that are written as they stand and read back. -/
structure ParamsReadBack (reader : KeySource τ) (params : List (String × Value)) : Prop where
  nodup : (params.map Prod.fst).Nodup
  readsBack : ReadsBack reader (.members (Value.toDocumentPairs params)) (.entries params)

/-- The results that are collected: references, and calls with arguments that read back. -/
inductive ResultReadsBack (reader : KeySource τ) : Value → Prop
  | reference (key : String) : ResultReadsBack reader (.reference key)
  | call {target method : String} {params : List (String × Value)}
      (arguments : ParamsReadBack reader params) :
      ResultReadsBack reader (.call target method params)

/-- Whatever the node holds reads back in its place. -/
def NodeReadsBack (reader : KeySource τ) : Node → Prop
  | .component c =>
    ParamsReadBack reader c.params ∧
      ReadsBack reader (.items (Value.toDocumentItems c.methodArgs) 0) (.items c.methodArgs)
  | .entry e => ∀ result ∈ e.results, ResultReadsBack reader result

/-- Every node of the table reads back once it is renamed. -/
def State.ReadsBack (reader : KeySource τ) (naming : String → String) (state : State σ) : Prop :=
  ∀ node ∈ state.table.nodes, NodeReadsBack reader (node.rename naming)

variable {source : KeySource σ} {reader : KeySource τ} {naming : String → String}
  {owner : Option Owner} {path : Path} {before after : State σ}

theorem Walked.paramsReadBack {members : List (String × Json)} {params : List (String × Value)}
    (h : Walked source (.params members) path owner before (.entries params) after)
    (hdistinct : Json.DistinctMembers members) :
    ParamsReadBack reader (Value.renameEntries naming params) where
  nodup := by
    rw [Value.names_renameEntries]
    exact h.nodup_params hdistinct
  readsBack := h.readsBack reader naming hdistinct

/-! ## One step -/

theorem ParamsReadBack.nil : ParamsReadBack reader [] := ⟨List.nodup_nil, .membersNil⟩

theorem State.ReadsBack.attached (h : before.ReadsBack reader naming) (found : Owner)
    {value : Value} (hvalue : ResultReadsBack reader (value.rename naming)) :
    (before.attached found value).ReadsBack reader naming := by
  unfold State.attached
  split
  · refine Table.forall_nodes_editAt (Node.key_collect value) _ h fun node hnode => ?_
    cases node with
    | component c => exact hnode
    | entry e =>
      intro result hresult
      have hsplit : result ∈ Value.renameItems naming e.results ++ [value.rename naming] := by
        rw [Value.renameItems_eq]
        simpa [Node.collect, Node.rename, Value.renameItems_eq] using hresult
      rcases List.mem_append.mp hsplit with hearlier | hlast
      · exact hnode result hearlier
      · obtain rfl := List.mem_singleton.mp hlast
        exact hvalue
  · exact h

theorem State.ReadsBack.filled (h : before.ReadsBack reader naming) (key : String)
    {params : List (String × Value)} {methodArgs : List Value}
    (hparams : ParamsReadBack reader (Value.renameEntries naming params))
    (hmethodArgs : Extraction.ReadsBack reader
      (.items (Value.toDocumentItems (Value.renameItems naming methodArgs)) 0)
      (.items (Value.renameItems naming methodArgs))) :
    (before.filled key params methodArgs).ReadsBack reader naming := by
  refine Table.forall_nodes_editAt (Node.key_fill params methodArgs) key h fun node hnode => ?_
  cases node with
  | component c => exact ⟨hparams, hmethodArgs⟩
  | entry e => exact hnode

theorem Opened.readsBack {found : Owner} (opened : Opened owner path before found after)
    (h : before.ReadsBack reader naming) : after.ReadsBack reader naming := by
  cases opened with
  | given | known => exact h
  | fresh _ inserted =>
    -- an entry that was just opened has no results yet
    refine Table.forall_nodes_insert inserted h fun result hresult => ?_
    cases hresult

theorem Entered.readsBack {members : List (String × Json)} {key : String}
    (entered : Entered source members path owner before key after)
    (h : before.ReadsBack reader naming) : after.ReadsBack reader naming := by
  cases entered with
  | alone _ _ inserted => exact Table.forall_nodes_insert inserted h ⟨.nil, .itemsNil 0⟩
  | owned _ _ inserted _ =>
    refine State.ReadsBack.attached ?_ _ (.reference _)
    exact Table.forall_nodes_insert inserted h ⟨.nil, .itemsNil 0⟩

/-! ## A whole walk -/

theorem Walked.nodes_readBack {part : Part} {yield : Yield}
    (h : Walked source part path owner before yield after) (hdistinct : part.Distinct)
    (hbefore : before.ReadsBack reader naming) : after.ReadsBack reader naming := by
  induction h with
  | null | bool | number | plainText | itemsNil | membersNil | blockNil | noParams
  | noMethodArgs => exact hbefore
  | marker marks opened other =>
    refine State.ReadsBack.attached ?_ _ (.reference _)
    exact opened.readsBack hbefore
  | array _ ih => exact ih hdistinct hbefore
  | component shape entered first second ih₁ ih₂ =>
    have hwalked := ih₂ hdistinct.2 (ih₁ hdistinct.2 (entered.readsBack hbefore))
    exact hwalked.filled _ (first.paramsReadBack hdistinct.2)
      (second.readsBack reader naming hdistinct.2)
  | call shape callee opened other walked ih =>
    have hwalked := ih hdistinct.2 (opened.readsBack hbefore)
    exact hwalked.attached _ (.call (walked.paramsReadBack hdistinct.2))
  | methodBlock shape _ ih | mapping shape _ ih => exact ih hdistinct.2 hbefore
  | itemsCons _ _ ih₁ ih₂ | membersCons _ _ ih₁ ih₂ | blockCons _ _ _ ih₁ ih₂ =>
    exact ih₂ hdistinct.2 (ih₁ hdistinct.1 hbefore)
  | blockParams _ _ ih₁ ih₂ => exact ih₂ hdistinct.2 (ih₁ hdistinct.1.2 hbefore)
  | someParams found _ ih => exact ih (Json.Distinct.of_get? hdistinct found).2 hbefore
  | someMethodArgs found _ ih => exact ih (Json.Distinct.of_get? hdistinct found) hbefore

/-! ## Every entry is needed for something -/

/-- If the node is an entry, it has an edge. -/
def LinkedBy (edges : List Edge) : Node → Prop
  | .component _ => True
  | .entry e => dependenciesOf edges e.key ≠ []

/-- Every entry has an edge. -/
def State.Linked (state : State σ) : Prop :=
  ∀ node ∈ state.table.nodes, LinkedBy state.edges node

theorem LinkedBy.append {edges : List Edge} {node : Node} (h : LinkedBy edges node)
    (more : List Edge) : LinkedBy (edges ++ more) node := by
  cases node with
  | component c => trivial
  | entry e =>
    show dependenciesOf (edges ++ more) e.key ≠ []
    rw [dependenciesOf_append]
    exact List.append_ne_nil_of_left_ne_nil h _

theorem State.Linked.attached (h : before.Linked) (found : Owner) (value : Value) :
    (before.attached found value).Linked := by
  unfold State.Linked
  rw [State.attached_edges]
  unfold State.attached
  split
  · refine Table.forall_nodes_editAt (Node.key_collect value) _ h fun node hnode => ?_
    cases node with
    | component c => trivial
    | entry e => exact hnode
  · exact h

theorem State.Linked.filled (h : before.Linked) (key : String) (params : List (String × Value))
    (methodArgs : List Value) : (before.filled key params methodArgs).Linked := by
  refine Table.forall_nodes_editAt (Node.key_fill params methodArgs) key h fun node hnode => ?_
  cases node with
  | component c => trivial
  | entry e => exact hnode

/-- An entry is opened together with its first edge. -/
theorem Opened.linked {found : Owner} {dependency : String}
    (opened : Opened owner path before found after) (h : before.Linked) :
    (after.linked dependency found path).Linked := by
  cases opened with
  | given | known => exact fun node hnode => (h node hnode).append _
  | fresh _ inserted =>
    refine Table.forall_nodes_insert inserted (fun node hnode => (h node hnode).append _) ?_
    show dependenciesOf (before.edges ++ [_]) _ ≠ []
    rw [dependenciesOf_append, dependenciesOf_singleton]
    simp [Owner.key]

theorem Entered.linked {members : List (String × Json)} {key : String}
    (entered : Entered source members path owner before key after) (h : before.Linked) :
    after.Linked := by
  cases entered with
  | alone _ _ inserted => exact Table.forall_nodes_insert inserted h trivial
  | owned _ _ inserted _ =>
    refine State.Linked.attached ?_ _ _
    exact Table.forall_nodes_insert inserted (fun node hnode => (h node hnode).append _) trivial

theorem Walked.linked {part : Part} {yield : Yield}
    (h : Walked source part path owner before yield after) (hbefore : before.Linked) :
    after.Linked := by
  induction h with
  | null | bool | number | plainText | itemsNil | membersNil | blockNil | noParams
  | noMethodArgs => exact hbefore
  | marker marks opened other => exact (opened.linked hbefore).attached _ _
  | component shape entered _ _ ih₁ ih₂ => exact (ih₂ (ih₁ (entered.linked hbefore))).filled _ _ _
  | call shape callee opened other _ ih => exact (ih (opened.linked hbefore)).attached _ _
  | itemsCons _ _ ih₁ ih₂ | membersCons _ _ ih₁ ih₂ | blockCons _ _ _ ih₁ ih₂
  | blockParams _ _ ih₁ ih₂ => exact ih₂ (ih₁ hbefore)
  | array _ ih | methodBlock _ _ ih | mapping _ _ ih | someParams _ _ ih
  | someMethodArgs _ _ ih => exact ih hbefore

/-! ## The graph -/

/-- The nodes of the graph of a document read back, for every source of keys, and every entry has a
result. -/
theorem readsBack_of_extract {document : Json} {keys : σ} {graph : Graph} (reader : KeySource τ)
    (hdistinct : document.Distinct) (h : (extract source document keys).graph = .ok graph) :
    ∀ node ∈ graph.table.nodes,
      NodeReadsBack reader node ∧ ∀ entry, node = .entry entry → entry.results ≠ [] := by
  obtain ⟨value, state, hwalked, -, rfl⟩ := exists_walked_of_extract h
  have hagrees := agrees_of_extract h
  have hread : state.ReadsBack reader (resolve state.names) :=
    hwalked.nodes_readBack hdistinct fun node hmem => by cases hmem
  have hlinked : state.Linked := hwalked.linked fun node hmem => by cases hmem
  intro node hnode
  obtain ⟨old, hold, rfl⟩ := List.mem_map.mp hnode
  refine ⟨hread old hold, ?_⟩
  intro entry hentry hempty
  cases old with
  | component c => cases hentry
  | entry e =>
    -- no results means no references, and so no edges
    have hreferences := hagrees.references _ hnode
    rw [hentry, Node.references, Node.values, hempty, ← hentry] at hreferences
    have hedges : dependenciesOf (state.edges.map (resolvedEdge state.names)) e.key = [] :=
      hreferences
    rw [dependenciesOf_resolved, List.map_eq_nil_iff] at hedges
    exact hlinked (.entry e) hold hedges

end Extraction

end Blueprint
