import Blueprint.Proofs.Extraction.Nodes

/-!
# `Blueprint/Proofs/Extraction/FlatWalk.lean` — walking a flat document

A flat document has one field for each node, and walking a field deals with one node and nothing
else: whatever was nested in the node is a marker by now. That is shown twice, once for each
direction of the round trip.

* Onwards: a node whose markers are words is put at the end of the table, as it was except for its
  place, and no token is drawn, because a flat component names its key.
* Backwards: whatever a walk of a flat document leaves in the table is `Settled`. All markers are
  words, and each node is at the field of its own key, so there are no other names to resolve.

A field is walked without an owner, and that is where this file differs from
`Blueprint/Proofs/Extraction/ReadBack.lean`: the results of an entry are collected as they are met.
-/

set_option autoImplicit false

namespace Blueprint

theorem Table.nodes_editAt_last {table : Table} {nodes : List Node} {node : Node}
    {change : Node → Node} (keeps : ∀ node, (change node).key = node.key)
    (h : table.nodes = nodes ++ [node]) :
    (table.editAt node.key change keeps).nodes = nodes ++ [change node] := by
  have hdistinct := table.distinct
  rw [h, List.map_append, List.nodup_append] at hdistinct
  have hothers : ∀ other ∈ nodes, other.key ≠ node.key := fun other hother =>
    hdistinct.2.2 _ (List.mem_map_of_mem hother) _ (List.mem_singleton.mpr rfl)
  rw [nodes_editAt, h, List.map_append, List.map_singleton, if_pos rfl]
  congr 1
  calc nodes.map _ = nodes.map id :=
        List.map_congr_left fun other hother => if_neg (hothers other hother)
    _ = nodes := List.map_id nodes

namespace Value

theorem markersItems_eq (items : List Value) : markersItems items = items.flatMap markers := by
  induction items with
  | nil => simp [markersItems]
  | cons item rest ih => simp [markersItems, ih]

theorem markersEntries_eq (entries : List (String × Value)) :
    markersEntries entries = (entries.map Prod.snd).flatMap markers := by
  induction entries with
  | nil => simp [markersEntries]
  | cons entry rest ih => simp [markersEntries, ih]

end Value

namespace Node

/-- The keys that a node writes as markers. -/
def markers (node : Node) : List String := node.values.flatMap Value.markers

/-- Every marker of the node is a word. -/
def Legible (node : Node) : Prop := ∀ key ∈ node.markers, Marker.isWord key.toList = true

theorem legible_of_markers_eq_nil {node : Node} (h : node.markers = []) : node.Legible := by
  intro key hkey
  rw [h] at hkey
  exact absurd hkey (by simp)

theorem legible_component {c : Component} :
    (component c).Legible ↔
      (Extraction.Yield.entries c.params).Legible ∧
        (Extraction.Yield.items c.methodArgs).Legible := by
  have hmarkers : (component c).markers = (Extraction.Yield.entries c.params).markers ++
      (Extraction.Yield.items c.methodArgs).markers := by
    show (c.params.map Prod.snd ++ c.methodArgs).flatMap Value.markers =
      Value.markersEntries c.params ++ Value.markersItems c.methodArgs
    rw [Value.markersEntries_eq, Value.markersItems_eq, List.flatMap_append]
  unfold Legible
  rw [hmarkers, List.forall_mem_append]
  rfl

theorem legible_entry {e : Entry} :
    (entry e).Legible ↔ ∀ result ∈ e.results, (Extraction.Yield.value result).Legible := by
  constructor
  · intro h result hresult key hkey
    exact h key (List.mem_flatMap.mpr ⟨result, hresult, hkey⟩)
  · intro h key hkey
    obtain ⟨result, hresult, hkey⟩ := List.mem_flatMap.mp hkey
    exact h result hresult key hkey

/-- The node as a flat document gives it back: a component is at the field of its key. -/
def placed : Node → Node
  | .component c => .component { c with name := c.key, path := Path.root.key c.key }
  | .entry e => .entry e

theorem key_placed (node : Node) : node.placed.key = node.key := by
  cases node <;> rfl

theorem path_placed (node : Node) : node.placed.path = Path.root.key node.key := by
  cases node <;> rfl

theorem toDocument_placed (node : Node) : node.placed.toDocument = node.toDocument := by
  cases node <;> rfl

end Node

namespace Extraction

variable {σ : Type} {source : KeySource σ}

theorem ParamsReadBack.bindAll_eq {params : List (String × Value)}
    (h : ParamsReadBack source params) :
    Json.bindAll (Value.toDocumentPairs params) = Value.toDocumentPairs params := by
  apply Json.bindAll_of_nodup
  rw [Value.names_toDocumentPairs]
  exact h.nodup

theorem ParamsReadBack.call {params : List (String × Value)} (h : ParamsReadBack source params)
    (target method : String) :
    (Value.call target method params).toDocument =
        .object (callMembers target method (Value.toDocumentPairs params)) ∧
      ReadsBack source (.params (callMembers target method (Value.toDocumentPairs params)))
        (.entries params) := by
  refine ⟨?_, .someParams rfl h.readsBack⟩
  show Json.object (callMembers target method (Json.bindAll _)) = _
  rw [h.bindAll_eq]

/-! ## The fields of a flat component -/

/-- The members with which a component is written. -/
def flatMembers (c : Component) : List (String × Json) :=
  [(Field.module, .string c.module)]
    ++ (c.callable.map Callable.toMember).toList
    ++ [(Field.objectKey, .string c.key)]
    ++ (if c.params.isEmpty then []
        else [(Field.params, .object (Json.bindAll (Value.toDocumentPairs c.params)))])
    ++ (if c.methodArgs.isEmpty then []
        else [(Field.methodArgs, .array (Value.toDocumentItems c.methodArgs))])

theorem objectShape_flatMembers (c : Component) :
    Json.objectShape (flatMembers c) = .component := by
  have hmodule : Json.isComponent (flatMembers c) = true := rfl
  unfold Json.objectShape
  rw [if_pos hmodule]

theorem declaration_flatMembers (c : Component) (path : Path) :
    declaration (flatMembers c) path = .ok ⟨c.module, c.callable, some c.key⟩ := by
  obtain ⟨key, module, callable, params, methodArgs, name, place⟩ := c
  rcases callable with _ | callable
  · cases params <;> cases methodArgs <;> rfl
  · cases callable <;> cases params <;> cases methodArgs <;> rfl

theorem get?_params_flatMembers (c : Component) :
    Json.get? Field.params (flatMembers c) =
      if c.params.isEmpty then none
      else some (.object (Json.bindAll (Value.toDocumentPairs c.params))) := by
  obtain ⟨key, module, callable, params, methodArgs, name, place⟩ := c
  rcases callable with _ | callable
  · cases params <;> cases methodArgs <;> rfl
  · cases callable <;> cases params <;> cases methodArgs <;> rfl

theorem get?_methodArgs_flatMembers (c : Component) :
    Json.get? Field.methodArgs (flatMembers c) =
      if c.methodArgs.isEmpty then none
      else some (.array (Value.toDocumentItems c.methodArgs)) := by
  obtain ⟨key, module, callable, params, methodArgs, name, place⟩ := c
  rcases callable with _ | callable
  · cases params <;> cases methodArgs <;> rfl
  · cases callable <;> cases params <;> cases methodArgs <;> rfl

/-- Arguments that are left out because there are none read back as well. -/
theorem readsBack_flatMembers {c : Component} (h : NodeReadsBack source (.component c)) :
    ReadsBack source (.params (flatMembers c)) (.entries c.params) ∧
      ReadsBack source (.methodArgs (flatMembers c)) (.items c.methodArgs) := by
  obtain ⟨hparams, hmethodArgs⟩ := h
  have hfirst := get?_params_flatMembers c
  have hsecond := get?_methodArgs_flatMembers c
  constructor
  · by_cases hempty : c.params = []
    · rw [hempty] at hfirst ⊢
      exact .noParams hfirst
    · rw [if_neg (by simpa using hempty), hparams.bindAll_eq] at hfirst
      exact .someParams hfirst hparams.readsBack
  · by_cases hempty : c.methodArgs = []
    · rw [hempty] at hsecond ⊢
      exact .noMethodArgs hsecond
    · rw [if_neg (by simpa using hempty)] at hsecond
      exact .someMethodArgs hsecond hmethodArgs

/-! ## Onwards: a node is walked to its place -/

/-- The document of a node, walked at the field of the node's key, adds the node to the table and
draws no token. -/
def Replays (source : KeySource σ) (node : Node) : Prop :=
  ∀ s : State σ, node.key ∉ s.table.keys →
    ∃ value s', Walked source (.value node.toDocument) (Path.root.key node.key) none s
        (.value value) s' ∧
      s'.table.nodes = s.table.nodes ++ [node.placed] ∧ s'.keys = s.keys

theorem replays_component {c : Component} (h : NodeReadsBack source (.component c))
    (hlegible : (Node.component c).Legible) (hspared : c.key ∉ (Node.component c).references) :
    Replays source (.component c) := by
  intro s hnew
  obtain ⟨hparams, hmethodArgs⟩ := readsBack_flatMembers h
  obtain ⟨hlegible₁, hlegible₂⟩ := Node.legible_component.mp hlegible
  rw [Node.references, Node.values, List.flatMap_append, List.mem_append, not_or] at hspared
  -- the component is entered under the key that it names
  let path := Path.root.key c.key
  let empty : Component := { c with params := [], methodArgs := [], name := c.key, path }
  obtain ⟨table, hinserted⟩ := Table.exists_insert (.component empty) hnew
  have hentered : Entered source (flatMembers c) path none s c.key
      ({ s with table }.reported (.component c.key path)) :=
    .alone (declaration_flatMembers c path) rfl hinserted
  -- its arguments leave the table alone
  obtain ⟨s₂, hfirst, htable₂, hkeys₂⟩ := hparams.again hlegible₁ path
    (.component c.key path.lastText) ({ s with table }.reported (.component c.key path)) rfl
    hspared.1
  obtain ⟨s₃, hsecond, htable₃, hkeys₃⟩ := hmethodArgs.again hlegible₂ path
    (.component c.key path.lastText) s₂ rfl hspared.2
  refine ⟨_, _, .component (objectShape_flatMembers c) hentered hfirst hsecond, ?_, ?_⟩
  · have hnodes : s₃.table.nodes = s.table.nodes ++ [.component empty] := by
      rw [htable₃, htable₂]
      exact (Table.insert_eq_ok_iff.mp hinserted).2
    exact Table.nodes_editAt_last (Node.key_fill c.params c.methodArgs) hnodes
  · rw [State.filled_keys, hkeys₃, hkeys₂]
    rfl

/-- A result that is met after its entry was found joins the results of the entry. -/
theorem ResultReadsBack.again {result : Value} (h : ResultReadsBack source result)
    (hlegible : (Yield.value result).Legible) {path : Path} {s s₁ : State σ} {key : String}
    {nodes : List Node} {earlier : List Value} (opened : Opened none path s (.entry key true) s₁)
    (hnodes : s₁.table.nodes = nodes ++ [.entry ⟨key, earlier⟩])
    (hspared : key ∉ result.references) :
    ∃ s', Walked source (.value result.toDocument) path none s (.value result) s' ∧
      s'.table.nodes = nodes ++ [.entry ⟨key, earlier ++ [result]⟩] ∧ s'.keys = s₁.keys := by
  cases h with
  | reference other =>
    have hword : Marker.isWord other.toList = true := hlegible other (List.mem_singleton.mpr rfl)
    have hother : other ≠ key := fun hsame => hspared (by simp [hsame, Value.references])
    refine ⟨_, .marker (Marker.find?_written hword) opened hother, ?_, State.attached_keys _ _ _⟩
    exact Table.nodes_editAt_last (Node.key_collect _) hnodes
  | @call target method params arguments =>
    rw [Value.references_call, List.mem_cons, not_or] at hspared
    obtain ⟨hdocument, hparams⟩ := arguments.call target method
    obtain ⟨s₂, hwalked, htable, hkeys⟩ := hparams.again hlegible path (.entry key false)
      (s₁.linked target (.entry key true) path) rfl hspared.2
    rw [hdocument]
    refine ⟨_, .call (objectShape_callMembers _ _ _) (callee_callMembers _ _ _ _) opened
      (Ne.symm hspared.1) hwalked, ?_, ?_⟩
    · have hnodes₂ : s₂.table.nodes = nodes ++ [.entry ⟨key, earlier⟩] := by
        rw [htable]
        exact hnodes
      exact Table.nodes_editAt_last (Node.key_collect _) hnodes₂
    · rw [State.attached_keys, hkeys]
      rfl

/-- Further results join an entry that is there, one after the other. -/
theorem walked_results {key : String} {nodes : List Node} {results : List Value} :
    ∀ (position : Nat) (s : State σ) (earlier : List Value),
      s.table.nodes = nodes ++ [.entry ⟨key, earlier⟩] →
      (∀ result ∈ results, ResultReadsBack source result ∧ (Yield.value result).Legible ∧
        key ∉ result.references) →
      ∃ s', Walked source (.items (Value.toDocumentItems results) position) (Path.root.key key) none
          s (.items results) s' ∧
        s'.table.nodes = nodes ++ [.entry ⟨key, earlier ++ results⟩] ∧ s'.keys = s.keys := by
  induction results with
  | nil =>
    intro position s earlier hnodes _
    exact ⟨s, .itemsNil, by simpa using hnodes, rfl⟩
  | cons result rest ih =>
    intro position s earlier hnodes hresults
    obtain ⟨⟨hread, hlegible, hspared⟩, hrest⟩ := List.forall_mem_cons.mp hresults
    have hfind : s.table.find? key = some (.entry ⟨key, earlier⟩) :=
      Table.find?_eq_some_iff.mpr ⟨by simp [hnodes], rfl⟩
    have hfield : ((Path.root.key key).index position).first? = some (.key key) := rfl
    obtain ⟨s₁, hfirst, hnodes₁, hkeys₁⟩ :=
      hread.again hlegible (.known hfield hfind) hnodes hspared
    obtain ⟨s₂, hlater, hnodes₂, hkeys₂⟩ := ih (position + 1) s₁ _ hnodes₁ hrest
    exact ⟨s₂, .itemsCons hfirst hlater, by simpa using hnodes₂, hkeys₂.trans hkeys₁⟩

theorem replays_entry {e : Entry} (h : NodeReadsBack source (.entry e)) (hresults : e.results ≠ [])
    (hlegible : (Node.entry e).Legible) (hspared : e.key ∉ (Node.entry e).references) :
    Replays source (.entry e) := by
  intro s hnew
  obtain ⟨key, results⟩ := e
  have hall : ∀ result ∈ results, ResultReadsBack source result ∧ (Yield.value result).Legible ∧
      key ∉ result.references := by
    intro result hresult
    refine ⟨h result hresult, Node.legible_entry.mp hlegible result hresult, fun hmem => ?_⟩
    exact hspared (List.mem_flatMap.mpr ⟨result, hresult, hmem⟩)
  -- the first result opens the entry, whether it stands alone or leads a list
  obtain ⟨table, hinserted⟩ := Table.exists_insert (.entry ⟨key, []⟩) hnew
  have hentry := (Table.insert_eq_ok_iff.mp hinserted).2
  have hopened : ∀ path : Path, path.first? = some (.key key) →
      Opened none path s (.entry key true) ({ s with table }.reported (.entry key)) :=
    fun path hfirst => .fresh hfirst hinserted
  match results, hresults, hall with
  | [], hresults, _ => exact absurd rfl hresults
  | [single], _, hall =>
    obtain ⟨hread, hlegible, hspared⟩ := hall single (List.mem_singleton.mpr rfl)
    obtain ⟨s', hwalked, hnodes, hkeys⟩ :=
      hread.again hlegible (hopened (Path.root.key key) rfl) hentry hspared
    exact ⟨single, s', hwalked, hnodes, hkeys⟩
  | first :: second :: rest, _, hall =>
    obtain ⟨⟨hread, hlegible, hspared⟩, hrest⟩ := List.forall_mem_cons.mp hall
    obtain ⟨s₁, hfirst, hnodes₁, hkeys₁⟩ :=
      hread.again hlegible (hopened ((Path.root.key key).index 0) rfl) hentry hspared
    obtain ⟨s₂, hlater, hnodes₂, hkeys₂⟩ := walked_results 1 s₁ _ hnodes₁ hrest
    exact ⟨_, s₂, .array (.itemsCons hfirst hlater), hnodes₂, hkeys₂.trans hkeys₁⟩

theorem replays_node {node : Node} (h : NodeReadsBack source node)
    (hresults : ∀ entry, node = .entry entry → entry.results ≠ []) (hlegible : node.Legible)
    (hspared : node.key ∉ node.references) : Replays source node := by
  cases node with
  | component c => exact replays_component h hlegible hspared
  | entry e => exact replays_entry h (hresults e rfl) hlegible hspared

/-- Fields are walked one after the other, each of them adding its node. -/
theorem walked_fields {nodes : List Node} :
    ∀ s : State σ, (nodes.map Node.key).Nodup → (∀ node ∈ nodes, node.key ∉ s.table.keys) →
      (∀ node ∈ nodes, Replays source node) →
      ∃ entries s',
        Walked source (.members (nodes.map fun node => (node.key, node.toDocument))) Path.root none
          s (.entries entries) s' ∧
        s'.table.nodes = s.table.nodes ++ nodes.map Node.placed ∧ s'.keys = s.keys := by
  induction nodes with
  | nil =>
    intro s _ _ _
    exact ⟨[], s, .membersNil, by simp, rfl⟩
  | cons node rest ih =>
    intro s hnodup hnew hreplays
    obtain ⟨hfirstNew, hrestNew⟩ := List.forall_mem_cons.mp hnew
    obtain ⟨hfirst, hrest⟩ := List.forall_mem_cons.mp hreplays
    obtain ⟨hnotin, hnodup⟩ := List.nodup_cons.mp hnodup
    obtain ⟨value, s₁, hwalked, hnodes₁, hkeys₁⟩ := hfirst s hfirstNew
    have hstillNew : ∀ other ∈ rest, other.key ∉ s₁.table.keys := by
      intro other hother hmem
      rw [Table.keys_of_nodes_append hnodes₁, Node.key_placed] at hmem
      rcases List.mem_append.mp hmem with hold | hsame
      · exact hrestNew other hother hold
      · exact hnotin (List.mem_singleton.mp hsame ▸ List.mem_map_of_mem hother)
    obtain ⟨entries, s₂, hlater, hnodes₂, hkeys₂⟩ := ih s₁ hnodup hstillNew hrest
    refine ⟨_, s₂, .membersCons hwalked hlater, ?_, hkeys₂.trans hkeys₁⟩
    rw [hnodes₂, hnodes₁, List.append_assoc]
    rfl

/-! ## Backwards: what a walk leaves is settled -/

/-- All markers in the table are words, and every node is at the field of its own key. -/
def State.Settled (state : State σ) : Prop :=
  ∀ node ∈ state.table.nodes, node.Legible ∧ node.path = Path.root.key node.key

theorem State.Settled.attached {s : State σ} (h : s.Settled) (found : Owner) {value : Value}
    (hvalue : (Yield.value value).Legible) : (s.attached found value).Settled := by
  unfold State.attached
  split
  · refine Table.forall_nodes_editAt (Node.key_collect value) _ h fun node hnode => ?_
    cases node with
    | component c => exact hnode
    | entry e =>
      refine ⟨Node.legible_entry.mpr fun result hresult => ?_, rfl⟩
      rcases List.mem_append.mp hresult with hearlier | hlast
      · exact Node.legible_entry.mp hnode.1 result hearlier
      · obtain rfl := List.mem_singleton.mp hlast
        exact hvalue
  · exact h

theorem State.Settled.filled {s : State σ} (h : s.Settled) (key : String)
    {params : List (String × Value)} {methodArgs : List Value}
    (hparams : (Yield.entries params).Legible) (hmethodArgs : (Yield.items methodArgs).Legible) :
    (s.filled key params methodArgs).Settled := by
  refine Table.forall_nodes_editAt (Node.key_fill params methodArgs) key h fun node hnode => ?_
  cases node with
  | component c => exact ⟨Node.legible_component.mpr ⟨hparams, hmethodArgs⟩, hnode.2⟩
  | entry e => exact hnode

theorem Opened.settled {owner : Option Owner} {path : Path} {before after : State σ} {found : Owner}
    (opened : Opened owner path before found after) (h : before.Settled) : after.Settled := by
  cases opened with
  | given | known => exact h
  | fresh _ inserted =>
    exact Table.forall_nodes_insert inserted h ⟨Node.legible_of_markers_eq_nil rfl, rfl⟩

theorem ResultReadsBack.settled {result value : Value} {path : Path} {s s' : State σ}
    (h : ResultReadsBack source result) (hs : s.Settled)
    (hwalked : Walked source (.value result.toDocument) path none s (.value value) s') :
    s'.Settled := by
  cases h with
  | reference key =>
    cases hwalked with
    | plainText => exact hs
    | marker marks opened other =>
      refine State.Settled.attached ?_ _ fun key hkey => ?_
      · exact opened.settled hs
      · obtain rfl := List.mem_singleton.mp hkey
        exact Marker.isWord_of_find? marks
  | @call target method params arguments =>
    obtain ⟨hdocument, hparams⟩ := arguments.call target method
    rw [hdocument] at hwalked
    cases hwalked with
    | call _ _ opened _ walked =>
      obtain ⟨hlegible, htable⟩ := hparams.legible (Owner.insideCall_collects _) walked
      refine State.Settled.attached ?_ _ hlegible
      unfold State.Settled
      rw [htable]
      exact opened.settled hs
    | component shape | methodBlock shape | mapping shape =>
      rw [objectShape_callMembers] at shape
      exact absurd shape (by simp)

theorem settled_results {results : List Value} {path : Path} :
    ∀ {position : Nat} {s s' : State σ} {values : List Value},
      (∀ result ∈ results, ResultReadsBack source result) → s.Settled →
      Walked source (.items (Value.toDocumentItems results) position) path none s (.items values)
        s' → s'.Settled := by
  induction results with
  | nil =>
    intro position s s' values _ hs hwalked
    cases hwalked
    exact hs
  | cons result rest ih =>
    intro position s s' values hall hs hwalked
    obtain ⟨hresult, hrest⟩ := List.forall_mem_cons.mp hall
    cases hwalked with
    | itemsCons first later => exact ih hrest (hresult.settled hs first) later

theorem settled_node {node : Node} {s s' : State σ} {value : Value}
    (h : NodeReadsBack source node) (hs : s.Settled)
    (hwalked : Walked source (.value node.toDocument) (Path.root.key node.key) none s
      (.value value) s') : s'.Settled := by
  cases node with
  | component c =>
    obtain ⟨hparams, hmethodArgs⟩ := readsBack_flatMembers h
    replace hwalked : Walked source (.value (.object (flatMembers c))) (Path.root.key c.key) none s
        (.value value) s' := hwalked
    cases hwalked with
    | component _ entered first second =>
      cases entered with
      | alone declares derives inserted =>
        -- the declaration is the one that was written, so the key is the name of the field
        rw [declaration_flatMembers] at declares
        cases declares
        cases derives
        obtain ⟨hlegible₁, htable₁⟩ := hparams.legible rfl first
        obtain ⟨hlegible₂, htable₂⟩ := hmethodArgs.legible rfl second
        refine State.Settled.filled ?_ _ hlegible₁ hlegible₂
        unfold State.Settled
        rw [htable₂, htable₁]
        exact Table.forall_nodes_insert inserted hs ⟨Node.legible_of_markers_eq_nil rfl, rfl⟩
    | call shape | methodBlock shape | mapping shape =>
      rw [objectShape_flatMembers] at shape
      exact absurd shape (by simp)
  | entry e =>
    -- a single result is written alone, any other number as a list
    obtain ⟨key, results⟩ := e
    match results, h with
    | [single], h => exact (h single (List.mem_singleton.mpr rfl)).settled hs hwalked
    | [], h | first :: second :: rest, h =>
      cases hwalked with
      | array walked => exact settled_results h hs walked

theorem settled_fields {nodes : List Node} :
    ∀ {s s' : State σ} {entries : List (String × Value)},
      (∀ node ∈ nodes, NodeReadsBack source node) → s.Settled →
      Walked source (.members (nodes.map fun node => (node.key, node.toDocument))) Path.root none s
        (.entries entries) s' → s'.Settled := by
  induction nodes with
  | nil =>
    intro s s' entries _ hs hwalked
    cases hwalked
    exact hs
  | cons node rest ih =>
    intro s s' entries hall hs hwalked
    obtain ⟨hnode, hrest⟩ := List.forall_mem_cons.mp hall
    cases hwalked with
    | membersCons first later => exact ih hrest (settled_node hnode hs first) later

end Extraction

end Blueprint
