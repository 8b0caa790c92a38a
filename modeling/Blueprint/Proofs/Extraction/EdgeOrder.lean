import Blueprint.Proofs.Extraction.Inventory
import Blueprint.Proofs.Graph.Reordered

/-!
# `Blueprint/Proofs/Extraction/EdgeOrder.lean` — the order in which a walk records edges

A walk records the edges of a node as it meets them, and in between it records those of the nodes
inside it. The edges of a node do not come in one piece, then, and yet they are tidy, because a
component inside another is needed by it.

What is kept during the walk is a property of the owner, not of the edges: whatever stands after
the owner in the table leads to it (`Graph.Gathers`). A component has just been put into the table
when it becomes an owner, so nothing stands after it, and everything that the walk puts there until
it returns is inside the component. An entry is an owner again and again, whenever its field has
another result, and the field may have a component of its own in between that nobody needs. That is
the one way in which edges get out of order, and `Graph.Gathered` says that it does not happen.
-/

set_option autoImplicit false

namespace Blueprint

/-! ## The outline of a table -/

/-- What no edit changes: the kind of a node, its key and its place. -/
def Node.outline (node : Node) : Origin × Path := (node.origin, node.path)

namespace Node

@[simp] theorem outline_collect (value : Value) (node : Node) :
    (node.collect value).outline = node.outline := by
  cases node <;> rfl

@[simp] theorem outline_fill (params : List (String × Value)) (methodArgs : List Value)
    (node : Node) : (node.fill params methodArgs).outline = node.outline := by
  cases node <;> rfl

@[simp] theorem outline_rename (naming : String → String) (node : Node) :
    (node.rename naming).outline = node.outline := by
  cases node <;> rfl

end Node

namespace Table

def outline (table : Table) : List (Origin × Path) := table.nodes.map Node.outline

theorem keys_eq_outline (table : Table) :
    table.keys = table.outline.map fun place => place.1.key := by
  unfold Arena.keys outline
  rw [List.map_map]
  exact List.map_congr_left fun node _ => node.key_origin.symm

theorem origins_eq_outline (table : Table) : table.origins = table.outline.map Prod.fst := by
  unfold origins outline
  rw [List.map_map]
  rfl

theorem outline_of_nodes_append {table grown : Table} {node : Node}
    (h : grown.nodes = table.nodes ++ [node]) :
    grown.outline = table.outline ++ [node.outline] := by
  unfold outline
  rw [h, List.map_append]
  rfl

theorem outline_edit {change : Node → Node} (keeps : ∀ node, (change node).key = node.key)
    (h : ∀ node, (change node).outline = node.outline) (table : Table) :
    (table.edit change keeps).outline = table.outline := by
  unfold outline
  rw [nodes_edit, List.map_map]
  exact List.map_congr_left fun node _ => h node

theorem outline_editAt {change : Node → Node} (keeps : ∀ node, (change node).key = node.key)
    (h : ∀ node, (change node).outline = node.outline) (table : Table) (key : String) :
    (table.editAt key change keeps).outline = table.outline := by
  rw [editAt_eq]
  apply outline_edit
  intro node
  split
  · exact h node
  · rfl

end Table

namespace Graph

/-- Whatever stands after the key among the keys leads to it. -/
def Gathers (graph : Graph) (keys : List String) (key : String) : Prop :=
  ∃ before after, keys = before ++ key :: after ∧
    ∀ other ∈ after, Relation.TransGen graph.Precedes other key

/-- Every component that a top-level field has put into the table after the entry of the field leads
to the entry. -/
def Gathered (graph : Graph) : Prop :=
  graph.table.nodes.Pairwise fun first second => ∀ e c, first = .entry e → second = .component c →
    c.path.firstText = e.key → Relation.TransGen graph.Precedes c.key e.key

theorem Gathered.pairwise_outline {graph : Graph} (h : graph.Gathered) :
    graph.table.outline.Pairwise fun first second => ∀ field key, first.1 = .entry field →
      second.1 = .component key → second.2.firstText = field →
        Relation.TransGen graph.Precedes key field := by
  refine List.pairwise_map.mpr (h.imp ?_)
  intro first second hfirst field key hentry hcomponent hpath
  cases first with
  | component c => cases hentry
  | entry e =>
    cases second with
    | entry e' => cases hcomponent
    | component c =>
      cases hentry
      cases hcomponent
      exact hfirst e c rfl rfl hpath

theorem Gathers.append {graph : Graph} {keys more : List String} {key : String}
    (h : graph.Gathers keys key)
    (hmore : ∀ other ∈ more, Relation.TransGen graph.Precedes other key) :
    graph.Gathers (keys ++ more) key := by
  obtain ⟨before, after, rfl, hafter⟩ := h
  refine ⟨before, after ++ more, by simp, ?_⟩
  intro other hother
  rcases List.mem_append.mp hother with hother | hother
  · exact hafter other hother
  · exact hmore other hother

theorem gathers_last (graph : Graph) (keys : List String) (key : String) :
    graph.Gathers (keys ++ [key]) key :=
  ⟨keys, [], rfl, fun other hother => by cases hother⟩

end Graph

namespace Extraction

variable {σ : Type} {source : KeySource σ} {graph : Graph}

/-! ## On the way to a graph -/

section

variable {owner : Option Owner} {path : Path} {s s' : State σ}

@[simp] theorem State.attached_outline (state : State σ) (found : Owner) (value : Value) :
    (state.attached found value).table.outline = state.table.outline := by
  unfold State.attached
  split
  · exact Table.outline_editAt (Node.key_collect _) (Node.outline_collect value) _ _
  · rfl

@[simp] theorem State.filled_outline (state : State σ) (key : String)
    (params : List (String × Value)) (methodArgs : List Value) :
    (state.filled key params methodArgs).table.outline = state.table.outline :=
  Table.outline_editAt (Node.key_fill _ _) (Node.outline_fill params methodArgs) _ _

theorem Entered.outline_eq {members : List (String × Json)} {key : String}
    (entered : Entered source members path owner s key s') :
    s'.table.outline = s.table.outline ++ [(.component key, path)] := by
  cases entered with
  | alone _ _ inserted =>
    exact Table.outline_of_nodes_append (Table.insert_eq_ok_iff.mp inserted).2
  | owned _ _ inserted _ =>
    rw [State.attached_outline]
    exact Table.outline_of_nodes_append (Table.insert_eq_ok_iff.mp inserted).2

theorem Opened.outline_prefix {found : Owner} (opened : Opened owner path s found s') :
    s.table.outline <+: s'.table.outline := by
  cases opened with
  | given | known => exact List.prefix_rfl
  | fresh _ inserted =>
    rw [State.reported_table,
      Table.outline_of_nodes_append (Table.insert_eq_ok_iff.mp inserted).2]
    exact List.prefix_append _ _

theorem Walked.outline_prefix {part : Part} {yield : Yield}
    (h : Walked source part path owner s yield s') :
    s.table.outline <+: s'.table.outline := by
  induction h with
  | null | bool | number | plainText | itemsNil | membersNil | blockNil | noParams
  | noMethodArgs => exact List.prefix_rfl
  | marker marks opened other =>
    rw [State.attached_outline]
    exact opened.outline_prefix
  | component shape entered _ _ ih₁ ih₂ =>
    rw [State.filled_outline]
    rw [entered.outline_eq] at ih₁
    exact ((List.prefix_append _ _).trans ih₁).trans ih₂
  | call shape callee opened other _ ih =>
    rw [State.attached_outline]
    exact opened.outline_prefix.trans ih
  | itemsCons _ _ ih₁ ih₂ | membersCons _ _ ih₁ ih₂ | blockCons _ _ _ ih₁ ih₂
  | blockParams _ _ ih₁ ih₂ => exact ih₁.trans ih₂
  | array _ ih | methodBlock _ _ ih | mapping _ _ ih | someParams _ _ ih
  | someMethodArgs _ _ ih => exact ih

/-- The graph has the nodes of the state and more, and the edges that need a key of the graph. -/
structure State.Below (graph : Graph) (state : State σ) : Prop where
  outline : state.table.outline <+: graph.table.outline
  precedes : ∀ edge ∈ state.edges, edge.dependency ∈ graph.table.keys →
    graph.Precedes edge.dependency edge.dependent

theorem State.Below.keys (h : s.Below graph) : s.table.keys <+: graph.table.keys := by
  rw [Table.keys_eq_outline, Table.keys_eq_outline]
  exact h.outline.map _

theorem Walked.below_before {part : Part} {yield : Yield}
    (h : Walked source part path owner s yield s') (hafter : s'.Below graph) : s.Below graph where
  outline := h.outline_prefix.trans hafter.outline
  precedes edge hedge := hafter.precedes edge (h.edges_subset hedge)

theorem State.Below.of_attached {found : Owner} {value : Value}
    (h : (s.attached found value).Below graph) : s.Below graph where
  outline := by
    rw [← State.attached_outline s found value]
    exact h.outline
  precedes := by
    rw [← State.attached_edges s found value]
    exact h.precedes

theorem State.Below.of_filled {key : String} {params : List (String × Value)}
    {methodArgs : List Value} (h : (s.filled key params methodArgs).Below graph) :
    s.Below graph where
  outline := by
    rw [← State.filled_outline s key params methodArgs]
    exact h.outline
  precedes := h.precedes

theorem State.Below.of_linked {dependency : String} {found : Owner}
    (h : (s.linked dependency found path).Below graph) : s.Below graph where
  outline := h.outline
  precedes edge hedge := h.precedes edge (List.mem_append_left _ hedge)

end

/-! ## Tidy states -/

/-- The edges so far are tidy, and they belong to nodes of the table. -/
structure State.Tidy (graph : Graph) (state : State σ) : Prop where
  known : ∀ edge ∈ state.edges, edge.dependent ∈ state.table.keys
  pairwise : state.edges.Pairwise fun a b =>
    graph.table.keys.idxOf a.dependent ≤ graph.table.keys.idxOf b.dependent ∨
      Relation.TransGen graph.Precedes a.dependent b.dependent

theorem idxOf_le_of_split {keys before after : List String} {key other : String}
    (hnodup : keys.Nodup) (hsplit : keys = before ++ key :: after)
    (hother : other ∈ before ∨ other = key) : keys.idxOf other ≤ keys.idxOf key := by
  rcases hother with hother | rfl
  · subst hsplit
    have hnot : key ∉ before := by
      intro hmem
      exact (List.nodup_middle.mp hnodup).notMem (List.mem_append_left _ hmem)
    rw [List.idxOf_append_of_mem hother, List.idxOf_append_of_notMem hnot]
    exact Nat.le_trans (Nat.le_of_lt (List.idxOf_lt_length_of_mem hother)) (Nat.le_add_right _ _)
  · exact Nat.le_refl _

namespace State.Tidy

variable {s : State σ}

/-- An edge of an owner to which everything after it leads may come next. -/
theorem linked (h : s.Tidy graph) (hbelow : s.Below graph) {found : Owner}
    (hgathers : graph.Gathers s.table.keys found.key) (dependency : String) (path : Path) :
    (s.linked dependency found path).Tidy graph := by
  obtain ⟨before, after, hkeys, hafter⟩ := hgathers
  obtain ⟨rest, hrest⟩ := hbelow.keys
  have hsplit : graph.table.keys = before ++ found.key :: (after ++ rest) := by
    rw [← hrest, hkeys]
    simp
  constructor
  · rw [State.linked_edges, State.linked_table]
    intro edge hedge
    rcases List.mem_append.mp hedge with hedge | hedge
    · exact h.known edge hedge
    · obtain rfl := List.mem_singleton.mp hedge
      rw [hkeys]
      simp
  · rw [State.linked_edges]
    refine List.pairwise_append.mpr ⟨h.pairwise, List.pairwise_singleton _ _, ?_⟩
    intro edge hedge last hlast
    obtain rfl := List.mem_singleton.mp hlast
    have hknown := h.known edge hedge
    rw [hkeys] at hknown
    rcases List.mem_append.mp hknown with hearlier | hlater
    · exact Or.inl (idxOf_le_of_split graph.table.distinct hsplit (Or.inl hearlier))
    · rcases List.mem_cons.mp hlater with hsame | hlater
      · exact Or.inl (idxOf_le_of_split graph.table.distinct hsplit (Or.inr hsame))
      · exact Or.inr (hafter _ hlater)

theorem of_edges_eq {t : State σ} (h : s.Tidy graph) (hedges : t.edges = s.edges)
    (hkeys : s.table.keys ⊆ t.table.keys) : t.Tidy graph where
  known := by
    rw [hedges]
    exact fun edge hedge => hkeys (h.known edge hedge)
  pairwise := by
    rw [hedges]
    exact h.pairwise

theorem attached (h : s.Tidy graph) (found : Owner) (value : Value) :
    (s.attached found value).Tidy graph := by
  apply h.of_edges_eq (State.attached_edges s found value)
  rw [State.attached_table_keys]
  exact List.Subset.refl _

theorem filled (h : s.Tidy graph) (key : String) (params : List (String × Value))
    (methodArgs : List Value) : (s.filled key params methodArgs).Tidy graph := by
  apply h.of_edges_eq (State.filled_edges s key params methodArgs)
  rw [State.filled_table_keys]
  exact List.Subset.refl _

end State.Tidy

/-! ## Under an owner -/

/-- What came into the table are components, and all of them lead to the key. -/
def Joined (graph : Graph) (s s' : State σ) (key : String) : Prop :=
  ∃ more, s'.table.outline = s.table.outline ++ more ∧
    ∀ place ∈ more, ∃ other, place.1 = .component other ∧
      Relation.TransGen graph.Precedes other key

namespace Joined

variable {s t u : State σ} {key : String}

theorem of_outline_eq (h : t.table.outline = s.table.outline) : Joined graph s t key :=
  ⟨[], by rw [h, List.append_nil], fun place hplace => by cases hplace⟩

theorem trans (h₁ : Joined graph s t key) (h₂ : Joined graph t u key) : Joined graph s u key := by
  obtain ⟨first, hfirst, hfirst'⟩ := h₁
  obtain ⟨second, hsecond, hsecond'⟩ := h₂
  refine ⟨first ++ second, by rw [hsecond, hfirst, List.append_assoc], ?_⟩
  intro place hplace
  rcases List.mem_append.mp hplace with hplace | hplace
  · exact hfirst' place hplace
  · exact hsecond' place hplace

theorem weaken {outer : String} (h : Joined graph s t key)
    (hkey : Relation.TransGen graph.Precedes key outer) : Joined graph s t outer := by
  obtain ⟨more, hmore, hleads⟩ := h
  refine ⟨more, hmore, ?_⟩
  intro place hplace
  obtain ⟨other, hother, hneeds⟩ := hleads place hplace
  exact ⟨other, hother, hneeds.trans hkey⟩

theorem gathers (h : Joined graph s t key) (hgathers : graph.Gathers s.table.keys key) :
    graph.Gathers t.table.keys key := by
  obtain ⟨more, hmore, hleads⟩ := h
  rw [Table.keys_eq_outline, hmore, List.map_append, ← Table.keys_eq_outline]
  apply hgathers.append
  intro other hother
  obtain ⟨place, hplace, rfl⟩ := List.mem_map.mp hother
  obtain ⟨key', hkey', hneeds⟩ := hleads place hplace
  rw [hkey']
  exact hneeds

theorem entry_mem (h : Joined graph s t key) {field : String}
    (hentry : .entry field ∈ t.table.origins) : .entry field ∈ s.table.origins := by
  obtain ⟨more, hmore, hleads⟩ := h
  rw [Table.origins_eq_outline, hmore, List.map_append] at hentry
  rw [Table.origins_eq_outline]
  rcases List.mem_append.mp hentry with hentry | hentry
  · exact hentry
  · obtain ⟨place, hplace, horigin⟩ := List.mem_map.mp hentry
    obtain ⟨other, hother, -⟩ := hleads place hplace
    rw [horigin] at hother
    cases hother

end Joined

/-- A component is entered under an owner: it is needed by the owner, and nothing stands after
it. -/
theorem Entered.tidy_owned {members : List (String × Json)} {path : Path} {s s₁ : State σ}
    {key : String} {o : Owner} (entered : Entered source members path (some o) s key s₁)
    (hbelow : s₁.Below graph) (htidy : s.Tidy graph) (hgathers : graph.Gathers s.table.keys o.key) :
    s₁.Tidy graph ∧ Joined graph s s₁ o.key ∧ Relation.TransGen graph.Precedes key o.key := by
  have houtline := entered.outline_eq
  have htableKeys := entered.table_keys
  have hneeds : Relation.TransGen graph.Precedes key o.key := by
    cases entered with
    | owned _ _ _ _ =>
      have hknown : key ∈ graph.table.keys := by
        apply hbelow.keys.subset
        rw [htableKeys]
        exact List.mem_append_right _ (List.mem_singleton_self key)
      refine Relation.TransGen.single (hbelow.precedes ⟨key, o.key, path⟩ ?_ hknown)
      rw [State.attached_edges]
      exact List.mem_append_right _ (List.mem_singleton_self _)
  refine ⟨?_, ?_, hneeds⟩
  · cases entered with
    | @owned _ declared _ keys table _ declares derives inserted other =>
      have hregistered : table.keys = s.table.keys ++ [key] :=
        Table.keys_of_nodes_append (Table.insert_eq_ok_iff.mp inserted).2
      have htidy' : ({ s with keys, table }.reported (.component key path)).Tidy graph := by
        refine htidy.of_edges_eq (State.reported_edges _ _) ?_
        show s.table.keys ⊆ table.keys
        rw [hregistered]
        exact List.subset_append_left _ _
      refine (htidy'.linked hbelow.of_attached.of_linked ?_ key path).attached _ _
      show graph.Gathers table.keys o.key
      rw [hregistered]
      apply hgathers.append
      intro other hother
      obtain rfl := List.mem_singleton.mp hother
      exact hneeds
  · refine ⟨_, houtline, ?_⟩
    intro place hplace
    obtain rfl := List.mem_singleton.mp hplace
    exact ⟨key, rfl, hneeds⟩

theorem Walked.tidy_owned {part : Part} {path : Path} {owner : Option Owner} {s s' : State σ}
    {yield : Yield} (h : Walked source part path owner s yield s') :
    ∀ o, owner = some o → s'.Below graph → s.Tidy graph → graph.Gathers s.table.keys o.key →
      s'.Tidy graph ∧ Joined graph s s' o.key := by
  induction h with
  | null | bool | number | plainText | itemsNil | membersNil | blockNil | noParams
  | noMethodArgs =>
    intro o _ _ htidy _
    exact ⟨htidy, Joined.of_outline_eq rfl⟩
  | marker marks opened other =>
    intro o howner hafter htidy hgathers
    subst howner
    cases opened with
    | given =>
      refine ⟨(htidy.linked hafter.of_attached.of_linked hgathers _ _).attached _ _, ?_⟩
      exact Joined.of_outline_eq (State.attached_outline _ _ _)
  | @component _ path _ _ s₁ _ _ key _ _ shape entered first second ih₁ ih₂ =>
    intro o howner hafter htidy hgathers
    subst howner
    have hbelow₂ := second.below_before hafter.of_filled
    have hbelow₁ := first.below_before hbelow₂
    obtain ⟨htidy₁, hjoined₁, hneeds⟩ := entered.tidy_owned hbelow₁ htidy hgathers
    have hlast : graph.Gathers s₁.table.keys (Owner.component key path.lastText).key := by
      rw [entered.table_keys]
      exact graph.gathers_last _ key
    obtain ⟨htidy₂, hjoined₂⟩ := ih₁ _ rfl hbelow₂ htidy₁ hlast
    obtain ⟨htidy₃, hjoined₃⟩ := ih₂ _ rfl hafter.of_filled htidy₂ (hjoined₂.gathers hlast)
    refine ⟨htidy₃.filled _ _ _, ?_⟩
    refine (hjoined₁.trans ((hjoined₂.trans hjoined₃).weaken hneeds)).trans ?_
    exact Joined.of_outline_eq (State.filled_outline _ _ _ _)
  | @call _ path _ _ _ _ found target _ _ shape callee opened other walked ih =>
    intro o howner hafter htidy hgathers
    subst howner
    cases opened with
    | given =>
      have hbelow := hafter.of_attached
      have htidy₁ := htidy.linked (walked.below_before hbelow).of_linked hgathers target path
      rw [← found.insideCall_key] at hgathers
      obtain ⟨htidy₂, hjoined⟩ := ih _ rfl hbelow htidy₁ hgathers
      rw [Owner.insideCall_key] at hjoined
      refine ⟨htidy₂.attached _ _, Joined.trans hjoined ?_⟩
      exact Joined.of_outline_eq (State.attached_outline _ _ _)
  | itemsCons _ later ih₁ ih₂ | membersCons _ later ih₁ ih₂ | blockCons _ _ later ih₁ ih₂
  | blockParams _ later ih₁ ih₂ =>
    intro o howner hafter htidy hgathers
    obtain ⟨htidy₁, hjoined₁⟩ := ih₁ o howner (later.below_before hafter) htidy hgathers
    obtain ⟨htidy₂, hjoined₂⟩ := ih₂ o howner hafter htidy₁ (hjoined₁.gathers hgathers)
    exact ⟨htidy₂, hjoined₁.trans hjoined₂⟩
  | array _ ih | methodBlock _ _ ih | mapping _ _ ih | someParams _ _ ih
  | someMethodArgs _ _ ih => exact ih

/-! ## Under a top-level field -/

/-- Whenever the field has an entry, everything after the entry leads to it. -/
def State.EntryGathers (graph : Graph) (state : State σ) (field : String) : Prop :=
  .entry field ∈ state.table.origins → graph.Gathers state.table.keys field

/-- No entry was opened but that of the field. -/
def OpensOnly (s s' : State σ) (field : String) : Prop :=
  ∀ other, .entry other ∈ s'.table.origins → .entry other ∈ s.table.origins ∨ other = field

namespace OpensOnly

variable {s t u : State σ} {field : String}

theorem of_outline_eq (h : t.table.outline = s.table.outline) : OpensOnly s t field := by
  intro other hother
  rw [Table.origins_eq_outline, h, ← Table.origins_eq_outline] at hother
  exact Or.inl hother

theorem trans (h₁ : OpensOnly s t field) (h₂ : OpensOnly t u field) : OpensOnly s u field := by
  intro other hother
  rcases h₂ other hother with hother | hother
  · exact h₁ other hother
  · exact Or.inr hother

end OpensOnly

theorem Joined.opensOnly {s t : State σ} {key : String} (h : Joined graph s t key)
    (field : String) : OpensOnly s t field :=
  fun _ hother => Or.inl (h.entry_mem hother)

theorem State.EntryGathers.of_outline_eq {s t : State σ} {field : String}
    (houtline : t.table.outline = s.table.outline) (h : s.EntryGathers graph field) :
    t.EntryGathers graph field := by
  unfold State.EntryGathers at *
  rw [Table.origins_eq_outline, Table.keys_eq_outline, houtline, ← Table.origins_eq_outline,
    ← Table.keys_eq_outline]
  exact h

theorem State.EntryGathers.of_joined {s t : State σ} {field key : String}
    (h : s.EntryGathers graph field) (hjoined : Joined graph s t key)
    (hkey : .entry field ∈ s.table.origins → Relation.TransGen graph.Precedes key field) :
    t.EntryGathers graph field := by
  intro hentry
  have hentry' := hjoined.entry_mem hentry
  exact (hjoined.weaken (hkey hentry')).gathers (h hentry')

/-- The entry of a field is opened, or it was open before: everything after it leads to it. -/
theorem Opened.gathers {path : Path} {s s₁ : State σ} {found : Owner} {segment : Segment}
    (opened : Opened none path s found s₁) (hfirst : path.first? = some segment)
    (hgathers : s.EntryGathers graph segment.text) :
    found.key = segment.text ∧ graph.Gathers s₁.table.keys found.key ∧
      OpensOnly s s₁ segment.text := by
  cases opened with
  | @known _ other _ _ first hfound =>
    obtain rfl : other = segment := Option.some.inj (first.symm.trans hfirst)
    refine ⟨rfl, hgathers (Table.entry_mem_origins_iff.mpr ⟨_, hfound⟩), ?_⟩
    exact OpensOnly.of_outline_eq rfl
  | @fresh _ other _ table first inserted =>
    obtain rfl : other = segment := Option.some.inj (first.symm.trans hfirst)
    have hnodes := (Table.insert_eq_ok_iff.mp inserted).2
    refine ⟨rfl, ?_, ?_⟩
    · rw [State.reported_table, Table.keys_of_nodes_append hnodes]
      exact graph.gathers_last _ _
    · intro field hfield
      rw [State.reported_table, Table.origins_of_nodes_append hnodes] at hfield
      rcases List.mem_append.mp hfield with hfield | hfield
      · exact Or.inl hfield
      · exact Or.inr (Origin.entry.inj (List.mem_singleton.mp hfield))

theorem Opened.tidy {path : Path} {owner : Option Owner} {s s₁ : State σ} {found : Owner}
    (opened : Opened owner path s found s₁) (htidy : s.Tidy graph) : s₁.Tidy graph :=
  htidy.of_edges_eq opened.edges_eq opened.grows

theorem Entered.tidy_alone {members : List (String × Json)} {path : Path} {s s₁ : State σ}
    {key : String} (entered : Entered source members path none s key s₁) (htidy : s.Tidy graph) :
    s₁.Tidy graph := by
  have hkeys := entered.table_keys
  cases entered with
  | alone =>
    refine htidy.of_edges_eq (State.reported_edges _ _) ?_
    rw [hkeys]
    exact List.subset_append_left _ _

/-- A component of its own in a field, and all that is inside it. -/
theorem tidy_alone {members : List (String × Json)} {path : Path} {s s₁ s₂ s₃ : State σ}
    {key : String} {params : List (String × Value)} {methodArgs : List Value}
    (entered : Entered source members path none s key s₁)
    (first : Walked source (.params members) path (some (.component key path.lastText)) s₁
      (.entries params) s₂)
    (second : Walked source (.methodArgs members) path (some (.component key path.lastText)) s₂
      (.items methodArgs) s₃)
    (hafter : s₃.Below graph) (htidy : s.Tidy graph) : s₃.Tidy graph ∧ Joined graph s₁ s₃ key := by
  have hbelow₂ := second.below_before hafter
  have hlast : graph.Gathers s₁.table.keys (Owner.component key path.lastText).key := by
    rw [entered.table_keys]
    exact graph.gathers_last _ key
  obtain ⟨htidy₂, hjoined₂⟩ := first.tidy_owned _ rfl hbelow₂ (entered.tidy_alone htidy) hlast
  obtain ⟨htidy₃, hjoined₃⟩ := second.tidy_owned _ rfl hafter htidy₂ (hjoined₂.gathers hlast)
  exact ⟨htidy₃, hjoined₂.trans hjoined₃⟩

/-- If the field has an entry already, then a component that is entered now leads to it. -/
theorem Entered.precedes_entry {members : List (String × Json)} {path : Path}
    {owner : Option Owner} {s s₁ : State σ} {key field : String}
    (entered : Entered source members path owner s key s₁) (hbelow : s₁.Below graph)
    (hgathered : graph.Gathered) (hfield : path.firstText = field)
    (hentry : .entry field ∈ s.table.origins) : Relation.TransGen graph.Precedes key field := by
  have hpairwise := hgathered.pairwise_outline.sublist hbelow.outline.sublist
  rw [entered.outline_eq] at hpairwise
  rw [Table.origins_eq_outline] at hentry
  obtain ⟨place, hplace, horigin⟩ := List.mem_map.mp hentry
  exact (List.pairwise_append.mp hpairwise).2.2 place hplace _ (List.mem_singleton_self _)
    field key horigin rfl hfield

theorem Walked.tidy_field (hgathered : graph.Gathered) {part : Part} {path : Path}
    {owner : Option Owner} {s s' : State σ} {yield : Yield}
    (h : Walked source part path owner s yield s') :
    owner = none → ∀ segment, path.first? = some segment → s'.Below graph → s.Tidy graph →
      s.EntryGathers graph segment.text →
        s'.Tidy graph ∧ s'.EntryGathers graph segment.text ∧ OpensOnly s s' segment.text := by
  induction h with
  | null | bool | number | plainText | itemsNil | membersNil | blockNil =>
    intro _ segment _ _ htidy hgathers
    exact ⟨htidy, hgathers, OpensOnly.of_outline_eq rfl⟩
  | @marker _ name path _ _ s₁ found marks opened other =>
    intro howner segment hfirst hafter htidy hgathers
    subst howner
    obtain ⟨hkey, hgathers₁, hopens⟩ := opened.gathers hfirst hgathers
    have htidy₁ := (opened.tidy htidy).linked hafter.of_attached.of_linked hgathers₁ name path
    refine ⟨htidy₁.attached _ _, ?_, ?_⟩
    · intro _
      rw [State.attached_table_keys, ← hkey]
      exact hgathers₁
    · exact hopens.trans (OpensOnly.of_outline_eq (State.attached_outline _ _ _))
  | @component _ path _ s s₁ _ s₃ key _ _ shape entered first second ih₁ ih₂ =>
    intro howner segment hfirst hafter htidy hgathers
    subst howner
    obtain ⟨htidy₃, hjoined⟩ := tidy_alone entered first second hafter.of_filled htidy
    have hbelow₁ := first.below_before (second.below_before hafter.of_filled)
    have hentry : ∀ field, .entry field ∈ s₁.table.origins → .entry field ∈ s.table.origins := by
      intro field hfield
      rw [Table.origins_eq_outline, entered.outline_eq, List.map_append] at hfield
      rw [Table.origins_eq_outline]
      simpa using hfield
    have hfield : path.firstText = segment.text := by rw [Path.firstText, hfirst]
    have hneeds : .entry segment.text ∈ s₁.table.origins →
        Relation.TransGen graph.Precedes key segment.text := by
      intro hopen
      exact entered.precedes_entry hbelow₁ hgathered hfield (hentry _ hopen)
    have hgathers₁ : s₁.EntryGathers graph segment.text := by
      intro hopen
      rw [entered.table_keys]
      apply (hgathers (hentry _ hopen)).append
      intro other hother
      obtain rfl := List.mem_singleton.mp hother
      exact hneeds hopen
    refine ⟨htidy₃.filled _ _ _, ?_, ?_⟩
    · exact (hgathers₁.of_joined hjoined hneeds).of_outline_eq (State.filled_outline _ _ _ _)
    · have hopens : OpensOnly s s₁ segment.text := fun field hfield => Or.inl (hentry field hfield)
      refine (hopens.trans (hjoined.opensOnly _)).trans ?_
      exact OpensOnly.of_outline_eq (State.filled_outline _ _ _ _)
  | @call _ path _ _ s₁ _ found target _ _ shape callee opened other walked ih =>
    intro howner segment hfirst hafter htidy hgathers
    subst howner
    obtain ⟨hkey, hgathers₁, hopens⟩ := opened.gathers hfirst hgathers
    have hbelow := hafter.of_attached
    have htidy₁ := (opened.tidy htidy).linked (walked.below_before hbelow).of_linked hgathers₁
      target path
    have hgathers₂ := hgathers₁
    rw [← found.insideCall_key] at hgathers₂
    obtain ⟨htidy₂, hjoined⟩ := walked.tidy_owned _ rfl hbelow htidy₁ hgathers₂
    refine ⟨htidy₂.attached _ _, ?_, ?_⟩
    · intro _
      rw [State.attached_table_keys, ← hkey, ← found.insideCall_key]
      exact hjoined.gathers hgathers₂
    · refine (hopens.trans ?_).trans (OpensOnly.of_outline_eq (State.attached_outline _ _ _))
      exact hjoined.opensOnly _
  | itemsCons _ later ih₁ ih₂ =>
    intro howner segment hfirst hafter htidy hgathers
    obtain ⟨htidy₁, hgathers₁, hopens₁⟩ := ih₁ howner segment (Path.first?_index hfirst)
      (later.below_before hafter) htidy hgathers
    obtain ⟨htidy₂, hgathers₂, hopens₂⟩ := ih₂ howner segment hfirst hafter htidy₁ hgathers₁
    exact ⟨htidy₂, hgathers₂, hopens₁.trans hopens₂⟩
  | membersCons _ later ih₁ ih₂ | blockCons _ _ later ih₁ ih₂ | blockParams _ later ih₁ ih₂ =>
    intro howner segment hfirst hafter htidy hgathers
    obtain ⟨htidy₁, hgathers₁, hopens₁⟩ := ih₁ howner segment (Path.first?_key hfirst)
      (later.below_before hafter) htidy hgathers
    obtain ⟨htidy₂, hgathers₂, hopens₂⟩ := ih₂ howner segment hfirst hafter htidy₁ hgathers₁
    exact ⟨htidy₂, hgathers₂, hopens₁.trans hopens₂⟩
  | array _ ih | methodBlock _ _ ih | mapping _ _ ih => exact ih
  | noParams | noMethodArgs | someParams | someMethodArgs =>
    intro howner
    cases howner

/-! ## The whole document -/

/-- The top-level fields of a part that is walked at the root. -/
def Part.fields : Part → List String
  | .value (.array list) => list.zipIdx.map fun item => (Segment.index item.2).text
  | .value (.object list) => list.map Prod.fst
  | .items list position => (list.zipIdx position).map fun item => (Segment.index item.2).text
  | .members list => list.map Prod.fst
  | .block list => list.map Prod.fst
  | _ => []

/-- One field, and then the others: their entries are not open yet. -/
theorem Walked.tidy_first (hgathered : graph.Gathered) {part : Part} {path : Path}
    {segment : Segment} {s s₁ : State σ} {yield : Yield}
    (first : Walked source part path none s yield s₁) (hfirst : path.first? = some segment)
    (hafter : s₁.Below graph) (htidy : s.Tidy graph) {fields : List String}
    (hnodup : (segment.text :: fields).Nodup)
    (hclosed : ∀ field ∈ segment.text :: fields, .entry field ∉ s.table.origins) :
    s₁.Tidy graph ∧ ∀ field ∈ fields, .entry field ∉ s₁.table.origins := by
  have hgathers : s.EntryGathers graph segment.text := by
    intro hopen
    exact absurd hopen (hclosed _ List.mem_cons_self)
  obtain ⟨htidy₁, -, hopens⟩ := first.tidy_field hgathered rfl segment hfirst hafter htidy hgathers
  refine ⟨htidy₁, ?_⟩
  intro field hfield hopen
  rcases hopens field hopen with hopen | rfl
  · exact hclosed field (List.mem_cons_of_mem _ hfield) hopen
  · exact (List.nodup_cons.mp hnodup).1 hfield

theorem Walked.tidy_root (hgathered : graph.Gathered) {part : Part} {path : Path}
    {owner : Option Owner} {s s' : State σ} {yield : Yield}
    (h : Walked source part path owner s yield s') :
    owner = none → path = Path.root → part.fields.Nodup →
      (∀ field ∈ part.fields, .entry field ∉ s.table.origins) → s'.Below graph → s.Tidy graph →
        s'.Tidy graph := by
  induction h with
  | null | bool | number | plainText | itemsNil | membersNil | blockNil =>
    intro _ _ _ _ _ htidy
    exact htidy
  | marker marks opened other =>
    intro howner hpath
    subst howner hpath
    cases opened with
    | known first | fresh first => cases first
  | component shape entered first second ih₁ ih₂ =>
    intro howner _ _ _ hafter htidy
    subst howner
    exact (tidy_alone entered first second hafter.of_filled htidy).1.filled _ _ _
  | call shape callee opened other walked ih =>
    intro howner hpath
    subst howner hpath
    cases opened with
    | known first | fresh first => cases first
  | array _ ih | methodBlock _ _ ih | mapping _ _ ih => exact ih
  | itemsCons first later ih₁ ih₂ =>
    intro howner hpath hnodup hclosed hafter htidy
    subst howner hpath
    obtain ⟨htidy₁, hclosed₁⟩ := first.tidy_first hgathered rfl (later.below_before hafter) htidy
      hnodup hclosed
    exact ih₂ rfl rfl (List.nodup_cons.mp hnodup).2 hclosed₁ hafter htidy₁
  | membersCons first later ih₁ ih₂ | blockCons _ first later ih₁ ih₂
  | blockParams first later ih₁ ih₂ =>
    intro howner hpath hnodup hclosed hafter htidy
    subst howner hpath
    obtain ⟨htidy₁, hclosed₁⟩ := first.tidy_first hgathered rfl (later.below_before hafter) htidy
      hnodup hclosed
    exact ih₂ rfl rfl (List.nodup_cons.mp hnodup).2 hclosed₁ hafter htidy₁
  | noParams | noMethodArgs | someParams | someMethodArgs =>
    intro howner
    cases howner

theorem segment_text_index_inj {i j : Nat}
    (h : (Segment.index i).text = (Segment.index j).text) : i = j := by
  have hdigits : String.ofList (Nat.toDigits 10 i) = String.ofList (Nat.toDigits 10 j) := h
  rw [← Nat.repr_eq_ofList_toDigits, ← Nat.repr_eq_ofList_toDigits] at hdigits
  exact Nat.repr_inj.mp hdigits

/-- The top-level fields of a document that repeats no name are distinct. -/
theorem nodup_fields {document : Json} (h : document.Distinct) :
    (Part.value document).fields.Nodup := by
  cases document with
  | array items =>
    have hindices : ((items.zipIdx).map Prod.snd).Nodup := by
      rw [List.zipIdx_map_snd]
      exact List.nodup_range'
    refine List.pairwise_map.mpr ((List.pairwise_map.mp hindices).imp ?_)
    intro a b hne hsame
    exact hne (segment_text_index_inj hsame)
  | object members => exact h.1
  | _ => exact List.nodup_nil

/-- If the entries of a graph are gathered, its edges are tidy. -/
theorem tidy_of_extract {document : Json} {keys : σ} (hfields : (Part.value document).fields.Nodup)
    (h : (extract source document keys).graph = .ok graph) (hgathered : graph.Gathered) :
    graph.Tidy := by
  obtain ⟨value, state, hwalked, -, rfl⟩ := exists_walked_of_extract h
  have hkeys : state.graph.table.keys = state.table.keys := Table.keys_edit (Node.key_rename _) _
  have hbelow : state.Below state.graph := by
    constructor
    · rw [State.graph, Table.outline_edit (Node.key_rename _) (Node.outline_rename _)]
    · intro edge hedge hknown
      rw [hkeys] at hknown
      refine ⟨resolvedEdge state.names edge, List.mem_map_of_mem hedge, ?_, rfl⟩
      exact resolve_of_mem_keys hknown
  have hstart : (initial keys).Tidy state.graph := by
    constructor
    · intro edge hedge
      cases hedge
    · exact List.Pairwise.nil
  have htidy := hwalked.tidy_root hgathered rfl rfl hfields
    (fun field _ hopen => by cases hopen) hbelow hstart
  exact List.pairwise_map.mpr htidy.pairwise

end Extraction

end Blueprint
