import Blueprint.Proofs.Extraction.Resolution

/-!
# `Blueprint/Proofs/Extraction/Accounts.lean` — edges and values keep the same account

An extraction writes down every dependency twice: as an edge, when the walk meets it, and as a
reference inside a value, which reaches its node later. The order of construction trusts the edges,
the program is written from the values, and neither ever looks at the other.

A key is `Balanced` in a state if the two agree there: the dependencies of its edges, in order and
with repeats, are the references of its node. In the middle of a walk the owner is not balanced. Its
edges are ahead of its node by exactly the references of what has been walked, which are still on
their way up. That is the invariant, `Accounted`: **a walk leaves every other key balanced, and puts
its own references on the owner's account**. A component settles its account when it is filled, an
entry when a result is attached, and at the root, where there is no owner, nothing is left open.
-/

set_option autoImplicit false

namespace Blueprint

/-! ## References, by list operations -/

namespace Value

theorem referencesItems_eq (items : List Value) :
    referencesItems items = items.flatMap references := by
  induction items with
  | nil => simp [referencesItems]
  | cons item rest ih => simp [referencesItems, ih]

theorem referencesEntries_eq (entries : List (String × Value)) :
    referencesEntries entries = (entries.map Prod.snd).flatMap references := by
  induction entries with
  | nil => simp [referencesEntries]
  | cons entry rest ih =>
    obtain ⟨name, value⟩ := entry
    simp [referencesEntries, ih]

theorem references_call (target method : String) (params : List (String × Value)) :
    (call target method params).references =
      target :: (params.map Prod.snd).flatMap references := by
  rw [references, referencesEntries_eq]

end Value

/-- The values that a node holds: the arguments of a component and then its method arguments, or the
results of an entry. -/
def Node.values : Node → List Value
  | .component c => c.params.map Prod.snd ++ c.methodArgs
  | .entry e => e.results

/-- The references in the values of a node, in order and with repeats. -/
def Node.references (node : Node) : List String := node.values.flatMap Value.references

/-- The references of the node with a key, none if there is no such node. -/
def Table.references (table : Table) (key : String) : List String :=
  (table.find? key).elim [] Node.references

/-- A new node without values changes nobody's references. -/
theorem Table.references_of_nodes_append {table grown : Table} {node : Node}
    (hnew : node.key ∉ table.keys) (hgrown : grown.nodes = table.nodes ++ [node])
    (hempty : node.references = []) (key : String) :
    grown.references key = table.references key := by
  unfold Table.references
  rw [Table.find?_of_nodes_append hgrown]
  split
  · rename_i hsame
    rw [hsame, Table.find?_eq_none_iff.mpr hnew]
    exact hempty
  · rfl

/-- The dependencies of the edges of a key, in order and with repeats. -/
def dependenciesOf (edges : List Edge) (key : String) : List String :=
  (edges.filter (·.dependent = key)).map Edge.dependency

theorem mem_dependenciesOf {edges : List Edge} {dependency key : String} :
    dependency ∈ dependenciesOf edges key ↔
      ∃ edge ∈ edges, edge.dependency = dependency ∧ edge.dependent = key := by
  unfold dependenciesOf
  constructor
  · intro h
    obtain ⟨edge, hmem, hdependency⟩ := List.mem_map.mp h
    obtain ⟨hedge, hdependent⟩ := List.mem_filter.mp hmem
    exact ⟨edge, hedge, hdependency, by simpa using hdependent⟩
  · rintro ⟨edge, hedge, hdependency, hdependent⟩
    exact List.mem_map.mpr ⟨edge, List.mem_filter.mpr ⟨hedge, by simpa using hdependent⟩,
      hdependency⟩

theorem dependenciesOf_append (edges more : List Edge) (key : String) :
    dependenciesOf (edges ++ more) key = dependenciesOf edges key ++ dependenciesOf more key := by
  unfold dependenciesOf
  rw [List.filter_append, List.map_append]

theorem dependenciesOf_singleton (edge : Edge) (key : String) :
    dependenciesOf [edge] key = if key = edge.dependent then [edge.dependency] else [] := by
  unfold dependenciesOf
  by_cases hkey : key = edge.dependent
  · simp [hkey]
  · simp [hkey, Ne.symm hkey]

namespace Extraction

/-- Whether results are collected for the owner. -/
def Owner.collects : Owner → Bool
  | .entry _ collecting => collecting
  | .component _ _ => false

theorem Owner.insideCall_key (owner : Owner) : owner.insideCall.key = owner.key := by
  cases owner <;> rfl

theorem Owner.insideCall_collects (owner : Owner) : owner.insideCall.collects = false := by
  cases owner <;> rfl

/-- The values in a yield. -/
def Yield.values : Yield → List Value
  | .value v => [v]
  | .items vs => vs
  | .entries es => es.map Prod.snd

/-- The references in a yield. -/
def Yield.references (yield : Yield) : List String := yield.values.flatMap Value.references

variable {σ : Type}

/-! ## Reading a state at a key -/

namespace State

/-- The edges of a key and its node agree. -/
def Balanced (state : State σ) (key : String) : Prop :=
  dependenciesOf state.edges key = state.table.references key

theorem attached_of_not_collects {owner : Owner} (h : owner.collects = false) (state : State σ)
    (value : Value) : state.attached owner value = state := by
  cases owner with
  | component key name => rfl
  | entry key collecting =>
    obtain rfl : collecting = false := h
    rfl

theorem dependenciesOf_linked (state : State σ) (dependency key : String) (owner : Owner)
    (path : Path) :
    dependenciesOf (state.linked dependency owner path).edges key =
      dependenciesOf state.edges key ++ if key = owner.key then [dependency] else [] := by
  rw [linked_edges, dependenciesOf_append, dependenciesOf_singleton]

theorem find?_filled (state : State σ) (key other : String) (params : List (String × Value))
    (methodArgs : List Value) :
    (state.filled key params methodArgs).table.find? other =
      if other = key then (state.table.find? other).map (Node.fill params methodArgs)
      else state.table.find? other :=
  Table.find?_editAt (Node.key_fill _ _) _ _ _

theorem find?_attached_entry (state : State σ) (key other : String) (value : Value) :
    (state.attached (.entry key true) value).table.find? other =
      if other = key then (state.table.find? other).map (Node.collect value)
      else state.table.find? other :=
  Table.find?_editAt (Node.key_collect _) _ _ _

/-- Every edge leads to a key of the table, from another key. -/
def Sound (state : State σ) : Prop :=
  ∀ edge ∈ state.edges, edge.dependent ∈ state.table.keys ∧ edge.dependency ≠ edge.dependent

/-- A state in which a key has the same edges and the same references is balanced there too. -/
theorem Balanced.congr {before after : State σ} {key : String} (h : before.Balanced key)
    (hedges : dependenciesOf after.edges key = dependenciesOf before.edges key)
    (htable : after.table.references key = before.table.references key) : after.Balanced key := by
  unfold Balanced at h ⊢
  rw [hedges, htable, h]

end State

/-! ## The account of an owner -/

/-- The owner of a part is in the table and collects nothing of what is walked under it. -/
def Hosted (owner : Option Owner) (state : State σ) : Prop :=
  ∀ o, owner = some o → o.key ∈ state.table.keys ∧ o.collects = false

/-- From one state to the other no key was removed and every edge added is sound, keys other than
the owner's stayed balanced, and an owner got the references as further edges, while no node was
touched that was there before. -/
structure Accounted (owner : Option Owner) (references : List String) (before after : State σ) :
    Prop where
  grows : ∀ key ∈ before.table.keys, key ∈ after.table.keys
  sound : before.Sound → after.Sound
  balanced : ∀ key, (∀ o, owner = some o → key ≠ o.key) →
    before.Balanced key → after.Balanced key
  frame : ∀ o, owner = some o → ∀ key ∈ before.table.keys,
    after.table.find? key = before.table.find? key ∧
      dependenciesOf after.edges key =
        dependenciesOf before.edges key ++ if key = o.key then references else []

theorem Hosted.mono {owner : Option Owner} {references : List String} {before after : State σ}
    (h : Hosted owner before) (hgrows : Accounted owner references before after) :
    Hosted owner after :=
  fun o ho => ⟨hgrows.grows _ (h o ho).1, (h o ho).2⟩

namespace Accounted

theorem refl (owner : Option Owner) (state : State σ) : Accounted owner [] state state where
  grows _ h := h
  sound h := h
  balanced _ _ h := h
  frame o _ key _ := ⟨rfl, by simp⟩

theorem trans {owner : Option Owner} {first later : List String} {s₁ s₂ s₃ : State σ}
    (h₁ : Accounted owner first s₁ s₂) (h₂ : Accounted owner later s₂ s₃) :
    Accounted owner (first ++ later) s₁ s₃ where
  grows key h := h₂.grows key (h₁.grows key h)
  sound h := h₂.sound (h₁.sound h)
  balanced key hkey h := h₂.balanced key hkey (h₁.balanced key hkey h)
  frame o ho key hkey := by
    obtain ⟨hfind₁, hedges₁⟩ := h₁.frame o ho key hkey
    obtain ⟨hfind₂, hedges₂⟩ := h₂.frame o ho key (h₁.grows key hkey)
    refine ⟨hfind₂.trans hfind₁, ?_⟩
    rw [hedges₂, hedges₁]
    by_cases hself : key = o.key
    · simp [hself]
    · simp [hself]

/-- Recording a dependency puts it on the account of the owner. -/
theorem linked {dependency : String} {owner : Owner} {state : State σ} (path : Path)
    (hother : dependency ≠ owner.key) (howner : owner.key ∈ state.table.keys) :
    Accounted (some owner) [dependency] state (state.linked dependency owner path) where
  grows _ h := h
  sound h := by
    intro edge hedge
    rcases List.mem_append.mp hedge with hold | hnew
    · exact h edge hold
    · obtain rfl := List.mem_singleton.mp hnew
      exact ⟨howner, hother⟩
  balanced key hkey h := by
    refine h.congr ?_ rfl
    rw [State.dependenciesOf_linked, if_neg (hkey owner rfl), List.append_nil]
  frame o ho key _ := by
    obtain rfl := Option.some.inj ho
    exact ⟨rfl, State.dependenciesOf_linked _ _ _ _ _⟩

end Accounted

/-! ## Opening an entry -/

namespace Opened

variable {owner : Option Owner} {path : Path} {before after : State σ} {found : Owner}

theorem grows (h : Opened owner path before found after) :
    ∀ key ∈ before.table.keys, key ∈ after.table.keys := by
  cases h with
  | given | known => exact fun _ hkey => hkey
  | fresh first inserted =>
    intro key hkey
    rw [State.reported_table, Table.keys_of_nodes_append (Table.insert_eq_ok_iff.mp inserted).2]
    exact List.mem_append_left _ hkey

theorem edges_eq (h : Opened owner path before found after) : after.edges = before.edges := by
  cases h <;> rfl

theorem sound (h : Opened owner path before found after) (hsound : before.Sound) :
    after.Sound := by
  intro edge hedge
  rw [h.edges_eq] at hedge
  exact ⟨h.grows _ (hsound edge hedge).1, (hsound edge hedge).2⟩

/-- A new entry has no results, and no edges yet. -/
theorem balanced (h : Opened owner path before found after) {key : String}
    (hkey : before.Balanced key) : after.Balanced key := by
  cases h with
  | given | known => exact hkey
  | fresh first inserted =>
    obtain ⟨hnew, hnodes⟩ := Table.insert_eq_ok_iff.mp inserted
    exact hkey.congr rfl (Table.references_of_nodes_append hnew hnodes rfl key)

/-- Without an owner, what is found is an entry of the table, and it collects. -/
theorem entry_of_none (h : Opened none path before found after) :
    ∃ key entry, found = .entry key true ∧ after.table.find? key = some (.entry entry) := by
  cases h with
  | known first hfound => exact ⟨_, _, rfl, hfound⟩
  | @fresh _ segment _ _ first inserted =>
    refine ⟨segment.text, ⟨segment.text, []⟩, rfl, ?_⟩
    rw [State.reported_table, Table.find?_of_nodes_append (Table.insert_eq_ok_iff.mp inserted).2]
    exact if_pos rfl

theorem mem_keys (h : Opened owner path before found after) (hosted : Hosted owner before) :
    found.key ∈ after.table.keys := by
  cases owner with
  | some o =>
    cases h with
    | given => exact (hosted found rfl).1
  | none =>
    obtain ⟨key, entry, rfl, hfind⟩ := h.entry_of_none
    exact Table.mem_keys_of_find? hfind

end Opened

/-- Attaching a result to an entry settles what the edges of the entry are ahead by. -/
theorem balanced_attached_entry {state : State σ} {key : String} {entry : Entry} {value : Value}
    (hfind : state.table.find? key = some (.entry entry))
    (hahead : dependenciesOf state.edges key =
      (Node.entry entry).references ++ value.references) :
    (state.attached (.entry key true) value).Balanced key := by
  unfold State.Balanced Table.references
  rw [State.attached_edges, State.find?_attached_entry, if_pos rfl, hfind, hahead]
  show _ = (entry.results ++ [value]).flatMap Value.references
  rw [List.flatMap_append, List.flatMap_singleton]
  rfl

/-- What a marker and a call have in common: the owner is found, the dependency is recorded, a walk
under the owner follows, and the value is offered to the owner. -/
theorem Opened.accounted {owner : Option Owner} {path : Path} {s s₁ s₂ : State σ} {found : Owner}
    {dependency : String} {inner : List String} {value : Value}
    (opened : Opened owner path s found s₁) (hosted : Hosted owner s)
    (hother : dependency ≠ found.key)
    (hinner : Accounted (some found.insideCall) inner (s₁.linked dependency found path) s₂)
    (hvalue : value.references = dependency :: inner) :
    Accounted owner value.references s (s₂.attached found value) := by
  have hlinked := Accounted.linked path hother (opened.mem_keys hosted)
  cases owner with
  | some o =>
    -- the owner is given: it collects nothing, so this is the recording and the walk in a row
    cases opened with
    | given =>
      rw [State.attached_of_not_collects (hosted found rfl).2, hvalue]
      refine ⟨fun key hkey => hinner.grows key hkey,
        fun hsound => hinner.sound (hlinked.sound hsound), fun key hkey hbal => ?_, ?_⟩
      · refine hinner.balanced key ?_ (hlinked.balanced key hkey hbal)
        rintro _ ⟨⟩
        rw [Owner.insideCall_key]
        exact hkey found rfl
      · rintro _ ⟨⟩ key hkey
        obtain ⟨hfind, hedges⟩ := hinner.frame _ rfl key hkey
        refine ⟨hfind, ?_⟩
        rw [hedges, Owner.insideCall_key, State.dependenciesOf_linked]
        by_cases hself : key = found.key
        · simp [hself]
        · simp [hself]
  | none =>
    obtain ⟨entryKey, entry, rfl, hfind⟩ := opened.entry_of_none
    refine ⟨fun key hkey => ?_, fun hsound => ?_, fun key _ hbal => ?_,
      fun o ho => absurd ho (by simp)⟩
    · rw [State.attached_table_keys]
      exact hinner.grows key (opened.grows key hkey)
    · unfold State.Sound
      rw [State.attached_edges, State.attached_table_keys]
      exact hinner.sound (hlinked.sound (opened.sound hsound))
    · have hbal₁ := opened.balanced hbal
      by_cases hself : key = entryKey
      · subst hself
        obtain ⟨hfind₂, hedges⟩ := hinner.frame _ rfl key (Table.mem_keys_of_find? hfind)
        rw [State.linked_table, hfind] at hfind₂
        refine balanced_attached_entry hfind₂ ?_
        unfold State.Balanced Table.references at hbal₁
        rw [hfind] at hbal₁
        rw [hedges, Owner.insideCall_key, State.dependenciesOf_linked, hbal₁, hvalue]
        simp [Owner.key]
      · have hbal₂ : s₂.Balanced key := by
          refine hinner.balanced key ?_ (hbal₁.congr ?_ rfl)
          · rintro _ ⟨⟩
            exact hself
          · have hother : key ≠ (Owner.entry entryKey true).key := hself
            rw [State.dependenciesOf_linked, if_neg hother, List.append_nil]
        refine hbal₂.congr (by rw [State.attached_edges]) ?_
        unfold Table.references
        rw [State.find?_attached_entry, if_neg hself]

/-! ## Entering and filling a component -/

namespace Entered

variable {source : KeySource σ} {members : List (String × Json)} {path : Path}
  {owner : Option Owner} {before after : State σ} {key : String}

theorem not_mem_keys (h : Entered source members path owner before key after) :
    key ∉ before.table.keys := by
  cases h with
  | alone _ _ inserted => exact (Table.insert_eq_ok_iff.mp inserted).1
  | owned _ _ inserted _ => exact (Table.insert_eq_ok_iff.mp inserted).1

theorem table_keys (h : Entered source members path owner before key after) :
    after.table.keys = before.table.keys ++ [key] := by
  cases h with
  | alone _ _ inserted =>
    exact Table.keys_of_nodes_append (Table.insert_eq_ok_iff.mp inserted).2
  | owned _ _ inserted _ =>
    rw [State.attached_table_keys]
    exact Table.keys_of_nodes_append (Table.insert_eq_ok_iff.mp inserted).2

/-- The table after entering is the table before with an empty component at its end, unless the
owner collects. -/
theorem exists_nodes_eq (h : Entered source members path owner before key after)
    (hosted : Hosted owner before) :
    ∃ c : Component, after.table.nodes = before.table.nodes ++ [.component c] ∧ c.key = key ∧
      c.params = [] ∧ c.methodArgs = [] := by
  cases h with
  | @alone _ declared _ _ _ _ _ inserted =>
    exact ⟨declared.component key path, (Table.insert_eq_ok_iff.mp inserted).2, rfl, rfl, rfl⟩
  | @owned _ declared _ _ _ o _ _ inserted _ =>
    rw [State.attached_of_not_collects (hosted o rfl).2]
    exact ⟨declared.component key path, (Table.insert_eq_ok_iff.mp inserted).2, rfl, rfl, rfl⟩

/-- Entering a component puts its key on the account of the owner. -/
theorem accounted (h : Entered source members path owner before key after)
    (hosted : Hosted owner before) : Accounted owner [key] before after := by
  obtain ⟨c, hnodes, hkey, hparams, hmethodArgs⟩ := h.exists_nodes_eq hosted
  have hnew : (Node.component c).key ∉ before.table.keys := by
    show c.key ∉ _
    rw [hkey]
    exact h.not_mem_keys
  have hempty : (Node.component c).references = [] := by
    simp [Node.references, Node.values, hparams, hmethodArgs]
  have hfind : ∀ other ∈ before.table.keys,
      after.table.find? other = before.table.find? other := by
    intro other hother
    have hne : other ≠ (Node.component c).key := fun hsame => hnew (hsame ▸ hother)
    rw [Table.find?_of_nodes_append hnodes, if_neg hne]
  have hedges : ∀ other, dependenciesOf after.edges other =
      dependenciesOf before.edges other ++
        if ∃ o, owner = some o ∧ other = o.key then [key] else [] := by
    intro other
    cases h with
    | alone => simp
    | @owned _ _ _ _ _ o _ _ _ _ =>
      rw [State.attached_edges, State.dependenciesOf_linked]
      simp
  have hgrows : ∀ other ∈ before.table.keys, other ∈ after.table.keys := by
    intro other hother
    rw [Table.keys_of_nodes_append hnodes]
    exact List.mem_append_left _ hother
  refine ⟨hgrows, fun hsound => ?_, fun other hother hbal => ?_, fun o ho other hother => ?_⟩
  · have hkept : ∀ edge ∈ before.edges,
        edge.dependent ∈ after.table.keys ∧ edge.dependency ≠ edge.dependent :=
      fun edge hedge => ⟨hgrows _ (hsound edge hedge).1, (hsound edge hedge).2⟩
    cases h with
    | alone => exact hkept
    | @owned _ _ _ _ _ o _ _ _ other =>
      intro edge hedge
      rw [State.attached_edges] at hedge
      rcases List.mem_append.mp hedge with hold | hnew
      · exact hkept edge hold
      · obtain rfl := List.mem_singleton.mp hnew
        exact ⟨hgrows _ (hosted o rfl).1, other⟩
  · refine hbal.congr ?_ (Table.references_of_nodes_append hnew hnodes hempty other)
    rw [hedges, if_neg (fun ⟨o, ho, hsame⟩ => hother o ho hsame), List.append_nil]
  · refine ⟨hfind other hother, ?_⟩
    rw [hedges]
    subst ho
    simp

/-- Filling a component with what was walked for it settles its account. -/
theorem accounted_filled {walked : State σ} {params : List (String × Value)}
    {methodArgs : List Value} (h : Entered source members path owner before key after)
    (hosted : Hosted owner before)
    (hinner : Accounted (some (.component key path.lastText))
      ((params.map Prod.snd ++ methodArgs).flatMap Value.references) after walked) :
    Accounted owner [key] before (walked.filled key params methodArgs) := by
  have hentered := h.accounted hosted
  obtain ⟨c, hnodes, hkey, hparams, hmethodArgs⟩ := h.exists_nodes_eq hosted
  have hfound : after.table.find? key = some (.component c) :=
    Table.find?_eq_some_iff.mpr ⟨by rw [hnodes]; simp, hkey⟩
  refine ⟨fun other hother => ?_, fun hsound => ?_, fun other hother hbal => ?_,
    fun o ho other hother => ?_⟩
  · rw [State.filled_table_keys]
    exact hinner.grows other (hentered.grows other hother)
  · unfold State.Sound
    rw [State.filled_edges, State.filled_table_keys]
    exact hinner.sound (hentered.sound hsound)
  · have hbal₁ := hentered.balanced other hother hbal
    by_cases hself : other = key
    · subst hself
      obtain ⟨hfind, hedges⟩ := hinner.frame _ rfl other (Table.mem_keys_of_find? hfound)
      have hnone : dependenciesOf after.edges other = [] := by
        unfold State.Balanced Table.references at hbal₁
        rw [hbal₁, hfound]
        simp [Node.references, Node.values, hparams, hmethodArgs]
      unfold State.Balanced Table.references
      rw [State.filled_edges, State.find?_filled, if_pos rfl, hfind, hfound, hedges, hnone]
      simp [Owner.key, Node.fill, Node.references, Node.values]
    · have hbal₂ : walked.Balanced other := by
        refine hinner.balanced other ?_ hbal₁
        rintro _ ⟨⟩
        exact hself
      refine hbal₂.congr rfl ?_
      unfold Table.references
      rw [State.find?_filled, if_neg hself]
  · have hne : other ≠ key := fun hsame => h.not_mem_keys (hsame ▸ hother)
    obtain ⟨hfind₁, hedges₁⟩ := hentered.frame o ho other hother
    obtain ⟨hfind₂, hedges₂⟩ := hinner.frame _ rfl other (hentered.grows other hother)
    refine ⟨?_, ?_⟩
    · rw [State.find?_filled, if_neg hne, hfind₂, hfind₁]
    · rw [State.filled_edges, hedges₂, hedges₁]
      simp [Owner.key, hne]

end Entered

/-- A walk takes nothing out of the table. -/
theorem Walked.grows {source : KeySource σ} {part : Part} {path : Path} {owner : Option Owner}
    {before after : State σ} {yield : Yield}
    (h : Walked source part path owner before yield after) :
    before.table.keys ⊆ after.table.keys := by
  induction h with
  | null | bool | number | plainText | itemsNil | membersNil | blockNil | noParams
  | noMethodArgs => exact List.Subset.refl _
  | marker marks opened other =>
    rw [State.attached_table_keys]
    exact opened.grows
  | component shape entered _ _ ih₁ ih₂ =>
    rw [State.filled_table_keys]
    rw [entered.table_keys] at ih₁
    exact fun key hkey => ih₂ (ih₁ (List.mem_append_left _ hkey))
  | call shape callee opened other _ ih =>
    rw [State.attached_table_keys]
    exact fun key hkey => ih (opened.grows key hkey)
  | itemsCons _ _ ih₁ ih₂ | membersCons _ _ ih₁ ih₂ | blockCons _ _ _ ih₁ ih₂
  | blockParams _ _ ih₁ ih₂ => exact List.Subset.trans ih₁ ih₂
  | array _ ih | methodBlock _ _ ih | mapping _ _ ih | someParams _ _ ih
  | someMethodArgs _ _ ih => exact ih

theorem Entered.edges_subset {source : KeySource σ} {members : List (String × Json)}
    {owner : Option Owner} {path : Path} {before after : State σ} {key : String}
    (entered : Entered source members path owner before key after) :
    before.edges ⊆ after.edges := by
  cases entered with
  | alone => exact List.Subset.refl _
  | owned =>
    rw [State.attached_edges]
    exact List.subset_append_left _ _

/-- A walk takes no edge back. -/
theorem Walked.edges_subset {source : KeySource σ} {part : Part} {path : Path}
    {owner : Option Owner} {before after : State σ} {yield : Yield}
    (h : Walked source part path owner before yield after) : before.edges ⊆ after.edges := by
  induction h with
  | null | bool | number | plainText | itemsNil | membersNil | blockNil | noParams
  | noMethodArgs => exact List.Subset.refl _
  | marker marks opened other =>
    rw [State.attached_edges, State.linked_edges, opened.edges_eq]
    exact List.subset_append_left _ _
  | component shape entered _ _ ih₁ ih₂ =>
    exact fun edge hedge => ih₂ (ih₁ (entered.edges_subset hedge))
  | call shape callee opened other _ ih =>
    rw [State.attached_edges]
    rw [State.linked_edges, opened.edges_eq] at ih
    exact fun edge hedge => ih (List.mem_append_left _ hedge)
  | itemsCons _ _ ih₁ ih₂ | membersCons _ _ ih₁ ih₂ | blockCons _ _ _ ih₁ ih₂
  | blockParams _ _ ih₁ ih₂ => exact List.Subset.trans ih₁ ih₂
  | array _ ih | methodBlock _ _ ih | mapping _ _ ih | someParams _ _ ih
  | someMethodArgs _ _ ih => exact ih

end Extraction

end Blueprint
