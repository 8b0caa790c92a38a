import Blueprint.Proofs.Extraction.Inventory
import Blueprint.Proofs.Extraction.Nodes
import Blueprint.Proofs.Program.Bindings

/-!
# `Blueprint/Proofs/Program/PlainText.lean` — no marker is left in a value

Markers are looked for twice, in two ways. The walk scans a text for its first group of braces, and
the writer of expressions asks whether a text is nothing but a marker, in which case it would write
the word without quotes. The second question is never answered with yes: the values of a graph hold
no text with a marker in it, at any depth, and a text without one is written in quotes.

A value gets into the table as the arguments of a component or as a result of an entry, and in both
cases it was walked first. So the property is one of what a walk yields, kept by every rule, and of
the table, kept by every step; the resolution of names changes references only.
-/

set_option autoImplicit false

namespace Blueprint

/-! ## Values without markers -/

namespace Value

/-- What the value is, its parts apart, was read off the document in full: a text has no marker,
and a reference names a node or was a marker. -/
def Settled (known : List String) : Value → Prop
  | .string text => Marker.find? text = none
  | .reference key => key ∈ known ∨ Marker.isWord key.toList = true
  | _ => True

/-- The value is settled at every depth. -/
def Clean (known : List String) (value : Value) : Prop :=
  ∀ inner : Value, inner.Inside value → inner.Settled known

variable {known : List String}

theorem Clean.sequence {items : List Value} (h : ∀ item ∈ items, item.Clean known) :
    (Value.sequence items).Clean known := by
  intro inner hinside
  cases hinside with
  | here => trivial
  | item hmem hinner => exact h _ hmem inner hinner

theorem Clean.mapping {entries : List (String × Value)}
    (h : ∀ value ∈ entries.map Prod.snd, value.Clean known) :
    (Value.mapping entries).Clean known := by
  intro inner hinside
  cases hinside with
  | here => trivial
  | entry hmem hinner => exact h _ (List.mem_map_of_mem hmem) inner hinner

theorem Clean.call {target method : String} {params : List (String × Value)}
    (h : ∀ value ∈ params.map Prod.snd, value.Clean known) :
    (Value.call target method params).Clean known := by
  intro inner hinside
  cases hinside with
  | here => trivial
  | argument hmem hinner => exact h _ (List.mem_map_of_mem hmem) inner hinner

theorem Clean.reference {key : String}
    (h : key ∈ known ∨ Marker.isWord key.toList = true) : (Value.reference key).Clean known := by
  intro inner hinside
  cases hinside with
  | here => exact h

theorem renameEntries_eq (naming : String → String) (entries : List (String × Value)) :
    renameEntries naming entries =
      entries.map fun (name, value) => (name, value.rename naming) := by
  induction entries with
  | nil => simp [renameEntries]
  | cons entry rest ih => simp [renameEntries, ih]

/-- Whatever is inside a renamed value was inside the value, under its old name. -/
theorem Inside.exists_of_rename {naming : String → String} {inner renamed : Value}
    (h : Inside inner renamed) :
    ∀ value : Value, value.rename naming = renamed →
      ∃ old : Value, old.Inside value ∧ inner = old.rename naming := by
  induction h with
  | here => exact fun value hvalue => ⟨value, .here, hvalue.symm⟩
  | item hmem _ ih =>
    intro value hvalue
    cases value <;> simp only [rename, reduceCtorEq, sequence.injEq] at hvalue
    rw [← hvalue, renameItems_eq] at hmem
    obtain ⟨item, hitem, hrenamed⟩ := List.mem_map.mp hmem
    obtain ⟨old, hold, rfl⟩ := ih item hrenamed
    exact ⟨old, .item hitem hold, rfl⟩
  | entry hmem _ ih =>
    intro value hvalue
    cases value <;> simp only [rename, reduceCtorEq, mapping.injEq] at hvalue
    rw [← hvalue, renameEntries_eq] at hmem
    obtain ⟨entry, hentry, hrenamed⟩ := List.mem_map.mp hmem
    obtain ⟨old, hold, rfl⟩ := ih entry.2 (congrArg Prod.snd hrenamed)
    exact ⟨old, .entry hentry hold, rfl⟩
  | argument hmem _ ih =>
    intro value hvalue
    cases value <;> simp only [rename, reduceCtorEq, call.injEq] at hvalue
    rw [← hvalue.2.2, renameEntries_eq] at hmem
    obtain ⟨entry, hentry, hrenamed⟩ := List.mem_map.mp hmem
    obtain ⟨old, hold, rfl⟩ := ih entry.2 (congrArg Prod.snd hrenamed)
    exact ⟨old, .argument hentry hold, rfl⟩

theorem Clean.rename {naming : String → String} {value : Value} (h : value.Clean known)
    (hnaming : ∀ key, naming key = key ∨ naming key ∈ known) :
    (value.rename naming).Clean known := by
  intro inner hinside
  obtain ⟨old, hold, rfl⟩ := hinside.exists_of_rename value rfl
  have hsettled := h old hold
  cases old with
  | reference key =>
    rcases hnaming key with hsame | hknown
    · show naming key ∈ known ∨ Marker.isWord (naming key).toList = true
      rw [hsame]
      exact hsettled
    · exact Or.inl hknown
  | _ => exact hsettled

theorem expression_of_plain {text : String} (h : Marker.find? text = none) (depth : Nat) :
    (Value.string text).expression depth = Text.quote text := by
  rw [expression, Marker.whole?_eq_none_of_find? h]

end Value

theorem Node.values_rename (naming : String → String) (node : Node) :
    (node.rename naming).values = node.values.map (Value.rename naming) := by
  cases node with
  | component c =>
    simp [Node.rename, Node.values, Value.renameItems_eq, Value.renameEntries_eq]
  | entry e => simp [Node.rename, Node.values, Value.renameItems_eq]

namespace Extraction

variable {σ : Type} {source : KeySource σ} {known : List String} {owner : Option Owner}
  {path : Path} {before after : State σ}

/-- Every value of the node is clean. -/
def NodeClean (known : List String) (node : Node) : Prop :=
  ∀ value ∈ node.values, value.Clean known

/-- Every node of the table is clean. -/
def State.Clean (known : List String) (state : State σ) : Prop :=
  ∀ node ∈ state.table.nodes, NodeClean known node

/-- Every value of the yield is clean. -/
def Yield.Clean (known : List String) (yield : Yield) : Prop :=
  ∀ value ∈ yield.values, value.Clean known

theorem Yield.clean_value {value : Value} (h : value.Clean known) :
    (Yield.value value).Clean known := by
  intro other hother
  obtain rfl := List.mem_singleton.mp hother
  exact h

theorem Yield.clean_plain {value : Value} (h : ∀ inner, inner.Inside value → inner = value)
    (hvalue : value.Settled known) : (Yield.value value).Clean known := by
  apply Yield.clean_value
  intro inner hinside
  rw [h inner hinside]
  exact hvalue

/-! ## One step -/

theorem State.Clean.attached (h : before.Clean known) (found : Owner) {value : Value}
    (hvalue : value.Clean known) : (before.attached found value).Clean known := by
  unfold State.attached
  split
  · apply Table.forall_nodes_editAt (Node.key_collect value) _ h
    intro node hnode
    cases node with
    | component c => exact hnode
    | entry e =>
      intro result hresult
      rcases List.mem_append.mp hresult with hearlier | hlast
      · exact hnode result hearlier
      · obtain rfl := List.mem_singleton.mp hlast
        exact hvalue
  · exact h

theorem State.Clean.filled (h : before.Clean known) (key : String)
    {params : List (String × Value)} {methodArgs : List Value}
    (hparams : (Yield.entries params).Clean known)
    (hmethodArgs : (Yield.items methodArgs).Clean known) :
    (before.filled key params methodArgs).Clean known := by
  apply Table.forall_nodes_editAt (Node.key_fill params methodArgs) key h
  intro node hnode
  cases node with
  | component c =>
    intro value hvalue
    rcases List.mem_append.mp hvalue with hparam | hmethodArg
    · exact hparams value hparam
    · exact hmethodArgs value hmethodArg
  | entry e => exact hnode

theorem Opened.clean {found : Owner} (opened : Opened owner path before found after)
    (h : before.Clean known) : after.Clean known := by
  cases opened with
  | given | known => exact h
  | fresh _ inserted =>
    apply Table.forall_nodes_insert inserted h
    intro value hvalue
    cases hvalue

theorem Entered.clean {members : List (String × Json)} {key : String}
    (entered : Entered source members path owner before key after) (hkey : key ∈ known)
    (h : before.Clean known) : after.Clean known := by
  have hempty : ∀ declared : Declaration,
      NodeClean known (.component (declared.component key path)) := by
    intro declared value hvalue
    cases hvalue
  cases entered with
  | alone _ _ inserted => exact Table.forall_nodes_insert inserted h (hempty _)
  | owned _ _ inserted _ =>
    refine State.Clean.attached ?_ _ (Value.Clean.reference (Or.inl hkey))
    exact Table.forall_nodes_insert inserted h (hempty _)

/-! ## A whole walk -/

theorem Walked.clean {part : Part} {yield : Yield}
    (h : Walked source part path owner before yield after) (hknown : after.table.keys ⊆ known)
    (hbefore : before.Clean known) : yield.Clean known ∧ after.Clean known := by
  induction h with
  | null | bool | number =>
    refine ⟨Yield.clean_plain ?_ trivial, hbefore⟩
    intro inner hinside
    cases hinside
    rfl
  | plainText plain =>
    refine ⟨Yield.clean_plain ?_ plain, hbefore⟩
    intro inner hinside
    cases hinside
    rfl
  | marker marks opened other =>
    have hword := Marker.isWord_of_find? marks
    refine ⟨Yield.clean_value (.reference (Or.inr hword)), ?_⟩
    refine State.Clean.attached ?_ _ (.reference (Or.inr hword))
    exact opened.clean hbefore
  | array _ ih =>
    obtain ⟨hitems, hafter⟩ := ih hknown hbefore
    exact ⟨Yield.clean_value (Value.Clean.sequence hitems), hafter⟩
  | @component _ _ _ _ _ _ _ key _ _ shape entered first second ih₁ ih₂ =>
    rw [State.filled_table_keys] at hknown
    have hkey : key ∈ known := by
      apply hknown
      apply second.grows
      apply first.grows
      rw [entered.table_keys]
      exact List.mem_append_right _ (List.mem_singleton_self key)
    obtain ⟨hparams, hmiddle⟩ :=
      ih₁ (List.Subset.trans second.grows hknown) (entered.clean hkey hbefore)
    obtain ⟨hmethodArgs, hafter⟩ := ih₂ hknown hmiddle
    exact ⟨Yield.clean_value (Value.Clean.reference (Or.inl hkey)),
      hafter.filled _ hparams hmethodArgs⟩
  | call shape callee opened other _ ih =>
    rw [State.attached_table_keys] at hknown
    obtain ⟨hparams, hafter⟩ := ih hknown (opened.clean hbefore)
    exact ⟨Yield.clean_value (Value.Clean.call hparams), hafter.attached _ (.call hparams)⟩
  | methodBlock shape _ ih | mapping shape _ ih =>
    obtain ⟨hentries, hafter⟩ := ih hknown hbefore
    exact ⟨Yield.clean_value (Value.Clean.mapping hentries), hafter⟩
  | itemsNil | membersNil | blockNil | noParams | noMethodArgs =>
    refine ⟨?_, hbefore⟩
    intro value hvalue
    cases hvalue
  | itemsCons _ later ih₁ ih₂ | membersCons _ later ih₁ ih₂ | blockCons _ _ later ih₁ ih₂ =>
    obtain ⟨hfirst, hmiddle⟩ := ih₁ (List.Subset.trans later.grows hknown) hbefore
    obtain ⟨hlater, hafter⟩ := ih₂ hknown hmiddle
    exact ⟨List.forall_mem_cons.mpr ⟨hfirst _ (List.mem_singleton_self _), hlater⟩, hafter⟩
  | blockParams _ later ih₁ ih₂ =>
    obtain ⟨hfirst, hmiddle⟩ := ih₁ (List.Subset.trans later.grows hknown) hbefore
    obtain ⟨hlater, hafter⟩ := ih₂ hknown hmiddle
    exact ⟨List.forall_mem_cons.mpr ⟨Value.Clean.mapping hfirst, hlater⟩, hafter⟩
  | someParams _ _ ih | someMethodArgs _ _ ih => exact ih hknown hbefore

/-! ## The graph -/

/-- In the graph of a document no text has a marker, at any depth of any value, and it is written in
quotes wherever it stands. A reference names a node of the table, or else its key is a word. -/
theorem extract_texts_quoted (source : KeySource σ) (document : Json) (keys : σ) (graph : Graph)
    (h : (extract source document keys).graph = .ok graph) :
    ∀ node ∈ graph.table.nodes, ∀ value ∈ node.values, ∀ inner : Value, inner.Inside value →
      (∀ text, inner = .string text →
        Marker.find? text = none ∧ ∀ depth, inner.expression depth = Text.quote text) ∧
      (∀ key, inner = .reference key →
        key ∈ graph.table.keys ∨ Marker.isWord key.toList = true) := by
  obtain ⟨walkedValue, state, hwalked, -, rfl⟩ := exists_walked_of_extract h
  have hkeys : state.graph.table.keys = state.table.keys := Table.keys_edit (Node.key_rename _) _
  obtain ⟨-, hclean⟩ := hwalked.clean (List.Subset.refl _) fun node hnode => by cases hnode
  intro node hnode value hvalue inner hinside
  obtain ⟨old, hold, rfl⟩ := List.mem_map.mp hnode
  rw [Node.values_rename] at hvalue
  obtain ⟨oldValue, holdValue, rfl⟩ := List.mem_map.mp hvalue
  have hsettled := (hclean old hold oldValue holdValue).rename
    (resolve_eq_or_mem_keys state.table) inner hinside
  constructor
  · intro text htext
    subst htext
    exact ⟨hsettled, Value.expression_of_plain hsettled⟩
  · intro key hkey
    subst hkey
    rw [hkeys]
    exact hsettled

/-- A component under a key that is no word, and a call with texts that have braces but no
marker. -/
def bracesDocument : Json := .object
  [("base", .object [("module", .string "os"), ("object_key", .string "a b")]),
   ("run", .object
     [("reference_key", .string "base"),
      ("function_call", .string "at"),
      ("params", .object
        [("texts", .array [.string "\x7bopen", .string "closed\x7d"]),
         ("on", .string "\x7bbase\x7d")])])]

/-- The graph of `bracesDocument`. -/
def bracesGraph : Graph where
  table :=
    { nodes :=
        [.component ⟨"a b", "os", none, [], [], "base", ⟨[.key "base"]⟩⟩,
         .entry ⟨"run", [.call "a b" "at"
           [("texts", .sequence [.string "\x7bopen", .string "closed\x7d"]),
            ("on", .reference "a b")]]⟩]
      indexed := .of_nodup (by decide) }
  edges :=
    [⟨"a b", "run", ⟨[.key "run"]⟩⟩,
     ⟨"a b", "run", ⟨[.key "run", .key "params", .key "on"]⟩⟩]

theorem extract_texts_quoted_braces :
    (extract KeySource.sequential bracesDocument 0).graph = .ok bracesGraph ∧
    ∀ node ∈ bracesGraph.table.nodes, ∀ value ∈ node.values, ∀ inner : Value, inner.Inside value →
      (∀ text, inner = .string text →
        Marker.find? text = none ∧ ∀ depth, inner.expression depth = Text.quote text) ∧
      (∀ key, inner = .reference key →
        key ∈ bracesGraph.table.keys ∨ Marker.isWord key.toList = true) := by
  have hextract : (extract KeySource.sequential bracesDocument 0).graph = .ok bracesGraph := by cbv
  exact ⟨hextract, extract_texts_quoted _ _ _ _ hextract⟩

end Extraction

end Blueprint
