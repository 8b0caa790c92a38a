import Blueprint.Program
import Blueprint.Proofs.Extraction.Inventory
import Blueprint.Proofs.Extraction.Nodes

/-!
# `Blueprint/Proofs/Extraction/Aliases.lean` — names of fields are aliases

A document may call a component by the top-level field that holds it. Such names are recorded as
they stand, and pointed at keys when the walk is over and all keys are known. `Json.repoint` does
the opposite: it writes the keys into the document, before any walk. The two come to the same.

The proof runs both walks side by side. Each rule of the first has its counterpart in the second,
and all the way the second state is the first with its names replaced (`State.RenamedTo`). The one
thing that the second walk checks and the first does not check yet is that no node needs itself
under its proper key. The first extraction has that check at its end, so it is carried backwards: an
edge that is recorded anywhere is an edge of the last state.
-/

set_option autoImplicit false

namespace Blueprint

/-! ## Writing keys in place of names -/

namespace Json

mutual

/-- The document with every name that is walked replaced: markers are written anew where their name
changes, and calls get another target. Whatever is not walked stays. -/
def repoint (naming : String → String) : Json → Json
  | .null => .null
  | .bool value => .bool value
  | .number value => .number value
  | .string text =>
    match Marker.find? text with
    | some (.key name) =>
      if naming name = name then .string text else .string (Marker.written (naming name))
    | _ => .string text
  | .array items => .array (repointItems naming items)
  | .object members =>
    match objectShape members with
    | .component => .object (repointFields naming .component members)
    | .call => .object (repointFields naming .call members)
    | .methodBlock => .object (repointBlock naming members)
    | .mapping => .object (repointMembers naming members)

def repointItems (naming : String → String) : List Json → List Json
  | [] => []
  | item :: rest => repoint naming item :: repointItems naming rest

def repointMembers (naming : String → String) : List (String × Json) → List (String × Json)
  | [] => []
  | (name, member) :: rest => (name, repoint naming member) :: repointMembers naming rest

/-- The members of a block of method arguments. -/
def repointBlock (naming : String → String) : List (String × Json) → List (String × Json)
  | [] => []
  | (name, .object inner) :: rest =>
    (name,
      if name = Field.params then .object (repointMembers naming inner)
      else repoint naming (.object inner)) :: repointBlock naming rest
  | (name, member) :: rest => (name, repoint naming member) :: repointBlock naming rest

/-- The members of a component or a call: the arguments of either, the method arguments of a
component and the target of a call. -/
def repointFields (naming : String → String) (shape : ObjectShape) :
    List (String × Json) → List (String × Json)
  | [] => []
  | (name, .object inner) :: rest =>
    (name, .object (if name = Field.params then repointMembers naming inner else inner)) ::
      repointFields naming shape rest
  | (name, .array items) :: rest =>
    (name,
      .array (if name = Field.methodArgs ∧ shape = .component then repointItems naming items
        else items)) :: repointFields naming shape rest
  | (name, .string text) :: rest =>
    (name, .string (if name = Field.callTarget ∧ shape = .call then naming text else text)) ::
      repointFields naming shape rest
  | (name, member) :: rest => (name, member) :: repointFields naming shape rest

end

variable {naming : String → String} {shape : ObjectShape}

theorem repoint_of_plain {text : String} (h : Marker.find? text = none) :
    repoint naming (.string text) = .string text := by
  rw [repoint, h]

/-- A marker whose new name is a word, or is the old one, is read under its new name. -/
theorem exists_repoint_marker {text name : String} (h : Marker.find? text = some (.key name))
    (hword : naming name ≠ name → Marker.isWord (naming name).toList = true) :
    ∃ text', repoint naming (.string text) = .string text' ∧
      Marker.find? text' = some (.key (naming name)) := by
  rw [repoint, h]
  by_cases hsame : naming name = name
  · exact ⟨text, if_pos hsame, by rw [hsame]; exact h⟩
  · exact ⟨_, if_neg hsame, Marker.find?_written (hword hsame)⟩

theorem names_repointMembers (naming : String → String) (members : List (String × Json)) :
    (repointMembers naming members).map Prod.fst = members.map Prod.fst := by
  induction members with
  | nil => simp [repointMembers]
  | cons head rest ih => simp [repointMembers, ih]

theorem repointBlock_params (inner rest : List (String × Json)) :
    repointBlock naming ((Field.params, .object inner) :: rest) =
      (Field.params, .object (repointMembers naming inner)) :: repointBlock naming rest := by
  simp [repointBlock]

theorem repointBlock_cons {name : String} {member : Json} (rest : List (String × Json))
    (plain : name = Field.params → ∀ inner, member ≠ .object inner) :
    repointBlock naming ((name, member) :: rest) =
      (name, repoint naming member) :: repointBlock naming rest := by
  cases member with
  | object inner =>
    have hname : name ≠ Field.params := fun hname => plain hname inner rfl
    simp [repointBlock, hname]
  | _ => simp [repointBlock]

/-- What is no object of arguments does not become one. -/
theorem repoint_ne_object (naming : String → String) {name : String} {member : Json}
    (plain : name = Field.params → ∀ inner, member ≠ .object inner) :
    name = Field.params → ∀ inner, member.repoint naming ≠ .object inner := by
  intro hname inner hinner
  cases member with
  | object members => exact plain hname members rfl
  | string text =>
    rw [repoint] at hinner
    split at hinner
    · split at hinner <;> cases hinner
    · cases hinner
  | _ => simp [repoint] at hinner

theorem names_repointBlock (naming : String → String) (members : List (String × Json)) :
    (repointBlock naming members).map Prod.fst = members.map Prod.fst := by
  induction members with
  | nil => simp [repointBlock]
  | cons head rest ih =>
    obtain ⟨name, member⟩ := head
    cases member <;> simp [repointBlock, ih]

theorem names_repointFields (naming : String → String) (shape : ObjectShape)
    (members : List (String × Json)) :
    (repointFields naming shape members).map Prod.fst = members.map Prod.fst := by
  induction members with
  | nil => simp [repointFields]
  | cons head rest ih =>
    obtain ⟨name, member⟩ := head
    cases member <;> simp [repointFields, ih]

/-- The member of a component or a call under a name, with names replaced. -/
def repointField (naming : String → String) (shape : ObjectShape) (name : String) : Json → Json
  | .object inner =>
    .object (if name = Field.params then repointMembers naming inner else inner)
  | .array items =>
    .array (if name = Field.methodArgs ∧ shape = .component then repointItems naming items
      else items)
  | .string text =>
    .string (if name = Field.callTarget ∧ shape = .call then naming text else text)
  | member => member

theorem get?_repointFields (name : String) (members : List (String × Json)) :
    get? name (repointFields naming shape members) =
      (get? name members).map (repointField naming shape name) := by
  induction members with
  | nil => rfl
  | cons head rest ih =>
    obtain ⟨field, member⟩ := head
    by_cases hname : field = name
    · subst hname
      cases member <;> simp [repointFields, repointField, get?]
    · cases member <;> simp [repointFields, get?, hname, ih]

/-- The fields that say what a component or a call is are not replaced. -/
theorem get?_repointFields_of_plain {name : String} (members : List (String × Json))
    (hparams : name ≠ Field.params) (hmethodArgs : name ≠ Field.methodArgs)
    (htarget : name ≠ Field.callTarget ∨ shape ≠ .call) :
    get? name (repointFields naming shape members) = get? name members := by
  have hsame : repointField naming shape name = id := by
    funext member
    cases member with
    | string text =>
      rcases htarget with htarget | htarget <;> simp [repointField, htarget]
    | _ => simp [repointField, hparams, hmethodArgs]
  rw [get?_repointFields, hsame, Option.map_id, id]

end Json

/-! ## The second run -/

/-- An edge whose dependency is replaced. -/
def Edge.repoint (naming : String → String) (edge : Edge) : Edge :=
  { edge with dependency := naming edge.dependency }

namespace Node

theorem rename_collect (naming : String → String) (value : Value) (node : Node) :
    (node.collect value).rename naming = (node.rename naming).collect (value.rename naming) := by
  cases node <;> simp [rename, collect, Value.renameItems_eq]

theorem rename_fill (naming : String → String) (params : List (String × Value))
    (methodArgs : List Value) (node : Node) :
    (node.fill params methodArgs).rename naming =
      (node.rename naming).fill (Value.renameEntries naming params)
        (Value.renameItems naming methodArgs) := by
  cases node <;> rfl

end Node

namespace Extraction

variable {σ : Type} {source : KeySource σ} {naming : String → String}

/-- The second state is the first with its names replaced. What was reported may differ. -/
structure State.RenamedTo (naming : String → String) (first second : State σ) : Prop where
  nodes : second.table.nodes = first.table.nodes.map (Node.rename naming)
  edges : second.edges = first.edges.map (Edge.repoint naming)
  keys : second.keys = first.keys

section

variable {s t : State σ} {owner : Option Owner} {path : Path}

theorem State.RenamedTo.table_keys (h : s.RenamedTo naming t) : t.table.keys = s.table.keys := by
  unfold Arena.keys
  rw [h.nodes, List.map_map]
  exact List.map_congr_left fun node _ => Node.key_rename naming node

theorem State.RenamedTo.find? (h : s.RenamedTo naming t) (key : String) :
    t.table.find? key = (s.table.find? key).map (Node.rename naming) := by
  have htable : t.table = s.table.edit (Node.rename naming) (Node.key_rename naming) :=
    Table.eq_of_nodes_eq h.nodes
  rw [htable]
  exact Table.find?_edit (Node.key_rename naming) _ _

theorem State.RenamedTo.linked (h : s.RenamedTo naming t) (dependency : String) (found : Owner)
    (path : Path) :
    (s.linked dependency found path).RenamedTo naming
      (t.linked (naming dependency) found path) where
  nodes := h.nodes
  edges := by
    rw [State.linked_edges, State.linked_edges, h.edges, List.map_append]
    rfl
  keys := h.keys

/-- An edit in both runs, if the two edits agree up to names. -/
theorem State.RenamedTo.editAt (h : s.RenamedTo naming t) (key : String)
    {change change' : Node → Node} (keeps : ∀ node, (change node).key = node.key)
    (keeps' : ∀ node, (change' node).key = node.key)
    (hchange : ∀ node, (change node).rename naming = change' (node.rename naming)) :
    (t.table.editAt key change' keeps').nodes =
      (s.table.editAt key change keeps).nodes.map (Node.rename naming) := by
  rw [Table.nodes_editAt, Table.nodes_editAt, h.nodes, List.map_map, List.map_map]
  apply List.map_congr_left
  intro node _
  simp only [Function.comp_apply, Node.key_rename]
  split
  · exact (hchange node).symm
  · rfl

theorem State.RenamedTo.attached (h : s.RenamedTo naming t) (found : Owner) (value : Value) :
    (s.attached found value).RenamedTo naming (t.attached found (value.rename naming)) := by
  refine ⟨?_, ?_, ?_⟩
  · unfold State.attached
    split
    · exact h.editAt _ (Node.key_collect _) (Node.key_collect _)
        (Node.rename_collect naming value)
    · exact h.nodes
  · rw [State.attached_edges, State.attached_edges, h.edges]
  · rw [State.attached_keys, State.attached_keys, h.keys]

theorem State.RenamedTo.filled (h : s.RenamedTo naming t) (key : String)
    (params : List (String × Value)) (methodArgs : List Value) :
    (s.filled key params methodArgs).RenamedTo naming
      (t.filled key (Value.renameEntries naming params)
        (Value.renameItems naming methodArgs)) where
  nodes := h.editAt _ (Node.key_fill _ _) (Node.key_fill _ _)
    (Node.rename_fill naming params methodArgs)
  edges := h.edges
  keys := h.keys

/-- A node without values goes into both tables. -/
theorem State.RenamedTo.insert (h : s.RenamedTo naming t) {node : Node} {table : Table}
    (hplain : node.rename naming = node) (inserted : s.table.insert node = .ok table) :
    ∃ table', t.table.insert node = .ok table' ∧
      table'.nodes = table.nodes.map (Node.rename naming) := by
  obtain ⟨hnew, hnodes⟩ := Table.insert_eq_ok_iff.mp inserted
  rw [← h.table_keys] at hnew
  obtain ⟨table', hinserted⟩ := Table.exists_insert node hnew
  refine ⟨table', hinserted, ?_⟩
  rw [(Table.insert_eq_ok_iff.mp hinserted).2, hnodes, h.nodes, List.map_append, List.map_singleton,
    hplain]

theorem Opened.renamed {s₁ : State σ} {found : Owner} (opened : Opened owner path s found s₁)
    (h : s.RenamedTo naming t) : ∃ t₁, Opened owner path t found t₁ ∧ s₁.RenamedTo naming t₁ := by
  cases opened with
  | given => exact ⟨t, .given found path t, h⟩
  | @known _ segment _ _ first hfound =>
    have hfound' := h.find? segment.text
    rw [hfound] at hfound'
    exact ⟨t, .known first hfound', h⟩
  | fresh first inserted =>
    obtain ⟨table, hinserted, hnodes⟩ := h.insert rfl inserted
    exact ⟨_, .fresh first hinserted, ⟨hnodes, h.edges, h.keys⟩⟩

theorem Entered.renamed {members members' : List (String × Json)} {key : String} {s₁ : State σ}
    (entered : Entered source members path owner s key s₁)
    (hdeclaration : declaration members' path = declaration members path)
    (hkey : naming key = key) (h : s.RenamedTo naming t) :
    ∃ t₁, Entered source members' path owner t key t₁ ∧ s₁.RenamedTo naming t₁ := by
  cases entered with
  | alone declares derives inserted =>
    obtain ⟨table, hinserted, hnodes⟩ := h.insert rfl inserted
    rw [← h.keys] at derives
    exact ⟨_, .alone (hdeclaration.trans declares) derives hinserted, ⟨hnodes, h.edges, rfl⟩⟩
  | @owned _ declared _ keys table found declares derives inserted other =>
    obtain ⟨table', hinserted, hnodes⟩ := h.insert rfl inserted
    rw [← h.keys] at derives
    refine ⟨_, .owned (hdeclaration.trans declares) derives hinserted other, ?_⟩
    have hregistered : State.RenamedTo naming
        ({ s with keys, table }.reported (.component key path))
        ({ t with keys, table := table' }.reported (.component key path)) :=
      ⟨hnodes, h.edges, rfl⟩
    have hattached := (hregistered.linked key found path).attached found (.reference key)
    rw [Value.rename, hkey] at hattached
    exact hattached

end

/-! ## Both runs -/

/-- The state can do with other names: the keys of the table stand for themselves, and no edge comes
to lead from a node to itself. -/
structure State.Renamable (naming : String → String) (state : State σ) : Prop where
  keys : ∀ key ∈ state.table.keys, naming key = key
  edges : ∀ edge ∈ state.edges, naming edge.dependency ≠ edge.dependent

/-- Whatever is in a state is still there at the end of a walk. -/
theorem Walked.renamable_before {part : Part} {path : Path} {owner : Option Owner} {s s' : State σ}
    {yield : Yield} (h : Walked source part path owner s yield s') (hafter : s'.Renamable naming) :
    s.Renamable naming where
  keys key hkey := hafter.keys key (h.grows hkey)
  edges edge hedge := hafter.edges edge (h.edges_subset hedge)

theorem State.Renamable.of_attached {s : State σ} {found : Owner} {value : Value}
    (h : (s.attached found value).Renamable naming) : s.Renamable naming where
  keys := by
    rw [← State.attached_table_keys s found value]
    exact h.keys
  edges := by
    rw [← State.attached_edges s found value]
    exact h.edges

theorem State.Renamable.of_filled {s : State σ} {key : String} {params : List (String × Value)}
    {methodArgs : List Value} (h : (s.filled key params methodArgs).Renamable naming) :
    s.Renamable naming where
  keys := by
    rw [← State.filled_table_keys s key params methodArgs]
    exact h.keys
  edges := h.edges

theorem State.Renamable.naming_ne {s : State σ} {dependency : String} {found : Owner} {path : Path}
    (h : (s.linked dependency found path).Renamable naming) : naming dependency ≠ found.key :=
  h.edges ⟨dependency, found.key, path⟩ (List.mem_append_right _ (List.mem_singleton_self _))

/-- What is walked in the second run. -/
def Part.repoint (naming : String → String) : Part → Part
  | .value document => .value (document.repoint naming)
  | .items list position => .items (Json.repointItems naming list) position
  | .members list => .members (Json.repointMembers naming list)
  | .block list => .block (Json.repointBlock naming list)
  | .params list => .params (Json.repointFields naming .component list)
  | .methodArgs list => .methodArgs (Json.repointFields naming .component list)

/-- The walk of arguments looks at nothing else. -/
theorem Walked.params_congr {a b : List (String × Json)} {path : Path} {owner : Option Owner}
    {s s' : State σ} {yield : Yield} (h : Walked source (.params a) path owner s yield s')
    (hsame : Json.get? Field.params a = Json.get? Field.params b) :
    Walked source (.params b) path owner s yield s' := by
  cases h with
  | noParams none => exact .noParams (hsame ▸ none)
  | someParams found walked => exact .someParams (hsame ▸ found) walked

theorem declaration_repointFields (members : List (String × Json)) (path : Path) :
    declaration (Json.repointFields naming .component members) path = declaration members path := by
  have hsame : ∀ field ∈ [Field.module, Field.className, Field.classType, Field.objectKey],
      Json.get? field (Json.repointFields naming .component members) =
        Json.get? field members := by
    intro field hfield
    apply Json.get?_repointFields_of_plain
    · rintro rfl
      exact absurd hfield (by decide)
    · rintro rfl
      exact absurd hfield (by decide)
    · exact Or.inr (by decide)
  unfold declaration textField textField?
  simp only [hsame, List.mem_cons, true_or, or_true]

theorem callee_repointFields {members : List (String × Json)} {path : Path} {target method : String}
    (h : callee members path = .ok (target, method)) :
    callee (Json.repointFields naming .call members) path = .ok (naming target, method) := by
  obtain ⟨htarget, hmethod⟩ := callee_eq_ok_iff.mp h
  refine callee_eq_ok_iff.mpr ⟨?_, ?_⟩
  · rw [Json.get?_repointFields, htarget]
    simp [Json.repointField]
  · rw [← hmethod]
    exact Json.get?_repointFields_of_plain _ (by decide) (by decide) (Or.inl (by decide))

end Extraction

/-- If the visit is a marker whose name changes, the new name is a word. -/
def Visit.Writable (naming : String → String) (visit : Visit) : Prop :=
  ∀ name, visit.part.role = .marker name → naming name ≠ name →
    Marker.isWord (naming name).toList = true

namespace Extraction

variable {σ : Type} {source : KeySource σ} {naming : String → String}

theorem repoint_component {members : List (String × Json)}
    (shape : Json.objectShape members = .component) :
    (Part.value (.object members)).repoint naming =
      .value (.object (Json.repointFields naming .component members)) := by
  simp only [Part.repoint, Json.repoint, shape]

theorem repoint_call {members : List (String × Json)} (shape : Json.objectShape members = .call) :
    (Part.value (.object members)).repoint naming =
      .value (.object (Json.repointFields naming .call members)) := by
  simp only [Part.repoint, Json.repoint, shape]

theorem repoint_methodBlock {members : List (String × Json)}
    (shape : Json.objectShape members = .methodBlock) :
    (Part.value (.object members)).repoint naming =
      .value (.object (Json.repointBlock naming members)) := by
  simp only [Part.repoint, Json.repoint, shape]

theorem repoint_mapping {members : List (String × Json)}
    (shape : Json.objectShape members = .mapping) :
    (Part.value (.object members)).repoint naming =
      .value (.object (Json.repointMembers naming members)) := by
  simp only [Part.repoint, Json.repoint, shape]

/-- A walk has its counterpart in the second run, provided that its last state can do with the other
names, and that the new names of markers are words. -/
theorem Walked.renamed {part : Part} {path : Path} {owner : Option Owner} {s s' : State σ}
    {yield : Yield} (h : Walked source part path owner s yield s')
    (hafter : s'.Renamable naming) :
    ∀ {around : List Enclosure},
      (∀ visit ∈ part.visits path around, visit.Writable naming) →
      ∀ {t : State σ}, s.RenamedTo naming t →
        ∃ t', Walked source (part.repoint naming) path owner t (yield.rename naming) t' ∧
          s'.RenamedTo naming t' := by
  induction h with
  | null => exact fun _ t hst => ⟨t, .null, hst⟩
  | bool => exact fun _ t hst => ⟨t, .bool, hst⟩
  | number => exact fun _ t hst => ⟨t, .number, hst⟩
  | plainText plain =>
    intro around _ t hst
    rw [Part.repoint, Json.repoint_of_plain plain]
    exact ⟨t, .plainText plain, hst⟩
  | @marker text name path _ _ s₁ found marks opened other =>
    intro around hwritable t hst
    rw [visits_leaf (by simp) (by simp)] at hwritable
    obtain ⟨text', htext, hmarks⟩ := Json.exists_repoint_marker marks
      (hwritable _ (List.mem_singleton_self _) name (by simp [Json.role, marks]))
    have hother := hafter.of_attached.naming_ne
    obtain ⟨t₁, hopened, hst₁⟩ := opened.renamed hst
    have hlinked := hst₁.linked name found path
    rw [Part.repoint, htext]
    exact ⟨_, .marker hmarks hopened hother, hlinked.attached found _⟩
  | array _ ih =>
    intro around hwritable t hst
    rw [visits_array, List.forall_mem_append] at hwritable
    obtain ⟨t', hwalked, hst'⟩ := ih hafter hwritable.2 hst
    exact ⟨t', .array hwalked, hst'⟩
  | @component members path _ _ _ _ _ key _ _ shape entered first second ih₁ ih₂ =>
    intro around hwritable t hst
    rw [visits_component shape, List.forall_mem_append, List.forall_mem_append] at hwritable
    have hmiddle := second.renamable_before hafter.of_filled
    have hkey : naming key = key := by
      apply (first.renamable_before hmiddle).keys
      rw [entered.table_keys]
      exact List.mem_append_right _ (List.mem_singleton_self key)
    obtain ⟨t₁, hentered, hst₁⟩ :=
      entered.renamed (declaration_repointFields members path) hkey hst
    obtain ⟨t₂, hfirst, hst₂⟩ := ih₁ hmiddle hwritable.2.1 hst₁
    obtain ⟨t₃, hsecond, hst₃⟩ := ih₂ hafter.of_filled hwritable.2.2 hst₂
    rw [repoint_component shape, Yield.rename, Value.rename, hkey]
    rw [← Json.objectShape_congr (Json.names_repointFields naming .component members)] at shape
    exact ⟨_, .component shape hentered hfirst hsecond, hst₃.filled key _ _⟩
  | @call members path _ _ _ s₂ found target method params shape callee opened other walked ih =>
    intro around hwritable t hst
    rw [visits_call shape, List.forall_mem_append] at hwritable
    have hother := (walked.renamable_before hafter.of_attached).naming_ne
    obtain ⟨t₁, hopened, hst₁⟩ := opened.renamed hst
    obtain ⟨t₂, hwalked, hst₂⟩ := ih hafter.of_attached hwritable.2 (hst₁.linked target found path)
    have hparams := hwalked.params_congr (b := Json.repointFields naming .call members) (by
      rw [Json.get?_repointFields, Json.get?_repointFields]
      cases Json.get? Field.params members with
      | none => rfl
      | some member => cases member <;> rfl)
    rw [repoint_call shape]
    rw [← Json.objectShape_congr (Json.names_repointFields naming .call members)] at shape
    exact ⟨_, .call shape (callee_repointFields callee) hopened hother hparams,
      hst₂.attached found _⟩
  | @methodBlock members _ _ _ _ _ shape _ ih =>
    intro around hwritable t hst
    rw [visits_methodBlock shape, List.forall_mem_append] at hwritable
    obtain ⟨t', hwalked, hst'⟩ := ih hafter hwritable.2 hst
    rw [repoint_methodBlock shape]
    rw [← Json.objectShape_congr (Json.names_repointBlock naming members)] at shape
    exact ⟨t', .methodBlock shape hwalked, hst'⟩
  | @mapping members _ _ _ _ _ shape _ ih =>
    intro around hwritable t hst
    rw [visits_mapping shape, List.forall_mem_append] at hwritable
    obtain ⟨t', hwalked, hst'⟩ := ih hafter hwritable.2 hst
    rw [repoint_mapping shape]
    rw [← Json.objectShape_congr (Json.names_repointMembers naming members)] at shape
    exact ⟨t', .mapping shape hwalked, hst'⟩
  | itemsNil => exact fun _ t hst => ⟨t, .itemsNil, hst⟩
  | membersNil => exact fun _ t hst => ⟨t, .membersNil, hst⟩
  | blockNil => exact fun _ t hst => ⟨t, .blockNil, hst⟩
  | itemsCons _ later ih₁ ih₂ =>
    intro around hwritable t hst
    rw [visits_itemsCons, List.forall_mem_append] at hwritable
    obtain ⟨t₁, hfirst, hst₁⟩ := ih₁ (later.renamable_before hafter) hwritable.1 hst
    obtain ⟨t₂, hlater, hst₂⟩ := ih₂ hafter hwritable.2 hst₁
    exact ⟨t₂, .itemsCons hfirst hlater, hst₂⟩
  | membersCons _ later ih₁ ih₂ =>
    intro around hwritable t hst
    rw [visits_membersCons, List.forall_mem_append] at hwritable
    obtain ⟨t₁, hfirst, hst₁⟩ := ih₁ (later.renamable_before hafter) hwritable.1 hst
    obtain ⟨t₂, hlater, hst₂⟩ := ih₂ hafter hwritable.2 hst₁
    exact ⟨t₂, .membersCons hfirst hlater, hst₂⟩
  | blockParams _ later ih₁ ih₂ =>
    intro around hwritable t hst
    rw [visits_blockParams, List.forall_mem_append] at hwritable
    obtain ⟨t₁, hfirst, hst₁⟩ := ih₁ (later.renamable_before hafter) hwritable.1 hst
    obtain ⟨t₂, hlater, hst₂⟩ := ih₂ hafter hwritable.2 hst₁
    rw [Part.repoint, Json.repointBlock_params]
    exact ⟨t₂, .blockParams hfirst hlater, hst₂⟩
  | @blockCons _ member _ _ _ _ _ _ _ _ plain _ later ih₁ ih₂ =>
    intro around hwritable t hst
    rw [visits_blockCons _ plain, List.forall_mem_append] at hwritable
    obtain ⟨t₁, hfirst, hst₁⟩ := ih₁ (later.renamable_before hafter) hwritable.1 hst
    obtain ⟨t₂, hlater, hst₂⟩ := ih₂ hafter hwritable.2 hst₁
    have hplain := Json.repoint_ne_object naming plain
    rw [Part.repoint, Json.repointBlock_cons _ plain]
    exact ⟨t₂, .blockCons hplain hfirst hlater, hst₂⟩
  | noParams none =>
    intro around _ t hst
    refine ⟨t, .noParams ?_, hst⟩
    rw [Json.get?_repointFields]
    rcases none with hnone | hnone <;> rw [hnone]
    · exact Or.inl rfl
    · exact Or.inr rfl
  | someParams found _ ih =>
    intro around hwritable t hst
    rw [visits_someParams found] at hwritable
    obtain ⟨t', hwalked, hst'⟩ := ih hafter hwritable hst
    refine ⟨t', .someParams ?_ hwalked, hst'⟩
    rw [Json.get?_repointFields, found]
    simp [Json.repointField]
  | noMethodArgs none =>
    intro around _ t hst
    refine ⟨t, .noMethodArgs ?_, hst⟩
    rw [Json.get?_repointFields, none]
    rfl
  | someMethodArgs found _ ih =>
    intro around hwritable t hst
    rw [visits_someMethodArgs found] at hwritable
    obtain ⟨t', hwalked, hst'⟩ := ih hafter hwritable hst
    refine ⟨t', .someMethodArgs ?_ hwalked, hst'⟩
    rw [Json.get?_repointFields, found]
    simp [Json.repointField]

/-! ## The graph -/

/-- What a name stands for is not the name of a field. -/
theorem lookup_resolve (table : Table) (name : String) :
    (fieldNames table).lookup (resolve (fieldNames table) name) = none := by
  cases hlookup : (fieldNames table).lookup name with
  | none =>
    have hsame : resolve (fieldNames table) name = name := by simp [resolve, hlookup]
    rw [hsame, hlookup]
  | some key =>
    have hsame : resolve (fieldNames table) name = key := by simp [resolve, hlookup]
    rw [hsame, lookup_fieldNames, if_pos (mem_keys_of_lookup hlookup)]

theorem resolve_resolve (table : Table) (name : String) :
    resolve (fieldNames table) (resolve (fieldNames table) name) =
      resolve (fieldNames table) name := by
  rw [resolve, lookup_resolve]
  rfl

end Extraction

namespace Value

mutual

theorem rename_rename {naming : String → String} (h : ∀ key, naming (naming key) = naming key) :
    ∀ value : Value, (value.rename naming).rename naming = value.rename naming
  | .null => rfl
  | .bool _ => rfl
  | .number _ => rfl
  | .string _ => rfl
  | .reference key => by rw [rename, rename, h]
  | .sequence items => by rw [rename, rename, renameItems_renameItems h items]
  | .mapping entries => by rw [rename, rename, renameEntries_renameEntries h entries]
  | .call target method params => by
    rw [rename, rename, h, renameEntries_renameEntries h params]

theorem renameItems_renameItems {naming : String → String}
    (h : ∀ key, naming (naming key) = naming key) :
    ∀ items : List Value,
      renameItems naming (renameItems naming items) = renameItems naming items
  | [] => rfl
  | item :: rest => by
    rw [renameItems, renameItems, rename_rename h item, renameItems_renameItems h rest]

theorem renameEntries_renameEntries {naming : String → String}
    (h : ∀ key, naming (naming key) = naming key) :
    ∀ entries : List (String × Value),
      renameEntries naming (renameEntries naming entries) = renameEntries naming entries
  | [] => rfl
  | (_, value) :: rest => by
    rw [renameEntries, renameEntries, rename_rename h value, renameEntries_renameEntries h rest]

end

end Value

theorem Node.rename_rename {naming : String → String} (h : ∀ key, naming (naming key) = naming key)
    (node : Node) : (node.rename naming).rename naming = node.rename naming := by
  cases node with
  | component c =>
    simp only [rename, Value.renameEntries_renameEntries h, Value.renameItems_renameItems h]
  | entry e => simp only [rename, Value.renameItems_renameItems h]

/-- The key for which a name stands in a graph: the name itself if it is a key, and else the key of
the component that is the whole of the top-level field of that name. -/
def Graph.keyFor (graph : Graph) : String → String :=
  pointed (graph.table.components.map fun c => (c.path, c.key)) graph.table.keys

namespace Extraction

variable {σ : Type} {source : KeySource σ}

/-- Renaming leaves the names of fields as they are. -/
theorem fieldNames_rename (naming : String → String) (table : Table) :
    fieldNames (table.edit (Node.rename naming) (Node.key_rename naming)) = fieldNames table := by
  have hcontains : (table.edit (Node.rename naming) (Node.key_rename naming)).contains =
      table.contains := by
    funext name
    rw [Bool.eq_iff_iff, Table.contains_iff_mem_keys, Table.contains_iff_mem_keys, Table.keys_edit]
  rw [fieldNames_eq, fieldNames_eq, hcontains, Table.components_rename, List.filterMap_map]
  rfl

theorem State.keyFor_graph (state : State σ) : state.graph.keyFor = resolve state.names := by
  unfold Graph.keyFor
  rw [← resolve_fieldNames, State.graph, fieldNames_rename]
  rfl

/-- Once its names are replaced, a state has nothing left to resolve, and it is left with the same
graph. -/
theorem State.RenamedTo.graph_eq {s t : State σ} (h : s.RenamedTo (resolve s.names) t) :
    t.Resolvable ∧ t.graph = s.graph := by
  have htable : t.table = s.table.edit (Node.rename (resolve s.names)) (Node.key_rename _) :=
    Table.eq_of_nodes_eq h.nodes
  have hnames : t.names = s.names := by
    unfold State.names
    rw [htable]
    exact fieldNames_rename _ _
  have hidempotent := resolve_resolve s.table
  constructor
  · intro edge hedge
    rw [h.edges] at hedge
    obtain ⟨old, -, rfl⟩ := List.mem_map.mp hedge
    rw [hnames]
    show s.names.lookup (resolve s.names old.dependency) ≠ _
    rw [State.names, lookup_resolve]
    simp
  · have hnodes : t.graph.table.nodes = s.graph.table.nodes := by
      show t.table.nodes.map (Node.rename (resolve t.names)) = s.table.nodes.map _
      rw [hnames, h.nodes, List.map_map]
      exact List.map_congr_left fun node _ => Node.rename_rename hidempotent node
    have hedges : t.graph.edges = s.graph.edges := by
      show t.edges.map (resolvedEdge t.names) = s.edges.map _
      rw [hnames, h.edges, List.map_map]
      apply List.map_congr_left
      intro edge _
      exact congrArg (Edge.mk · edge.dependent edge.path) (hidempotent edge.dependency)
    have htables : t.graph.table = s.graph.table := Table.eq_of_nodes_eq hnodes
    exact congrArg₂ Graph.mk htables hedges

/-- Names of fields are aliases. If the names in a document are replaced by the keys for which they
stand, and those that are written as markers are words, then the document has the same graph, it
draws the same keys, and the same program is generated from it. -/
theorem extract_repoint (source : KeySource σ) (document : Json) (keys : σ) (graph : Graph)
    (h : (extract source document keys).graph = .ok graph)
    (hwritable : ∀ visit ∈ document.visits, visit.Writable graph.keyFor) :
    (extract source (document.repoint graph.keyFor) keys).graph = .ok graph ∧
    (extract source (document.repoint graph.keyFor) keys).keys =
      (extract source document keys).keys ∧
    ∀ settings,
      (generate source (document.repoint graph.keyFor) settings keys).code =
        (generate source document settings keys).code := by
  obtain ⟨value, state, hwalked, hresolvable, rfl⟩ := exists_walked_of_extract h
  obtain ⟨hsound, -⟩ := hwalked.balanced_of_initial
  have hkeys := (extract_of_walked hwalked hresolvable).2
  rw [state.keyFor_graph] at hwritable ⊢
  have hinitial : (initial keys).RenamedTo (resolve state.names) (initial keys) :=
    ⟨rfl, rfl, rfl⟩
  have hrenamable : state.Renamable (resolve state.names) :=
    ⟨fun _ => resolve_of_mem_keys, fun edge hedge =>
      resolve_ne_of_resolvable hresolvable hedge (hsound edge hedge).2⟩
  obtain ⟨again, hwalked', hrenamed⟩ := hwalked.renamed hrenamable hwritable hinitial
  obtain ⟨hresolvable', hgraph⟩ := hrenamed.graph_eq
  obtain ⟨hextract, hkeys'⟩ := extract_of_walked hwalked' hresolvable'
  rw [hgraph] at hextract
  refine ⟨hextract, ?_, ?_⟩
  · rw [hkeys, hkeys', hrenamed.keys]
  · intro settings
    unfold generate
    simp only [h, hextract]
    cases state.graph.order settings.onCycle <;> rfl

theorem extract_repoint_sample :
    (extract KeySource.sequential sampleDocument 0).graph = .ok sampleGraph ∧
    (∀ visit ∈ sampleDocument.visits, visit.Writable sampleGraph.keyFor) ∧
    (extract KeySource.sequential (sampleDocument.repoint sampleGraph.keyFor) 0).graph =
      .ok sampleGraph := by
  have hwritable : ∀ visit ∈ sampleDocument.visits, visit.Writable sampleGraph.keyFor := by
    intro visit _ name _ hchanged
    have hword : ∀ key ∈ sampleGraph.table.keys, Marker.isWord key.toList = true := by decide
    rw [Graph.keyFor, ← resolve_fieldNames] at hchanged ⊢
    rcases resolve_eq_or_mem_keys sampleGraph.table name with hsame | hmem
    · exact absurd hsame hchanged
    · exact hword _ hmem
  exact ⟨extract_sampleDocument, hwritable,
    (extract_repoint _ _ _ _ extract_sampleDocument hwritable).1⟩

end Extraction

end Blueprint
