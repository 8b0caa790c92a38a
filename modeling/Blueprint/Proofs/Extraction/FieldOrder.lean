import Blueprint.Proofs.Extraction.Acceptance
import Blueprint.Proofs.Graph.Shuffled

/-!
# `Blueprint/Proofs/Extraction/FieldOrder.lean` — the order of the top-level fields

The order in which the fields of a document come decides in which order nodes get into the table,
which of two nodes with one key is refused, and which entries are there when a reference is met. It
does not decide whether the document is accepted, nor which nodes and edges the graph has.

One thing has to be excluded. A component without a key and without a class takes a token, and
tokens go by the order of the walk. If every component has one or the other (`Json.Keyed`), then its
key depends on its members and its place alone (`Visit.drawn_of_settled`), and all the rest is lists
over visits: those of a mapping come field by field (`Json.fieldVisits`), so the fields may be taken
in any order, and the results of one entry stand in one field.
-/

set_option autoImplicit false

namespace Blueprint

variable {σ τ : Type}

/-! ## Keys without tokens -/

namespace Json

/-- A component that needs no token: it has a key, or a class or type from which its key is
derived. -/
def Keyed (members : List (String × Json)) : Prop :=
  ¬ Vacant Field.objectKey members ∨ ¬ Vacant Field.className members ∨
    ¬ Vacant Field.classType members

/-- The members of the components of a document, in the order of the visits. -/
def components (document : Json) : List (List (String × Json)) :=
  document.visits.filterMap fun visit =>
    match visit.part.role with
    | .component members => some members
    | _ => none

/-- No component of a document needs a token. -/
def AllKeyed (document : Json) : Prop := ∀ members ∈ document.components, Keyed members

theorem mem_components_iff {document : Json} {members : List (String × Json)} :
    members ∈ document.components ↔
      ∃ visit ∈ document.visits, visit.part.role = .component members := by
  unfold components
  rw [List.mem_filterMap]
  refine exists_congr fun visit => and_congr_right fun _ => ?_
  cases visit.part.role <;> simp

/-- The key of a component that needs no token. -/
def ownKey (members : List (String × Json)) (path : Path) : String :=
  match text? Field.objectKey members, callable? members with
  | some key, _ => key
  | none, some callable => Text.snakeCase callable.name ++ "_" ++ path.lastText
  | none, none => ""

theorem Keyed.exists_callable {members : List (String × Json)} (h : Keyed members)
    (hdeclares : Declares members) (hkey : text? Field.objectKey members = none) :
    ∃ callable, callable? members = some callable := by
  unfold callable?
  rcases h with h | h | h
  · exact absurd ((vacant_iff hdeclares.objectKey).mpr hkey) h
  · rw [vacant_iff hdeclares.className] at h
    obtain ⟨name, hname⟩ := Option.ne_none_iff_exists'.mp h
    exact ⟨_, by rw [hname]⟩
  · rw [vacant_iff hdeclares.classType] at h
    obtain ⟨type, htype⟩ := Option.ne_none_iff_exists'.mp h
    cases hname : text? Field.className members with
    | some name => exact ⟨_, rfl⟩
    | none => exact ⟨_, by rw [htype]; rfl⟩

end Json

namespace Visit

/-- A visit whose key, if it has one, is not made of tokens. -/
def Settled (visit : Visit) : Prop :=
  ∀ members, visit.part.role = .component members →
    Json.Declares members ∧ Json.Keyed members ∧ visit.path.last? ≠ none

/-- The key of a component, when it needs no token. -/
def ownKey? (visit : Visit) : Option String :=
  match visit.part.role with
  | .component members => some (Json.ownKey members visit.path)
  | _ => none

theorem drawn_of_settled {visit : Visit} (h : visit.Settled) (source : KeySource σ) (keys : σ) :
    visit.drawn source keys = (visit.ownKey?, keys) := by
  cases hrole : visit.part.role with
  | component members =>
    obtain ⟨hdeclares, hkeyed, hpath⟩ := h members hrole
    obtain ⟨segment, hlast⟩ := Option.ne_none_iff_exists'.mp hpath
    cases hkey : Json.text? Field.objectKey members with
    | some key => simp [drawn, ownKey?, hrole, deriveKey, Json.ownKey, hkey]
    | none =>
      obtain ⟨callable, hcallable⟩ := hkeyed.exists_callable hdeclares hkey
      simp [drawn, ownKey?, hrole, deriveKey, Json.ownKey, hkey, hcallable, keyBase, keySuffix,
        hlast, Path.lastText]
  | _ => simp [drawn, ownKey?, hrole]

/-- Keys without tokens do not depend on the order of the visits. -/
theorem assigned_of_settled {visits : List Visit} (h : ∀ visit ∈ visits, visit.Settled)
    (source : KeySource σ) (keys : σ) :
    assigned source visits keys =
      visits.filterMap fun visit => visit.ownKey?.map (visit.path, ·) := by
  induction visits with
  | nil => rfl
  | cons visit rest ih =>
    obtain ⟨hvisit, hrest⟩ := List.forall_mem_cons.mp h
    rw [assigned, drawn_of_settled hvisit, ih hrest, ← List.singleton_append,
      List.filterMap_append, filterMap_singleton]

end Visit

/-! ## Visits, field by field -/

namespace Json

variable {members members' : List (String × Json)}

/-- The parts of a mapping, without the mapping itself. -/
def fieldVisits (members : List (String × Json)) : List Visit :=
  (Visit.ofMembers Path.root [] members).flatMap Visit.all

theorem visits_mapping (h : objectShape members = .mapping) :
    (object members).visits = [⟨Path.root, .object members, []⟩] ++ fieldVisits members := by
  rw [visits_eq, fieldVisits, Visit.inside]
  simp only [h]
  rfl

theorem role_mapping (h : objectShape members = .mapping) : (object members).role = .plain := by
  simp [role, h]

theorem fieldVisits_eq (members : List (String × Json)) :
    fieldVisits members =
      members.flatMap fun (name, member) => Visit.all ⟨Path.root.key name, member, []⟩ := by
  rw [fieldVisits, Visit.ofMembers, List.flatMap_map]

theorem exists_key_of_mem_fieldVisits {visit : Visit} (h : visit ∈ fieldVisits members) :
    ∃ name rest, visit.path.segments = .key name :: rest := by
  rw [fieldVisits_eq] at h
  obtain ⟨⟨name, member⟩, -, hvisit⟩ := List.mem_flatMap.mp h
  obtain ⟨rest, hrest⟩ := Visit.prefix_of_mem_all hvisit
  exact ⟨name, rest, hrest.symm⟩

theorem last?_ne_none_of_mem_fieldVisits {visit : Visit} (h : visit ∈ fieldVisits members) :
    visit.path.last? ≠ none := by
  obtain ⟨name, rest, hpath⟩ := exists_key_of_mem_fieldVisits h
  simp [Path.last?, hpath]

theorem firstText_of_mem_all {name : String} {member : Json} {visit : Visit}
    (h : visit ∈ Visit.all ⟨Path.root.key name, member, []⟩) : visit.path.firstText = name := by
  obtain ⟨rest, hrest⟩ := Visit.prefix_of_mem_all h
  have hfirst : visit.path.first? = some (.key name) := by
    rw [Path.first?, ← hrest]
    rfl
  rw [Path.firstText, hfirst]
  rfl

section

variable (hperm : members.Perm members')

include hperm

theorem fieldVisits_perm : (fieldVisits members).Perm (fieldVisits members') :=
  (hperm.map _).flatMap_right _

theorem objectShape_perm : objectShape members = objectShape members' := by
  have hhas : ∀ name, has name members = has name members' := fun name => hperm.any_eq
  unfold objectShape isComponent isCall isMethodBlock
  rw [hhas Field.module, hhas Field.callTarget, hhas Field.callName, hhas Field.methodName,
    hhas Field.params]

theorem Distinct.of_perm (h : (object members).Distinct) : (object members').Distinct := by
  refine ⟨(hperm.map Prod.fst).nodup_iff.mp h.1, distinctMembers_iff.mpr fun member hmember => ?_⟩
  exact distinctMembers_iff.mp h.2 member (hperm.mem_iff.mpr hmember)

theorem AllKeyed.of_perm (hshape : objectShape members = .mapping)
    (h : (object members).AllKeyed) : (object members').AllKeyed := by
  have hshape' : objectShape members' = .mapping := objectShape_perm hperm ▸ hshape
  intro inner hinner
  obtain ⟨visit, hvisit, hrole⟩ := mem_components_iff.mp hinner
  rw [visits_mapping hshape'] at hvisit
  rcases List.mem_append.mp hvisit with hroot | hvisit
  · obtain rfl := List.mem_singleton.mp hroot
    rw [role_mapping hshape'] at hrole
    cases hrole
  · refine h inner (mem_components_iff.mpr ⟨visit, ?_, hrole⟩)
    rw [visits_mapping hshape]
    exact List.mem_append_right _ ((fieldVisits_perm hperm).mem_iff.mpr hvisit)

end

end Json

/-- Where only one of the items gives anything, the order of the items does not matter. -/
theorem flatMap_eq_of_perm {α : Type} {β : Type} {name : α → String} (field : String)
    {f : α → List β} (hother : ∀ a, name a ≠ field → f a = []) {as bs : List α}
    (hperm : as.Perm bs) (hnodup : (as.map name).Nodup) : as.flatMap f = bs.flatMap f := by
  induction hperm with
  | nil => rfl
  | cons a _ ih => rw [List.flatMap_cons, List.flatMap_cons, ih (List.nodup_cons.mp hnodup).2]
  | swap a b rest =>
    have hne : name b ≠ name a := by
      intro hsame
      exact (List.nodup_cons.mp hnodup).1 (by simp [hsame])
    simp only [List.flatMap_cons, ← List.append_assoc]
    by_cases ha : name a = field
    · rw [hother b fun hb => hne (hb.trans ha.symm), List.nil_append, List.append_nil]
    · rw [hother a ha, List.nil_append, List.append_nil]
  | trans hfirst _ ih₁ ih₂ =>
    rw [ih₁ hnodup, ih₂ ((hfirst.map name).nodup_iff.mp hnodup)]

/-- The results of an entry come from one field, in the order in which they stand there. -/
theorem Json.results_fieldVisits {members members' : List (String × Json)}
    (hperm : members.Perm members') (hnodup : (members.map Prod.fst).Nodup)
    (keyAt : Path → String) (field : String) :
    (fieldVisits members).filterMap (Visit.result? keyAt field) =
      (fieldVisits members').filterMap (Visit.result? keyAt field) := by
  rw [fieldVisits_eq, fieldVisits_eq, List.filterMap_flatMap, List.filterMap_flatMap]
  refine flatMap_eq_of_perm field ?_ hperm hnodup
  rintro ⟨name, member⟩ hname
  refine List.filterMap_eq_nil_iff.mpr fun visit hvisit => ?_
  have hfirst := firstText_of_mem_all hvisit
  simp only [Visit.result?, hfirst]
  exact if_neg fun hresult => hname hresult.2

/-! ## States -/

namespace Extraction

/-- Two states with the same nodes and edges in another order, in which names stand for the same
keys. -/
structure Rearranged (a : State σ) (b : State τ) : Prop where
  nodes : a.table.nodes.Perm b.table.nodes
  edges : a.edges.Perm b.edges
  names : ∀ name, a.names.lookup name = b.names.lookup name

namespace Rearranged

variable {a : State σ} {b : State τ} (h : Rearranged a b)

include h

theorem resolvable (hresolvable : a.Resolvable) : b.Resolvable := by
  intro edge hedge
  rw [← h.names]
  exact hresolvable edge (h.edges.mem_iff.mpr hedge)

theorem shuffled : a.graph.Shuffled b.graph := by
  have hnaming : resolve a.names = resolve b.names := by
    funext name
    rw [resolve, resolve, h.names]
  constructor
  · show (a.table.nodes.map _).Perm (b.table.nodes.map _)
    rw [hnaming]
    exact h.nodes.map _
  · show (a.edges.map _).Perm (b.edges.map _)
    have hedge : resolvedEdge a.names = resolvedEdge b.names := by
      funext edge
      simp only [resolvedEdge, hnaming]
    rw [hedge]
    exact h.edges.map _

end Rearranged

variable {keyAt : Path → String} {source : KeySource σ} {reader : KeySource τ}

section

variable {members members' : List (String × Json)} {keys : σ} {later : τ}
  (hperm : members.Perm members') (hnodup : (members.map Prod.fst).Nodup)
  {a : State σ} {b : State τ}
  (ha : Recorded keyAt source (Json.fieldVisits members) (initial keys) a)
  (hb : Recorded keyAt reader (Json.fieldVisits members') (initial later) b)

include hperm hnodup ha hb

theorem entries_perm_of_recorded : a.table.entries.Perm b.table.entries := by
  have hvisits := Json.fieldVisits_perm hperm
  have hresults : a.table.results = b.table.results := by
    funext field
    rw [ha.results, hb.results, Json.results_fieldVisits hperm hnodup]
    rfl
  have hfields : (a.table.origins.filterMap Origin.entry?).Perm
      (b.table.origins.filterMap Origin.entry?) := by
    rw [ha.origins, hb.origins, filterMap_mentionAll Origin.entry?_inj,
      filterMap_mentionAll Origin.entry?_inj, fields_origins, fields_origins]
    show (mentionAll [] _).Perm (mentionAll [] _)
    rw [mentionAll_nil_eq, mentionAll_nil_eq]
    exact Graph.eraseDups_perm (hvisits.filterMap _)
  rw [Table.entries_eq, Table.entries_eq, hresults]
  exact hfields.map _

theorem nodes_perm_of_recorded : a.table.nodes.Perm b.table.nodes := by
  have hcomponents : a.table.components.Perm b.table.components := by
    rw [ha.components, hb.components]
    exact ((Json.fieldVisits_perm hperm).filterMap _).append_left _
  have hentries := entries_perm_of_recorded hperm hnodup ha hb
  exact a.table.nodes_perm.trans
    (((hcomponents.map _).append (hentries.map _)).trans b.table.nodes_perm.symm)

/-- What is recorded of the same visits with the same keys is the same but for the order. -/
theorem rearranged_of_recorded
    (hplaces : ((Visit.assigned source (Json.fieldVisits members) keys).map Prod.fst).Nodup)
    (hassigned : (Visit.assigned source (Json.fieldVisits members) keys).Perm
      (Visit.assigned reader (Json.fieldVisits members') later))
    (named : Visit.Named keyAt source (Json.fieldVisits members) keys)
    (named' : Visit.Named keyAt reader (Json.fieldVisits members') later) :
    Rearranged a b := by
  have hnodes := nodes_perm_of_recorded hperm hnodup ha hb
  refine ⟨hnodes, ?_, ?_⟩
  · rw [ha.edges, hb.edges]
    exact ((Json.fieldVisits_perm hperm).filterMap _).append_left _
  · intro name
    have hkeys : name ∈ a.table.keys ↔ name ∈ b.table.keys := (hnodes.map Node.key).mem_iff
    rw [ha.lookup_names named, hb.lookup_names named', lookup_perm hassigned hplaces]
    simp only [hkeys]

end

/-! ## Two documents -/

/-- A mapping can be walked if the visits of its fields are admitted. -/
theorem exists_walked_mapping {members : List (String × Json)} {keys : σ}
    (hshape : Json.objectShape members = .mapping)
    (ready : Ready keyAt source (Json.fieldVisits members) (initial keys)) :
    ∃ value state,
      Walked source (.value (.object members)) Path.root none (initial keys) (.value value) state ∧
        Recorded keyAt source (Json.fieldVisits members) (initial keys) state := by
  have hplain := Json.role_mapping hshape
  have hvisits := Json.visits_mapping hshape
  have readyAll : Ready keyAt source (Json.object members).visits (initial keys) := by
    rw [hvisits]
    exact ready.cons_plain hplain
  obtain ⟨state, hwalked⟩ := walkable_value (.object members) located_root readyAll
  have hrecorded : Recorded keyAt source (Json.object members).visits (initial keys) state :=
    (hwalked.recorded located_root readyAll.named).2
  rw [hvisits] at hrecorded
  exact ⟨_, state, hwalked, hrecorded.skip hplain⟩

section

variable {members members' : List (String × Json)} (hdistinct : (Json.object members).Distinct)
  (hshape : Json.objectShape members = .mapping)
  (hkeyed : (Json.object members).AllKeyed) (hperm : members.Perm members')

include hshape hkeyed

theorem settled_of_admissible (h : Admissible keyAt [] (Json.fieldVisits members)) :
    ∀ visit ∈ Json.fieldVisits members, visit.Settled := by
  intro visit hvisit inner hrole
  have hwellFormed := ((admissible_iff.mp h).1 visit hvisit).wellFormed
  rw [hrole] at hwellFormed
  have hmem : visit ∈ (Json.object members).visits := by
    rw [Json.visits_mapping hshape]
    exact List.mem_append_right _ hvisit
  exact ⟨hwellFormed.toDeclares, hkeyed inner (Json.mem_components_iff.mpr ⟨visit, hmem, hrole⟩),
    Json.last?_ne_none_of_mem_fieldVisits hvisit⟩

include hdistinct hperm

/-- With its fields in another order, a document that has a graph still has one, the same but for
the order. -/
theorem exists_shuffled {keys : σ} {graph : Graph}
    (h : (extract source (.object members) keys).graph = .ok graph) (reader : KeySource τ)
    (later : τ) :
    ∃ graph', (extract reader (.object members') later).graph = .ok graph' ∧
      graph.Shuffled graph' := by
  have hplain := Json.role_mapping hshape
  have hvisits := Json.fieldVisits_perm hperm
  obtain ⟨state, hrecorded, hresolvable, rfl⟩ := exists_recorded_of_extract hdistinct h
  have ready : Ready ((Json.object members).keyAt source keys) source (Json.object members).visits
      (initial keys) := ⟨Json.named_keyAt hdistinct, hrecorded.admissible⟩
  -- the keys of the first document serve for both
  generalize (Json.object members).keyAt source keys = keyAt at ready hrecorded
  rw [Json.visits_mapping hshape] at ready hrecorded
  have ready := ready.skip hplain
  have hsettled := settled_of_admissible hshape hkeyed ready.admissible
  have hassigned : (Visit.assigned source (Json.fieldVisits members) keys).Perm
      (Visit.assigned reader (Json.fieldVisits members') later) := by
    rw [Visit.assigned_of_settled hsettled, Visit.assigned_of_settled fun visit hvisit =>
      hsettled visit (hvisits.mem_iff.mpr hvisit)]
    exact hvisits.filterMap _
  have ready' : Ready keyAt reader (Json.fieldVisits members') (initial later) :=
    ⟨fun place hplace => ready.named place (hassigned.mem_iff.mpr hplace),
      admissible_perm hvisits ready.admissible⟩
  have hshape' : Json.objectShape members' = .mapping := Json.objectShape_perm hperm ▸ hshape
  obtain ⟨_, state', hwalked, hrecorded'⟩ := exists_walked_mapping hshape' ready'
  have hplaces : ((Visit.assigned source (Json.fieldVisits members) keys).map Prod.fst).Nodup := by
    have hpaths := Json.nodup_paths hdistinct
    rw [Json.visits_mapping hshape, List.map_append] at hpaths
    exact hpaths.of_append_right.sublist (Visit.assigned_sublist source _ keys)
  have hrearranged := rearranged_of_recorded hperm hdistinct.1 (hrecorded.skip hplain) hrecorded'
    hplaces hassigned ready.named ready'.named
  exact ⟨state'.graph, (extract_of_walked hwalked (hrearranged.resolvable hresolvable)).1,
    hrearranged.shuffled⟩

/-- The order of the top-level fields does not matter: neither to whether there is a graph, nor to
its nodes and edges, nor to whether the nodes can be put in order, nor to which of them are. -/
theorem extract_reordered (source : KeySource σ) (keys : σ) (reader : KeySource τ) (later : τ) :
    ((∃ graph, (extract source (.object members) keys).graph = .ok graph) ↔
      ∃ graph, (extract reader (.object members') later).graph = .ok graph) ∧
    ∀ graph graph', (extract source (.object members) keys).graph = .ok graph →
      (extract reader (.object members') later).graph = .ok graph' →
        graph.table.nodes.Perm graph'.table.nodes ∧ graph.edges.Perm graph'.edges ∧
        ∀ policy,
          ((∃ placement, graph.order policy = .ok placement) ↔
            ∃ placement, graph'.order policy = .ok placement) ∧
          ∀ placement placement', graph.order policy = .ok placement →
            graph'.order policy = .ok placement' → placement.placed.Perm placement'.placed := by
  refine ⟨⟨?_, ?_⟩, ?_⟩
  · rintro ⟨graph, h⟩
    obtain ⟨graph', h', -⟩ := exists_shuffled hdistinct hshape hkeyed hperm h reader later
    exact ⟨graph', h'⟩
  · rintro ⟨graph', h'⟩
    obtain ⟨graph, h, -⟩ := exists_shuffled (Json.Distinct.of_perm hperm hdistinct)
      (Json.objectShape_perm hperm ▸ hshape) (hkeyed.of_perm hperm hshape) hperm.symm h' source keys
    exact ⟨graph, h⟩
  · intro graph graph' h h'
    obtain ⟨other, hother, hshuffled⟩ :=
      exists_shuffled hdistinct hshape hkeyed hperm h reader later
    obtain rfl := Except.ok.inj (hother.symm.trans h')
    exact ⟨hshuffled.nodes, hshuffled.edges, fun policy =>
      ⟨hshuffled.order_isOk_iff policy, fun _ _ => hshuffled.placed_perm⟩⟩

end

/-- Fields that are needed by the fields before them. -/
def earlyFields : List (String × Json) :=
  [("run", .array
     [.string "\x7bnet\x7d",
      .object [("reference_key", .string "net"), ("function_call", .string "fit")]]),
   ("net", .object
     [("module", .string "models"), ("class_name", .string "Net"),
      ("params", .object [("rows", .string "\x7bdata\x7d")])]),
   ("data", .object [("module", .string "io"), ("object_key", .string "table")])]

/-- Their graph. -/
def earlyGraph : Graph where
  table :=
    { nodes :=
        [.entry ⟨"run", [.reference "net_net", .call "net_net" "fit" []]⟩,
         .component ⟨"net_net", "models", some (.className "Net"), [("rows", .reference "table")],
           [], "net", ⟨[.key "net"]⟩⟩,
         .component ⟨"table", "io", none, [], [], "data", ⟨[.key "data"]⟩⟩]
      indexed := .of_nodup (by decide) }
  edges :=
    [⟨"net_net", "run", ⟨[.key "run", .index 0]⟩⟩, ⟨"net_net", "run", ⟨[.key "run", .index 1]⟩⟩,
     ⟨"table", "net_net", ⟨[.key "net", .key "params", .key "rows"]⟩⟩]

theorem allKeyed_earlyFields : (Json.object earlyFields).AllKeyed := by
  have hcomponents : (Json.object earlyFields).components =
      [[("module", .string "models"), ("class_name", .string "Net"),
        ("params", .object [("rows", .string "\x7bdata\x7d")])],
       [("module", .string "io"), ("object_key", .string "table")]] := by cbv
  unfold Json.AllKeyed
  rw [hcomponents]
  simp [Json.Keyed, Json.Vacant, Json.get?, Field.objectKey, Field.className]

theorem extract_reordered_earlyFields :
    (Json.object earlyFields).Distinct ∧ Json.objectShape earlyFields = .mapping ∧
    (Json.object earlyFields).AllKeyed ∧ earlyFields.Perm earlyFields.reverse ∧
    (extract KeySource.sequential (.object earlyFields) 0).graph = .ok earlyGraph ∧
    (∃ placement, earlyGraph.order .refuse = .ok placement) ∧
    ∃ graph, (extract KeySource.sequential (.object earlyFields.reverse) 0).graph = .ok graph ∧
      earlyGraph.table.nodes.Perm graph.table.nodes ∧ earlyGraph.edges.Perm graph.edges ∧
      ∃ placement, graph.order .refuse = .ok placement := by
  have hdistinct : (Json.object earlyFields).Distinct := by
    simp [earlyFields, Json.Distinct, Json.DistinctItems, Json.DistinctMembers]
  have hperm : earlyFields.Perm earlyFields.reverse := earlyFields.reverse_perm.symm
  have hgraph : (extract KeySource.sequential (.object earlyFields) 0).graph = .ok earlyGraph := by
    cbv
  have horder : ∃ placement, earlyGraph.order .refuse = .ok placement := ⟨_, by cbv⟩
  obtain ⟨hiff, hsame⟩ := extract_reordered hdistinct (by decide) allKeyed_earlyFields hperm
    KeySource.sequential 0 KeySource.sequential 0
  obtain ⟨graph, hgraph'⟩ := hiff.mp ⟨_, hgraph⟩
  obtain ⟨hnodes, hedges, horders⟩ := hsame _ _ hgraph hgraph'
  exact ⟨hdistinct, by decide, allKeyed_earlyFields, hperm, hgraph, horder, graph, hgraph', hnodes,
    hedges, (horders .refuse).1.mp horder⟩

end Extraction

end Blueprint
