import Blueprint.Proofs.Extraction.Inventory
import Blueprint.Proofs.Extraction.Progress

/-!
# `Blueprint/Proofs/Extraction/Acceptance.lean` — which documents are accepted

A walk checks as it goes: whether a key is taken depends on the visits before, whether an entry is
there already as well, and names are resolved after all of it. None of this order is left in
`Acceptable`, which is a condition on the document as a whole, and extraction succeeds on exactly
the acceptable documents. One direction is read off what a walk has recorded, the other one is
progress.
-/

set_option autoImplicit false

namespace Blueprint

/-! ## Nodes that get along -/

namespace Origin

variable {origins : List Origin} {key : String}

theorem mem_components_iff : key ∈ origins.filterMap component? ↔ component key ∈ origins := by
  rw [List.mem_filterMap]
  constructor
  · rintro ⟨origin, horigin, hkey⟩
    cases origin <;> cases hkey
    exact horigin
  · intro h
    exact ⟨_, h, rfl⟩

theorem mem_fields_iff : key ∈ origins.filterMap entry? ↔ entry key ∈ origins := by
  rw [List.mem_filterMap]
  constructor
  · rintro ⟨origin, horigin, hkey⟩
    cases origin <;> cases hkey
    exact horigin
  · intro h
    exact ⟨_, h, rfl⟩

theorem mem_keys_iff :
    key ∈ origins.map Origin.key ↔ component key ∈ origins ∨ entry key ∈ origins := by
  rw [List.mem_map]
  constructor
  · rintro ⟨origin, horigin, rfl⟩
    cases origin
    · exact .inl horigin
    · exact .inr horigin
  · rintro (h | h) <;> exact ⟨_, h, rfl⟩

theorem forall_component_compatible_iff :
    (∀ origin ∈ origins, (component key).Compatible origin) ↔
      component key ∉ origins ∧ entry key ∉ origins := by
  rw [← not_or, ← mem_keys_iff, List.mem_map]
  constructor
  · rintro h ⟨origin, horigin, rfl⟩
    have hcompatible := h origin horigin
    cases origin <;> exact hcompatible rfl
  · intro h origin horigin
    have hother : key ≠ origin.key := fun hsame => h ⟨origin, horigin, hsame.symm⟩
    cases origin <;> exact hother

theorem forall_entry_compatible_iff :
    (∀ origin ∈ origins, (entry key).Compatible origin) ↔ component key ∉ origins := by
  constructor
  · intro h hmem
    exact h _ hmem rfl
  · intro h origin horigin
    cases origin with
    | entry other => trivial
    | component other =>
      rintro rfl
      exact h horigin

/-- Nodes get along if the components have keys of their own, and no field is one of them. -/
theorem pairwise_compatible_iff (origins : List Origin) :
    origins.Pairwise Compatible ↔
      (origins.filterMap component?).Nodup ∧
        ∀ key ∈ origins.filterMap component?, key ∉ origins.filterMap entry? := by
  induction origins with
  | nil => simp
  | cons head rest ih =>
    rw [List.pairwise_cons, ih]
    cases head with
    | component key =>
      rw [forall_component_compatible_iff, ← mem_components_iff, ← mem_fields_iff,
        List.filterMap_cons_some (f := component?) rfl,
        List.filterMap_cons_none (f := entry?) rfl, List.nodup_cons, List.forall_mem_cons]
      tauto
    | entry key =>
      rw [forall_entry_compatible_iff, ← mem_components_iff,
        List.filterMap_cons_none (f := component?) rfl,
        List.filterMap_cons_some (f := entry?) rfl]
      constructor
      · rintro ⟨hfree, hdistinct, hapart⟩
        refine ⟨hdistinct, ?_⟩
        intro other hother hmem
        rcases List.mem_cons.mp hmem with rfl | hmem
        · exact hfree hother
        · exact hapart other hother hmem
      · rintro ⟨hdistinct, hapart⟩
        refine ⟨fun hmem => hapart key hmem List.mem_cons_self, hdistinct, ?_⟩
        intro other hother hmem
        exact hapart other hother (List.mem_cons_of_mem _ hmem)

end Origin

/-- Admission, with the order of the visits taken out of it. -/
theorem admissible_iff {keyAt : Path → String} {known : List Origin} {visits : List Visit} :
    Admissible keyAt known visits ↔
      (∀ visit ∈ visits, visit.Sound keyAt) ∧
      (visits.filterMap (Visit.origin? keyAt)).Pairwise Origin.Compatible ∧
      ∀ origin ∈ visits.filterMap (Visit.origin? keyAt), ∀ node ∈ known,
        node.Compatible origin := by
  induction visits generalizing known with
  | nil => simp [Admissible]
  | cons visit rest ih =>
    have hadmitted : visit.Admitted keyAt known ↔ visit.Sound keyAt ∧
        ∀ origin, visit.origin? keyAt = some origin → ∀ node ∈ known, node.Compatible origin :=
      ⟨fun h => ⟨h.toSound, h.compatible⟩, fun h => ⟨h.1, h.2⟩⟩
    rw [Admissible, hadmitted, ih, List.forall_mem_cons]
    cases horigin : visit.origin? keyAt with
    | none =>
      rw [List.filterMap_cons_none horigin]
      constructor
      · rintro ⟨⟨hvisit, -⟩, hrest, hpairwise, hknown⟩
        exact ⟨⟨hvisit, hrest⟩, hpairwise, hknown⟩
      · rintro ⟨⟨hvisit, hrest⟩, hpairwise, hknown⟩
        exact ⟨⟨hvisit, by simp⟩, hrest, hpairwise, hknown⟩
    | some origin =>
      -- what is known afterwards is what was known before, and the node of this visit
      have hafter : ∀ node, node ∈ mentionAll known (some origin).toList ↔
          node ∈ known ∨ node = origin := by
        intro node
        rw [mem_mentionAll, Option.toList_some, List.mem_singleton]
      rw [List.filterMap_cons_some horigin, List.pairwise_cons, List.forall_mem_cons]
      constructor
      · rintro ⟨⟨hvisit, hhere⟩, hrest, hpairwise, hknown⟩
        refine ⟨⟨hvisit, hrest⟩, ⟨?_, hpairwise⟩, hhere origin rfl, ?_⟩
        · intro other hother
          exact hknown other hother origin ((hafter origin).mpr (.inr rfl))
        · intro other hother node hnode
          exact hknown other hother node ((hafter node).mpr (.inl hnode))
      · rintro ⟨⟨hvisit, hrest⟩, ⟨hlater, hpairwise⟩, hhere, hknown⟩
        refine ⟨⟨hvisit, ?_⟩, hrest, hpairwise, ?_⟩
        · rintro _ ⟨⟩
          exact hhere
        · intro other hother node hnode
          rcases (hafter node).mp hnode with hnode | rfl
          · exact hknown other hother node hnode
          · exact hlater other hother

/-- Whether visits are admitted, from an empty table on, does not depend on their order. -/
theorem admissible_perm {keyAt : Path → String} {visits visits' : List Visit}
    (hperm : visits.Perm visits') (h : Admissible keyAt [] visits) :
    Admissible keyAt [] visits' := by
  obtain ⟨hsound, hpairwise, -⟩ := admissible_iff.mp h
  refine admissible_iff.mpr ⟨fun visit hvisit => hsound visit (hperm.mem_iff.mpr hvisit), ?_,
    fun _ _ _ hnode => by cases hnode⟩
  exact (hperm.filterMap _).pairwise hpairwise Origin.Compatible.symm

/-! ## Acceptable documents -/

variable {σ : Type}

namespace Json

variable (source : KeySource σ) (keys : σ) (document : Json)

/-- The keys of all nodes of a document. -/
def nodeKeys : List String :=
  (document.places source keys).map Prod.snd ++ document.visits.filterMap Visit.field?

/-- What a document has to be to have a graph. -/
structure Acceptable : Prop where
  /-- No marker is malformed, and the members of components and calls are what they have to be. -/
  wellFormed : ∀ visit ∈ document.visits, visit.part.role.WellFormed
  /-- The document is not a marker or a call, which would have no owner. -/
  owned : Visit.request? ⟨Path.root, document, []⟩ = none
  /-- No two components have the same key. -/
  distinctKeys : ((document.places source keys).map Prod.snd).Nodup
  /-- No component has the name of a field with results in it as its key. -/
  apart : ∀ key ∈ (document.places source keys).map Prod.snd,
    key ∉ document.visits.filterMap Visit.field?
  /-- Nothing needs the node to which it belongs, as it is written. -/
  other : ∀ visit ∈ document.visits, ∀ name,
    visit.needs? (document.keyAt source keys) = some name →
      name ≠ visit.owner (document.keyAt source keys)
  /-- Nor does it, once names of fields are pointed at keys. -/
  otherPointed : ∀ visit ∈ document.visits, ∀ name,
    visit.needs? (document.keyAt source keys) = some name →
      pointed (document.places source keys) (document.nodeKeys source keys) name ≠
        visit.owner (document.keyAt source keys)

end Json

/-- Only the document itself can be a result without a field. -/
theorem Json.forall_placed_iff (document : Json) :
    (∀ visit ∈ document.visits, visit.isResult = true → visit.path.first? ≠ none) ↔
      Visit.request? ⟨Path.root, document, []⟩ = none := by
  constructor
  · intro h
    cases hrequest : Visit.request? ⟨Path.root, document, []⟩ with
    | none => rfl
    | some name =>
      have hroot := h ⟨Path.root, document, []⟩ (by rw [Json.visits_eq]; exact List.mem_cons_self)
      rw [Visit.isResult_of_request hrequest] at hroot
      exact absurd rfl (hroot rfl)
  · intro h visit hvisit hresult hfirst
    rw [Json.visits_eq] at hvisit
    rcases List.mem_cons.mp hvisit with rfl | hvisit
    · simp [Visit.isResult, h] at hresult
    · obtain ⟨outer, houter, hvisit⟩ := List.mem_flatMap.mp hvisit
      obtain ⟨segment, rest, hsegments⟩ := (Visit.inner_of_mem_inside houter).path
      have hprefix := Visit.prefix_of_mem_all hvisit
      rw [hsegments] at hprefix
      obtain ⟨tail, htail⟩ := hprefix
      rw [Path.first?, ← htail] at hfirst
      simp at hfirst

theorem Visit.bind_origin?_component? (keyAt : Path → String) (visit : Visit) :
    (visit.origin? keyAt).bind Origin.component? =
      (visit.component? keyAt).map Component.key := by
  cases hrole : visit.part.role with
  | component members => simp [Visit.origin?, hrole, Origin.component?, Visit.component?]
  | _ =>
    cases hresult : visit.isResult <;>
      simp [Visit.origin?, hrole, hresult, Origin.component?, Visit.component?]

theorem pointed_congr {places : List (Path × String)} {known known' : List String}
    (h : ∀ name, name ∈ known ↔ name ∈ known') : pointed places known = pointed places known' := by
  funext name
  simp only [pointed, h]

namespace Extraction

variable {source : KeySource σ} {document : Json} {keys : σ}

section

variable (hdistinct : document.Distinct)

include hdistinct

theorem components_origins :
    (document.visits.filterMap (Visit.origin? (document.keyAt source keys))).filterMap
        Origin.component? =
      (document.places source keys).map Prod.snd := by
  rw [Json.places, ← Visit.map_component?_eq_assigned (Json.named_keyAt hdistinct), List.map_map,
    List.filterMap_filterMap, List.map_filterMap]
  simp only [Visit.bind_origin?_component?]
  rfl

theorem mem_keys_of_recorded {state : State σ}
    (h : Recorded (document.keyAt source keys) source document.visits (initial keys) state)
    (name : String) : name ∈ state.table.keys ↔ name ∈ document.nodeKeys source keys := by
  have horigin : ∀ origin, origin ∈ state.table.origins ↔
      origin ∈ document.visits.filterMap (Visit.origin? (document.keyAt source keys)) := by
    intro origin
    rw [h.origins, mem_mentionAll]
    simp [initial, Table.origins, Table.empty, Arena.empty]
  rw [← Table.map_key_origins, Origin.mem_keys_iff, horigin, horigin, ← Origin.mem_components_iff,
    ← Origin.mem_fields_iff, components_origins hdistinct, fields_origins, Json.nodeKeys,
    List.mem_append]

theorem resolvable_iff {state : State σ}
    (h : Recorded (document.keyAt source keys) source document.visits (initial keys) state)
    (hother : ∀ visit ∈ document.visits, visit.Sound (document.keyAt source keys)) :
    state.Resolvable ↔
      ∀ visit ∈ document.visits, ∀ name,
        visit.needs? (document.keyAt source keys) = some name →
          pointed (document.places source keys) (document.nodeKeys source keys) name ≠
            visit.owner (document.keyAt source keys) := by
  have hnaming : resolve state.names =
      pointed (document.places source keys) (document.nodeKeys source keys) := by
    rw [h.resolve_names (Json.named_keyAt hdistinct)]
    exact pointed_congr (mem_keys_of_recorded hdistinct h)
  have hedges : state.edges =
      document.visits.filterMap (Visit.edge? (document.keyAt source keys)) := h.edges
  -- a name that is pointed elsewhere is the owner's only if the key it is pointed at is
  have hlookup : ∀ name owner, name ≠ owner →
      (state.names.lookup name ≠ some owner ↔ resolve state.names name ≠ owner) := by
    intro name owner hne
    unfold resolve
    cases state.names.lookup name with
    | none => simpa using hne
    | some key => simp
  rw [← hnaming]
  unfold State.Resolvable
  rw [hedges]
  constructor
  · intro hresolvable visit hvisit name hname
    have hedge : ⟨name, visit.owner (document.keyAt source keys), visit.path⟩ ∈
        document.visits.filterMap (Visit.edge? (document.keyAt source keys)) :=
      List.mem_filterMap.mpr ⟨visit, hvisit, by simp [Visit.edge?, hname]⟩
    exact (hlookup _ _ ((hother visit hvisit).other name hname)).mp (hresolvable _ hedge)
  · intro hpointed edge hedge
    obtain ⟨visit, hvisit, hedge⟩ := List.mem_filterMap.mp hedge
    obtain ⟨name, hname, rfl⟩ := Option.map_eq_some_iff.mp hedge
    exact (hlookup _ _ ((hother visit hvisit).other name hname)).mpr
      (hpointed visit hvisit name hname)

/-- Extraction succeeds on the acceptable documents and on no others. -/
theorem extract_isOk_iff_acceptable :
    (∃ graph, (extract source document keys).graph = .ok graph) ↔
      document.Acceptable source keys := by
  constructor
  · rintro ⟨graph, h⟩
    obtain ⟨state, hrecorded, hresolvable, -⟩ := exists_recorded_of_extract hdistinct h
    obtain ⟨hsound, hpairwise, -⟩ := admissible_iff.mp hrecorded.admissible
    rw [Origin.pairwise_compatible_iff, components_origins hdistinct, fields_origins] at hpairwise
    exact
      { wellFormed := fun visit hvisit => (hsound visit hvisit).wellFormed
        owned := document.forall_placed_iff.mp fun visit hvisit => (hsound visit hvisit).placed
        distinctKeys := hpairwise.1
        apart := hpairwise.2
        other := fun visit hvisit => (hsound visit hvisit).other
        otherPointed := (resolvable_iff hdistinct hrecorded hsound).mp hresolvable }
  · intro h
    have hplaced := document.forall_placed_iff.mpr h.owned
    have hsound : ∀ visit ∈ document.visits, visit.Sound (document.keyAt source keys) :=
      fun visit hvisit =>
        ⟨h.wellFormed visit hvisit, hplaced visit hvisit, h.other visit hvisit⟩
    have named : Visit.Named (document.keyAt source keys) source document.visits keys :=
      Json.named_keyAt hdistinct
    have ready : Ready (document.keyAt source keys) source document.visits (initial keys) := by
      refine ⟨named, admissible_iff.mpr ⟨hsound, ?_, fun _ _ _ hnode => by cases hnode⟩⟩
      rw [Origin.pairwise_compatible_iff, components_origins hdistinct, fields_origins]
      exact ⟨h.distinctKeys, h.apart⟩
    obtain ⟨state, hwalked⟩ := walkable_value document located_root ready
    obtain ⟨-, hrecorded⟩ := hwalked.recorded located_root named
    have hresolvable := (resolvable_iff hdistinct hrecorded hsound).mpr h.otherPointed
    exact ⟨_, (extract_of_walked hwalked hresolvable).1⟩

end

theorem extract_isOk_iff_acceptable_sample :
    sampleDocument.Distinct ∧
    (extract KeySource.sequential sampleDocument 0).graph = .ok sampleGraph ∧
    sampleDocument.Acceptable KeySource.sequential 0 :=
  ⟨sampleDocument_distinct, extract_sampleDocument,
    (extract_isOk_iff_acceptable sampleDocument_distinct).mp ⟨_, extract_sampleDocument⟩⟩

end Extraction

end Blueprint
