import Blueprint.Extraction
import Blueprint.Proofs.Extraction.Walked

/-!
# `Blueprint/Proofs/Extraction/Resolution.lean` — from the walked state to the graph

After the walk the extraction goes once over the edges and once over the table, and points names of
fields at keys. Both passes are maps, by the same naming; the pass over the edges is also the last
place where an extraction can fail. So a successful extraction is a successful walk whose state is
`Resolvable`, and its graph is a function of that state.
-/

set_option autoImplicit false

namespace Blueprint.Extraction

variable {σ : Type}

/-- An edge pointed at the key for which its dependency stands. -/
def resolvedEdge (names : List (String × String)) (edge : Edge) : Edge :=
  { edge with dependency := resolve names edge.dependency }

/-- What is reported of an edge, if its dependency is the name of a field. -/
def resolutionEvent? (names : List (String × String)) (edge : Edge) : Option Event :=
  (names.lookup edge.dependency).map (Event.fieldName edge.dependency)

theorem resolveEdge_eq_ok_iff {names : List (String × String)} {edge resolved : Edge}
    {before after : State σ} :
    resolveEdge names edge before = (.ok resolved, after) ↔
      names.lookup edge.dependency ≠ some edge.dependent ∧
      resolved = resolvedEdge names edge ∧
      after = { before with
        events := before.events ++ (resolutionEvent? names edge).toList } := by
  unfold resolveEdge resolvedEdge resolutionEvent? resolve
  cases names.lookup edge.dependency with
  | none =>
    rw [Step.pure_eq_ok_iff]
    constructor
    · rintro ⟨rfl, rfl⟩
      exact ⟨by simp, rfl, by simp⟩
    · rintro ⟨-, rfl, rfl⟩
      exact ⟨rfl, by simp⟩
  | some key =>
    by_cases hself : key = edge.dependent
    · simp only [if_pos hself]
      exact ⟨fun h => absurd h refuse_ne_ok, fun h => absurd (congrArg some hself) h.1⟩
    · simp only [if_neg hself]
      rw [Step.bind_of_ok (report_eq _), Step.pure_eq_ok_iff]
      constructor
      · rintro ⟨rfl, rfl⟩
        exact ⟨fun h => hself (Option.some.inj h), rfl, rfl⟩
      · rintro ⟨-, rfl, rfl⟩
        exact ⟨rfl, rfl⟩

/-- Pointing the edges at keys is a map, and fails only on an edge that would then need itself. -/
theorem mapM_resolveEdge_eq_ok_iff {names : List (String × String)} :
    ∀ {edges resolved : List Edge} {before after : State σ},
      edges.mapM (resolveEdge names) before = (.ok resolved, after) ↔
        (∀ edge ∈ edges, names.lookup edge.dependency ≠ some edge.dependent) ∧
        resolved = edges.map (resolvedEdge names) ∧
        after = { before with
          events := before.events ++ edges.filterMap (resolutionEvent? names) } := by
  intro edges
  induction edges with
  | nil =>
    intro resolved before after
    rw [List.mapM_nil, Step.pure_eq_ok_iff]
    constructor
    · rintro ⟨rfl, rfl⟩
      exact ⟨by simp, rfl, by simp⟩
    · rintro ⟨-, rfl, rfl⟩
      exact ⟨rfl, by simp⟩
  | cons edge rest ih =>
    intro resolved before after
    rw [List.mapM_cons, Step.bind_eq_ok_iff, List.forall_mem_cons]
    have hevents : (edge :: rest).filterMap (resolutionEvent? names) =
        (resolutionEvent? names edge).toList ++ rest.filterMap (resolutionEvent? names) := by
      rw [List.filterMap_cons]
      cases resolutionEvent? names edge <;> rfl
    constructor
    · rintro ⟨_, _, hfirst, h⟩
      obtain ⟨hother, rfl, rfl⟩ := resolveEdge_eq_ok_iff.mp hfirst
      obtain ⟨_, _, hlater, h⟩ := Step.bind_eq_ok_iff.mp h
      obtain ⟨hothers, rfl, rfl⟩ := ih.mp hlater
      obtain ⟨rfl, rfl⟩ := Step.pure_eq_ok_iff.mp h
      exact ⟨⟨hother, hothers⟩, rfl, by rw [hevents, List.append_assoc]⟩
    · rintro ⟨⟨hother, hothers⟩, rfl, rfl⟩
      refine ⟨_, _, resolveEdge_eq_ok_iff.mpr ⟨hother, rfl, rfl⟩, ?_⟩
      refine Step.bind_eq_ok_iff.mpr ⟨_, _, ih.mpr ⟨hothers, rfl, rfl⟩, ?_⟩
      rw [hevents, ← List.append_assoc]
      rfl

namespace State

/-- The names of fields that stand for keys once the walk has ended in the state. -/
def names (state : State σ) : List (String × String) := fieldNames state.table

/-- No edge comes to need itself by being pointed at a key. -/
def Resolvable (state : State σ) : Prop :=
  ∀ edge ∈ state.edges, state.names.lookup edge.dependency ≠ some edge.dependent

/-- The graph that is left in the state once names are resolved. -/
def graph (state : State σ) : Graph where
  table := state.table.edit (Node.rename (resolve state.names)) (Node.key_rename _)
  edges := state.edges.map (resolvedEdge state.names)

end State

theorem resolveFieldNames_eq_ok_iff {before after : State σ} {u : Unit} :
    resolveFieldNames before = (.ok u, after) ↔
      before.Resolvable ∧
      after = { before with
        table := before.graph.table
        edges := before.graph.edges
        events := before.events ++ before.edges.filterMap (resolutionEvent? before.names) } := by
  unfold resolveFieldNames
  rw [Step.bind_of_ok (show current before = (.ok before, before) from rfl), Step.bind_eq_ok_iff]
  constructor
  · rintro ⟨_, _, hedges, h⟩
    obtain ⟨hother, rfl, rfl⟩ := mapM_resolveEdge_eq_ok_iff.mp hedges
    cases h
    exact ⟨hother, rfl⟩
  · rintro ⟨hother, rfl⟩
    exact ⟨_, _, mapM_resolveEdge_eq_ok_iff.mpr ⟨hother, rfl, rfl⟩, rfl⟩

variable {source : KeySource σ} {document : Json} {keys : σ}

/-- A walk that succeeds in a resolvable state makes an extraction. -/
theorem extract_of_walked {value : Value} {state : State σ}
    (hwalked : Walked source (.value document) Path.root none (initial keys) (.value value) state)
    (hresolvable : state.Resolvable) :
    (extract source document keys).graph = .ok state.graph ∧
      (extract source document keys).keys = state.keys := by
  have hsteps : ∃ after, steps source document (initial keys) = (.ok (), after) ∧
      after.table = state.graph.table ∧ after.edges = state.graph.edges ∧
        after.keys = state.keys := by
    unfold steps
    rw [Step.bind_of_ok (walk_eq_ok_iff.mpr hwalked),
      Step.bind_of_ok ((resolveFieldNames_eq_ok_iff (u := ())).mpr ⟨hresolvable, rfl⟩)]
    exact ⟨_, rfl, rfl, rfl, rfl⟩
  obtain ⟨after, hsteps, htable, hedges, hkeys⟩ := hsteps
  unfold extract
  rw [hsteps]
  refine ⟨?_, hkeys⟩
  show (.ok ⟨after.table, after.edges⟩ : Except Error Graph) = _
  rw [htable, hedges]

/-- An extraction that succeeds is a walk that succeeds in a resolvable state. -/
theorem exists_walked_of_extract {graph : Graph}
    (h : (extract source document keys).graph = .ok graph) :
    ∃ value state,
      Walked source (.value document) Path.root none (initial keys) (.value value) state ∧
        state.Resolvable ∧ graph = state.graph := by
  unfold extract at h
  rcases hsteps : steps source document (initial keys) with ⟨_ | u, after⟩
  · rw [hsteps] at h
    exact absurd h (by simp)
  · rw [hsteps] at h
    obtain rfl := Except.ok.inj h
    unfold steps at hsteps
    obtain ⟨value, state, hwalk, hsteps⟩ := Step.bind_eq_ok_iff.mp hsteps
    obtain ⟨_, _, hresolve, hsteps⟩ := Step.bind_eq_ok_iff.mp hsteps
    obtain ⟨hresolvable, rfl⟩ := resolveFieldNames_eq_ok_iff.mp hresolve
    cases hsteps
    exact ⟨value, state, walk_eq_ok_iff.mp hwalk, hresolvable, rfl⟩

end Blueprint.Extraction
