import Blueprint.Proofs.Extraction.Parts
import Blueprint.Proofs.Graph.Views
import Mathlib.Data.List.Induction

/-!
# `Blueprint/Proofs/Extraction/Recorded.lean` — a walk leaves behind what its visits contribute

The walk goes through a document with an owner in its hand and writes to a table, a list of edges
and a source of keys. All that it does is to go through the list of visits: from one state to the
other, the tokens that were drawn, the edges, the nodes, the components with their arguments and the
results of the entries are the contributions of the visits, in order. That is `Recorded`, and
`Walked.recorded` proves it with one case for each kind of part.

Two things are not written in the order of the visits. A component is in the table before its
arguments are walked and gets them afterwards, and a call becomes a result after its arguments were
walked. Neither shows in the end: inside a call there are no results, and arguments are given to the
one component that has the key.

`Recorded` also says that each visit was `Admitted`, given the nodes that were there before. It is
the other half of the story, which decides whether a document is accepted at all.
-/

set_option autoImplicit false

namespace Blueprint

/-! ## Lists without repetitions, in the order of the first mention -/

/-- The things that are known after one more was mentioned. -/
def mention {α : Type} [DecidableEq α] (known : List α) (item : α) : List α :=
  if item ∈ known then known else known ++ [item]

/-- The things that are known after others were mentioned in turn. -/
def mentionAll {α : Type} [DecidableEq α] (known mentioned : List α) : List α :=
  mentioned.foldl mention known

section

variable {α : Type} [DecidableEq α] {known : List α} {item : α}

theorem mentionAll_append (known first later : List α) :
    mentionAll known (first ++ later) = mentionAll (mentionAll known first) later :=
  List.foldl_append

theorem mentionAll_singleton_of_mem (h : item ∈ known) : mentionAll known [item] = known := if_pos h

theorem mentionAll_singleton_of_not_mem (h : item ∉ known) :
    mentionAll known [item] = known ++ [item] := if_neg h

theorem mem_mentionAll {mentioned : List α} :
    item ∈ mentionAll known mentioned ↔ item ∈ known ∨ item ∈ mentioned := by
  induction mentioned generalizing known with
  | nil => simp [mentionAll]
  | cons head rest ih =>
    show item ∈ mentionAll (mention known head) rest ↔ _
    rw [ih, mention]
    by_cases hhead : head ∈ known
    · rw [if_pos hhead, List.mem_cons]
      constructor
      · rintro (h | h)
        · exact .inl h
        · exact .inr (.inr h)
      · rintro (h | rfl | h)
        · exact .inl h
        · exact .inl hhead
        · exact .inr h
    · rw [if_neg hhead, List.mem_append, List.mem_singleton, List.mem_cons, or_assoc]

theorem mentionAll_nil_eq (mentioned : List α) : mentionAll [] mentioned = mentioned.eraseDups := by
  induction mentioned using List.reverseRecOn with
  | nil => rfl
  | append_singleton earlier item ih =>
    rw [mentionAll_append, ih, List.eraseDups_append]
    by_cases hknown : item ∈ earlier
    · rw [mentionAll_singleton_of_mem (List.mem_eraseDups.mpr hknown)]
      simp [List.removeAll, hknown]
    · rw [mentionAll_singleton_of_not_mem (by simpa using hknown)]
      simp [List.removeAll, hknown, List.eraseDups_cons]

/-- What is picked out of a list of first mentions are the first mentions of what is picked. -/
theorem filterMap_mentionAll {β : Type} [DecidableEq β] {pick : α → Option β}
    (hpick : ∀ a b c, pick a = some c → pick b = some c → a = b) (known mentioned : List α) :
    (mentionAll known mentioned).filterMap pick =
      mentionAll (known.filterMap pick) (mentioned.filterMap pick) := by
  induction mentioned generalizing known with
  | nil => rfl
  | cons head rest ih =>
    show (mentionAll (mention known head) rest).filterMap pick = _
    rw [ih]
    cases hhead : pick head with
    | none =>
      rw [List.filterMap_cons_none hhead, mention]
      split
      · rfl
      · simp [hhead]
    | some picked =>
      rw [List.filterMap_cons_some hhead]
      show _ = mentionAll (mention (known.filterMap pick) picked) (rest.filterMap pick)
      have hmem : picked ∈ known.filterMap pick ↔ head ∈ known := by
        rw [List.mem_filterMap]
        constructor
        · rintro ⟨other, hother, hsame⟩
          exact hpick other head picked hsame hhead ▸ hother
        · intro h
          exact ⟨head, h, hhead⟩
      unfold mention
      by_cases hknown : head ∈ known
      · rw [if_pos hknown, if_pos (hmem.mpr hknown)]
      · rw [if_neg hknown, if_neg (mt hmem.mp hknown)]
        simp [hhead]

end

/-! ## Admission -/

/-- Two nodes that can stand in one table. A field may be mentioned again and again, and apart from
that the keys are different. -/
def Origin.Compatible : Origin → Origin → Prop
  | .entry _, .entry _ => True
  | a, b => a.key ≠ b.key

theorem Origin.Compatible.symm {a b : Origin} (h : a.Compatible b) : b.Compatible a := by
  cases a with
  | component key => cases b <;> exact Ne.symm h
  | entry key =>
    cases b with
    | component other => exact Ne.symm h
    | entry other => trivial

/-- A visit that is in order, whatever stands elsewhere in the document. -/
structure Visit.Sound (keyAt : Path → String) (visit : Visit) : Prop where
  wellFormed : visit.part.role.WellFormed
  placed : visit.isResult = true → visit.path.first? ≠ none
  other : ∀ dependency, visit.needs? keyAt = some dependency → dependency ≠ visit.owner keyAt

/-- A visit that does not end a walk in which the nodes are known so far. -/
structure Visit.Admitted (keyAt : Path → String) (known : List Origin) (visit : Visit) : Prop
    extends visit.Sound keyAt where
  compatible : ∀ origin, visit.origin? keyAt = some origin → ∀ node ∈ known, node.Compatible origin

/-- Visits that are admitted one after the other. -/
def Admissible (keyAt : Path → String) : List Origin → List Visit → Prop
  | _, [] => True
  | known, visit :: rest =>
    visit.Admitted keyAt known ∧
      Admissible keyAt (mentionAll known (visit.origin? keyAt).toList) rest

theorem admissible_append {keyAt : Path → String} {known : List Origin} {first later : List Visit} :
    Admissible keyAt known (first ++ later) ↔
      Admissible keyAt known first ∧
        Admissible keyAt (mentionAll known (first.filterMap (Visit.origin? keyAt))) later := by
  induction first generalizing known with
  | nil => simp [Admissible, mentionAll]
  | cons visit rest ih =>
    rw [List.cons_append, Admissible, Admissible, ih, and_assoc, List.filterMap_cons]
    cases horigin : visit.origin? keyAt with
    | none => rfl
    | some origin => rfl

namespace Extraction

variable {σ : Type}

/-- From one state to the other, all that was drawn, opened and written are the contributions of the
visits. -/
structure Recorded (keyAt : Path → String) (source : KeySource σ) (visits : List Visit)
    (before after : State σ) : Prop where
  admissible : Admissible keyAt before.table.origins visits
  keys : after.keys = Visit.remaining source visits before.keys
  edges : after.edges = before.edges ++ visits.filterMap (Visit.edge? keyAt)
  origins : after.table.origins =
    mentionAll before.table.origins (visits.filterMap (Visit.origin? keyAt))
  components : after.table.components =
    before.table.components ++ visits.filterMap (Visit.component? keyAt)
  results : ∀ field, after.table.results field =
    before.table.results field ++ visits.filterMap (Visit.result? keyAt field)

variable {keyAt : Path → String} {source : KeySource σ}

namespace Recorded

theorem refl (state : State σ) : Recorded keyAt source [] state state where
  admissible := trivial
  keys := rfl
  edges := by simp
  origins := rfl
  components := by simp
  results := by simp

theorem trans {first later : List Visit} {s₁ s₂ s₃ : State σ}
    (h₁ : Recorded keyAt source first s₁ s₂) (h₂ : Recorded keyAt source later s₂ s₃) :
    Recorded keyAt source (first ++ later) s₁ s₃ where
  admissible := admissible_append.mpr ⟨h₁.admissible, h₁.origins ▸ h₂.admissible⟩
  keys := by rw [Visit.remaining_append, h₂.keys, h₁.keys]
  edges := by rw [h₂.edges, h₁.edges, List.filterMap_append, List.append_assoc]
  origins := by rw [h₂.origins, h₁.origins, List.filterMap_append, mentionAll_append]
  components := by rw [h₂.components, h₁.components, List.filterMap_append, List.append_assoc]
  results field := by
    rw [h₂.results, h₁.results, List.filterMap_append, List.append_assoc]

/-- Two parts in a row, each of them recorded once its keys are known. -/
theorem sequence {P Q : Prop} {first later : List Visit} {s₁ s₂ s₃ : State σ}
    (named : Visit.Named keyAt source (first ++ later) s₁.keys)
    (h₁ : Visit.Named keyAt source first s₁.keys → P ∧ Recorded keyAt source first s₁ s₂)
    (h₂ : Visit.Named keyAt source later s₂.keys → Q ∧ Recorded keyAt source later s₂ s₃) :
    P ∧ Q ∧ Recorded keyAt source (first ++ later) s₁ s₃ := by
  obtain ⟨namedFirst, namedLater⟩ := Visit.named_append.mp named
  obtain ⟨hfirst, hrecorded⟩ := h₁ namedFirst
  rw [← hrecorded.keys] at namedLater
  obtain ⟨hlater, hrecordedLater⟩ := h₂ namedLater
  exact ⟨hfirst, hlater, hrecorded.trans hrecordedLater⟩

/-- A plain part contributes nothing. -/
theorem plain {visit : Visit} (hplain : visit.part.role = .plain) (state : State σ) :
    Recorded keyAt source [visit] state state := by
  have hrequest : visit.request? = none := by simp [Visit.request?, hplain]
  have hresult : visit.isResult = false := by simp [Visit.isResult, hrequest]
  have horigin : visit.origin? keyAt = none := by simp [Visit.origin?, hplain, hresult]
  have hneeds : visit.needs? keyAt = none := by simp [Visit.needs?, hplain, hrequest]
  refine ⟨⟨⟨⟨?_, ?_, ?_⟩, ?_⟩, trivial⟩, ?_, ?_, ?_, ?_, ?_⟩
  · simp [hplain, Role.WellFormed]
  · simp [hresult]
  · simp [hneeds]
  · simp [horigin]
  · simp [Visit.remaining, Visit.drawn, hplain]
  · simp [Visit.edge?, hneeds]
  · simp [horigin, mentionAll]
  · simp [Visit.component?, hplain]
  · simp [Visit.result?, hresult]

/-- What is recorded of a plain part and others is recorded of the others. -/
theorem skip {visit : Visit} {rest : List Visit} {before after : State σ}
    (h : Recorded keyAt source ([visit] ++ rest) before after)
    (hplain : visit.part.role = .plain) : Recorded keyAt source rest before after := by
  have hhere : Recorded keyAt source [visit] before before := .plain hplain before
  constructor
  · have hrest := (admissible_append.mp h.admissible).2
    rwa [← hhere.origins] at hrest
  · rw [h.keys, Visit.remaining_append, ← hhere.keys]
  · rw [h.edges, List.filterMap_append, ← List.append_assoc, ← hhere.edges]
  · rw [h.origins, List.filterMap_append, mentionAll_append, ← hhere.origins]
  · rw [h.components, List.filterMap_append, ← List.append_assoc, ← hhere.components]
  · intro field
    rw [h.results, List.filterMap_append, ← List.append_assoc, ← hhere.results]

end Recorded

/-! ## Finding the owner -/

namespace Opened

variable {owner : Option Owner} {around : List Enclosure} {path : Path} {before after : State σ}
  {found : Owner}

theorem collects_eq (opened : Opened owner path before found after)
    (located : Located keyAt owner around path) : found.collects = around.isEmpty := by
  cases opened with
  | given =>
    obtain ⟨haround, hcollects, -⟩ := located
    simp [hcollects, haround]
  | known | fresh =>
    obtain rfl : around = [] := located
    rfl

theorem key_eq (opened : Opened owner path before found after)
    (located : Located keyAt owner around path) (part : Json) :
    found.key = Visit.owner keyAt ⟨path, part, around⟩ := by
  cases opened with
  | given => exact located.key_eq_owner part
  | known first | fresh first =>
    obtain rfl : around = [] := located
    simp [Visit.owner, innermost?, Path.firstText, first, Owner.key]

theorem first?_ne_none (opened : Opened none path before found after) : path.first? ≠ none := by
  cases opened with
  | known first | fresh first => simp [first]

/-- Inside a call everything belongs to the owner of the call. -/
theorem located_insideCall (opened : Opened owner path before found after)
    (located : Located keyAt owner around path) :
    Located keyAt (some found.insideCall) (.call :: around) path := by
  refine ⟨by simp, Owner.insideCall_collects _, ?_⟩
  have hskip : innermost? (.call :: around) = innermost? around := rfl
  rw [hskip, Owner.insideCall_key]
  cases opened with
  | given => exact located.2.2
  | known first | fresh first =>
    obtain rfl : around = [] := located
    simp [innermost?, first, Owner.key]

theorem keys_eq (opened : Opened owner path before found after) : after.keys = before.keys := by
  cases opened <;> rfl

theorem components_eq (opened : Opened owner path before found after) :
    after.table.components = before.table.components := by
  cases opened with
  | given | known => rfl
  | fresh first inserted =>
    rw [State.reported_table,
      Table.components_of_nodes_append (Table.insert_eq_ok_iff.mp inserted).2]
    simp [Node.component?]

theorem results_eq (opened : Opened owner path before found after) (field : String) :
    after.table.results field = before.table.results field := by
  cases opened with
  | given | known => rfl
  | fresh first inserted =>
    obtain ⟨hnew, hnodes⟩ := Table.insert_eq_ok_iff.mp inserted
    rw [State.reported_table, Table.results_of_nodes_append hnodes hnew rfl]

theorem origins_eq (opened : Opened owner path before found after)
    (located : Located keyAt owner around path) :
    after.table.origins = mentionAll before.table.origins
      (if around.isEmpty then [.entry path.firstText] else []) := by
  cases opened with
  | given =>
    have haround : around.isEmpty = false := by simp [located.1]
    simp [haround, mentionAll]
  | @known _ segment _ entry first found =>
    obtain rfl : around = [] := located
    have hknown : .entry path.firstText ∈ before.table.origins := by
      rw [Path.firstText, first]
      exact Table.entry_mem_origins_iff.mpr ⟨entry, found⟩
    rw [if_pos List.isEmpty_nil, mentionAll_singleton_of_mem hknown]
  | @fresh _ segment _ _ first inserted =>
    obtain rfl : around = [] := located
    obtain ⟨hnew, hnodes⟩ := Table.insert_eq_ok_iff.mp inserted
    have hunknown : .entry path.firstText ∉ before.table.origins := by
      rw [Path.firstText, first]
      exact Table.not_mem_origins hnew
    rw [if_pos List.isEmpty_nil, mentionAll_singleton_of_not_mem hunknown, State.reported_table,
      Table.origins_of_nodes_append hnodes, Path.firstText, first]
    rfl

/-- The entry that is opened has no component's key. -/
theorem compatible (opened : Opened none path before found after) :
    ∀ node ∈ before.table.origins, node.Compatible (.entry path.firstText) := by
  intro node hnode
  cases node with
  | entry key => trivial
  | component key =>
    rintro rfl
    obtain ⟨c, hfind⟩ := Table.component_mem_origins_iff.mp hnode
    cases opened with
    | known first found =>
      rw [Origin.key, Path.firstText, first, found] at hfind
      cases hfind
    | fresh first inserted =>
      rw [Origin.key, Path.firstText, first] at hfind
      exact (Table.insert_eq_ok_iff.mp inserted).1 (Table.mem_keys_of_find? hfind)

end Opened

namespace State

variable (state : State σ) (owner : Owner) (value : Value)

theorem attached_origins : (state.attached owner value).table.origins = state.table.origins := by
  unfold attached
  split
  · exact Table.origins_editAt (Node.key_collect value) (Node.origin_collect value) _ _
  · rfl

theorem attached_components :
    (state.attached owner value).table.components = state.table.components := by
  unfold attached
  split
  · exact Table.components_collect _ _ _
  · rfl

theorem attached_results (hentry : owner.collects = true → .entry owner.key ∈ state.table.origins)
    (field : String) :
    (state.attached owner value).table.results field =
      state.table.results field ++
        if owner.collects = true ∧ owner.key = field then [value] else [] := by
  cases owner with
  | component key name => simp [attached, Owner.collects]
  | entry key collecting =>
    cases collecting with
    | false => simp [attached, Owner.collects]
    | true =>
      have hcollect := state.table.results_collect key field value (hentry rfl)
      simpa [attached, Owner.collects, Owner.key, eq_comm] using hcollect

end State

theorem Opened.mentioned_eq {owner : Option Owner} {visit : Visit} {dependency : String}
    {before after : State σ} {found : Owner} (opened : Opened owner visit.path before found after)
    (located : Located keyAt owner visit.around visit.path)
    (hrequest : visit.request? = some dependency) :
    after.table.origins =
      mentionAll before.table.origins ([visit].filterMap (Visit.origin? keyAt)) := by
  rw [opened.origins_eq located, Visit.filterMap_singleton, Visit.origin?_of_request hrequest]
  cases visit.around.isEmpty <;> rfl

/-- What a marker and a call have in common: the owner is found, the need is recorded, parts inside
are walked, and the value is offered to the owner. -/
theorem Opened.recorded (visit : Visit) {owner : Option Owner} {dependency : String}
    {inner : List Visit} {s s₁ s₂ : State σ} {found : Owner}
    (opened : Opened owner visit.path s found s₁)
    (located : Located keyAt owner visit.around visit.path)
    (hwellFormed : visit.part.role.WellFormed) (hrequest : visit.request? = some dependency)
    (hother : dependency ≠ found.key)
    (hinner : Recorded keyAt source inner (s₁.linked dependency found visit.path) s₂)
    (haround : ∀ part ∈ inner, part.around ≠ []) :
    Recorded keyAt source ([visit] ++ inner) s
      (s₂.attached found (visit.part.reading keyAt visit.path)) := by
  have hkey : found.key = visit.owner keyAt := opened.key_eq located visit.part
  have hcollects := opened.collects_eq located
  have horigin : visit.origin? keyAt =
      if visit.around.isEmpty then some (.entry visit.path.firstText) else none :=
    Visit.origin?_of_request hrequest
  have horigins := opened.mentioned_eq located hrequest
  have hadmitted : visit.Admitted keyAt s.table.origins := by
    refine ⟨⟨hwellFormed, ?_, ?_⟩, ?_⟩
    · intro hresult
      rw [Visit.isResult_of_request hrequest, List.isEmpty_iff] at hresult
      cases owner with
      | none => exact opened.first?_ne_none
      | some o => exact absurd hresult located.1
    · intro needed hneeded
      rw [Visit.needs?_of_request hrequest] at hneeded
      cases hneeded
      exact hkey ▸ hother
    · intro origin hentry
      rw [horigin] at hentry
      split at hentry
      · rename_i hempty
        cases hentry
        cases owner with
        | none => exact opened.compatible
        | some o => exact absurd (List.isEmpty_iff.mp hempty) located.1
      · cases hentry
  refine ⟨admissible_append.mpr ⟨⟨hadmitted, trivial⟩, ?_⟩, ?_, ?_, ?_, ?_, ?_⟩
  · rw [← horigins]
    exact hinner.admissible
  · rw [State.attached_keys, hinner.keys, State.linked_keys, opened.keys_eq]
    simp [Visit.remaining, Visit.drawn_of_request hrequest]
  · rw [State.attached_edges, hinner.edges, State.linked_edges, opened.edges_eq, hkey]
    simp [Visit.edge?, Visit.needs?_of_request hrequest]
  · rw [State.attached_origins, hinner.origins, State.linked_table, horigins,
      List.filterMap_append, mentionAll_append]
  · rw [State.attached_components, hinner.components, State.linked_table, opened.components_eq]
    simp [Visit.component?_of_request hrequest]
  · intro field
    -- nothing inside is a result, so the value comes next even though it is offered last
    have hentry : found.collects = true → .entry found.key ∈ s₂.table.origins := by
      intro hcollecting
      rw [hcollects] at hcollecting
      rw [hinner.origins, mem_mentionAll, State.linked_table, horigins, mem_mentionAll,
        Visit.filterMap_singleton, horigin, if_pos hcollecting]
      left; right
      rw [List.isEmpty_iff] at hcollecting
      simp [hkey, Visit.owner, hcollecting, innermost?]
    rw [State.attached_results _ _ _ hentry, hinner.results, State.linked_table,
      opened.results_eq, List.filterMap_append, Visit.filterMap_result?_eq_nil haround,
      List.append_nil, List.append_nil, hcollects, hkey]
    simp only [List.filterMap_cons, List.filterMap_nil, Visit.result?,
      Visit.isResult_of_request hrequest]
    cases hempty : visit.around with
    | nil =>
      by_cases hfield : visit.path.firstText = field
      · simp [Visit.owner, hempty, innermost?, hfield]
      · simp [Visit.owner, hempty, innermost?, hfield]
    | cons enclosure rest => simp

/-! ## Entering a component -/

theorem role_component {members : List (String × Json)}
    (shape : Json.objectShape members = .component) :
    (Json.object members).role = .component members := by
  simp [Json.role, shape]

theorem role_call {members : List (String × Json)} (shape : Json.objectShape members = .call) :
    (Json.object members).role = .call members := by
  simp [Json.role, shape]

namespace Entered

variable {members : List (String × Json)} {path : Path} {owner : Option Owner}
  {around : List Enclosure} {before after : State σ} {key : String}

theorem declares (entered : Entered source members path owner before key after) :
    Json.Declares members := by
  cases entered with
  | alone declares | owned declares => exact (declaration_eq_ok_iff.mp declares).1

theorem drawn_eq (entered : Entered source members path owner before key after)
    (shape : Json.objectShape members = .component) (around : List Enclosure) :
    Visit.drawn source ⟨path, .object members, around⟩ before.keys = (some key, after.keys) := by
  unfold Visit.drawn
  rw [role_component shape]
  cases entered with
  | alone declares derives | owned declares derives =>
    obtain ⟨-, rfl⟩ := declaration_eq_ok_iff.mp declares
    simp only [declarationOf] at derives
    simp [derives]

theorem nodes_eq (entered : Entered source members path owner before key after)
    (located : Located keyAt owner around path) :
    after.table.nodes =
      before.table.nodes ++ [.component ((declarationOf members).component key path)] := by
  cases entered with
  | alone declares derives inserted =>
    obtain ⟨-, rfl⟩ := declaration_eq_ok_iff.mp declares
    exact (Table.insert_eq_ok_iff.mp inserted).2
  | owned declares derives inserted other =>
    obtain ⟨-, rfl⟩ := declaration_eq_ok_iff.mp declares
    rw [State.attached_of_not_collects located.2.1]
    exact (Table.insert_eq_ok_iff.mp inserted).2

theorem edges_eq (entered : Entered source members path owner before key after)
    (located : Located keyAt owner around path) (part : Json) :
    after.edges = before.edges ++
      if around.isEmpty then []
      else [⟨key, Visit.owner keyAt ⟨path, part, around⟩, path⟩] := by
  cases entered with
  | alone =>
    obtain rfl : around = [] := located
    simp
  | owned =>
    have haround : around.isEmpty = false := by simp [located.1]
    rw [State.attached_edges, State.linked_edges, located.key_eq_owner part]
    simp [haround]

theorem ne_owner (entered : Entered source members path owner before key after)
    (located : Located keyAt owner around path) (haround : around ≠ []) (part : Json) :
    key ≠ Visit.owner keyAt ⟨path, part, around⟩ := by
  cases entered with
  | alone => exact absurd located haround
  | owned declares derives inserted other => exact located.key_eq_owner part ▸ other

theorem mentioned_eq (entered : Entered source members path owner before key after)
    (located : Located keyAt owner around path)
    (shape : Json.objectShape members = .component) (hkey : keyAt path = key) :
    after.table.origins = mentionAll before.table.origins
      ([⟨path, .object members, around⟩].filterMap (Visit.origin? keyAt)) := by
  have hunknown : .component key ∉ before.table.origins :=
    Table.not_mem_origins entered.not_mem_keys
  have horigin : Visit.origin? keyAt ⟨path, .object members, around⟩ = some (.component key) := by
    simp [Visit.origin?, role_component shape, hkey]
  rw [Visit.filterMap_singleton, horigin, Option.toList_some,
    mentionAll_singleton_of_not_mem hunknown,
    Table.origins_of_nodes_append (entered.nodes_eq located)]
  rfl

/-- A component contributes itself, with the arguments that it gets once they are walked. -/
theorem recorded {walked : State σ} {inner : List Visit}
    (entered : Entered source members path owner before key after)
    (located : Located keyAt owner around path)
    (shape : Json.objectShape members = .component) (hkey : keyAt path = key)
    (hfields : Json.ComponentFields members)
    (hinner : Recorded keyAt source inner after walked) :
    Recorded keyAt source ([⟨path, .object members, around⟩] ++ inner) before
      (walked.filled key (Json.readingParams keyAt members path)
        (Json.readingMethodArgs keyAt members path)) := by
  generalize hvisit : (⟨path, .object members, around⟩ : Visit) = visit
  have hrole : visit.part.role = .component members := by
    rw [← hvisit]
    exact role_component shape
  have hpath : visit.path = path := by rw [← hvisit]
  have haround : visit.around = around := by rw [← hvisit]
  have hdrawn : visit.drawn source before.keys = (some key, after.keys) := by
    rw [← hvisit]
    exact entered.drawn_eq shape around
  have hresult : visit.isResult = false := by simp [Visit.isResult, Visit.request?, hrole]
  have hfresh : key ∉ before.table.keys := entered.not_mem_keys
  have hnodes := entered.nodes_eq located
  have horigin : visit.origin? keyAt = some (.component key) := by
    simp [Visit.origin?, hrole, hpath, hkey]
  have hneeds : visit.needs? keyAt = if around.isEmpty then none else some key := by
    rw [Visit.needs?, hrole, hpath, haround, hkey]
  have horigins : after.table.origins =
      mentionAll before.table.origins ([visit].filterMap (Visit.origin? keyAt)) :=
    hvisit ▸ entered.mentioned_eq located shape hkey
  have hadmitted : visit.Admitted keyAt before.table.origins := by
    refine ⟨⟨?_, ?_, ?_⟩, ?_⟩
    · rw [hrole]
      exact hfields
    · simp [hresult]
    · intro needed hneeded
      rw [hneeds] at hneeded
      split at hneeded
      · cases hneeded
      · rename_i hempty
        cases hneeded
        rw [← hvisit]
        exact entered.ne_owner located (fun hnil => hempty (by simp [hnil])) _
    · intro origin hcomponent node hnode
      rw [horigin] at hcomponent
      cases hcomponent
      have hother : node.key ≠ key := by
        rintro rfl
        exact hfresh (Table.map_key_origins _ ▸ List.mem_map_of_mem hnode)
      cases node <;> exact hother
  refine ⟨admissible_append.mpr ⟨⟨hadmitted, trivial⟩, ?_⟩, ?_, ?_, ?_, ?_, ?_⟩
  · rw [← horigins]
    exact hinner.admissible
  · rw [State.filled_keys, hinner.keys]
    simp [Visit.remaining, hdrawn]
  · rw [State.filled_edges, hinner.edges, entered.edges_eq located (.object members), hvisit,
      List.filterMap_append, Visit.filterMap_singleton, Visit.edge?, hneeds, hpath]
    cases around.isEmpty <;> simp
  · rw [State.filled, Table.origins_editAt (Node.key_fill _ _) (Node.origin_fill _ _),
      hinner.origins, horigins, List.filterMap_append, mentionAll_append]
  · -- the component is the only one with its key
    have hwalked : walked.table.components =
        before.table.components ++ (declarationOf members).component key path ::
          inner.filterMap (Visit.component? keyAt) := by
      rw [hinner.components, Table.components_of_nodes_append hnodes]
      simp [Node.component?]
    have hnodup := walked.table.nodup_component_keys
    rw [State.filled, Table.components_fill]
    rw [hwalked] at hnodup ⊢
    have hfilled := Table.map_fill_of_nodup (Json.readingParams keyAt members path)
      (Json.readingMethodArgs keyAt members path) hnodup
    rw [show ((declarationOf members).component key path).key = key from rfl] at hfilled
    rw [hfilled, List.filterMap_append, Visit.filterMap_singleton]
    simp [Visit.component?, hrole, hpath, hkey, Declaration.component, declarationOf]
  · intro field
    rw [State.filled, Table.results_fill, hinner.results,
      Table.results_of_nodes_append hnodes hfresh rfl, List.filterMap_append,
      Visit.filterMap_singleton, Visit.result?, hresult]
    simp

end Entered

/-! ## The walk -/

theorem Walked.paramsField {members : List (String × Json)} {path : Path} {owner : Option Owner}
    {before after : State σ} {yield : Yield}
    (h : Walked source (.params members) path owner before yield after) :
    Json.ParamsField members := by
  cases h with
  | noParams none => exact .inl none
  | someParams found => exact .inr ⟨_, found⟩

theorem Walked.methodArgsField {members : List (String × Json)} {path : Path}
    {owner : Option Owner} {before after : State σ} {yield : Yield}
    (h : Walked source (.methodArgs members) path owner before yield after) :
    Json.get? Field.methodArgs members = none ∨
      ∃ items, Json.get? Field.methodArgs members = some (.array items) := by
  cases h with
  | noMethodArgs none => exact .inl none
  | someMethodArgs found => exact .inr ⟨_, found⟩

/-- A walk gives the reading of what is walked and leaves behind the contributions of its visits. -/
theorem Walked.recorded {part : Part} {path : Path} {owner : Option Owner}
    {before after : State σ} {yield : Yield}
    (h : Walked source part path owner before yield after) :
    ∀ {around : List Enclosure}, Located keyAt owner around path →
      Visit.Named keyAt source (part.visits path around) before.keys →
        yield = part.yield keyAt path ∧
          Recorded keyAt source (part.visits path around) before after := by
  induction h with
  | null | bool | number =>
    intro around located named
    rw [visits_leaf (by simp) (by simp)]
    exact ⟨by simp [Part.yield, Json.reading], .plain rfl _⟩
  | plainText plain =>
    intro around located named
    rw [visits_leaf (by simp) (by simp)]
    exact ⟨by simp [Part.yield, Json.reading, plain], .plain (by simp [Json.role, plain]) _⟩
  | @marker text key path owner s s₁ found marks opened other =>
    intro around located named
    rw [visits_leaf (by simp) (by simp)]
    have hrole : (Json.string text).role = .marker key := by simp [Json.role, marks]
    have hvalue : (Json.string text).reading keyAt path = .reference key := by
      simp [Json.reading, marks]
    refine ⟨by rw [Part.yield, hvalue], ?_⟩
    have hinner : Recorded keyAt source [] _ (s₁.linked key found path) := .refl _
    have hrecorded := Opened.recorded ⟨path, .string text, around⟩ opened located
      (by rw [hrole]; trivial) (by simp [Visit.request?, hrole]) other hinner (by simp)
    rw [hvalue] at hrecorded
    exact hrecorded
  | @array items path owner s s' values walked ih =>
    intro around located named
    rw [visits_array] at named ⊢
    have hplain : (Json.array items).role = .plain := rfl
    obtain ⟨-, hyield, hrecorded⟩ :=
      Recorded.sequence named (fun _ => ⟨trivial, .plain hplain s⟩) (ih located)
    cases hyield
    exact ⟨by simp [Part.yield, Json.reading], hrecorded⟩
  | @component members path owner s s₁ s₂ s₃ key params methodArgs shape entered first second
      ih₁ ih₂ =>
    intro around located named
    rw [visits_component shape] at named ⊢
    obtain ⟨namedHere, named⟩ := Visit.named_append.mp named
    have hdrawn := entered.drawn_eq shape around
    obtain rfl : keyAt path = key :=
      namedHere (path, key) (by simp [Visit.assigned, hdrawn])
    have hkeys : Visit.remaining source [⟨path, .object members, around⟩] s.keys = s₁.keys := by
      simp [Visit.remaining, hdrawn]
    rw [hkeys] at named
    obtain ⟨hparams, hmethodArgs, hinner⟩ :=
      Recorded.sequence named (ih₁ (located_component _)) (ih₂ (located_component _))
    cases hparams
    cases hmethodArgs
    have hfields : Json.ComponentFields members :=
      ⟨entered.declares, first.paramsField, second.methodArgsField⟩
    exact ⟨by simp [Part.yield, Json.reading, shape],
      entered.recorded located shape rfl hfields hinner⟩
  | @call members path owner s s₁ s₂ found target method params shape callee opened other walked
      ih =>
    intro around located named
    rw [visits_call shape] at named ⊢
    obtain ⟨htarget, hmethod⟩ := callee_eq_ok_iff.mp callee
    have hrole := role_call shape
    have hrequest : Visit.request? ⟨path, .object members, around⟩ = some target := by
      simp [Visit.request?, hrole, Json.textOf_eq htarget]
    have hkeys : Visit.remaining source [⟨path, .object members, around⟩] s.keys =
        (s₁.linked target found path).keys := by
      rw [State.linked_keys, opened.keys_eq]
      simp [Visit.remaining, Visit.drawn_of_request hrequest]
    have namedInner := (Visit.named_append.mp named).2
    rw [hkeys] at namedInner
    obtain ⟨hparams, hinner⟩ := ih (opened.located_insideCall located) namedInner
    cases hparams
    have hvalue : (Json.object members).reading keyAt path =
        .call target method (Json.readingParams keyAt members path) := by
      simp [Json.reading, shape, Json.textOf_eq htarget, Json.textOf_eq hmethod]
    refine ⟨by rw [Part.yield, hvalue], ?_⟩
    have hfields : Json.CallFields members :=
      ⟨⟨target, htarget⟩, ⟨method, hmethod⟩, walked.paramsField⟩
    have hrecorded := Opened.recorded ⟨path, .object members, around⟩ opened located
      (by rw [hrole]; exact hfields) hrequest other hinner
      (fun part hpart => around_ne_nil_of_mem_params (by simp) hpart)
    rw [hvalue] at hrecorded
    exact hrecorded
  | @methodBlock members path owner s s' entries shape walked ih =>
    intro around located named
    rw [visits_methodBlock shape] at named ⊢
    have hplain : (Json.object members).role = .plain := by simp [Json.role, shape]
    obtain ⟨-, hyield, hrecorded⟩ :=
      Recorded.sequence named (fun _ => ⟨trivial, .plain hplain s⟩) (ih located)
    cases hyield
    exact ⟨by simp [Part.yield, Json.reading, shape], hrecorded⟩
  | @mapping members path owner s s' entries shape walked ih =>
    intro around located named
    rw [visits_mapping shape] at named ⊢
    have hplain : (Json.object members).role = .plain := by simp [Json.role, shape]
    obtain ⟨-, hyield, hrecorded⟩ :=
      Recorded.sequence named (fun _ => ⟨trivial, .plain hplain s⟩) (ih located)
    cases hyield
    exact ⟨by simp [Part.yield, Json.reading, shape], hrecorded⟩
  | itemsNil | membersNil | blockNil =>
    intro around located named
    exact ⟨by simp [Part.yield, Json.readingItems, Json.readingMembers, Json.readingBlock], .refl _⟩
  | itemsCons first later ih₁ ih₂ =>
    intro around located named
    rw [visits_itemsCons] at named ⊢
    obtain ⟨hvalue, hvalues, hrecorded⟩ :=
      Recorded.sequence named (ih₁ (located.index _)) (ih₂ located)
    cases hvalue
    cases hvalues
    exact ⟨by simp [Part.yield, Json.readingItems], hrecorded⟩
  | membersCons first later ih₁ ih₂ =>
    intro around located named
    rw [visits_membersCons] at named ⊢
    obtain ⟨hvalue, hentries, hrecorded⟩ :=
      Recorded.sequence named (ih₁ (located.key _)) (ih₂ located)
    cases hvalue
    cases hentries
    exact ⟨by simp [Part.yield, Json.readingMembers], hrecorded⟩
  | blockParams first later ih₁ ih₂ =>
    intro around located named
    rw [visits_blockParams] at named ⊢
    obtain ⟨harguments, hentries, hrecorded⟩ :=
      Recorded.sequence named (ih₁ (located.key _)) (ih₂ located)
    cases harguments
    cases hentries
    exact ⟨by rw [Part.yield, Json.readingBlock_params], hrecorded⟩
  | blockCons plain first later ih₁ ih₂ =>
    intro around located named
    rw [visits_blockCons _ plain] at named ⊢
    obtain ⟨hvalue, hentries, hrecorded⟩ :=
      Recorded.sequence named (ih₁ (located.key _)) (ih₂ located)
    cases hvalue
    cases hentries
    exact ⟨by rw [Part.yield, Json.readingBlock_plain _ plain], hrecorded⟩
  | noParams none =>
    intro around located named
    rw [visits_noParams none]
    exact ⟨by rw [Part.yield, Json.readingParams_of_vacant none], .refl _⟩
  | someParams found walked ih =>
    intro around located named
    rw [visits_someParams found] at named ⊢
    obtain ⟨hyield, hmembers⟩ := ih (located.key _) named
    cases hyield
    exact ⟨by rw [Part.yield, Json.readingParams_of_get? found], hmembers⟩
  | noMethodArgs none =>
    intro around located named
    rw [visits_noMethodArgs none]
    exact ⟨by simp [Part.yield, Json.readingMethodArgs, none], .refl _⟩
  | someMethodArgs found walked ih =>
    intro around located named
    rw [visits_someMethodArgs found] at named ⊢
    obtain ⟨hyield, hitems⟩ := ih (located.key _) named
    cases hyield
    exact ⟨by simp [Part.yield, Json.readingMethodArgs, found], hitems⟩

end Extraction

end Blueprint
