import Blueprint.Proofs.Extraction.Recorded

/-!
# `Blueprint/Proofs/Extraction/Progress.lean` — admitted visits can be walked

`Recorded` says that what a walk leaves behind are admitted visits. Here is the converse: if the
visits of a part are admitted one after the other, starting from the table that is there, then no
step on the way fails. Each of the steps that may fail has a lemma that says when it does not; the
rest is the induction over the document. Between two parts of one list the state is known from what
the first of them has recorded, so `Ready` is all that has to be carried along.
-/

set_option autoImplicit false

namespace Blueprint.Extraction

variable {σ : Type} {source : KeySource σ} {keyAt : Path → String}

/-- The visits can come next. -/
structure Ready (keyAt : Path → String) (source : KeySource σ) (visits : List Visit)
    (state : State σ) : Prop where
  named : Visit.Named keyAt source visits state.keys
  admissible : Admissible keyAt state.table.origins visits

namespace Ready

variable {earlier later : List Visit} {before after : State σ}

theorem first (h : Ready keyAt source (earlier ++ later) before) :
    Ready keyAt source earlier before :=
  ⟨(Visit.named_append.mp h.named).1, (admissible_append.mp h.admissible).1⟩

theorem next (h : Ready keyAt source (earlier ++ later) before)
    (hkeys : after.keys = Visit.remaining source earlier before.keys)
    (horigins : after.table.origins =
      mentionAll before.table.origins (earlier.filterMap (Visit.origin? keyAt))) :
    Ready keyAt source later after := by
  constructor
  · rw [hkeys]
    exact (Visit.named_append.mp h.named).2
  · rw [horigins]
    exact (admissible_append.mp h.admissible).2

/-- A plain part changes nothing. -/
theorem skip {visit : Visit} (h : Ready keyAt source ([visit] ++ later) before)
    (hplain : visit.part.role = .plain) : Ready keyAt source later before := by
  have hhere : Recorded keyAt source [visit] before before := .plain hplain before
  exact h.next hhere.keys hhere.origins

/-- A plain part can be walked at any time. -/
theorem cons_plain {visit : Visit} {rest : List Visit} {before : State σ}
    (h : Ready keyAt source rest before) (hplain : visit.part.role = .plain) :
    Ready keyAt source ([visit] ++ rest) before := by
  have hhere : Recorded keyAt source [visit] before before := .plain hplain before
  refine ⟨Visit.named_append.mpr ⟨?_, ?_⟩, admissible_append.mpr ⟨hhere.admissible, ?_⟩⟩
  · intro place hplace
    simp [Visit.assigned, Visit.drawn, hplain] at hplace
  · rw [← hhere.keys]
    exact h.named
  · rw [← hhere.origins]
    exact h.admissible

theorem admitted {visit : Visit} (h : Ready keyAt source ([visit] ++ later) before) :
    visit.Admitted keyAt before.table.origins := h.admissible.1

end Ready

/-! ## The steps that may fail -/

/-- A marker or a call that is admitted finds its owner. -/
theorem exists_opened {owner : Option Owner} {visit : Visit} {dependency : String}
    {before : State σ} (located : Located keyAt owner visit.around visit.path)
    (hrequest : visit.request? = some dependency)
    (admitted : visit.Admitted keyAt before.table.origins) :
    ∃ found after, Opened owner visit.path before found after ∧ dependency ≠ found.key := by
  have hopened : ∃ found after, Opened owner visit.path before found after := by
    cases owner with
    | some owner => exact ⟨owner, before, .given owner visit.path before⟩
    | none =>
      have hempty : visit.around.isEmpty := List.isEmpty_iff.mpr located
      have hresult : visit.isResult = true := by rw [Visit.isResult_of_request hrequest, hempty]
      obtain ⟨segment, hfirst⟩ := Option.ne_none_iff_exists'.mp (admitted.placed hresult)
      have hcompatible := admitted.compatible (.entry segment.text)
        (by simp [Visit.origin?_of_request hrequest, hempty, Path.firstText, hfirst])
      cases hfind : before.table.find? segment.text with
      | none =>
        have hnew := Table.find?_eq_none_iff.mp hfind
        obtain ⟨table, hinsert⟩ := Table.exists_insert (.entry ⟨segment.text, []⟩) hnew
        exact ⟨_, _, .fresh hfirst hinsert⟩
      | some node =>
        cases node with
        | entry entry => exact ⟨_, _, .known hfirst hfind⟩
        | component c =>
          have hmem : .component segment.text ∈ before.table.origins :=
            Table.component_mem_origins_iff.mpr ⟨c, hfind⟩
          exact absurd rfl (hcompatible _ hmem)
  obtain ⟨found, after, hopened⟩ := hopened
  refine ⟨found, after, hopened, ?_⟩
  rw [hopened.key_eq located visit.part]
  exact admitted.other dependency (Visit.needs?_of_request hrequest)

/-- A component that is admitted gets into the table. -/
theorem exists_entered {owner : Option Owner} {members : List (String × Json)} {path : Path}
    {around : List Enclosure} {before : State σ} (located : Located keyAt owner around path)
    (shape : Json.objectShape members = .component)
    (named : Visit.Named keyAt source [⟨path, .object members, around⟩] before.keys)
    (admitted : Visit.Admitted keyAt before.table.origins ⟨path, .object members, around⟩) :
    ∃ after, Entered source members path owner before (keyAt path) after := by
  have hrole := role_component shape
  have hfields : Json.ComponentFields members := by
    have hwellFormed := admitted.wellFormed
    rw [hrole] at hwellFormed
    exact hwellFormed
  have hdeclares : declaration members path = .ok (declarationOf members) :=
    declaration_eq_ok_iff.mpr ⟨hfields.toDeclares, rfl⟩
  rcases hderives : deriveKey source (declarationOf members).explicitKey
    ((declarationOf members).callable.map Callable.name) path before.keys with ⟨key, keys⟩
  obtain rfl : keyAt path = key := by
    refine named (path, key) ?_
    simp only [declarationOf] at hderives
    simp [Visit.assigned, Visit.drawn, hrole, hderives]
  have hfresh : keyAt path ∉ before.table.keys := by
    rw [← Table.map_key_origins]
    intro hmem
    obtain ⟨node, hnode, hsame⟩ := List.mem_map.mp hmem
    have hcompatible := admitted.compatible (.component (keyAt path))
      (by simp [Visit.origin?, hrole]) node hnode
    cases node <;> exact hcompatible hsame
  obtain ⟨table, hinsert⟩ := Table.exists_insert
    (.component ((declarationOf members).component (keyAt path) path)) hfresh
  cases owner with
  | none => exact ⟨_, .alone hdeclares hderives hinsert⟩
  | some owner =>
    have hother : keyAt path ≠ owner.key := by
      rw [located.key_eq_owner (.object members)]
      refine admitted.other _ ?_
      have haround : around.isEmpty = false := by simp [located.1]
      simp [Visit.needs?, hrole, haround]
    exact ⟨_, .owned hdeclares hderives hinsert hother⟩

/-! ## The walk -/

/-- A part that can be walked wherever its visits can come next. -/
def Walkable (keyAt : Path → String) (source : KeySource σ) (part : Part) : Prop :=
  ∀ ⦃path : Path⦄ ⦃owner : Option Owner⦄ ⦃around : List Enclosure⦄ ⦃before : State σ⦄,
    Located keyAt owner around path → Ready keyAt source (part.visits path around) before →
      ∃ after, Walked source part path owner before (part.yield keyAt path) after

/-- One part after another. -/
theorem Walkable.next {part : Part} {path : Path} {owner : Option Owner} {around : List Enclosure}
    {before : State σ} {later : List Visit} (walkable : Walkable keyAt source part)
    (located : Located keyAt owner around path)
    (ready : Ready keyAt source (part.visits path around ++ later) before) :
    ∃ after, Walked source part path owner before (part.yield keyAt path) after ∧
      Ready keyAt source later after := by
  obtain ⟨after, hwalked⟩ := walkable located ready.first
  obtain ⟨-, hrecorded⟩ := hwalked.recorded located ready.first.named
  exact ⟨after, hwalked, ready.next hrecorded.keys hrecorded.origins⟩

theorem walkable_items {items : List Json}
    (hitems : ∀ item ∈ items, Walkable keyAt source (.value item)) (position : Nat) :
    Walkable keyAt source (.items items position) := by
  induction items generalizing position with
  | nil =>
    intro path owner around before located ready
    rw [Part.yield, Json.readingItems]
    exact ⟨before, .itemsNil⟩
  | cons item rest ih =>
    obtain ⟨hitem, hrest⟩ := List.forall_mem_cons.mp hitems
    intro path owner around before located ready
    rw [visits_itemsCons] at ready
    obtain ⟨middle, hfirst, ready⟩ := hitem.next (located.index position) ready
    obtain ⟨after, hlater⟩ := ih hrest (position + 1) located ready
    rw [Part.yield, Json.readingItems]
    exact ⟨after, .itemsCons hfirst hlater⟩

theorem walkable_members {members : List (String × Json)}
    (hmembers : ∀ name member, (name, member) ∈ members → Walkable keyAt source (.value member)) :
    Walkable keyAt source (.members members) := by
  induction members with
  | nil =>
    intro path owner around before located ready
    rw [Part.yield, Json.readingMembers]
    exact ⟨before, .membersNil⟩
  | cons head rest ih =>
    obtain ⟨name, member⟩ := head
    have hmember := hmembers name member List.mem_cons_self
    have hrest := ih fun name member hmem => hmembers name member (List.mem_cons_of_mem _ hmem)
    intro path owner around before located ready
    rw [visits_membersCons] at ready
    obtain ⟨middle, hfirst, ready⟩ := hmember.next (located.key name) ready
    obtain ⟨after, hlater⟩ := hrest located ready
    rw [Part.yield, Json.readingMembers]
    exact ⟨after, .membersCons hfirst hlater⟩

theorem walkable_block {members : List (String × Json)}
    (hmembers : ∀ name member, (name, member) ∈ members → Walkable keyAt source (.value member))
    (hinner : ∀ name inner, (name, .object inner) ∈ members →
      Walkable keyAt source (.members inner)) :
    Walkable keyAt source (.block members) := by
  induction members with
  | nil =>
    intro path owner around before located ready
    rw [Part.yield, Json.readingBlock]
    exact ⟨before, .blockNil⟩
  | cons head rest ih =>
    obtain ⟨name, member⟩ := head
    have hrest : Walkable keyAt source (.block rest) :=
      ih (fun name member hmem => hmembers name member (List.mem_cons_of_mem _ hmem))
        fun name inner hmem => hinner name inner (List.mem_cons_of_mem _ hmem)
    intro path owner around before located ready
    by_cases hobject : name = Field.params ∧ ∃ params, member = .object params
    · obtain ⟨rfl, inner, rfl⟩ := hobject
      rw [visits_blockParams] at ready
      have hwalkable := hinner _ inner List.mem_cons_self
      obtain ⟨middle, hfirst, ready⟩ := hwalkable.next (located.key _) ready
      obtain ⟨after, hlater⟩ := hrest located ready
      rw [Part.yield, Json.readingBlock_params]
      exact ⟨after, .blockParams hfirst hlater⟩
    · have plain : name = Field.params → ∀ inner, member ≠ .object inner :=
        fun hname inner hmember => hobject ⟨hname, inner, hmember⟩
      rw [visits_blockCons _ plain] at ready
      have hmember := hmembers name member List.mem_cons_self
      obtain ⟨middle, hfirst, ready⟩ := hmember.next (located.key name) ready
      obtain ⟨after, hlater⟩ := hrest located ready
      rw [Part.yield, Json.readingBlock_plain _ plain]
      exact ⟨after, .blockCons plain hfirst hlater⟩

section

variable {members : List (String × Json)} {path : Path} {owner : Owner}
  {around : List Enclosure} {before : State σ}
  (hbelow : ∀ part, Json.Below part (.object members) → Walkable keyAt source (.value part))
  (located : Located keyAt (some owner) around path)

include hbelow located

theorem exists_walked_params (hfield : Json.ParamsField members)
    (ready : Ready keyAt source ((Part.params members).visits path around) before) :
    ∃ after, Walked source (.params members) path (some owner) before
      (.entries (Json.readingParams keyAt members path)) after := by
  rcases hfield with hvacant | ⟨params, hget⟩
  · rw [Json.readingParams_of_vacant hvacant]
    exact ⟨before, .noParams hvacant⟩
  · have hparams : Walkable keyAt source (.members params) :=
      walkable_members fun name member hmem => hbelow member (.of_get? hget hmem)
    rw [visits_someParams hget] at ready
    obtain ⟨after, hwalked⟩ := hparams (located.key _) ready
    rw [Json.readingParams_of_get? hget]
    exact ⟨after, .someParams hget hwalked⟩

theorem exists_walked_methodArgs
    (hfield : Json.get? Field.methodArgs members = none ∨
      ∃ items, Json.get? Field.methodArgs members = some (.array items))
    (ready : Ready keyAt source ((Part.methodArgs members).visits path around) before) :
    ∃ after, Walked source (.methodArgs members) path (some owner) before
      (.items (Json.readingMethodArgs keyAt members path)) after := by
  rcases hfield with hget | ⟨items, hget⟩
  · rw [Json.readingMethodArgs, hget]
    exact ⟨before, .noMethodArgs hget⟩
  · have hitems : Walkable keyAt source (.items items 0) :=
      walkable_items (fun item hmem =>
        hbelow item (.trans (.item hmem) (.member (Json.mem_of_get? hget)))) 0
    rw [visits_someMethodArgs hget] at ready
    obtain ⟨after, hwalked⟩ := hitems (located.key _) ready
    rw [Json.readingMethodArgs, hget]
    exact ⟨after, .someMethodArgs hget hwalked⟩

end

theorem walkable_string (text : String) : Walkable keyAt source (.value (.string text)) := by
  intro path owner around before located ready
  cases hfind : Marker.find? text with
  | none =>
    rw [Part.yield, Json.reading, hfind]
    exact ⟨before, .plainText hfind⟩
  | some marker =>
    rw [visits_leaf (by simp) (by simp)] at ready
    have hadmitted : Visit.Admitted keyAt before.table.origins ⟨path, .string text, around⟩ :=
      ready.admissible.1
    cases marker with
    | malformed inner =>
      have hwellFormed := hadmitted.wellFormed
      simp [Json.role, hfind, Role.WellFormed] at hwellFormed
    | key key =>
      have hrequest : Visit.request? ⟨path, .string text, around⟩ = some key := by
        simp [Visit.request?, Json.role, hfind]
      obtain ⟨found, after, hopened, hother⟩ := exists_opened located hrequest hadmitted
      rw [Part.yield, Json.reading, hfind]
      exact ⟨_, .marker hfind hopened hother⟩

section

variable {members : List (String × Json)}
  (hbelow : ∀ part, Json.Below part (.object members) → Walkable keyAt source (.value part))

include hbelow

theorem walkable_component (shape : Json.objectShape members = .component) :
    Walkable keyAt source (.value (.object members)) := by
  intro path owner around before located ready
  rw [visits_component shape] at ready
  obtain ⟨entered, hentered⟩ := exists_entered located shape ready.first.named ready.admitted
  have hfields : Json.ComponentFields members := by
    have hwellFormed := ready.admitted.wellFormed
    rw [role_component shape] at hwellFormed
    exact hwellFormed
  have hdrawn := hentered.drawn_eq shape around
  have ready := ready.next (by simp [Visit.remaining, hdrawn])
    (hentered.mentioned_eq located shape rfl)
  obtain ⟨middle, hparams⟩ :=
    exists_walked_params hbelow (located_component path.lastText) hfields.params ready.first
  obtain ⟨-, hrecorded⟩ := hparams.recorded (located_component _) ready.first.named
  obtain ⟨after, hmethodArgs⟩ :=
    exists_walked_methodArgs hbelow (located_component path.lastText) hfields.methodArgs
      (ready.next hrecorded.keys hrecorded.origins)
  rw [Part.yield, Json.reading, shape]
  exact ⟨_, .component shape hentered hparams hmethodArgs⟩

theorem walkable_call (shape : Json.objectShape members = .call) :
    Walkable keyAt source (.value (.object members)) := by
  intro path owner around before located ready
  rw [visits_call shape] at ready
  have hwellFormed := ready.admitted.wellFormed
  rw [role_call shape] at hwellFormed
  obtain ⟨⟨target, htarget⟩, ⟨method, hmethod⟩, hparams⟩ := hwellFormed
  have hrequest : Visit.request? ⟨path, .object members, around⟩ = some target := by
    simp [Visit.request?, role_call shape, Json.textOf_eq htarget]
  obtain ⟨found, opened, hopened, hother⟩ := exists_opened located hrequest ready.admitted
  have hready : Ready keyAt source _ (opened.linked target found path) :=
    ready.next (by simp [Visit.remaining, Visit.drawn_of_request hrequest, hopened.keys_eq])
      (hopened.mentioned_eq located hrequest)
  obtain ⟨after, hwalked⟩ :=
    exists_walked_params hbelow (hopened.located_insideCall located) hparams hready
  rw [Part.yield, Json.reading, shape]
  simp only [Json.textOf_eq htarget, Json.textOf_eq hmethod]
  exact ⟨_, .call shape (callee_eq_ok_iff.mpr ⟨htarget, hmethod⟩) hopened hother hwalked⟩

end

/-- Visits that are admitted can be walked. -/
theorem walkable_value (document : Json) : Walkable keyAt source (.value document) := by
  have hbelow : ∀ part, Json.Below part document → Walkable keyAt source (.value part) :=
    fun part _ => walkable_value part
  cases document with
  | null =>
    intro path owner around before located ready
    rw [Part.yield, Json.reading]
    exact ⟨before, .null⟩
  | bool value =>
    intro path owner around before located ready
    rw [Part.yield, Json.reading]
    exact ⟨before, .bool⟩
  | number value =>
    intro path owner around before located ready
    rw [Part.yield, Json.reading]
    exact ⟨before, .number⟩
  | string text => exact walkable_string text
  | array items =>
    intro path owner around before located ready
    rw [visits_array] at ready
    have hitems := walkable_items (fun item hmem => hbelow item (.item hmem)) 0
    obtain ⟨after, hwalked⟩ := hitems located (ready.skip rfl)
    rw [Part.yield, Json.reading]
    exact ⟨after, .array hwalked⟩
  | object members =>
    cases hshape : Json.objectShape members with
    | component => exact walkable_component hbelow hshape
    | call => exact walkable_call hbelow hshape
    | methodBlock =>
      intro path owner around before located ready
      rw [visits_methodBlock hshape] at ready
      have hmembers := walkable_block (fun name member hmem => hbelow member (.member hmem))
        fun name inner hmem => walkable_members fun argument value hvalue =>
          hbelow value (.trans (.member hvalue) (.member hmem))
      have hplain : (Json.object members).role = .plain := by simp [Json.role, hshape]
      obtain ⟨after, hwalked⟩ := hmembers located (ready.skip hplain)
      rw [Part.yield, Json.reading, hshape]
      exact ⟨after, .methodBlock hshape hwalked⟩
    | mapping =>
      intro path owner around before located ready
      rw [visits_mapping hshape] at ready
      have hmembers := walkable_members fun name member hmem => hbelow member (.member hmem)
      have hplain : (Json.object members).role = .plain := by simp [Json.role, hshape]
      obtain ⟨after, hwalked⟩ := hmembers located (ready.skip hplain)
      rw [Part.yield, Json.reading, hshape]
      exact ⟨after, .mapping hshape hwalked⟩
termination_by sizeOf document
decreasing_by exact Json.Below.sizeOf_lt ‹_›

end Blueprint.Extraction
