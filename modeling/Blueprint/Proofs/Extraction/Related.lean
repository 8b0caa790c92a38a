import Blueprint.Extraction
import Blueprint.Proofs.Extraction.Parts

/-!
# `Blueprint/Proofs/Extraction/Related.lean` — two walks side by side

`Walked` is about walks that succeed. Some things hold of every walk, whatever it comes to, and some
of two walks over different supplies of tokens; for these there is nothing to invert. Instead a
property of a walk is a relation between steps over one supply and steps over another, together with
the reasons why it holds of whatever is put together as a walk is (`WalkRelation`). There are four:
steps that leave the tokens alone, one step after another, a visit at which no key is drawn, and a
component that is entered. `WalkRelation.holds_walk` is the induction, once for all of them.

The lists of visits keep count of what a step goes through. A step without visits is `Quiet`: it
does the same over any tokens and reports no component.
-/

set_option autoImplicit false

namespace Blueprint

/-- The place and the key of a component that is reported. -/
def Event.component? : Event → Option (Path × String)
  | .component key path => some (path, key)
  | _ => none

namespace Extraction

variable {σ τ α β : Type}

/-! ## Steps that leave the tokens alone -/

namespace State

/-- The state with other tokens. -/
def withKeys (state : State σ) (keys : τ) : State τ :=
  ⟨keys, state.table, state.edges, state.events⟩

/-- The components that have been reported, each at its place with its key. -/
def named (state : State σ) : List (Path × String) := state.events.filterMap Event.component?

@[simp] theorem withKeys_table (state : State σ) (keys : τ) :
    (state.withKeys keys).table = state.table := rfl

theorem named_reported (state : State σ) (event : Event) :
    (state.reported event).named = state.named ++ event.component?.toList := by
  rw [named, reported, List.filterMap_append, List.filterMap_eq_flatMap_toList _ [event],
    List.flatMap_singleton]
  rfl

end State

/-- A step over two supplies of tokens that does the same over both, and draws nothing. -/
structure Uniform (f : Step σ α) (g : Step τ α) : Prop where
  same : ∀ state keys, g (state.withKeys keys) = ((f state).1, (f state).2.withKeys keys)
  keys : ∀ state, (f state).2.keys = state.keys

/-- Moreover, the step reports no component. -/
structure Quiet (f : Step σ α) (g : Step τ α) : Prop extends Uniform f g where
  named : ∀ state, (f state).2.named = state.named

section

variable {f : Step σ α} {g : Step τ α} {f' : α → Step σ β} {g' : α → Step τ β}

theorem Uniform.bind (h : Uniform f g) (h' : ∀ value, Uniform (f' value) (g' value)) :
    Uniform (f >>= f') (g >>= g') where
  same state keys := by
    rw [Step.bind_apply, Step.bind_apply, h.same]
    rcases f state with ⟨_ | value, middle⟩
    · rfl
    · exact (h' value).same middle keys
  keys state := by
    have hfirst := h.keys state
    rw [Step.bind_apply]
    rcases hstep : f state with ⟨_ | value, middle⟩ <;> rw [hstep] at hfirst
    · exact hfirst
    · exact ((h' value).keys middle).trans hfirst

theorem Quiet.bind (h : Quiet f g) (h' : ∀ value, Quiet (f' value) (g' value)) :
    Quiet (f >>= f') (g >>= g') where
  toUniform := h.toUniform.bind fun value => (h' value).toUniform
  named state := by
    have hfirst := h.named state
    rw [Step.bind_apply]
    rcases hstep : f state with ⟨_ | value, middle⟩ <;> rw [hstep] at hfirst
    · exact hfirst
    · exact ((h' value).named middle).trans hfirst

end

theorem quiet_ofExcept (outcome : Except Error α) :
    Quiet (Step.ofExcept outcome : Step σ α) (Step.ofExcept outcome : Step τ α) :=
  ⟨⟨fun _ _ => rfl, fun _ => rfl⟩, fun _ => rfl⟩

theorem quiet_pure (value : α) : Quiet (pure value : Step σ α) (pure value : Step τ α) :=
  quiet_ofExcept (.ok value)

theorem quiet_refuse (place : Path) (reason : Reason) :
    Quiet (refuse place reason : Step σ α) (refuse place reason : Step τ α) :=
  quiet_ofExcept _

theorem uniform_report (event : Event) :
    Uniform (report event : Step σ Unit) (report event : Step τ Unit) :=
  ⟨fun _ _ => rfl, fun _ => rfl⟩

theorem quiet_report {event : Event} (h : event.component? = none) :
    Quiet (report event : Step σ Unit) (report event : Step τ Unit) where
  toUniform := uniform_report event
  named state := by
    have hnamed := state.named_reported event
    rw [h, Option.toList_none, List.append_nil] at hnamed
    exact hnamed

theorem quiet_register (node : Node) :
    Quiet (register node : Step σ Unit) (register node : Step τ Unit) := by
  refine ⟨⟨fun state keys => ?_, fun state => ?_⟩, fun state => ?_⟩
  · unfold register
    rw [State.withKeys_table]
    cases state.table.insert node <;> rfl
  · unfold register
    cases state.table.insert node <;> rfl
  · unfold register
    cases state.table.insert node <;> rfl

theorem quiet_fill (key : String) (params : List (String × Value)) (methodArgs : List Value) :
    Quiet (fill key params methodArgs : Step σ Unit) (fill key params methodArgs : Step τ Unit) :=
  ⟨⟨fun _ _ => rfl, fun _ => rfl⟩, fun _ => rfl⟩

theorem quiet_attach (owner : Owner) (value : Value) :
    Quiet (attach owner value : Step σ Unit) (attach owner value : Step τ Unit) := by
  cases owner with
  | component key name => exact quiet_pure ()
  | entry key collecting =>
    cases collecting with
    | true => exact ⟨⟨fun _ _ => rfl, fun _ => rfl⟩, fun _ => rfl⟩
    | false => exact quiet_pure ()

theorem quiet_link (dependency : String) (owner : Owner) (path : Path) :
    Quiet (link dependency owner path : Step σ Unit)
      (link dependency owner path : Step τ Unit) := by
  unfold link
  split
  · exact quiet_refuse _ _
  · refine (quiet_report ?_).bind fun _ => ⟨⟨fun _ _ => rfl, fun _ => rfl⟩, fun _ => rfl⟩
    cases owner <;> rfl

/-- What is done next may depend on the state, as long as it does not depend on the tokens. -/
theorem quiet_current {f : State σ → Step σ α} {g : State τ → Step τ α}
    (h : ∀ state, ∃ g', Quiet (f state) g' ∧ ∀ keys, g (state.withKeys keys) = g') :
    Quiet (current >>= f) (current >>= g) := by
  refine ⟨⟨fun state keys => ?_, fun state => ?_⟩, fun state => ?_⟩
  · obtain ⟨g', hquiet, hsame⟩ := h state
    show g (state.withKeys keys) (state.withKeys keys) = _
    rw [hsame]
    exact hquiet.same state keys
  · obtain ⟨g', hquiet, -⟩ := h state
    exact hquiet.keys state
  · obtain ⟨g', hquiet, -⟩ := h state
    exact hquiet.named state

theorem quiet_ownerOrEntry (owner : Option Owner) (path : Path) :
    Quiet (ownerOrEntry owner path : Step σ Owner) (ownerOrEntry owner path : Step τ Owner) := by
  cases owner with
  | some owner => exact quiet_pure owner
  | none =>
    unfold ownerOrEntry
    cases path.first? with
    | none => exact quiet_refuse _ _
    | some segment =>
      refine quiet_current fun state => ?_
      cases hfind : state.table.find? segment.text with
      | none =>
        refine ⟨_, ?_, fun keys => by simp only [State.withKeys_table, hfind]; rfl⟩
        exact (quiet_register _).bind fun _ => (quiet_report rfl).bind fun _ => quiet_pure _
      | some node =>
        cases node with
        | entry entry =>
          exact ⟨_, quiet_pure _, fun keys => by simp only [State.withKeys_table, hfind]⟩
        | component stored =>
          exact ⟨_, quiet_ofExcept _, fun keys => by simp only [State.withKeys_table, hfind]; rfl⟩

theorem quiet_mapM {f : β → Step σ α} {g : β → Step τ α} (h : ∀ item, Quiet (f item) (g item))
    (items : List β) : Quiet (items.mapM f) (items.mapM g) := by
  induction items with
  | nil =>
    rw [List.mapM_nil, List.mapM_nil]
    exact quiet_pure []
  | cons item rest ih =>
    rw [List.mapM_cons, List.mapM_cons]
    exact (h item).bind fun _ => ih.bind fun _ => quiet_pure _

theorem quiet_resolveEdge (names : List (String × String)) (edge : Edge) :
    Quiet (resolveEdge names edge : Step σ Edge) (resolveEdge names edge : Step τ Edge) := by
  unfold resolveEdge
  cases names.lookup edge.dependency with
  | none => exact quiet_pure edge
  | some key =>
    dsimp only
    split
    · exact quiet_refuse _ _
    · exact (quiet_report rfl).bind fun _ => quiet_pure _

theorem quiet_resolveFieldNames :
    Quiet (resolveFieldNames : Step σ Unit) (resolveFieldNames : Step τ Unit) := by
  refine quiet_current fun before =>
    ⟨do
      let edges ← before.edges.mapM (resolveEdge (fieldNames before.table))
      update fun state =>
        { state with
          edges
          table := state.table.edit (Node.rename (resolve (fieldNames before.table)))
            (Node.key_rename _) }, ?_, fun _ => rfl⟩
  exact (quiet_mapM (quiet_resolveEdge _) _).bind fun _ =>
    ⟨⟨fun _ _ => rfl, fun _ => rfl⟩, fun _ => rfl⟩

/-! ## Entering a component -/

/-- A component that has been reported becomes a dependency of its owner. -/
def own (key : String) (path : Path) (owner : Option Owner) : Step σ String := do
  if let some owner := owner then
    link key owner path
    attach owner (.reference key)
  return key

/-- A component with its key gets into the table. -/
def announce (component : Component) (owner : Option Owner) : Step σ String := do
  register (.component component)
  report (.component component.key component.path)
  own component.key component.path owner

theorem enter_eq (source : KeySource σ) (members : List (String × Json)) (path : Path)
    (owner : Option Owner) :
    enter source members path owner =
      Step.ofExcept (declaration members path) >>= fun declared =>
        drawKey source declared.explicitKey (declared.callable.map Callable.name) path >>=
          fun key => announce (declared.component key path) owner := rfl

theorem quiet_own (key : String) (path : Path) (owner : Option Owner) :
    Quiet (own key path owner : Step σ String) (own key path owner : Step τ String) := by
  cases owner with
  | none => exact quiet_pure key
  | some owner =>
    exact (quiet_link key owner path).bind fun _ =>
      (quiet_attach owner (.reference key)).bind fun _ => quiet_pure key

theorem uniform_announce (component : Component) (owner : Option Owner) :
    Uniform (announce component owner : Step σ String) (announce component owner : Step τ String) :=
  (quiet_register _).toUniform.bind fun _ =>
    (uniform_report _).bind fun _ => (quiet_own _ _ _).toUniform

/-! ## Relations between walks -/

/-- A relation between steps over two supplies of tokens, for the visits that both go through, with
what it takes to hold of walks. -/
structure WalkRelation (source : KeySource σ) (reader : KeySource τ) where
  Holds : {α : Type} → List Visit → Step σ α → Step τ α → Prop
  quiet {α : Type} {f : Step σ α} {g : Step τ α} (h : Quiet f g) : Holds [] f g
  next {α β : Type} {first later : List Visit} {f : Step σ α} {g : Step τ α} {f' : α → Step σ β}
    {g' : α → Step τ β} (h : Holds first f g) (h' : ∀ value, Holds later (f' value) (g' value)) :
    Holds (first ++ later) (f >>= f') (g >>= g')
  /-- No key is drawn at a part that is no component. -/
  skip {α : Type} {visit : Visit} {rest : List Visit} {f : Step σ α} {g : Step τ α}
    (hother : ∀ members, visit.part.role ≠ .component members) (h : Holds rest f g) :
    Holds ([visit] ++ rest) f g
  enter {members : List (String × Json)} {path : Path} {owner : Option Owner}
    {around : List Enclosure} (shape : Json.objectShape members = .component) :
    Holds [⟨path, .object members, around⟩] (enter source members path owner)
      (enter reader members path owner)

namespace WalkRelation

variable {source : KeySource σ} {reader : KeySource τ} (relation : WalkRelation source reader)

section

variable {visits : List Visit} {f : Step σ α} {g : Step τ α} {f' : α → Step σ β}
  {g' : α → Step τ β}

/-- Quiet steps before what goes through the visits. -/
theorem after_quiet (h : Quiet f g) (h' : ∀ value, relation.Holds visits (f' value) (g' value)) :
    relation.Holds visits (f >>= f') (g >>= g') :=
  relation.next (relation.quiet h) h'

/-- Quiet steps after what goes through the visits. -/
theorem before_quiet (h : relation.Holds visits f g) (h' : ∀ value, Quiet (f' value) (g' value)) :
    relation.Holds visits (f >>= f') (g >>= g') := by
  have hnext := relation.next h fun value => relation.quiet (h' value)
  rwa [List.append_nil] at hnext

end

/-- The relation holds of the walks of a document, wherever it stands. -/
def Covers (document : Json) : Prop :=
  ∀ path owner around, relation.Holds ((Part.value document).visits path around)
    (walk source document path owner) (walk reader document path owner)

theorem holds_items {items : List Json} (hitems : ∀ item ∈ items, relation.Covers item)
    (path : Path) (position : Nat) (owner : Option Owner) (around : List Enclosure) :
    relation.Holds ((Part.items items position).visits path around)
      (walkItems source items path position owner)
      (walkItems reader items path position owner) := by
  induction items generalizing position with
  | nil => exact relation.quiet (quiet_pure [])
  | cons item rest ih =>
    obtain ⟨hitem, hrest⟩ := List.forall_mem_cons.mp hitems
    rw [visits_itemsCons, walkItems, walkItems]
    refine relation.next (hitem (path.index position) owner around) fun value => ?_
    exact relation.before_quiet (ih hrest (position + 1)) fun values => quiet_pure _

theorem holds_members {members : List (String × Json)}
    (hmembers : ∀ name member, (name, member) ∈ members → relation.Covers member)
    (path : Path) (owner : Option Owner) (around : List Enclosure) :
    relation.Holds ((Part.members members).visits path around)
      (walkMembers source members path owner) (walkMembers reader members path owner) := by
  induction members with
  | nil => exact relation.quiet (quiet_pure [])
  | cons head rest ih =>
    obtain ⟨name, member⟩ := head
    have hmember := hmembers name member List.mem_cons_self
    have hrest := ih fun name member hmem => hmembers name member (List.mem_cons_of_mem _ hmem)
    rw [visits_membersCons, walkMembers, walkMembers]
    refine relation.next (hmember (path.key name) owner around) fun value => ?_
    exact relation.before_quiet hrest fun entries => quiet_pure _

theorem holds_block {members : List (String × Json)}
    (hmembers : ∀ name member, (name, member) ∈ members → relation.Covers member)
    (hinner : ∀ name inner, (name, .object inner) ∈ members →
      ∀ argument value, (argument, value) ∈ inner → relation.Covers value)
    (path : Path) (owner : Option Owner) (around : List Enclosure) :
    relation.Holds ((Part.block members).visits path around)
      (walkBlock source members path owner) (walkBlock reader members path owner) := by
  induction members with
  | nil => exact relation.quiet (quiet_pure [])
  | cons head rest ih =>
    obtain ⟨name, member⟩ := head
    have hrest := ih (fun name member hmem => hmembers name member (List.mem_cons_of_mem _ hmem))
      fun name inner hmem => hinner name inner (List.mem_cons_of_mem _ hmem)
    by_cases hobject : name = Field.params ∧ ∃ params, member = .object params
    · obtain ⟨rfl, inner, rfl⟩ := hobject
      have hfirst := relation.holds_members (hinner _ inner List.mem_cons_self)
        (path.key Field.params) owner around
      rw [visits_blockParams, walkBlock_params, walkBlock_params]
      refine relation.next hfirst fun arguments => ?_
      exact relation.before_quiet hrest fun entries => quiet_pure _
    · have plain : name = Field.params → ∀ inner, member ≠ .object inner :=
        fun hname inner hmember => hobject ⟨hname, inner, hmember⟩
      have hmember := hmembers name member List.mem_cons_self
      rw [visits_blockCons _ plain, walkBlock_cons plain, walkBlock_cons plain]
      refine relation.next (hmember (path.key name) owner around) fun value => ?_
      exact relation.before_quiet hrest fun entries => quiet_pure _

section

variable {members : List (String × Json)}
  (hbelow : ∀ part, Json.Below part (.object members) → relation.Covers part)

include hbelow

theorem holds_params (path : Path) (owner : Owner) (around : List Enclosure) :
    relation.Holds ((Part.params members).visits path around)
      (walkParams source members path owner) (walkParams reader members path owner) := by
  rw [walkParams_eq, walkParams_eq, Part.visits, Visit.ofParams]
  cases hget : Json.get? Field.params members with
  | none => exact relation.quiet (quiet_pure [])
  | some params =>
    cases params with
    | object params =>
      exact relation.holds_members
        (fun name member hmem => hbelow member (.of_get? hget hmem)) _ _ _
    | null => exact relation.quiet (quiet_pure [])
    | _ => exact relation.quiet (quiet_refuse _ _)

theorem holds_methodArgs (path : Path) (owner : Owner) (around : List Enclosure) :
    relation.Holds ((Part.methodArgs members).visits path around)
      (walkMethodArgs source members path owner) (walkMethodArgs reader members path owner) := by
  rw [walkMethodArgs_eq, walkMethodArgs_eq, Part.visits, Visit.ofMethodArgs]
  cases hget : Json.get? Field.methodArgs members with
  | none => exact relation.quiet (quiet_pure [])
  | some argument =>
    cases argument with
    | array items =>
      exact relation.holds_items
        (fun item hmem => hbelow item (.trans (.item hmem) (.member (Json.mem_of_get? hget))))
        _ _ _ _
    | _ => exact relation.quiet (quiet_refuse _ _)

theorem covers_object : relation.Covers (.object members) := by
  intro path owner around
  rw [walk, walk]
  cases hshape : Json.objectShape members with
  | component =>
    rw [visits_component hshape]
    refine relation.next (relation.enter hshape) fun key => ?_
    refine relation.next (relation.holds_params hbelow _ _ _) fun params => ?_
    refine relation.before_quiet (relation.holds_methodArgs hbelow _ _ _) fun methodArgs => ?_
    exact (quiet_fill _ _ _).bind fun _ => quiet_pure _
  | call =>
    rw [visits_call hshape]
    refine relation.skip (fun members' => by simp [Json.role, hshape]) ?_
    -- the owner is found before the arguments are walked, and gets the call after them
    refine relation.after_quiet (quiet_ofExcept _) fun found => ?_
    refine relation.after_quiet (quiet_ownerOrEntry _ _) fun owner => ?_
    refine relation.after_quiet (quiet_link _ _ _) fun _ => ?_
    refine relation.before_quiet (relation.holds_params hbelow _ _ _) fun params => ?_
    exact (quiet_attach _ _).bind fun _ => quiet_pure _
  | methodBlock =>
    rw [visits_methodBlock hshape]
    refine relation.skip (fun members' => by simp [Json.role, hshape]) ?_
    refine relation.before_quiet (relation.holds_block ?_ ?_ _ _ _) fun entries => quiet_pure _
    · exact fun name member hmem => hbelow member (.member hmem)
    · exact fun name inner hmem argument value hvalue =>
        hbelow value (.trans (.member hvalue) (.member hmem))
  | mapping =>
    rw [visits_mapping hshape]
    refine relation.skip (fun members' => by simp [Json.role, hshape]) ?_
    refine relation.before_quiet (relation.holds_members ?_ _ _ _) fun entries => quiet_pure _
    exact fun name member hmem => hbelow member (.member hmem)

end

theorem covers_leaf {document : Json} (harray : ∀ items, document ≠ .array items)
    (hobject : ∀ members, document ≠ .object members)
    (hquiet : ∀ path owner, Quiet (walk source document path owner)
      (walk reader document path owner)) : relation.Covers document := by
  intro path owner around
  rw [visits_leaf harray hobject]
  show relation.Holds ([⟨path, document, around⟩] ++ []) _ _
  refine relation.skip (fun members => ?_) (relation.quiet (hquiet path owner))
  cases document with
  | object members => exact absurd rfl (hobject members)
  | string text =>
    rw [Json.role]
    split <;> simp
  | _ => simp [Json.role]

theorem quiet_walk_string (text : String) (path : Path) (owner : Option Owner) :
    Quiet (walk source (.string text) path owner) (walk reader (.string text) path owner) := by
  rw [walk, walk]
  cases Marker.find? text with
  | none => exact quiet_pure _
  | some marker =>
    cases marker with
    | malformed inner => exact quiet_refuse _ _
    | key key =>
      refine (quiet_ownerOrEntry _ _).bind fun owner => ?_
      refine (quiet_link _ _ _).bind fun _ => ?_
      exact (quiet_attach _ _).bind fun _ => quiet_pure _

/-- A relation that is closed under what a walk does holds of every walk. -/
theorem holds_walk (document : Json) : relation.Covers document := by
  have hbelow : ∀ part, Json.Below part document → relation.Covers part :=
    fun part _ => holds_walk part
  cases document with
  | array items =>
    intro path owner around
    rw [visits_array, walk, walk]
    refine relation.skip (fun members => by simp [Json.role]) ?_
    refine relation.before_quiet (relation.holds_items ?_ _ _ _ _) fun values => quiet_pure _
    exact fun item hmem => hbelow item (.item hmem)
  | object members => exact relation.covers_object hbelow
  | string text => exact relation.covers_leaf (by simp) (by simp) (quiet_walk_string text)
  | _ =>
    refine relation.covers_leaf (by simp) (by simp) fun path owner => ?_
    rw [walk, walk]
    exact quiet_pure _
termination_by sizeOf document
decreasing_by exact Json.Below.sizeOf_lt ‹_›

/-- A relation that is closed under what a walk does holds of every extraction. -/
theorem holds_steps (document : Json) :
    relation.Holds document.visits (steps source document) (steps reader document) := by
  refine relation.before_quiet (relation.holds_walk document Path.root none []) fun _ => ?_
  refine quiet_resolveFieldNames.bind fun _ => ?_
  exact quiet_current fun state => ⟨_, quiet_report rfl, fun _ => rfl⟩

end WalkRelation

end Extraction

end Blueprint
