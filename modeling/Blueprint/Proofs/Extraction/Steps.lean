import Blueprint.Extraction.Walk
import Blueprint.Proofs.Graph.Table

/-!
# `Blueprint/Proofs/Extraction/Steps.lean` — what a step of an extraction can do

Each step is inverted once: from a run that succeeds, what held before it and what the state is
after it. A step that only changes the state gets a name for the change (`linked`, `attached`,
`filled`), with one equation for each field it may touch, so that later proofs neither run the
steps nor look into the `do` blocks.

The two steps that may put a node into the table say so through the table's `nodes`, because a
table carries a proof and two equal tables need not be built alike.
-/

set_option autoImplicit false

namespace Blueprint.Extraction

variable {σ : Type}

/-! ## Sequencing -/

namespace Step

variable {α β : Type}

theorem bind_eq_ok_iff {step : Step σ α} {next : α → Step σ β} {before after : State σ}
    {result : β} :
    (step >>= next) before = (.ok result, after) ↔
      ∃ value middle, step before = (.ok value, middle) ∧
        next value middle = (.ok result, after) := by
  rw [bind_apply]
  constructor
  · intro h
    split at h
    · rename_i value middle hstep
      exact ⟨value, middle, hstep, h⟩
    · exact absurd h (by simp)
  · rintro ⟨value, middle, hstep, hnext⟩
    rw [hstep]
    exact hnext

theorem pure_eq_ok_iff {value result : α} {before after : State σ} :
    (pure value : Step σ α) before = (.ok result, after) ↔ value = result ∧ before = after := by
  rw [pure_apply]
  simp

theorem lift_eq_ok_iff {outcome : Except Error α} {result : α} {before after : State σ} :
    (liftM outcome : Step σ α) before = (.ok result, after) ↔
      outcome = .ok result ∧ before = after := by
  show (outcome, before) = (.ok result, after) ↔ _
  rw [Prod.mk.injEq]

instance : LawfulMonad (Step σ) := LawfulMonad.mk' _
  (by
    intro α step
    funext state
    show (step >>= fun value => pure value) state = step state
    rcases h : step state with ⟨_ | value, middle⟩
    · rw [bind_of_error h]
    · rw [bind_of_ok h, pure_apply])
  (fun _ _ => rfl)
  (by
    intro α β γ step next last
    funext state
    show ((step >>= next) >>= last) state = (step >>= fun value => next value >>= last) state
    rcases h : step state with ⟨_ | value, middle⟩
    · rw [bind_of_error (bind_of_error h), bind_of_error h]
    · rw [bind_apply, bind_of_ok h, bind_of_ok h, bind_apply])

end Step

theorem refuse_ne_ok {α : Type} {place : Path} {reason : Reason} {result : α}
    {before after : State σ} : (refuse place reason : Step σ α) before ≠ (.ok result, after) := by
  intro h
  exact absurd h (by simp [refuse, fail])

/-! ## Changes of the state -/

namespace State

/-- The state after an event was reported. -/
def reported (state : State σ) (event : Event) : State σ :=
  { state with events := state.events ++ [event] }

/-- The state after it was recorded that the owner needs a node. -/
def linked (state : State σ) (dependency : String) (owner : Owner) (path : Path) : State σ :=
  { state with
    edges := state.edges ++ [⟨dependency, owner.key, path⟩]
    events := state.events ++ [linkEvent dependency owner path] }

/-- The state after a value was offered to the results of its owner. -/
def attached (state : State σ) (owner : Owner) (value : Value) : State σ :=
  match owner with
  | .entry key true =>
    { state with table := state.table.editAt key (Node.collect value) (Node.key_collect _) }
  | _ => state

/-- The state after a component was given its arguments. -/
def filled (state : State σ) (key : String) (params : List (String × Value))
    (methodArgs : List Value) : State σ :=
  { state with table := state.table.editAt key (Node.fill params methodArgs) (Node.key_fill _ _) }

variable (state : State σ) (dependency key : String) (owner : Owner) (path : Path) (value : Value)
  (params : List (String × Value)) (methodArgs : List Value)

@[simp] theorem reported_table (event : Event) : (state.reported event).table = state.table := rfl

@[simp] theorem reported_keys (event : Event) : (state.reported event).keys = state.keys := rfl

@[simp] theorem reported_edges (event : Event) : (state.reported event).edges = state.edges := rfl

@[simp] theorem linked_table : (state.linked dependency owner path).table = state.table := rfl

@[simp] theorem linked_keys : (state.linked dependency owner path).keys = state.keys := rfl

@[simp] theorem linked_edges : (state.linked dependency owner path).edges =
    state.edges ++ [⟨dependency, owner.key, path⟩] := rfl

@[simp] theorem attached_edges : (state.attached owner value).edges = state.edges := by
  unfold attached
  split <;> rfl

@[simp] theorem attached_keys : (state.attached owner value).keys = state.keys := by
  unfold attached
  split <;> rfl

@[simp] theorem attached_table_keys :
    (state.attached owner value).table.keys = state.table.keys := by
  unfold attached
  split
  · exact Table.keys_editAt (Node.key_collect _) _ _
  · rfl

@[simp] theorem filled_edges : (state.filled key params methodArgs).edges = state.edges := rfl

@[simp] theorem filled_keys : (state.filled key params methodArgs).keys = state.keys := rfl

@[simp] theorem filled_table_keys :
    (state.filled key params methodArgs).table.keys = state.table.keys :=
  Table.keys_editAt (Node.key_fill _ _) _ _

end State

/-! ## Steps -/

variable {before after : State σ}

theorem link_eq_ok_iff {dependency : String} {owner : Owner} {path : Path} {u : Unit} :
    link dependency owner path before = (.ok u, after) ↔
      dependency ≠ owner.key ∧ after = before.linked dependency owner path := by
  unfold link
  split
  · rename_i hself
    exact ⟨fun h => absurd h refuse_ne_ok, fun h => absurd hself h.1⟩
  · rename_i hother
    constructor
    · intro h
      cases h
      exact ⟨hother, rfl⟩
    · rintro ⟨-, rfl⟩
      rfl

theorem attach_eq (owner : Owner) (value : Value) :
    attach owner value before = (.ok (), before.attached owner value) := by
  cases owner with
  | component key name => rfl
  | entry key collecting => cases collecting <;> rfl

theorem fill_eq (key : String) (params : List (String × Value)) (methodArgs : List Value) :
    fill key params methodArgs before = (.ok (), before.filled key params methodArgs) := rfl

theorem report_eq (event : Event) : report event before = (.ok (), before.reported event) := rfl

theorem drawKey_eq_ok_iff {source : KeySource σ} {explicit className : Option String} {path : Path}
    {key : String} :
    drawKey source explicit className path before = (.ok key, after) ↔
      ∃ keys, deriveKey source explicit className path before.keys = (key, keys) ∧
        after = { before with keys } := by
  unfold drawKey
  rcases deriveKey source explicit className path before.keys with ⟨drawn, keys⟩
  constructor
  · intro h
    cases h
    exact ⟨keys, rfl, rfl⟩
  · rintro ⟨_, h, rfl⟩
    cases h
    rfl

theorem register_eq_ok_iff {node : Node} {u : Unit} :
    register node before = (.ok u, after) ↔
      ∃ table, before.table.insert node = .ok table ∧ after = { before with table } := by
  unfold register
  cases hinsert : before.table.insert node with
  | error e => exact ⟨fun h => absurd h (by simp), fun ⟨_, h, _⟩ => absurd h (by simp)⟩
  | ok table =>
    constructor
    · intro h
      cases h
      exact ⟨table, rfl, rfl⟩
    · rintro ⟨_, h, rfl⟩
      cases h
      rfl

/-- How the owner of a part is found. -/
inductive Opened : Option Owner → Path → State σ → Owner → State σ → Prop
  /-- The part has an owner already. -/
  | given (owner : Owner) (path : Path) (state : State σ) :
      Opened (some owner) path state owner state
  /-- The entry of the top-level field was opened before. -/
  | known {path : Path} {segment : Segment} {state : State σ} {entry : Entry}
      (first : path.first? = some segment)
      (found : state.table.find? segment.text = some (.entry entry)) :
      Opened none path state (.entry segment.text true) state
  /-- The entry of the top-level field is opened now. -/
  | fresh {path : Path} {segment : Segment} {state : State σ} {table : Table}
      (first : path.first? = some segment)
      (inserted : state.table.insert (.entry ⟨segment.text, []⟩) = .ok table) :
      Opened none path state (.entry segment.text true)
        ({ state with table }.reported (.entry segment.text))

theorem Opened.of_ownerOrEntry {owner : Option Owner} {path : Path} {found : Owner}
    (h : ownerOrEntry owner path before = (.ok found, after)) :
    Opened owner path before found after := by
  unfold ownerOrEntry at h
  cases owner with
  | some owner =>
    obtain ⟨rfl, rfl⟩ := Step.pure_eq_ok_iff.mp h
    exact .given owner path before
  | none =>
    cases hfirst : path.first? with
    | none => rw [hfirst] at h; exact absurd h refuse_ne_ok
    | some segment =>
      simp only [hfirst] at h
      rw [Step.bind_of_ok (show current before = (.ok before, before) from rfl)] at h
      cases hfind : before.table.find? segment.text with
      | none =>
        simp only [hfind] at h
        obtain ⟨_, middle, hregister, hrest⟩ := Step.bind_eq_ok_iff.mp h
        obtain ⟨table, hinsert, rfl⟩ := register_eq_ok_iff.mp hregister
        cases hrest
        exact .fresh hfirst hinsert
      | some node =>
        cases node with
        | component stored => simp only [hfind] at h; exact absurd h (by simp [fail])
        | entry entry =>
          simp only [hfind] at h
          obtain ⟨rfl, rfl⟩ := Step.pure_eq_ok_iff.mp h
          exact .known hfirst hfind

theorem Opened.ownerOrEntry_eq {owner : Option Owner} {path : Path} {found : Owner}
    (h : Opened owner path before found after) :
    ownerOrEntry owner path before = (.ok found, after) := by
  cases h with
  | given => rfl
  | known first hfound =>
    simp only [ownerOrEntry, first]
    rw [Step.bind_of_ok (show current before = (.ok before, before) from rfl)]
    simp only [hfound]
    rfl
  | @fresh _ segment _ _ first inserted =>
    have hfind : before.table.find? segment.text = none :=
      Table.find?_eq_none_iff.mpr (Table.insert_eq_ok_iff.mp inserted).1
    simp only [ownerOrEntry, first]
    rw [Step.bind_of_ok (show current before = (.ok before, before) from rfl)]
    simp only [hfind]
    rw [Step.bind_of_ok ((register_eq_ok_iff (u := ())).mpr ⟨_, inserted, rfl⟩)]
    rfl

/-- The component that a declaration announces, without its arguments. -/
def Declaration.component (declared : Declaration) (key : String) (path : Path) : Component where
  key := key
  module := declared.module
  callable := declared.callable
  params := []
  methodArgs := []
  name := path.lastText
  path := path

/-- How a component gets into the table: under a fresh key, and as a dependency of its owner if it
has one. -/
inductive Entered (source : KeySource σ) (members : List (String × Json)) (path : Path) :
    Option Owner → State σ → String → State σ → Prop
  | alone {state : State σ} {declared : Declaration} {key : String} {keys : σ} {table : Table}
      (declares : declaration members path = .ok declared)
      (derives : deriveKey source declared.explicitKey (declared.callable.map Callable.name) path
        state.keys = (key, keys))
      (inserted : state.table.insert (.component (declared.component key path)) = .ok table) :
      Entered source members path none state key
        ({ state with keys, table }.reported (.component key path))
  | owned {state : State σ} {declared : Declaration} {key : String} {keys : σ} {table : Table}
      {owner : Owner}
      (declares : declaration members path = .ok declared)
      (derives : deriveKey source declared.explicitKey (declared.callable.map Callable.name) path
        state.keys = (key, keys))
      (inserted : state.table.insert (.component (declared.component key path)) = .ok table)
      (other : key ≠ owner.key) :
      Entered source members path (some owner) state key
        ((({ state with keys, table }.reported (.component key path)).linked key owner path).attached
          owner (.reference key))

theorem enter_eq_ok_iff {source : KeySource σ} {members : List (String × Json)} {path : Path}
    {owner : Option Owner} {key : String} :
    enter source members path owner before = (.ok key, after) ↔
      Entered source members path owner before key after := by
  unfold enter
  constructor
  · intro h
    obtain ⟨declared, _, hlift, h⟩ := Step.bind_eq_ok_iff.mp h
    obtain ⟨hdeclared, rfl⟩ := Step.lift_eq_ok_iff.mp hlift
    obtain ⟨drawn, _, hdrawn, h⟩ := Step.bind_eq_ok_iff.mp h
    obtain ⟨keys, hderived, rfl⟩ := drawKey_eq_ok_iff.mp hdrawn
    obtain ⟨_, _, hregister, h⟩ := Step.bind_eq_ok_iff.mp h
    obtain ⟨table, hinsert, rfl⟩ := register_eq_ok_iff.mp hregister
    rw [Step.bind_of_ok (report_eq _)] at h
    cases owner with
    | none =>
      obtain ⟨rfl, rfl⟩ := Step.pure_eq_ok_iff.mp h
      exact .alone hdeclared hderived hinsert
    | some owner =>
      obtain ⟨_, _, hlink, h⟩ := Step.bind_eq_ok_iff.mp h
      obtain ⟨hother, rfl⟩ := link_eq_ok_iff.mp hlink
      rw [Step.bind_of_ok (attach_eq _ _)] at h
      obtain ⟨rfl, rfl⟩ := Step.pure_eq_ok_iff.mp h
      exact .owned hdeclared hderived hinsert hother
  · intro h
    cases h with
    | alone declares derives inserted =>
      refine Step.bind_eq_ok_iff.mpr ⟨_, _, Step.lift_eq_ok_iff.mpr ⟨declares, rfl⟩, ?_⟩
      refine Step.bind_eq_ok_iff.mpr ⟨_, _, drawKey_eq_ok_iff.mpr ⟨_, derives, rfl⟩, ?_⟩
      exact Step.bind_eq_ok_iff.mpr ⟨(), _, register_eq_ok_iff.mpr ⟨_, inserted, rfl⟩, rfl⟩
    | owned declares derives inserted other =>
      refine Step.bind_eq_ok_iff.mpr ⟨_, _, Step.lift_eq_ok_iff.mpr ⟨declares, rfl⟩, ?_⟩
      refine Step.bind_eq_ok_iff.mpr ⟨_, _, drawKey_eq_ok_iff.mpr ⟨_, derives, rfl⟩, ?_⟩
      refine Step.bind_eq_ok_iff.mpr ⟨(), _, register_eq_ok_iff.mpr ⟨_, inserted, rfl⟩, ?_⟩
      refine Step.bind_eq_ok_iff.mpr ⟨(), _, report_eq _, ?_⟩
      refine Step.bind_eq_ok_iff.mpr ⟨(), _, link_eq_ok_iff.mpr ⟨other, rfl⟩, ?_⟩
      exact Step.bind_eq_ok_iff.mpr ⟨(), _, attach_eq _ _, rfl⟩

end Blueprint.Extraction
