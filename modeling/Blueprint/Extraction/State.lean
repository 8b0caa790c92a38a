import Blueprint.Event
import Blueprint.Key
import Blueprint.Graph.Basic

/-!
# `Blueprint/Extraction/State.lean` — the state of an extraction

Taking a document apart fills a table, a list of edges and a list of events, and draws tokens. The
state outlives an error: tokens that were drawn stay drawn, and events that were reported stay
reported.

Parts of a document belong to an owner, the innermost component around them, or else the entry of
their top-level field.
-/

set_option autoImplicit false

namespace Blueprint.Extraction

/-- The node to which the dependencies in a part of a document belong. -/
inductive Owner where
  /-- The component around the part. -/
  | component (key name : String)
  /-- The entry of the top-level field. Inside a call nothing is collected, since the call itself
  is the result. -/
  | entry (key : String) (collecting : Bool)
deriving DecidableEq, Repr

/-- The key of an owner. -/
def Owner.key : Owner → String
  | .component key _ => key
  | .entry key _ => key

/-- The owner of the arguments of a call. -/
def Owner.insideCall : Owner → Owner
  | .component key name => .component key name
  | .entry key _ => .entry key false

/-- What an extraction has done so far. -/
structure State (σ : Type) where
  keys : σ
  table : Table
  edges : List Edge
  events : List Event

/-- A step of an extraction: from the state before it to a result or an error, and in either case
the state after it. -/
def Step (σ α : Type) : Type := State σ → Except Error α × State σ

variable {σ : Type}

namespace Step

variable {α β : Type}

/-- One step after another; an error ends both. -/
def andThen (step : Step σ α) (next : α → Step σ β) : Step σ β := fun state =>
  match step state with
  | (.ok result, state) => next result state
  | (.error e, state) => (.error e, state)

instance : Monad (Step σ) where
  pure result := fun state => (.ok result, state)
  bind := andThen

/-- A result or an error that has nothing to do with the state. -/
def ofExcept (result : Except Error α) : Step σ α := fun state => (result, state)

instance : MonadLift (Except Error) (Step σ) where
  monadLift := ofExcept

@[simp] theorem pure_apply (result : α) (state : State σ) :
    (pure result : Step σ α) state = (.ok result, state) := rfl

theorem bind_apply (step : Step σ α) (next : α → Step σ β) (state : State σ) :
    (step >>= next) state =
      match step state with
      | (.ok result, state) => next result state
      | (.error e, state) => (.error e, state) := rfl

theorem bind_of_ok {step : Step σ α} {next : α → Step σ β} {before after : State σ} {result : α}
    (h : step before = (.ok result, after)) : (step >>= next) before = next result after := by
  rw [bind_apply, h]

theorem bind_of_error {step : Step σ α} {next : α → Step σ β} {before after : State σ} {e : Error}
    (h : step before = (.error e, after)) : (step >>= next) before = (.error e, after) := by
  rw [bind_apply, h]

end Step

/-- The state as it is. -/
def current : Step σ (State σ) := fun state => (.ok state, state)

/-- Changes the state. -/
def update (change : State σ → State σ) : Step σ Unit := fun state => (.ok (), change state)

/-- Fails. -/
def fail {α : Type} (e : Error) : Step σ α := fun state => (.error e, state)

/-- Fails at a place. -/
def refuse {α : Type} (place : Path) (reason : Reason) : Step σ α :=
  fail (.structural place reason)

/-- Reports an event. -/
def report (event : Event) : Step σ Unit :=
  update fun state => { state with events := state.events ++ [event] }

/-- Draws the key of a component. -/
def drawKey (source : KeySource σ) (explicit className : Option String) (path : Path) :
    Step σ String := fun state =>
  let (key, keys) := deriveKey source explicit className path state.keys
  (.ok key, { state with keys })

/-- Puts a node into the table. -/
def register (node : Node) : Step σ Unit := fun state =>
  match state.table.insert node with
  | .error e => (.error e, state)
  | .ok table => (.ok (), { state with table })

/-- Gives a component in the table its arguments. -/
def fill (key : String) (params : List (String × Value)) (methodArgs : List Value) :
    Step σ Unit :=
  update fun state =>
    { state with
      table := state.table.editAt key (Node.fill params methodArgs) (Node.key_fill _ _) }

/-- The owner of a part, or the entry of its top-level field, which is opened if it is new. -/
def ownerOrEntry (owner : Option Owner) (path : Path) : Step σ Owner :=
  match owner with
  | some owner => pure owner
  | none =>
    match path.first? with
    | none => refuse path .noOwner
    | some segment => do
      let key := segment.text
      let state ← current
      match state.table.find? key with
      | some (.entry _) => return .entry key true
      | some (.component stored) => fail (.keyCollision key stored.path (Path.root.key key))
      | none =>
        register (.entry ⟨key, []⟩)
        report (.entry key)
        return .entry key true

/-- The event of a dependency. -/
def linkEvent (dependency : String) (owner : Owner) (path : Path) : Event :=
  match owner with
  | .component key name => .argument dependency key (path.afterLast name)
  | .entry key _ => .result dependency key

/-- Records that the owner needs a node. -/
def link (dependency : String) (owner : Owner) (path : Path) : Step σ Unit :=
  if dependency = owner.key then refuse path (.selfReference dependency)
  else do
    report (linkEvent dependency owner path)
    update fun state =>
      { state with edges := state.edges ++ [⟨dependency, owner.key, path⟩] }

/-- Adds a value to the results of an entry that collects them. -/
def attach (owner : Owner) (value : Value) : Step σ Unit :=
  match owner with
  | .entry key true =>
    update fun state =>
      { state with table := state.table.editAt key (Node.collect value) (Node.key_collect _) }
  | _ => pure ()

end Blueprint.Extraction
