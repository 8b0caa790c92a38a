import Blueprint.Extraction.State

/-!
# `Blueprint/Extraction/Walk.lean` — the walk through a document

Depth first, with the path and the owner of each part. A component is registered before its
arguments are walked, so it stands before the components inside it; it is replaced by a reference
to its key, as markers and calls are by a reference and a call. Each of the three is a dependency
of its owner.

The functions follow the data: an object is walked by going through its members, and a field is
found by going through them too, so that each call is on a part of what was given.
-/

set_option autoImplicit false

namespace Blueprint.Extraction

/-! ## Fields -/

/-- A field that has to be text. -/
def textField (members : List (String × Json)) (field : String) (path : Path) :
    Except Error String :=
  match Json.get? field members with
  | some (.string text) => .ok text
  | _ => .error (.structural path (.notText field))

/-- A field that is text, null or absent. -/
def textField? (members : List (String × Json)) (field : String) (path : Path) :
    Except Error (Option String) :=
  match Json.get? field members with
  | none => .ok none
  | some .null => .ok none
  | some (.string text) => .ok (some text)
  | some _ => .error (.structural path (.notText field))

/-- What a component says about itself, its arguments apart. -/
structure Declaration where
  module : String
  callable : Option Callable
  explicitKey : Option String

/-- The declaration of a component. -/
def declaration (members : List (String × Json)) (path : Path) : Except Error Declaration := do
  let module ← textField members Field.module path
  let className ← textField? members Field.className path
  let classType ← textField? members Field.classType path
  let callable ← match className, classType with
    | some _, some _ => throw (.structural path .twoClasses)
    | some name, none => pure (some (.className name))
    | none, some name => pure (some (.classType name))
    | none, none => pure none
  let explicitKey ← textField? members Field.objectKey path
  return { module, callable, explicitKey }

/-- The node and the method of a call. -/
def callee (members : List (String × Json)) (path : Path) : Except Error (String × String) := do
  let target ← textField members Field.callTarget path
  let method ← textField members Field.callName path
  return (target, method)

variable {σ : Type}

/-- Registers a component without its arguments, and gives its key. -/
def enter (source : KeySource σ) (members : List (String × Json)) (path : Path)
    (owner : Option Owner) : Step σ String := do
  let declared ← declaration members path
  let key ← drawKey source declared.explicitKey (declared.callable.map Callable.name) path
  register (.component
    { key
      module := declared.module
      callable := declared.callable
      params := []
      methodArgs := []
      name := path.lastText
      path })
  report (.component key path)
  if let some owner := owner then
    link key owner path
    attach owner (.reference key)
  return key

/-! ## Parts -/

mutual

/-- Walks a part and gives its value. -/
def walk (source : KeySource σ) : Json → Path → Option Owner → Step σ Value
  | .null, _, _ => pure .null
  | .bool value, _, _ => pure (.bool value)
  | .number value, _, _ => pure (.number value)
  | .string text, path, owner =>
    match Marker.find? text with
    | none => pure (.string text)
    | some (.malformed inner) => refuse path (.malformedMarker inner)
    | some (.key key) => do
      let owner ← ownerOrEntry owner path
      link key owner path
      attach owner (.reference key)
      return .reference key
  | .array items, path, owner => do
    let values ← walkItems source items path 0 owner
    return .sequence values
  | .object members, path, owner =>
    match Json.objectShape members with
    | .component => do
      let key ← enter source members path owner
      let this := Owner.component key path.lastText
      let params ← walkParams source members path this
      let methodArgs ← walkMethodArgs source members path this
      fill key params methodArgs
      return .reference key
    | .call => do
      let (target, method) ← callee members path
      let owner ← ownerOrEntry owner path
      link target owner path
      let params ← walkParams source members path owner.insideCall
      attach owner (.call target method params)
      return .call target method params
    | .methodBlock => do
      let entries ← walkBlock source members path owner
      return .mapping entries
    | .mapping => do
      let entries ← walkMembers source members path owner
      return .mapping entries

/-- Walks the items of an array, the first of them at `position`. -/
def walkItems (source : KeySource σ) :
    List Json → Path → Nat → Option Owner → Step σ (List Value)
  | [], _, _, _ => pure []
  | item :: rest, path, position, owner => do
    let value ← walk source item (path.index position) owner
    let values ← walkItems source rest path (position + 1) owner
    return value :: values

/-- Walks the members of an object. -/
def walkMembers (source : KeySource σ) :
    List (String × Json) → Path → Option Owner → Step σ (List (String × Value))
  | [], _, _ => pure []
  | (name, member) :: rest, path, owner => do
    let value ← walk source member (path.key name) owner
    let values ← walkMembers source rest path owner
    return (name, value) :: values

/-- Walks the members of a block of method arguments. The arguments themselves are walked one by
one, so that they are not taken for a component or a call. -/
def walkBlock (source : KeySource σ) :
    List (String × Json) → Path → Option Owner → Step σ (List (String × Value))
  | [], _, _ => pure []
  | (name, .object inner) :: rest, path, owner => do
    let value ←
      if name = Field.params then do
        let entries ← walkMembers source inner (path.key name) owner
        pure (Value.mapping entries)
      else walk source (.object inner) (path.key name) owner
    let values ← walkBlock source rest path owner
    return (name, value) :: values
  | (name, member) :: rest, path, owner => do
    let value ← walk source member (path.key name) owner
    let values ← walkBlock source rest path owner
    return (name, value) :: values

/-- Walks the arguments of a component or a call, given its members. -/
def walkParams (source : KeySource σ) :
    List (String × Json) → Path → Owner → Step σ (List (String × Value))
  | [], _, _ => pure []
  | (name, member) :: rest, path, owner =>
    if name = Field.params then
      match member with
      | .null => pure []
      | .object params => walkMembers source params (path.key Field.params) (some owner)
      | _ => refuse (path.key Field.params) .paramsNotMapping
    else walkParams source rest path owner

/-- Walks the method arguments of a component, given its members. -/
def walkMethodArgs (source : KeySource σ) :
    List (String × Json) → Path → Owner → Step σ (List Value)
  | [], _, _ => pure []
  | (name, member) :: rest, path, owner =>
    if name = Field.methodArgs then
      match member with
      | .array items => walkItems source items (path.key Field.methodArgs) 0 (some owner)
      | _ => refuse (path.key Field.methodArgs) .methodArgsNotArray
    else walkMethodArgs source rest path owner

end

end Blueprint.Extraction
