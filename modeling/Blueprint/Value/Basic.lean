import Blueprint.Json.Basic

/-!
# `Blueprint/Value/Basic.lean` — argument values

What is passed to a constructor or a method once a document has been read: plain data, references
to other nodes by their key, and calls of a method on another node. Mappings and argument lists
keep their order and may repeat a name.
-/

set_option autoImplicit false

namespace Blueprint

/-- An argument value. -/
inductive Value where
  | null
  | bool (value : Bool)
  | number (value : Number)
  | string (text : String)
  | sequence (items : List Value)
  | mapping (entries : List (String × Value))
  | reference (key : String)
  | call (target method : String) (params : List (String × Value))

namespace Value

mutual

/-- A JSON value as plain data. -/
def verbatim : Json → Value
  | .null => .null
  | .bool value => .bool value
  | .number value => .number value
  | .string text => .string text
  | .array items => .sequence (verbatimItems items)
  | .object members => .mapping (verbatimMembers members)

/-- A list of JSON values as plain data. -/
def verbatimItems : List Json → List Value
  | [] => []
  | item :: rest => verbatim item :: verbatimItems rest

/-- Members of an object as plain data. -/
def verbatimMembers : List (String × Json) → List (String × Value)
  | [] => []
  | (name, value) :: rest => (name, verbatim value) :: verbatimMembers rest

end

mutual

/-- The keys of the nodes to which a value points, from left to right, repeats included. -/
def references : Value → List String
  | .reference key => [key]
  | .call target _ params => target :: referencesEntries params
  | .sequence items => referencesItems items
  | .mapping entries => referencesEntries entries
  | _ => []

/-- The references of a list of values. -/
def referencesItems : List Value → List String
  | [] => []
  | item :: rest => references item ++ referencesItems rest

/-- The references of the values of entries. -/
def referencesEntries : List (String × Value) → List String
  | [] => []
  | (_, value) :: rest => references value ++ referencesEntries rest

end

mutual

/-- The value with every node it points to renamed. -/
def rename (naming : String → String) : Value → Value
  | .reference key => .reference (naming key)
  | .call target method params => .call (naming target) method (renameEntries naming params)
  | .sequence items => .sequence (renameItems naming items)
  | .mapping entries => .mapping (renameEntries naming entries)
  | .null => .null
  | .bool value => .bool value
  | .number value => .number value
  | .string text => .string text

/-- A list of values, renamed. -/
def renameItems (naming : String → String) : List Value → List Value
  | [] => []
  | item :: rest => rename naming item :: renameItems naming rest

/-- The values of entries, renamed. -/
def renameEntries (naming : String → String) : List (String × Value) → List (String × Value)
  | [] => []
  | (name, value) :: rest => (name, rename naming value) :: renameEntries naming rest

end

end Value

end Blueprint
