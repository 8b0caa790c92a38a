import Blueprint.Json.Reader
import Blueprint.Graph.Order

/-!
# `Blueprint/Settings.lean` — settings of the generated program

Settings are written as a JSON object whose four fields are all optional, or as an array of the
values in a fixed order, from which values at the end may be missing. They are read from the
written tree, so a field that nobody knows is passed over whatever its value is; a known field
must not be repeated.
-/

set_option autoImplicit false

namespace Blueprint

/-- Settings of the generated program. -/
structure Settings where
  /-- The package in which modules are looked up. -/
  rootModule : Option String := none
  /-- The variable that holds the results. -/
  resultsVariable : String := "returns"
  /-- Lines at the head of the program. -/
  preamble : List String := []
  /-- What becomes of nodes that cannot be ordered. -/
  onCycle : CyclePolicy := .refuse
deriving DecidableEq, Repr

namespace Settings

/-- The path under which a module is imported. -/
def importPath (settings : Settings) (module : String) : String :=
  match settings.rootModule with
  | none => module
  | some package => if package = "" then module else package ++ "." ++ module

/-! ## Reading -/

/-- A cycle policy by its name. -/
def policyNamed? : String → Option CyclePolicy
  | "error" => some .refuse
  | "omit" => some .leaveOut
  | _ => none

/-- A text value. -/
def text? : Written → Option String
  | .string pieces => TextPiece.text? pieces
  | _ => none

/-- A text value or null. -/
def optionalText? : Written → Option (Option String)
  | .null => some none
  | value => (text? value).map some

/-- An array of text values. -/
def texts? : Written → Option (List String)
  | .array items => items.mapM text?
  | _ => none

/-- A cycle policy: its name, or an object with the name as its only member and null as the
value. -/
def policy? : Written → Option CyclePolicy
  | .string pieces => (TextPiece.text? pieces).bind policyNamed?
  | .object [(name, .null)] => (TextPiece.text? name).bind policyNamed?
  | _ => none

/-- The names of the fields, in the order of the array form. -/
def fields : List String := ["root_module", "results_var", "preamble", "on_cycle"]

/-- The settings with one field replaced; an unknown field changes nothing. -/
def assign? (settings : Settings) (field : String) (value : Written) : Option Settings :=
  match field with
  | "root_module" => (optionalText? value).map fun rootModule => { settings with rootModule }
  | "results_var" => (text? value).map fun resultsVariable => { settings with resultsVariable }
  | "preamble" => (texts? value).map fun preamble => { settings with preamble }
  | "on_cycle" => (policy? value).map fun onCycle => { settings with onCycle }
  | _ => some settings

/-- Assigns fields one after the other. `seen` holds the known fields that were assigned before. -/
def assignAll? (settings : Settings) (seen : List String) :
    List (String × Written) → Option Settings
  | [] => some settings
  | (field, value) :: rest =>
    if seen.contains field then none
    else do
      let settings ← settings.assign? field value
      assignAll? settings (if fields.contains field then field :: seen else seen) rest

/-- The settings that a tree denotes. -/
def ofWritten? : Written → Option Settings
  | .object members => do
    let assignments ← members.mapM fun (name, value) => do
      return (← TextPiece.text? name, value)
    assignAll? {} [] assignments
  | .array items =>
    if fields.length < items.length then none else assignAll? {} [] (fields.zip items)
  | _ => none

/-- The settings that a text denotes. -/
def read? (text : String) : Option Settings := (Written.read? text).bind ofWritten?

end Settings

end Blueprint
