import Blueprint.Text.Literal
import Blueprint.Document.Marker
import Blueprint.Value.Basic

/-!
# `Blueprint/Value/Expression.lean` — values as Python expressions

A value is written as the expression that builds it. Calls and mappings are blocks: one entry to a
line, indented by tabs, and the closing bracket one level further out. `depth` is the indentation
of the entries; a block inside a block goes one level deeper, while a sequence stays on its line
and adds no level.
-/

set_option autoImplicit false

namespace Blueprint

/-- The indentation of a level. -/
def tabs (depth : Nat) : String := String.ofList (List.replicate depth '\t')

/-- Lines between brackets, with commas between them and none after the last. -/
def block (opening closing : String) (depth : Nat) (lines : List String) : String :=
  if lines.isEmpty then opening ++ "\n" ++ tabs (depth - 1) ++ closing
  else
    opening ++ "\n" ++ String.intercalate ",\n" (lines.map (tabs depth ++ ·)) ++ "\n" ++
      tabs (depth - 1) ++ closing

namespace Value

mutual

/-- The expression of a value whose entries, if it is a block, stand at `depth`. Text that is
nothing but a marker names an expression and is written without quotes. -/
def expression : Value → Nat → String
  | .null, _ => "None"
  | .bool true, _ => "True"
  | .bool false, _ => "False"
  | .number value, _ => value.text
  | .string text, _ =>
    match Marker.whole? text with
    | some word => word
    | none => Text.quote text
  | .reference key, _ => key
  | .sequence items, depth => "[" ++ String.intercalate ", " (expressionItems items depth) ++ "]"
  | .call target method params, depth =>
    target ++ "." ++ method ++ block "(" ")" depth (argumentLines params (depth + 1))
  | .mapping entries, depth => block "\x7b" "\x7d" depth (entryLines entries (depth + 1))

/-- The expressions of a list of values. -/
def expressionItems : List Value → Nat → List String
  | [], _ => []
  | item :: rest, depth => expression item depth :: expressionItems rest depth

/-- The lines of a mapping: a quoted name and the expression of its value. -/
def entryLines : List (String × Value) → Nat → List String
  | [], _ => []
  | (name, value) :: rest, depth =>
    (Text.quote name ++ ": " ++ expression value depth) :: entryLines rest depth

/-- The lines of an argument list: a bare name and the expression of its value. -/
def argumentLines : List (String × Value) → Nat → List String
  | [], _ => []
  | (name, value) :: rest, depth =>
    (name ++ "=" ++ expression value depth) :: argumentLines rest depth

end

/-- A list of named arguments in parentheses. -/
def arguments (params : List (String × Value)) (depth : Nat) : String :=
  block "(" ")" depth (argumentLines params (depth + 1))

end Value

end Blueprint
