import Blueprint.Text.Hex
import Blueprint.Json.Basic

/-!
# `Blueprint/Json/Printer.lean` — JSON text from values

Two forms. The compact one has no blanks at all. The pretty one gives each item and member a line
of its own, indented by two spaces for each container around it, and writes an empty container on
one line. In text only quote, backslash and the characters below U+0020 are escaped.
-/

set_option autoImplicit false

namespace Blueprint.Json

/-- How one character is written inside JSON text. -/
def escape (c : Char) : List Char :=
  match c with
  | '"' => ['\\', '"']
  | '\\' => ['\\', '\\']
  | '\x08' => ['\\', 'b']
  | '\x0c' => ['\\', 'f']
  | '\n' => ['\\', 'n']
  | '\r' => ['\\', 'r']
  | '\t' => ['\\', 't']
  | c => if c.toNat < 0x20 then '\\' :: 'u' :: Text.hex 4 c.toNat else [c]

/-- A text in quotes. -/
def quoted (s : String) : String :=
  String.ofList ('"' :: s.toList.flatMap escape ++ ['"'])

mutual

/-- The form without blanks. -/
def compact : Json → String
  | .null => "null"
  | .bool true => "true"
  | .bool false => "false"
  | .number value => value.text
  | .string text => quoted text
  | .array items => "[" ++ String.intercalate "," (compactItems items) ++ "]"
  | .object members => "\x7b" ++ String.intercalate "," (compactMembers members) ++ "\x7d"

/-- The compact forms of an array's items. -/
def compactItems : List Json → List String
  | [] => []
  | item :: rest => compact item :: compactItems rest

/-- The compact forms of an object's members. -/
def compactMembers : List (String × Json) → List String
  | [] => []
  | (name, value) :: rest => (quoted name ++ ":" ++ compact value) :: compactMembers rest

end

/-- The indentation inside `depth` containers. -/
def indent (depth : Nat) : String := String.ofList (List.replicate (2 * depth) ' ')

/-- A container on several lines, or on one if it is empty. -/
def container (opening closing : String) (depth : Nat) (lines : List String) : String :=
  if lines.isEmpty then opening ++ closing
  else
    opening ++ "\n" ++ String.intercalate ",\n" lines ++ "\n" ++ indent depth ++ closing

mutual

/-- The indented form of a value inside `depth` containers. -/
def prettyAt (depth : Nat) : Json → String
  | .array items => container "[" "]" depth (prettyItems (depth + 1) items)
  | .object members => container "\x7b" "\x7d" depth (prettyMembers (depth + 1) members)
  | .null => "null"
  | .bool true => "true"
  | .bool false => "false"
  | .number value => value.text
  | .string text => quoted text

/-- The lines of an array's items. -/
def prettyItems (depth : Nat) : List Json → List String
  | [] => []
  | item :: rest => (indent depth ++ prettyAt depth item) :: prettyItems depth rest

/-- The lines of an object's members. -/
def prettyMembers (depth : Nat) : List (String × Json) → List String
  | [] => []
  | (name, value) :: rest =>
    (indent depth ++ quoted name ++ ": " ++ prettyAt depth value) :: prettyMembers depth rest

end

/-- The indented form of a value. -/
def pretty (value : Json) : String := prettyAt 0 value

end Blueprint.Json
