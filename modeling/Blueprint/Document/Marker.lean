/-!
# `Blueprint/Document/Marker.lean` — reference markers in text

A text refers to a node by a marker, the node's key between braces. The marker may be the whole
text or stand inside a longer one. Only the first brace group of a text counts, a group being a
pair of braces with no brace between them; a group around anything but a word is malformed.
-/

set_option autoImplicit false

namespace Blueprint

/-- The first brace group of a text. -/
inductive Marker where
  | key (word : String)
  | malformed (inner : String)
deriving DecidableEq, Repr

namespace Marker

/-- The characters of words: ASCII letters and digits, and the underscore. -/
def isWordChar (c : Char) : Bool :=
  ('a' ≤ c && c ≤ 'z') || ('A' ≤ c && c ≤ 'Z') || ('0' ≤ c && c ≤ '9') || c == '_'

/-- A word has at least one character, all of them word characters. -/
def isWord (cs : List Char) : Bool := !cs.isEmpty && cs.all isWordChar

/-- What stands before the next closing brace, if no brace opens earlier. -/
def inner? : List Char → Option (List Char)
  | [] => none
  | c :: rest =>
    if c == '}' then some []
    else if c == '{' then none
    else (inner? rest).map (c :: ·)

/-- The inside of the first brace group. -/
def group? : List Char → Option (List Char)
  | [] => none
  | c :: rest =>
    if c == '{' then
      match inner? rest with
      | some inner => some inner
      | none => group? rest
    else group? rest

/-- The marker of a text. -/
def find? (text : String) : Option Marker :=
  match group? text.toList with
  | none => none
  | some inner =>
    if isWord inner then some (.key (String.ofList inner))
    else some (.malformed (String.ofList inner))

/-- The text before a closing brace at the very end. -/
def beforeClosing? (cs : List Char) : Option (List Char) :=
  if cs.getLast? == some '}' then some cs.dropLast else none

/-- The word of a text that is nothing but a marker. -/
def whole? (text : String) : Option String :=
  match text.toList with
  | [] => none
  | c :: rest =>
    if c == '{' then
      match beforeClosing? rest with
      | some inner => if isWord inner then some (String.ofList inner) else none
      | none => none
    else none

/-- The text that is nothing but the marker of a key. -/
def written (key : String) : String := "\x7b" ++ key ++ "\x7d"

example : find? "data/\x7bdir\x7d/x" = some (.key "dir") := by decide
example : find? "\x7ba\x7bb\x7d" = some (.key "b") := by decide
example : whole? "\x7bx y\x7d" = none := by decide

end Marker

end Blueprint
