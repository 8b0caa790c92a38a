/-!
# `Blueprint/Document/Path.lean` — places in a document

A path leads from the root of a document to one of its parts. Names of members and indices of
items are kept apart, so the written form can set indices in brackets: `x.params.items[0].n`.
-/

set_option autoImplicit false

namespace Blueprint

/-- One step of a path. -/
inductive Segment where
  | key (name : String)
  | index (position : Nat)
deriving DecidableEq, Repr

/-- The text of a step on its own. -/
def Segment.text : Segment → String
  | .key name => name
  | .index position => String.ofList (Nat.toDigits 10 position)

/-- The steps from the root of a document to a place in it. -/
structure Path where
  segments : List Segment
deriving DecidableEq, Repr

namespace Path

/-- The place of the whole document. -/
def root : Path := ⟨[]⟩

/-- The place of a member. -/
def key (path : Path) (name : String) : Path := ⟨path.segments ++ [.key name]⟩

/-- The place of an item. -/
def index (path : Path) (position : Nat) : Path := ⟨path.segments ++ [.index position]⟩

/-- The first step. -/
def first? (path : Path) : Option Segment := path.segments.head?

/-- The last step. -/
def last? (path : Path) : Option Segment := path.segments.getLast?

/-- The text of the last step, empty at the root. -/
def lastText (path : Path) : String :=
  match path.last? with
  | some segment => segment.text
  | none => ""

/-- What follows the last step by the name, if there is such a step. -/
def afterLast? (name : String) : List Segment → Option (List Segment)
  | [] => none
  | segment :: rest =>
    match afterLast? name rest with
    | some tail => some tail
    | none => if segment = .key name then some rest else none

/-- The path after its last step by the name, or the whole path if no step has that name. -/
def afterLast (path : Path) (name : String) : Path :=
  match afterLast? name path.segments with
  | some tail => ⟨tail⟩
  | none => path

/-- How a step is written after others. -/
def laterText : Segment → String
  | .key name => "." ++ name
  | .index position => "[" ++ (Segment.index position).text ++ "]"

/-- How the steps of a path are written. A name has a dot before it unless it comes first. -/
def text (path : Path) : String :=
  match path.segments with
  | [] => "<root>"
  | .key name :: rest => name ++ String.join (rest.map laterText)
  | rest => String.join (rest.map laterText)

example : (((root.key "x").key "items").index 0).text = "x.items[0]" := by decide
example : (((root.key "a").key "b").afterLast "a") = root.key "b" := by decide

end Path

end Blueprint
