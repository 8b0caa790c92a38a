import Blueprint.Document.Path
import Blueprint.Document.Shape

/-!
# `Blueprint/Error.lean` — why a document is refused

There are no partial results: each stage gives a complete answer or one of these errors. An error
says where in the document it arose and why; the wording of the reasons is kept in one place.
-/

set_option autoImplicit false

namespace Blueprint

/-- What is wrong at a place of a document. -/
inductive Reason where
  /-- The first brace group of a text is not around a word. -/
  | malformedMarker (inner : String)
  /-- A field that has to be text is not. -/
  | notText (field : String)
  /-- A component names both a class and a type. -/
  | twoClasses
  /-- The arguments are not a mapping. -/
  | paramsNotMapping
  /-- The method arguments are not an array. -/
  | methodArgsNotArray
  /-- The whole document is a reference or a call. -/
  | noOwner
  /-- A node depends on itself. -/
  | selfReference (key : String)
  /-- A node depends on a key that no node has. -/
  | unknownDependency (key : String)
  /-- A dependency is recorded for a key that no node has. -/
  | unknownDependent (key : String)
  /-- Nodes depend on each other in a circle, each on the one before it. -/
  | cycle (chain : List String)
  /-- Nodes cannot be placed, and no circle among them was found. -/
  | unplaced (keys : List String)
  /-- A value points to a key that no node has. -/
  | unknownTarget (key : String)
deriving DecidableEq, Repr

/-- The wording of a reason. -/
def Reason.message : Reason → String
  | .malformedMarker inner => "unparsable reference marker '" ++ Marker.written inner ++ "'"
  | .notText field => "'" ++ field ++ "' must be a string"
  | .twoClasses =>
    "node declares both '" ++ Field.className ++ "' and '" ++ Field.classType ++ "'"
  | .paramsNotMapping => "'" ++ Field.params ++ "' must be a mapping"
  | .methodArgsNotArray => "'" ++ Field.methodArgs ++ "' must be an array"
  | .noOwner => "reference or call at the document root has no owner"
  | .selfReference key => "node '" ++ key ++ "' references itself"
  | .unknownDependency key => "reference to unknown node '" ++ key ++ "'"
  | .unknownDependent key => "edge from unknown node '" ++ key ++ "'"
  | .cycle chain => "dependency cycle: " ++ String.intercalate " -> " chain
  | .unplaced keys => "dependency cycle: " ++ String.intercalate ", " keys
  | .unknownTarget key => "'" ++ key ++ "' is not a known node"

/-- Why a document is refused. -/
inductive Error where
  /-- The document breaks a rule at a place. -/
  | structural (place : Path) (reason : Reason)
  /-- Two nodes have the same key. -/
  | keyCollision (key : String) (first second : Path)
deriving DecidableEq, Repr

/-- The wording of an error. -/
def Error.message : Error → String
  | .structural place reason => "structural error at " ++ place.text ++ ": " ++ reason.message
  | .keyCollision key first second =>
    "object key '" ++ key ++ "' defined at " ++ first.text ++ " collides with node at " ++
      second.text

example : (Error.structural (Path.root.key "x") (.unknownDependency "q")).message =
    "structural error at x: reference to unknown node 'q'" := by decide

end Blueprint
