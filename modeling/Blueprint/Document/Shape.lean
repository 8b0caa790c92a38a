import Blueprint.Json.Basic
import Blueprint.Document.Marker

/-!
# `Blueprint/Document/Shape.lean` — what a part of a document stands for

Every part of a document has one shape. Text with a brace group is a reference; other text,
numbers, booleans and null are primitive. Among objects the first of these that fits counts: a
component to construct, a call on another node, a block of arguments for a method, a plain
mapping.
-/

set_option autoImplicit false

namespace Blueprint

/-! ## Reserved names -/

namespace Field

/-- The module of a component. -/
def module : String := "module"

/-- The class that a component constructs. -/
def className : String := "class_name"

/-- The type that a component constructs. -/
def classType : String := "class_type"

/-- The key that a component asks for. -/
def objectKey : String := "object_key"

/-- The named arguments of a component, a call or a method. -/
def params : String := "params"

/-- The method arguments of a component. -/
def methodArgs : String := "method_args"

/-- The node on which a call is made. -/
def callTarget : String := "reference_key"

/-- The method that a call names. -/
def callName : String := "function_call"

/-- The method of an argument block. -/
def methodName : String := "function"

end Field

/-! ## Shapes -/

/-- What an object stands for. -/
inductive ObjectShape where
  | component
  | call
  | methodBlock
  | mapping
deriving DecidableEq, Repr

/-- What a part of a document stands for. -/
inductive Shape where
  | reference (marker : Marker)
  | primitive
  | sequence
  | object (shape : ObjectShape)
deriving DecidableEq, Repr

namespace Json

/-- An object that names a module is a component. -/
def isComponent (members : List (String × Json)) : Bool := has Field.module members

/-- An object that names a node and a method is a call. -/
def isCall (members : List (String × Json)) : Bool :=
  has Field.callTarget members && has Field.callName members

/-- An object that names a method and arguments, and no module, is a block of method arguments. -/
def isMethodBlock (members : List (String × Json)) : Bool :=
  has Field.methodName members && has Field.params members && !has Field.module members

/-- The shape of an object with the members. -/
def objectShape (members : List (String × Json)) : ObjectShape :=
  if isComponent members then .component
  else if isCall members then .call
  else if isMethodBlock members then .methodBlock
  else .mapping

/-- The shape of a part of a document. -/
def shape : Json → Shape
  | .string text =>
    match Marker.find? text with
    | some marker => .reference marker
    | none => .primitive
  | .array _ => .sequence
  | .object members => .object (objectShape members)
  | _ => .primitive

end Json

end Blueprint
