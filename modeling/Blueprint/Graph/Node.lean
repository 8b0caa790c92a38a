import Blueprint.Document.Path
import Blueprint.Value.Basic

/-!
# `Blueprint/Graph/Node.lean` — nodes and edges

A node is a component, an object to be constructed, or an entry, a list of results named after a
top-level field. An edge says that one node needs another, and where the document says so.
-/

set_option autoImplicit false

namespace Blueprint

/-- What a component constructs: an instance of a class, or of a type. -/
inductive Callable where
  | className (name : String)
  | classType (name : String)
deriving DecidableEq, Repr

/-- The name that is imported and called. -/
def Callable.name : Callable → String
  | .className name => name
  | .classType name => name

/-- An object to be constructed. A component without a callable is only imported. -/
structure Component where
  key : String
  module : String
  callable : Option Callable
  params : List (String × Value)
  methodArgs : List Value
  /-- The text of the last step of the path. -/
  name : String
  path : Path

/-- The results that stand under one top-level field. -/
structure Entry where
  key : String
  results : List Value

/-- A node of the dependency graph. -/
inductive Node where
  | component (component : Component)
  | entry (entry : Entry)

namespace Node

/-- The key that identifies the node. -/
def key : Node → String
  | .component c => c.key
  | .entry e => e.key

/-- The place of the node in the document. -/
def path : Node → Path
  | .component c => c.path
  | .entry e => Path.root.key e.key

/-- Gives a component its arguments; an entry has none. -/
def fill (params : List (String × Value)) (methodArgs : List Value) : Node → Node
  | .component c => .component { c with params, methodArgs }
  | .entry e => .entry e

/-- Adds a result to an entry; a component has none. -/
def collect (result : Value) : Node → Node
  | .component c => .component c
  | .entry e => .entry { e with results := e.results ++ [result] }

/-- Gives an entry its results; a component has none. -/
def withResults (results : List Value) : Node → Node
  | .component c => .component c
  | .entry e => .entry { e with results }

/-- Renames the nodes to which the values of a node point. -/
def rename (naming : String → String) : Node → Node
  | .component c =>
    .component { c with
      params := Value.renameEntries naming c.params
      methodArgs := Value.renameItems naming c.methodArgs }
  | .entry e => .entry { e with results := Value.renameItems naming e.results }

@[simp] theorem key_fill (params : List (String × Value)) (methodArgs : List Value) (n : Node) :
    (n.fill params methodArgs).key = n.key := by
  cases n <;> rfl

@[simp] theorem key_collect (result : Value) (n : Node) : (n.collect result).key = n.key := by
  cases n <;> rfl

@[simp] theorem key_withResults (results : List Value) (n : Node) :
    (n.withResults results).key = n.key := by
  cases n <;> rfl

@[simp] theorem key_rename (naming : String → String) (n : Node) :
    (n.rename naming).key = n.key := by
  cases n <;> rfl

end Node

/-- `dependent` needs `dependency`, as the document says at `path`. -/
structure Edge where
  dependency : String
  dependent : String
  path : Path
deriving DecidableEq, Repr

end Blueprint
