import Blueprint.Extraction
import Blueprint.Settings
import Blueprint.Value.Expression

/-!
# `Blueprint/Program.lean` — the generated program

The text of a Python module: the preamble, an import and a binding for each component in the order
of construction, and a dictionary of the results. Two empty lines follow every node.
-/

set_option autoImplicit false

namespace Blueprint

/-! ## Known targets -/

/-- The values of a node that are written into the program. -/
def Node.written : Node → List Value
  | .component c => c.params.map Prod.snd
  | .entry e => e.results

/-- Every node to which a value of the node points is in the table. -/
def Node.checkTargets (table : Table) (node : Node) : Except Error Unit :=
  match (node.written.flatMap Value.references).find? fun key => !table.contains key with
  | some key => .error (.structural node.path (.unknownTarget key))
  | none => .ok ()

/-! ## Text -/

/-- The lines of a component: what is imported, and the object bound to the key. -/
def Component.lines (settings : Settings) (c : Component) : List String :=
  let module := settings.importPath c.module
  match c.callable with
  | none => ["import " ++ module]
  | some callable =>
    ["from " ++ module ++ " import " ++ callable.name,
     c.key ++ " = " ++ callable.name ++ Value.arguments c.params 1]

/-- The lines of a node with the empty lines after them. -/
def Node.lines (settings : Settings) : Node → List String
  | .component c => c.lines settings ++ ["", ""]
  | .entry _ => ["", ""]

/-- The results of an entry, as an item of the dictionary. -/
def Entry.item (e : Entry) : String :=
  if e.results.isEmpty then tabs 1 ++ Text.quote e.key ++ ": [],"
  else
    tabs 1 ++ Text.quote e.key ++ ": [\n"
      ++ String.intercalate ",\n" (e.results.map fun value => tabs 2 ++ value.expression 3)
      ++ "\n" ++ tabs 1 ++ "],"

/-- The item of a node, if it is an entry and was ordered. -/
def Node.item? (ordered : List Node) : Node → Option String
  | .component _ => none
  | .entry e => if Graph.isAmong ordered e.key then some e.item else none

/-- The lines of the preamble, with an empty line after them if there are any. -/
def Settings.head (settings : Settings) : List String :=
  if settings.preamble.isEmpty then [] else settings.preamble ++ [""]

/-- The lines of the program. -/
def Graph.lines (graph : Graph) (ordered : List Node) (settings : Settings) : List String :=
  settings.head
    ++ ordered.flatMap (Node.lines settings)
    ++ [settings.resultsVariable ++ " = \x7b"]
    ++ graph.table.nodes.filterMap (Node.item? ordered)
    ++ ["\x7d"]

/-- The text of the program for nodes in an order. -/
def Graph.program (graph : Graph) (ordered : List Node) (settings : Settings) :
    Except Error String := do
  ordered.forM (Node.checkTargets graph.table)
  return String.intercalate "\n" (graph.lines ordered settings)

/-! ## From document to text -/

/-- What ordering reports. -/
def Placement.events (placement : Placement) : List Event :=
  (if placement.omitted.isEmpty then [] else [.leftOut (placement.omitted.map Node.key)])
    ++ [.ordered (placement.placed.map Node.key)]

/-- The outcome of generating a program. -/
structure Generation (σ : Type) where
  code : Except Error String
  keys : σ
  events : List Event

/-- Generates the program of a document. -/
def generate {σ : Type} (source : KeySource σ) (document : Json) (settings : Settings) (keys : σ) :
    Generation σ :=
  let extraction := extract source document keys
  match extraction.graph with
  | .error e => ⟨.error e, extraction.keys, extraction.events⟩
  | .ok graph =>
    match graph.order settings.onCycle with
    | .error e => ⟨.error e, extraction.keys, extraction.events⟩
    | .ok placement =>
      ⟨graph.program placement.placed settings, extraction.keys,
        extraction.events ++ placement.events⟩

end Blueprint
