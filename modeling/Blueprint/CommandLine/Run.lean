import Blueprint.Json.Printer
import Blueprint.Graph.Dump
import Blueprint.Graph.Flat
import Blueprint.Program
import Blueprint.CommandLine.Arguments
import Blueprint.CommandLine.Log

/-!
# `Blueprint/CommandLine/Run.lean` — what a command does

A command reads one file or two and prints a text or writes it to a file. What it does is a
function of the contents of the files; reading and writing them is left to the caller.
-/

set_option autoImplicit false

namespace Blueprint.CommandLine

/-- Why a command fails. -/
inductive Failure where
  | readSettings (file : String)
  | parseSettings (file : String)
  | readDocument (file : String)
  | parseDocument (file : String)
  | generate (file : String) (cause : Error)
  | extract (file : String) (cause : Error)
  | order (file : String) (cause : Error)
  | write (file : String)
deriving DecidableEq, Repr

/-- The wording of a failure. -/
def Failure.message (failure : Failure) : String :=
  fromProgram <|
    match failure with
    | .readSettings file => "read config file " ++ file
    | .parseSettings file => "parse config file " ++ file
    | .readDocument file => "read spec file " ++ file
    | .parseDocument file => "parse spec file " ++ file
    | .generate file _ => "generate from " ++ file
    | .extract file _ => "extract " ++ file
    | .order file _ => "order " ++ file
    | .write file => "write output file " ++ file

/-- The error in the document that made a command fail. -/
def Failure.cause? : Failure → Option Error
  | .generate _ cause => some cause
  | .extract _ cause => some cause
  | .order _ cause => some cause
  | _ => none

/-- A text with every line of it set in by four spaces. -/
def setIn (text : String) : String :=
  String.ofList
    ("    ".toList ++ text.toList.flatMap fun c => if c = '\n' then "\n    ".toList else [c])

/-- The report of a failure: its wording and, set in below a heading, what caused it. -/
def Failure.report (failure : Failure) : String :=
  let cause := failure.cause?.elim "" fun cause => "\n\nCaused by:\n" ++ setIn cause.message
  "Error: " ++ failure.message ++ cause

/-- What a command produces: lines to print, or the contents of a file. -/
inductive Output where
  | print (text : String)
  | save (file text : String)
deriving DecidableEq, Repr

/-- What is printed once a file has been written. -/
def Output.printed : Output → String
  | .print text => text ++ "\n"
  | .save file _ => "Wrote " ++ file ++ "\n"

/-- A text for a file, if one is given, and else for the terminal. -/
def Output.toward (file : Option String) (text : String) : Output :=
  match file with
  | some file => .save file (text ++ "\n")
  | none => .print text

/-- The outcome of a command, with what was reported on the way. -/
structure Outcome where
  result : Except Failure Output
  events : List Event

/-! ## Reading -/

/-- The settings in a file, or the default ones. -/
def readSettings (read : String → Option String) : Option String → Except Failure Settings
  | none => .ok {}
  | some file =>
    match read file with
    | none => .error (.readSettings file)
    | some text =>
      match Settings.read? text with
      | none => .error (.parseSettings file)
      | some settings => .ok settings

/-- The document in a file. -/
def readDocument (read : String → Option String) (file : String) : Except Failure Json :=
  match read file with
  | none => .error (.readDocument file)
  | some text =>
    match Json.read? text with
    | none => .error (.parseDocument file)
    | some document => .ok document

/-- Options win over the settings in a file. -/
def override (settings : Settings) (rootModule resultsVariable : Option String)
    (allowCycles : Bool) : Settings :=
  { settings with
    rootModule := rootModule.or settings.rootModule
    resultsVariable := resultsVariable.getD settings.resultsVariable
    onCycle := if allowCycles then .leaveOut else settings.onCycle }

/-! ## Commands -/

/-- The order, the edges and the nodes that nothing needs, as lines. -/
def listing (graph : Graph) (placed : List Node) : String :=
  String.intercalate "\n"
    (["order:"]
      ++ placed.map (fun node => "  " ++ node.key)
      ++ ["edges:"]
      ++ graph.edges.map (fun edge =>
          "  " ++ edge.dependency ++ " -> " ++ edge.dependent ++ "  @ " ++ edge.path.text)
      ++ ["sinks: " ++ String.intercalate ", " (graph.sinks.map Node.key)])

/-- The graph and its order as data. -/
def listingJson (graph : Graph) (placed : List Node) : Json :=
  .object (graph.dumpMembers ++ [("order", .array (placed.map fun node => .string node.key))])

variable {σ : Type}

/-- Writes the program of a document. -/
def runGenerate (source : KeySource σ) (keys : σ) (file : String) (out : Option String)
    (settings : Settings) (document : Json) : Outcome :=
  let generation := Blueprint.generate source document settings keys
  match generation.code with
  | .error e => ⟨.error (.generate file e), generation.events⟩
  | .ok code => ⟨.ok (.toward out code), generation.events⟩

/-- Shows the order and the edges of a document. -/
def runGraph (source : KeySource σ) (keys : σ) (file : String) (json : Bool)
    (policy : CyclePolicy) (document : Json) : Outcome :=
  let extraction := Blueprint.extract source document keys
  match extraction.graph with
  | .error e => ⟨.error (.extract file e), extraction.events⟩
  | .ok graph =>
    match graph.order policy with
    | .error e => ⟨.error (.order file e), extraction.events⟩
    | .ok placement =>
      let text :=
        if json then (listingJson graph placement.placed).pretty
        else listing graph placement.placed
      ⟨.ok (.print text), extraction.events ++ placement.events⟩

/-- Writes the flat document of a document. -/
def runFlatten (source : KeySource σ) (keys : σ) (file : String) (out : Option String)
    (document : Json) : Outcome :=
  let extraction := Blueprint.extract source document keys
  match extraction.graph with
  | .error e => ⟨.error (.extract file e), extraction.events⟩
  | .ok graph => ⟨.ok (.toward out graph.flatten.pretty), extraction.events⟩

/-- An outcome that was reached before anything was reported. -/
def early (failure : Failure) : Outcome := ⟨.error failure, []⟩

/-- Does what a command line asks for. Settings are read before the document. -/
def Invocation.run (invocation : Invocation) (source : KeySource σ) (keys : σ)
    (read : String → Option String) : Outcome :=
  let file := invocation.document
  match invocation.action with
  | .generate out settings rootModule resultsVariable allowCycles =>
    match readSettings read settings with
    | .error failure => early failure
    | .ok settings =>
      match readDocument read file with
      | .error failure => early failure
      | .ok document =>
        runGenerate source keys file out
          (override settings rootModule resultsVariable allowCycles) document
  | .graph json allowCycles =>
    match readDocument read file with
    | .error failure => early failure
    | .ok document =>
      runGraph source keys file json (if allowCycles then .leaveOut else .refuse) document
  | .flatten out =>
    match readDocument read file with
    | .error failure => early failure
    | .ok document => runFlatten source keys file out document

/-- The files that a command line reads. -/
def Invocation.files (invocation : Invocation) : List String :=
  match invocation.action with
  | .generate _ (some settings) _ _ _ => [settings, invocation.document]
  | _ => [invocation.document]

end Blueprint.CommandLine
