import Blueprint.CommandLine.Run
import Blueprint.CommandLine.Place

/-!
# `Blueprint/CommandLine/Directory.lean` — commands in a directory

A directory of plain files, held in memory, and a command line run in it. Reading fails for a name
that no file has. Writing replaces a file or makes a new one, and fails for the directory itself
and for anything outside of it, the devices apart.
-/

set_option autoImplicit false

namespace Blueprint.CommandLine

/-- Files with their contents. -/
structure Directory where
  files : List (String × String)

namespace Directory

/-- What is in the file or device at the end of a path. -/
def read? (directory : Directory) (path : String) : Option String :=
  match Place.ofPath? path with
  | some (.file name) => directory.files.lookup name
  | some (.device .null) => some ""
  | _ => none

/-- Replaces the contents of a file, or adds the file. -/
def put (name contents : String) : List (String × String) → List (String × String)
  | [] => [(name, contents)]
  | (n, c) :: rest =>
    if n = name then (n, contents) :: rest else (n, c) :: put name contents rest

/-- The directory after a text has been written, and what that prints. -/
def write? (directory : Directory) (path contents : String) : Option (Directory × String) :=
  match Place.ofPath? path with
  | some (.file name) => some (⟨put name contents directory.files⟩, "")
  | some (.device .output) => some (directory, contents)
  | some (.device _) => some (directory, "")
  | _ => none

/-- The files that are new or differ from those of an earlier state. -/
def changes (before after : Directory) : List (String × String) :=
  after.files.filter fun (name, contents) => before.files.lookup name != some contents

end Directory

/-- What can be seen of a command after it has ended. -/
structure Report where
  printed : String
  log : List String
  failure : Option Failure
  directory : Directory

/-- Runs a command in a directory. -/
def Directory.run {σ : Type} (directory : Directory) (source : KeySource σ) (keys : σ)
    (logVariable : Option String) (invocation : Invocation) : Report :=
  let outcome := invocation.run source keys directory.read?
  let log := logLines (Level.threshold logVariable invocation.verbosity) outcome.events
  match outcome.result with
  | .error failure => ⟨"", log, some failure, directory⟩
  | .ok (.print text) => ⟨(Output.print text).printed, log, none, directory⟩
  | .ok (.save file text) =>
    match directory.write? file text with
    | some (directory, shown) =>
      ⟨shown ++ (Output.save file text).printed, log, none, directory⟩
    | none => ⟨"", log, some (.write file), directory⟩

end Blueprint.CommandLine
