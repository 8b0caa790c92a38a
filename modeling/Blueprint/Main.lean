import Blueprint.CommandLine.Run

/-!
# `Blueprint/Main.lean` — the program

Reads the files that the command line names, runs the command, and prints or writes what it
produces. The log and the reports of failures go to standard error. Wrong usage ends with code 2,
a failure with code 1.
-/

set_option autoImplicit false

namespace Blueprint.CommandLine

/-- The contents of a file, or nothing if it cannot be read. -/
def contents? (file : String) : IO (Option String) := do
  try
    return some (← IO.FS.readFile file)
  catch _ =>
    return none

/-- Reports a failure. -/
def fail (failure : Failure) : IO UInt32 := do
  IO.eprintln failure.report
  return 1

/-- Prints or writes what a command produces. -/
def deliver (output : Output) : IO UInt32 := do
  if let .save file text := output then
    try
      IO.FS.writeFile file text
    catch _ =>
      return ← fail (.write file)
  IO.print output.printed
  return 0

/-- A random generator that differs from run to run. -/
def freshGenerator : IO StdGen := do
  let bytes ← IO.getRandomBytes 8
  return mkStdGen (bytes.toList.foldl (fun n byte => n * 256 + byte.toNat) 0)

end Blueprint.CommandLine

open Blueprint Blueprint.CommandLine

/-- The program. -/
def main (words : List String) : IO UInt32 := do
  match CommandLine.parse? words with
  | none =>
    IO.eprintln "usage: [-v] (generate | graph | flatten) --spec FILE [options]"
    return 2
  | some invocation =>
    let read ← invocation.files.mapM fun file => return (file, ← contents? file)
    let outcome :=
      invocation.run KeySource.random (← freshGenerator) fun file => (read.lookup file).join
    let level := Level.threshold (← IO.getEnv "RUST_LOG") invocation.verbosity
    for line in logLines level outcome.events do
      IO.eprintln line
    match outcome.result with
    | .error failure => fail failure
    | .ok output => deliver output
