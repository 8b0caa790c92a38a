/-!
# `Blueprint/CommandLine/Place.lean` — where a path leads

A path is walked name by name, from the root of the file system if it starts with a slash and else
from the directory in which a command runs. Of the file system this walk knows three folders: the
root, the devices below it, and that directory, which holds plain files only. Whatever else there
may be counts as missing.

A path can also be wrong in itself. Its size and the sizes of its names are limited, in bytes, and
the null character stands in no path.
-/

set_option autoImplicit false

namespace Blueprint.CommandLine

/-- The devices that a command can use. -/
inductive Device where
  /-- Always empty, and what is written to it leaves no trace. A command is given no input, so
  its standard input is this device too. -/
  | null
  /-- Takes everything, like the null device, but its contents have no end. -/
  | endless
  /-- What is written to it is printed. -/
  | output
deriving DecidableEq, Repr

/-- The device of a name. -/
def Device.named? (name : String) : Option Device :=
  if name = "null" ∨ name = "stdin" then some .null
  else if name = "zero" ∨ name = "random" ∨ name = "urandom" then some .endless
  else if name = "stdout" then some .output
  else none

/-- A place in the file system. -/
inductive Place where
  /-- The root of the file system. -/
  | root
  /-- The folder of the devices. -/
  | devices
  | device (device : Device)
  /-- The directory in which a command runs. -/
  | here
  /-- A file of that directory, which may yet have to be made. -/
  | file (name : String)
deriving DecidableEq, Repr

namespace Place

/-- One step of a walk. A folder may be named by a dot or by nothing at all, the folder above it
by two dots, and only a folder can be walked through. -/
def step? (place : Place) (name : String) : Option Place :=
  match place with
  | .root =>
    if name = "" ∨ name = "." ∨ name = ".." then some .root
    else if name = "dev" then some .devices
    else none
  | .devices =>
    if name = "" ∨ name = "." then some .devices
    else if name = ".." then some .root
    else (Device.named? name).map .device
  | .here =>
    if name = "" ∨ name = "." then some .here
    else if name = ".." then none
    else some (.file name)
  | .device _ => none
  | .file _ => none

/-- The names between the slashes of a path. -/
def names (path : String) : List String :=
  (path.toList.splitOnP (· == '/')).map String.ofList

/-- Whether a path can be used at all: it has less than 4096 bytes and no null character, and each
of its names has at most 255 bytes. -/
def wellFormed (path : String) : Bool :=
  decide (path.utf8ByteSize < 4096) && !path.toList.contains '\x00' &&
    (names path).all fun name => decide (name.utf8ByteSize ≤ 255)

/-- The place to which a path leads. -/
def ofPath? (path : String) : Option Place :=
  if wellFormed path then
    (names path).foldlM step? (if path.toList.head? = some '/' then .root else .here)
  else none

example : ofPath? "./././a.json" = some (.file "a.json") := by decide +kernel

example : ofPath? "//dev/./null" = some (.device .null) := by decide +kernel

example : ofPath? "a.json/" = none ∧ ofPath? "b/../a.json" = none := by decide +kernel

end Place

end Blueprint.CommandLine
