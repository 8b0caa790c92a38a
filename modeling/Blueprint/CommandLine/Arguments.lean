/-!
# `Blueprint/CommandLine/Arguments.lean` — the words of the command line

A command line is a command with its options. An option is given by its long name, `--name value`
or `--name=value`, or by its letter, `-o value`, `-ovalue` or `-o=value`; switches have no value,
and several letters can share a dash. A value that is a word of its own does not start with a
dash, unless it is nothing but a dash. Only `--verbose` may be repeated; it may also stand before
the command, and counts there if it does not occur after it.
-/

set_option autoImplicit false

namespace Blueprint.CommandLine

/-- An option that a command knows. -/
structure Known where
  name : String
  letter : Option Char
  /-- Whether the option is followed by a value. -/
  takesValue : Bool

/-- An option that was given, with its value if it takes one. -/
structure Given where
  name : String
  value : Option String

/-- The verbosity. -/
def verbose : Known := ⟨"verbose", some 'v', false⟩

/-- Whether a word can be the value of the option before it. -/
def isValue (word : String) : Bool :=
  match word.toList with
  | '-' :: _ :: _ => false
  | _ => true

/-- The part of a word before the first equals sign, and the part after it if there is one. -/
def splitEquals (cs : List Char) : List Char × Option (List Char) :=
  match cs.dropWhile (· != '=') with
  | [] => (cs, none)
  | _ :: value => (cs.takeWhile (· != '='), some value)

/-- What a group of letters gives: options, and the option that still needs a value, if any. -/
structure Letters where
  given : List Given
  open? : Option String

/-- The options of a group of letters. The letters after one that takes a value are the value. -/
def letters? (known : List Known) : List Char → Option Letters
  | [] => some ⟨[], none⟩
  | c :: rest =>
    match known.find? (·.letter == some c) with
    | none => none
    | some option =>
      if option.takesValue then
        match rest with
        | [] => some ⟨[], some option.name⟩
        | '=' :: value => some ⟨[⟨option.name, some (String.ofList value)⟩], none⟩
        | value => some ⟨[⟨option.name, some (String.ofList value)⟩], none⟩
      else
        (letters? known rest).map fun later =>
          ⟨⟨option.name, none⟩ :: later.given, later.open?⟩

/-- What a long option gives. -/
def long? (known : List Known) (cs : List Char) : Option Letters :=
  let (name, value) := splitEquals cs
  match known.find? (·.name.toList == name), value with
  | none, _ => none
  | some option, none =>
    if option.takesValue then some ⟨[], some option.name⟩ else some ⟨[⟨option.name, none⟩], none⟩
  | some option, some value =>
    if option.takesValue then some ⟨[⟨option.name, some (String.ofList value)⟩], none⟩ else none

/-- What an option word gives; nothing if the word is not an option. -/
def word? (known : List Known) (word : String) : Option Letters :=
  match word.toList with
  | '-' :: '-' :: cs => long? known cs
  | '-' :: c :: cs => letters? known (c :: cs)
  | _ => none

/-- The options that the words give. A pair of dashes ends them, and nothing may follow it. -/
def options? (known : List Known) : List String → Option (List Given)
  | [] => some []
  | word :: rest =>
    if word = "--" then (if rest.isEmpty then some [] else none)
    else
      match word? known word, rest with
      | none, _ => none
      | some ⟨given, none⟩, rest => (options? known rest).map (given ++ ·)
      | some ⟨_, some _⟩, [] => none
      | some ⟨given, some name⟩, value :: rest =>
        if isValue value then
          (options? known rest).map (given ++ ⟨name, some value⟩ :: ·)
        else none

/-- How often an option was given. -/
def count (name : String) (given : List Given) : Nat :=
  (given.filter (·.name == name)).length

/-- The value of an option. -/
def valueOf? (name : String) (given : List Given) : Option String :=
  (given.find? (·.name == name)).bind Given.value

/-- Whether a switch was given. -/
def isGiven (name : String) (given : List Given) : Bool := count name given != 0

/-! ## Commands -/

/-- What is to be done with a document. -/
inductive Action where
  /-- Write the program, with settings from a file and from options. -/
  | generate (out settings rootModule resultsVariable : Option String) (allowCycles : Bool)
  /-- Show the order and the edges. -/
  | graph (json allowCycles : Bool)
  /-- Write the flat document. -/
  | flatten (out : Option String)
deriving DecidableEq, Repr

/-- A command line that makes sense. -/
structure Invocation where
  verbosity : Nat
  /-- The file with the document. -/
  document : String
  action : Action
deriving DecidableEq, Repr

/-- The file with the document. -/
def specOption : Known := ⟨"spec", none, true⟩

/-- The file that is written. -/
def outOption : Known := ⟨"out", some 'o', true⟩

/-- Whether nodes on cycles are left out. -/
def allowCyclesOption : Known := ⟨"allow-cycles", none, false⟩

/-- The options of a command. -/
def optionsOf? : String → Option (List Known)
  | "generate" =>
    some [specOption, outOption, ⟨"config", none, true⟩, ⟨"root-module", none, true⟩,
      ⟨"results-var", none, true⟩, allowCyclesOption]
  | "graph" => some [specOption, ⟨"json", none, false⟩, allowCyclesOption]
  | "flatten" => some [specOption, outOption]
  | _ => none

/-- The action of a command with the options given to it. -/
def action? (command : String) (given : List Given) : Option Action :=
  match command with
  | "generate" =>
    some (.generate (valueOf? "out" given) (valueOf? "config" given) (valueOf? "root-module" given)
      (valueOf? "results-var" given) (isGiven "allow-cycles" given))
  | "graph" => some (.graph (isGiven "json" given) (isGiven "allow-cycles" given))
  | "flatten" => some (.flatten (valueOf? "out" given))
  | _ => none

/-- A command with its options, after `earlier` mentions of the verbosity. -/
def command? (earlier : Nat) (command : String) (words : List String) : Option Invocation := do
  let known ← optionsOf? command
  let given ← options? (verbose :: known) words
  if known.all fun option => count option.name given ≤ 1 then
    let document ← valueOf? specOption.name given
    let action ← action? command given
    let later := count verbose.name given
    return { verbosity := if later = 0 then earlier else later, document, action }
  else none

/-- A command line, after `earlier` mentions of the verbosity. -/
def parseFrom? (earlier : Nat) : List String → Option Invocation
  | [] => none
  | word :: rest =>
    match word? [verbose] word with
    | some letters => parseFrom? (earlier + letters.given.length) rest
    | none => command? earlier word rest

/-- A command line. -/
def parse? (words : List String) : Option Invocation := parseFrom? 0 words

end Blueprint.CommandLine
