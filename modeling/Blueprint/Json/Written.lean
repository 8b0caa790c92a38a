import Blueprint.Text.Hex
import Blueprint.Number.Numeral

/-!
# `Blueprint/Json/Written.lean` — JSON text, before it is judged

Reading JSON goes in two steps, and this file is the first: from characters to a tree of what is
written. Text keeps its `\u` units one by one, numbers are numerals, objects keep repeated names,
and nesting has no limit. A tree exists exactly when the text follows the strict grammar: blanks
are space, tab, line feed and carriage return, text holds no raw control character, and nothing
but blanks follows the value.

What a tree denotes, and that some trees denote nothing, is `Blueprint/Json/Reader.lean`. The
steps are apart because settings are read from the tree: members that nobody knows are passed over
there without being judged.
-/

set_option autoImplicit false

namespace Blueprint

/-- A piece of written text: a character, or a 16-bit unit given by its number. -/
inductive TextPiece where
  | char (c : Char)
  | unit (code : Nat)
deriving DecidableEq, Repr

/-- What is written in a JSON text. -/
inductive Written where
  | null
  | bool (value : Bool)
  | number (numeral : Numeral)
  | string (pieces : List TextPiece)
  | array (items : List Written)
  | object (members : List (List TextPiece × Written))

namespace Written

/-- The characters that may stand between tokens. -/
def isBlank (c : Char) : Bool := c == ' ' || c == '\t' || c == '\n' || c == '\r'

/-- The text after its leading blanks. -/
def skipBlanks (cs : List Char) : List Char := cs.dropWhile isBlank

/-- The characters that have an escape of one letter. -/
def shortEscape? : Char → Option Char
  | '"' => some '"'
  | '\\' => some '\\'
  | '/' => some '/'
  | 'b' => some '\x08'
  | 'f' => some '\x0c'
  | 'n' => some '\n'
  | 'r' => some '\r'
  | 't' => some '\t'
  | _ => none

/-- The pieces of a text up to its closing quote, and what follows the quote. -/
def pieces? : List Char → Option (List TextPiece × List Char)
  | [] => none
  | '"' :: rest => some ([], rest)
  | '\\' :: 'u' :: a :: b :: c :: d :: rest => do
    let code ← Text.hexQuad? a b c d
    let (pieces, rest) ← pieces? rest
    return (.unit code :: pieces, rest)
  | '\\' :: letter :: rest => do
    let c ← shortEscape? letter
    let (pieces, rest) ← pieces? rest
    return (.char c :: pieces, rest)
  | c :: rest =>
    if c == '\\' || c.toNat < 0x20 then none
    else do
      let (pieces, rest) ← pieces? rest
      return (.char c :: pieces, rest)

/-- A member's name with the colon after it. -/
def name? (cs : List Char) : Option (List TextPiece × List Char) :=
  match skipBlanks cs with
  | '"' :: rest => do
    let (pieces, rest) ← pieces? rest
    match skipBlanks rest with
    | ':' :: rest => return (pieces, rest)
    | _ => none
  | _ => none

mutual

/-- A value at the head of a text, and the text after it. The first argument bounds the work; a
value never needs more than the number of its characters. -/
def value? : Nat → List Char → Option (Written × List Char)
  | 0, _ => none
  | bound + 1, cs =>
    match skipBlanks cs with
    | 'n' :: 'u' :: 'l' :: 'l' :: rest => some (.null, rest)
    | 't' :: 'r' :: 'u' :: 'e' :: rest => some (.bool true, rest)
    | 'f' :: 'a' :: 'l' :: 's' :: 'e' :: rest => some (.bool false, rest)
    | '"' :: rest => do
      let (pieces, rest) ← pieces? rest
      return (.string pieces, rest)
    | '[' :: rest =>
      match skipBlanks rest with
      | ']' :: rest => some (.array [], rest)
      | rest => do
        let (items, rest) ← items? bound rest
        return (.array items, rest)
    | '{' :: rest =>
      match skipBlanks rest with
      | '}' :: rest => some (.object [], rest)
      | rest => do
        let (members, rest) ← members? bound rest
        return (.object members, rest)
    | cs => do
      let (numeral, rest) ← Numeral.read? cs
      return (.number numeral, rest)

/-- The items of an array up to its closing bracket; at least one. -/
def items? : Nat → List Char → Option (List Written × List Char)
  | 0, _ => none
  | bound + 1, cs => do
    let (item, rest) ← value? bound cs
    match skipBlanks rest with
    | ']' :: rest => return ([item], rest)
    | ',' :: rest =>
      let (items, rest) ← items? bound rest
      return (item :: items, rest)
    | _ => none

/-- The members of an object up to its closing brace; at least one. -/
def members? : Nat → List Char → Option (List (List TextPiece × Written) × List Char)
  | 0, _ => none
  | bound + 1, cs => do
    let (name, rest) ← name? cs
    let (value, rest) ← value? bound rest
    match skipBlanks rest with
    | '}' :: rest => return ([(name, value)], rest)
    | ',' :: rest =>
      let (members, rest) ← members? bound rest
      return ((name, value) :: members, rest)
    | _ => none

end

/-- The tree of a whole text. -/
def read? (text : String) : Option Written := do
  let cs := text.toList
  let (value, rest) ← value? (cs.length + 1) cs
  if rest.all isBlank then return value else none

end Written

end Blueprint
