import Blueprint.Json.Basic
import Blueprint.Json.Written

/-!
# `Blueprint/Json/Reader.lean` — what a written tree denotes

The second step of reading JSON. Units of text are put together into characters, and a unit of a
surrogate pair without its partner denotes nothing; numerals must be in range; a repeated name
keeps its first place and takes its last value; and containers may be nested 127 deep.
-/

set_option autoImplicit false

namespace Blueprint

namespace TextPiece

/-- The characters of written text, or nothing if a surrogate stands alone. -/
def decode? : List TextPiece → Option (List Char)
  | [] => some []
  | .char c :: rest => (decode? rest).map (c :: ·)
  | .unit high :: rest =>
    if high < 0xd800 || 0xdfff < high then (decode? rest).map (Char.ofNat high :: ·)
    else if 0xdbff < high then none
    else
      match rest with
      | .unit low :: rest =>
        if 0xdc00 ≤ low && low ≤ 0xdfff then
          let code := 0x10000 + (high - 0xd800) * 0x400 + (low - 0xdc00)
          (decode? rest).map (Char.ofNat code :: ·)
        else none
      | _ => none

/-- The text that the pieces denote. -/
def text? (pieces : List TextPiece) : Option String := (decode? pieces).map String.ofList

end TextPiece

mutual

/-- The value that a tree denotes when its containers are nested at most `depth` deep. -/
def Written.json? (depth : Nat) : Written → Option Json
  | .null => some .null
  | .bool value => some (.bool value)
  | .number numeral => numeral.value?.map .number
  | .string pieces => (TextPiece.text? pieces).map .string
  | .array items =>
    match depth with
    | 0 => none
    | depth + 1 => (Written.jsonItems? depth items).map .array
  | .object members =>
    match depth with
    | 0 => none
    | depth + 1 =>
      (Written.jsonMembers? depth members).map fun pairs => .object (Json.bindAll pairs)

/-- The values of an array's items. -/
def Written.jsonItems? (depth : Nat) : List Written → Option (List Json)
  | [] => some []
  | item :: rest => do
    let value ← item.json? depth
    let values ← Written.jsonItems? depth rest
    return value :: values

/-- The pairs of an object's members, repeats included. -/
def Written.jsonMembers? (depth : Nat) :
    List (List TextPiece × Written) → Option (List (String × Json))
  | [] => some []
  | (pieces, item) :: rest => do
    let name ← TextPiece.text? pieces
    let value ← item.json? depth
    let pairs ← Written.jsonMembers? depth rest
    return (name, value) :: pairs

end

/-- How deep containers may be nested. -/
def Json.deepest : Nat := 127

/-- The value that a text denotes. -/
def Json.read? (text : String) : Option Json := do
  let tree ← Written.read? text
  tree.json? Json.deepest

end Blueprint
