import Blueprint.Text.Hex
import Blueprint.Text.SnakeCase
import Blueprint.Document.Path

/-!
# `Blueprint/Key.lean` — object keys

Every component has a key, the name of the variable that will hold it. A key that the document
gives is kept. Otherwise the key is the class name in snake case, an underscore, and the last step
of the component's path; a component without a class, or one that is the whole document, has a
token in place of the missing part.

Tokens come from a source with a state, so that the same rules work with a counter, whose tokens
are known in advance, and with random numbers.
-/

set_option autoImplicit false

namespace Blueprint

/-- A supply of tokens: given the wanted length and its state, a token and the next state. -/
structure KeySource (σ : Type) where
  draw : Nat → σ → String × σ

namespace KeySource

/-- The tokens of a counter: its hexadecimal digits, padded to the wanted length and never cut. -/
def sequential : KeySource Nat where
  draw length counter := (String.ofList (Text.hex length counter), counter + 1)

/-- Hexadecimal digits, one from each step of a random generator. -/
def randomDigits {γ : Type} [RandomGen γ] : Nat → γ → List Char × γ
  | 0, generator => ([], generator)
  | n + 1, generator =>
    let (digit, generator) := randNat generator 0 15
    let (digits, generator) := randomDigits n generator
    (Nat.digitChar digit :: digits, generator)

/-- Random tokens of exactly the wanted length. -/
def random {γ : Type} [RandomGen γ] : KeySource γ where
  draw length generator :=
    let (digits, generator) := randomDigits length generator
    (String.ofList digits, generator)

end KeySource

/-- The length of the token in place of a class name. -/
def baseTokenLength : Nat := 5

/-- The length of the token in place of a last step. -/
def suffixTokenLength : Nat := 8

/-- The first part of a derived key. -/
def keyBase {σ : Type} (source : KeySource σ) (className : Option String) (keys : σ) : String × σ :=
  match className with
  | some name => (Text.snakeCase name, keys)
  | none => source.draw baseTokenLength keys

/-- The last part of a derived key. -/
def keySuffix {σ : Type} (source : KeySource σ) (path : Path) (keys : σ) : String × σ :=
  match path.last? with
  | some segment => (segment.text, keys)
  | none => source.draw suffixTokenLength keys

/-- The key of a component. -/
def deriveKey {σ : Type} (source : KeySource σ) (explicit className : Option String) (path : Path)
    (keys : σ) : String × σ :=
  match explicit with
  | some key => (key, keys)
  | none =>
    let (base, keys) := keyBase source className keys
    let (suffix, keys) := keySuffix source path keys
    (base ++ "_" ++ suffix, keys)

example : deriveKey KeySource.sequential none none (Path.root.key "x") 0 = ("00000_x", 1) := by
  decide
example : deriveKey KeySource.sequential none (some "Foo") Path.root 1 = ("foo_00000001", 2) := by
  decide

end Blueprint
