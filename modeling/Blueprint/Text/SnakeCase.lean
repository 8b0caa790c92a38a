import Blueprint.Text.Lowercase

/-!
# `Blueprint/Text/SnakeCase.lean` — snake case

A class name turns into a variable name: an underscore goes before every capital but the first
character, a dot before a capital gives way to the underscore, and every character is lowered.
Only the ASCII letters count as capitals when the name is cut; lowering knows all of Unicode.
-/

set_option autoImplicit false

namespace Blueprint.Text

/-- The capitals at which a name is cut. -/
def isCapital (c : Char) : Bool := 'A' ≤ c && c ≤ 'Z'

/-- Whether a text goes on with a capital. -/
def startsCapital : List Char → Bool
  | [] => false
  | c :: _ => isCapital c

/-- The snake case of what is left of a name. `joined` says that the next character needs no
underscore before it: it is the first of the name, or an underscore has just been written. -/
def snakeFrom (joined : Bool) : List Char → List Char
  | [] => []
  | c :: rest =>
    if c == '.' && startsCapital rest then '_' :: snakeFrom true rest
    else if isCapital c && !joined then '_' :: (lower c ++ snakeFrom false rest)
    else lower c ++ snakeFrom false rest

/-- The snake case of a name. -/
def snakeCase (name : String) : String :=
  String.ofList (snakeFrom true name.toList)

example : snakeCase "SummaryWriter" = "summary_writer" := by decide
example : snakeCase "nn.Linear" = "nn_linear" := by decide
example : snakeCase "a.b" = "a.b" := by decide

end Blueprint.Text
