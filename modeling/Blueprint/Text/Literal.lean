import Blueprint.Text.Hex

/-!
# `Blueprint/Text/Literal.lean` — text literals

A text literal stands between double quotes on a single line. Backslash, quote, line feed,
carriage return and tab have escapes of two characters; every other control character is written
as `\u` and four hexadecimal digits; all other characters stand for themselves.
-/

set_option autoImplicit false

namespace Blueprint.Text

/-- Control characters: general category Cc, the two blocks U+0000–001F and U+007F–009F. -/
def isControl (c : Char) : Bool :=
  c.toNat < 0x20 || (0x7f ≤ c.toNat && c.toNat ≤ 0x9f)

/-- How one character is written inside a literal. -/
def escape (c : Char) : List Char :=
  match c with
  | '\\' => ['\\', '\\']
  | '"' => ['\\', '"']
  | '\n' => ['\\', 'n']
  | '\r' => ['\\', 'r']
  | '\t' => ['\\', 't']
  | c => if isControl c then '\\' :: 'u' :: hex 4 c.toNat else [c]

/-- The literal that denotes `s`. -/
def quote (s : String) : String :=
  String.ofList ('"' :: s.toList.flatMap escape ++ ['"'])

example : quote "a\"b" = "\"a\\\"b\"" := by decide
example : quote "\x7f" = "\"\\u007f\"" := by decide

end Blueprint.Text
