import Blueprint.Text.Hidden

/-!
# `Blueprint/Text/Visible.lean` — text for a log

Two ways to write a text so that a log stays readable. In the first the text is put in quotes and
nothing in it stays hidden: quote, backslash and the usual control characters have short escapes,
and a character without a glyph of its own is written as its code point in braces. In the second
the text stands as it is, except for the control characters on which a terminal would act.
-/

set_option autoImplicit false

namespace Blueprint.Text

/-- A code point in braces. -/
def codePoint (c : Char) : List Char := "\\u\x7b".toList ++ Nat.toDigits 16 c.toNat ++ ['}']

/-- How one character is shown. -/
def showChar (c : Char) : List Char :=
  match c with
  | '\x00' => ['\\', '0']
  | '\t' => ['\\', 't']
  | '\r' => ['\\', 'r']
  | '\n' => ['\\', 'n']
  | '\\' => ['\\', '\\']
  | '"' => ['\\', '"']
  | c => if isHidden c then codePoint c else [c]

/-- A text in quotes in which every character can be seen. -/
def visible (s : String) : String :=
  String.ofList ('"' :: s.toList.flatMap showChar ++ ['"'])

/-- Escapes the control characters that a terminal would act on, line breaks and tabs apart, and
leaves everything else as it is. -/
def disarmChar (c : Char) : List Char :=
  match c with
  | '\x1b' => "\\x1b".toList
  | '\x07' => "\\x07".toList
  | '\x08' => "\\x08".toList
  | '\x0c' => "\\x0c".toList
  | '\x7f' => "\\x7f".toList
  | c => if 0x80 ≤ c.toNat && c.toNat ≤ 0x9f then codePoint c else [c]

/-- A text that a terminal can print without acting on it. -/
def disarm (s : String) : String := String.ofList (s.toList.flatMap disarmChar)

end Blueprint.Text
