/-!
# `Blueprint/Text/Hex.lean` — hexadecimal text

Natural numbers written in lowercase base sixteen, padded with zeros on the left to a least width
and never cut, and the reading of one digit. Two parts of the library write them: fallback keys
and the escapes of text literals. Reading digits is what the escapes of JSON text need.
-/

set_option autoImplicit false

namespace Blueprint.Text

/-- The lowercase hexadecimal digits of `n`, at least `width` of them. -/
def hex (width n : Nat) : List Char :=
  let digits := Nat.toDigits 16 n
  List.replicate (width - digits.length) '0' ++ digits

/-- The value of one hexadecimal digit, in either case. -/
def hexDigit? (c : Char) : Option Nat :=
  if '0' ≤ c ∧ c ≤ '9' then some (c.toNat - '0'.toNat)
  else if 'a' ≤ c ∧ c ≤ 'f' then some (c.toNat - 'a'.toNat + 10)
  else if 'A' ≤ c ∧ c ≤ 'F' then some (c.toNat - 'A'.toNat + 10)
  else none

/-- The value of four hexadecimal digits. -/
def hexQuad? (a b c d : Char) : Option Nat := do
  let a ← hexDigit? a
  let b ← hexDigit? b
  let c ← hexDigit? c
  let d ← hexDigit? d
  return ((a * 16 + b) * 16 + c) * 16 + d

example : hex 5 0x1f = ['0', '0', '0', '1', 'f'] := by decide
example : hex 1 0x1f = ['1', 'f'] := by decide

end Blueprint.Text
