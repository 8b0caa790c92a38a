import Blueprint.Number.Shortest

/-!
# `Blueprint/Number/Basic.lean` — numbers of a document

A number of a document is a whole number of 64 bits or a floating-point number; the two kinds are
kept apart, and `1` and `1.0` are different numbers with different texts.
-/

set_option autoImplicit false

namespace Blueprint

/-- A number of a document. -/
inductive Number where
  | integer (value : Int)
  | real (value : Binary64)
deriving DecidableEq, Repr

namespace Number

/-- The text of a number. -/
def text : Number → String
  | .integer value =>
    String.ofList
      (if value < 0 then '-' :: Nat.toDigits 10 value.natAbs else Nat.toDigits 10 value.natAbs)
  | .real value => value.text

end Number

end Blueprint
