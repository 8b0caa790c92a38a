/-!
# `Blueprint/Number/Binary64.lean` — binary floating point

Every finite number with a significand of 53 bits is a whole multiple of `2 ^ -1074`, so its
magnitude is kept as that multiple, a natural number. Two numbers are the same exactly when their
fields are, and products and quotients are exact rational arithmetic followed by one rounding to
the nearest number, ties going to the even significand.
-/

set_option autoImplicit false

namespace Blueprint

/-- A finite floating-point number, `± units · 2 ^ -1074`. -/
structure Binary64 where
  negative : Bool
  units : Nat
deriving DecidableEq, Repr

namespace Binary64

/-- One, counted in units. -/
def one : Nat := Nat.pow 2 1074

/-- The distance in units from a magnitude to the next larger one. -/
def spacing (units : Nat) : Nat := Nat.pow 2 (units.log2 - 52)

/-- The quotient rounded to a whole number, ties going to the even one. -/
def divideToEven (num den : Nat) : Nat :=
  let q := num / den
  let r := num % den
  if 2 * r < den then q
  else if den < 2 * r then q + 1
  else if q % 2 = 0 then q else q + 1

/-- The magnitude nearest to `num / den` units. -/
def nearest (num den : Nat) : Nat :=
  let gap := spacing (num / den)
  divideToEven num (den * gap) * gap

/-- The first magnitude that is too large to be finite. -/
def limit : Nat := Nat.pow 2 2098

/-- A natural number. -/
def ofNat (n : Nat) : Nat := nearest (n * one) 1

/-- The product of two magnitudes. -/
def mul (x y : Nat) : Nat := nearest (x * y) one

/-- The quotient of two magnitudes. -/
def div (x y : Nat) : Nat := nearest (x * one) y

example : divideToEven 5 2 = 2 ∧ divideToEven 7 2 = 4 := by decide
example : nearest (2 ^ 53 + 1) 1 = 2 ^ 53 := by decide

end Binary64

end Blueprint
