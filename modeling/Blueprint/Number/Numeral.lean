import Blueprint.Number.Basic

/-!
# `Blueprint/Number/Numeral.lean` — written numbers and what they denote

A numeral is a number as it is written: an optional minus sign, the digits before the point, those
after it, and an exponent. Reading it checks the grammar only; whether it denotes a number is a
second question, so a numeral that nobody asks for may have an exponent of any size.

A numeral without fraction and exponent denotes a whole number when it fits 64 bits, unsigned if
it is not negative and signed if it is. Everything else, minus zero included, is a floating-point
number, computed in three steps: digits are gathered into a significand as long as it stays below
`2 ^ 64` and the others only count for the exponent; the significand is rounded; the result is
multiplied or divided by the power of ten. A power of ten above `10 ^ 308` is out of range, unless
the significand is zero.
-/

set_option autoImplicit false

namespace Blueprint

/-- A written number. `fraction` is empty when there is no point; the exponent has its sign
(`true` for minus) and its digits. -/
structure Numeral where
  negative : Bool
  whole : List Char
  fraction : List Char
  exponent : Option (Bool × List Char)
deriving DecidableEq, Repr

namespace Numeral

/-! ## Grammar -/

/-- The digits at the head of a text and the text after them; at least one digit. -/
def digits? (cs : List Char) : Option (List Char × List Char) :=
  match cs.takeWhile Char.isDigit with
  | [] => none
  | ds => some (ds, cs.dropWhile Char.isDigit)

/-- The digits before the point: a zero stands alone. -/
def whole? : List Char → Option (List Char × List Char)
  | '0' :: rest =>
    match rest with
    | c :: _ => if c.isDigit then none else some (['0'], rest)
    | [] => some (['0'], rest)
  | cs => digits? cs

/-- The digits after the point, if there is one. -/
def fraction? : List Char → Option (List Char × List Char)
  | '.' :: rest => digits? rest
  | cs => some ([], cs)

/-- The sign of an exponent. -/
def exponentSign : List Char → Bool × List Char
  | '+' :: rest => (false, rest)
  | '-' :: rest => (true, rest)
  | cs => (false, cs)

/-- The exponent, if there is one. -/
def exponent? : List Char → Option (Option (Bool × List Char) × List Char)
  | c :: rest =>
    if c == 'e' || c == 'E' then do
      let (negative, rest) := exponentSign rest
      let (ds, rest) ← digits? rest
      return (some (negative, ds), rest)
    else some (none, c :: rest)
  | [] => some (none, [])

/-- A numeral at the head of a text and the text after it. -/
def read? (cs : List Char) : Option (Numeral × List Char) := do
  let (negative, cs) := match cs with
    | '-' :: rest => (true, rest)
    | _ => (false, cs)
  let (whole, cs) ← whole? cs
  let (fraction, cs) ← fraction? cs
  let (exponent, cs) ← exponent? cs
  return (⟨negative, whole, fraction, exponent⟩, cs)

/-! ## Meaning -/

/-- The value of a digit. -/
def digit (c : Char) : Nat := c.toNat - '0'.toNat

/-- The value of a list of digits. -/
def natural (ds : List Char) : Nat := ds.foldl (fun n c => n * 10 + digit c) 0

/-- The first natural number that does not fit 64 bits. -/
def pastUnsigned : Nat := 18446744073709551616

/-- The largest natural number whose negative fits 64 bits. -/
def mostNegative : Nat := 9223372036854775808

/-- Takes digits into a significand as long as it stays below `2 ^ 64`, and counts those that are
left over from the first one that does not fit. -/
def gather (significand : Nat) : List Char → Nat × Nat
  | [] => (significand, 0)
  | c :: rest =>
    let next := significand * 10 + digit c
    if next < pastUnsigned then gather next rest else (significand, rest.length + 1)

/-- A power of ten, rounded. -/
def powerOfTen (e : Nat) : Nat := Binary64.ofNat (Nat.pow 10 e)

/-- A magnitude divided by `10 ^ e`, at most 308 powers at a time. -/
def dividedBy (x e : Nat) : Nat :=
  if e ≤ 308 then Binary64.div x (powerOfTen e)
  else if x = 0 then 0
  else dividedBy (Binary64.div x (powerOfTen 308)) (e - 308)
termination_by e

/-- The magnitude of `significand · 10 ^ exponent`, or nothing when it is out of range. -/
def magnitude? (significand : Nat) (exponent : Int) : Option Nat :=
  if significand = 0 then some 0
  else
    let x := Binary64.ofNat significand
    match exponent with
    | .ofNat e =>
      if 308 < e then none
      else
        let y := Binary64.mul x (powerOfTen e)
        if y < Binary64.limit then some y else none
    | .negSucc e => some (dividedBy x (e + 1))

/-- The floating-point number that a numeral denotes. -/
def real? (n : Numeral) : Option Binary64 := do
  let (significand, surplus) := gather 0 n.whole
  let (significand, dropped) := gather significand n.fraction
  let written : Int := match n.exponent with
    | none => 0
    | some (true, ds) => -(natural ds : Int)
    | some (false, ds) => natural ds
  let exponent : Int := surplus - (n.fraction.length - dropped : Nat) + written
  let units ← magnitude? significand exponent
  return ⟨n.negative, units⟩

/-- The number that a numeral denotes, or nothing when it is out of range. -/
def value? (n : Numeral) : Option Number :=
  let whole := natural n.whole
  if n.fraction.isEmpty && n.exponent.isNone then
    if !n.negative && whole < pastUnsigned then some (.integer whole)
    else if n.negative && 0 < whole && whole ≤ mostNegative then some (.integer (-whole))
    else n.real?.map .real
  else n.real?.map .real

end Numeral

end Blueprint
