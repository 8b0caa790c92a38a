import Blueprint.Number.Binary64

/-!
# `Blueprint/Number/Shortest.lean` — the fewest digits that read back

A floating-point number stands for every real that rounds to it. Its shortest decimal is the one
with the fewest digits inside that interval, and among those the one nearest to the number, a tie
going to the even digit. The search is plain: for one digit, two digits and so on it looks at the
two neighbours of the number on the decimal grid of that many digits.

Everything is counted in whole numbers. A magnitude of `units` is `units / 2 ^ 1074`; multiplied
by `4 · 2 ^ 1074 · 10 ^ 343` the number, the ends of its interval and every grid that is looked at
become natural numbers, since the smallest magnitude is above `10 ^ -324` and a number never needs
more than seventeen digits.
-/

set_option autoImplicit false

namespace Blueprint

/-- The decimal `d₁.d₂d₃… · 10 ^ exponent`, where `digits` is `d₁d₂d₃…`. -/
structure Scientific where
  digits : List Char
  exponent : Int
deriving DecidableEq, Repr

namespace Binary64

/-- The exponent of ten by which grids are scaled to whole numbers. -/
def gridExponent : Nat := 343

/-- The power of ten by which grids are scaled to whole numbers. -/
def gridScale : Nat := Nat.pow 10 gridExponent

/-- The reals that round to a magnitude, scaled; `closed` when the ends belong to them. -/
structure Interval where
  low : Nat
  high : Nat
  closed : Bool

/-- Whether a scaled real lies in the interval. -/
def Interval.holds (i : Interval) (x : Nat) : Bool :=
  if i.closed then i.low ≤ x && x ≤ i.high else i.low < x && x < i.high

/-- The interval of a magnitude. It is narrower below a power of two, where the spacing halves, and
its ends round to the magnitude when the significand is even. -/
def interval (units : Nat) : Interval :=
  let above := spacing units
  let below := if units == Nat.pow 2 units.log2 then spacing (units - 1) else above
  { low := (4 * units - 2 * below) * gridScale
    high := (4 * units + 2 * above) * gridScale
    closed := (units / above) % 2 == 0 }

/-- The exponent of the leading decimal digit of a magnitude. -/
def leadingExponent (units : Nat) : Int :=
  let digits := Nat.toDigits 10 (units * gridScale / one)
  (digits.length : Int) - 1 - gridExponent

/-- The neighbour of the magnitude on the grid `10 ^ exponent` that reads back, as a multiple of
the grid; the nearer one when both do. -/
def onGrid? (units : Nat) (exponent : Int) : Option Nat :=
  let value := 4 * units * gridScale
  let step := 4 * one * Nat.pow 10 (exponent + gridExponent).toNat
  let k := value / step
  let reals := interval units
  match reals.holds (k * step), reals.holds ((k + 1) * step) with
  | true, true =>
    if 2 * (value % step) < step then some k
    else if step < 2 * (value % step) then some (k + 1)
    else if k % 2 = 0 then some k else some (k + 1)
  | true, false => some k
  | false, true => some (k + 1)
  | false, false => none

/-- The shortest decimal of a positive magnitude. Seventeen digits always suffice, so the search
ends within them. -/
def shortest (units : Nat) : Scientific :=
  let lead := leadingExponent units
  let found := (List.range 17).findSome? fun (n : Nat) =>
    (onGrid? units (lead - n)).map fun k => (k, lead - n)
  match found with
  | none => ⟨['0'], 0⟩
  | some (k, exponent) =>
    let digits := Nat.toDigits 10 k
    { digits := (digits.reverse.dropWhile (· == '0')).reverse
      exponent := exponent + digits.length - 1 }

end Binary64

/-! ## The written form -/

/-- How floating-point numbers are written: positional when the leading digit is at or above
`10 ^ firstPositional` and below `10 ^ pastPositional`, otherwise with an exponent. -/
structure RealLayout where
  firstPositional : Int
  pastPositional : Int

/-- Numbers from `0.00001` up to below `10 ^ 16` are positional. -/
def realLayout : RealLayout := ⟨-5, 16⟩

namespace Scientific

/-- A decimal in positional notation, with at least one digit on either side of the point. -/
def positional (d : Scientific) : List Char :=
  if d.exponent < 0 then
    '0' :: '.' :: List.replicate ((-d.exponent).toNat - 1) '0' ++ d.digits
  else
    let whole := d.exponent.toNat + 1
    let fraction := d.digits.drop whole
    d.digits.take whole ++ List.replicate (whole - d.digits.length) '0' ++
      '.' :: (if fraction.isEmpty then ['0'] else fraction)

/-- A decimal with an exponent, whose sign is always written. -/
def exponential (d : Scientific) : List Char :=
  let significand :=
    match d.digits with
    | [] => []
    | [lead] => [lead]
    | lead :: rest => lead :: '.' :: rest
  significand ++ 'e' :: (if d.exponent < 0 then '-' else '+') ::
    Nat.toDigits 10 d.exponent.natAbs

/-- A decimal in the notation that the layout gives it. -/
def laidOut (d : Scientific) (layout : RealLayout) : List Char :=
  if layout.firstPositional ≤ d.exponent ∧ d.exponent < layout.pastPositional
  then d.positional else d.exponential

end Scientific

/-- The text of a floating-point number. -/
def Binary64.text (x : Binary64) : String :=
  let magnitude :=
    if x.units = 0 then ['0', '.', '0'] else (shortest x.units).laidOut realLayout
  String.ofList (if x.negative then '-' :: magnitude else magnitude)

example : Scientific.laidOut ⟨['1', '2'], 0⟩ realLayout = ['1', '.', '2'] := by decide
example : Scientific.laidOut ⟨['1'], 2⟩ realLayout = ['1', '0', '0', '.', '0'] := by decide
example : Scientific.laidOut ⟨['1'], -6⟩ realLayout = ['1', 'e', '-', '6'] := by decide
example : Scientific.laidOut ⟨['1', '5'], 16⟩ realLayout = ['1', '.', '5', 'e', '+', '1', '6'] := by
  decide

end Blueprint
