import Nikl.Decimal.Double

/-
The shortest decimal that reads back as a given double, and of those the nearest to it.

A positive double is the centre of an interval of reals that round to it; the ends belong to it
when the mantissa is even. For one digit, two digits, and so on, the two neighbours of the double on
the grid of decimals with that many digits are tried. The first grid with a neighbour in the
interval gives the answer, and of two such neighbours the nearer one is taken, the upper one if both
are equally near. If a grid has any point in the interval then one of the two neighbours is in it, so
no shorter decimal is missed.
-/

set_option autoImplicit false

namespace Nikl.Decimal

/-- The decimal `digits · 10 ^ exponent`. -/
structure Scaled where
  digits : Nat
  exponent : Int
  deriving DecidableEq, Repr

/-- A non-negative rational, `num / den`. -/
structure Ratio where
  num : Nat
  den : Nat

namespace Ratio

/-- `n · base ^ exponent`. -/
def scale (n base : Nat) (exponent : Int) : Ratio :=
  if 0 ≤ exponent then ⟨n * Nat.pow base exponent.toNat, 1⟩ else ⟨n, Nat.pow base (-exponent).toNat⟩

def le (a b : Ratio) : Bool := a.num * b.den ≤ b.num * a.den

def lt (a b : Ratio) : Bool := a.num * b.den < b.num * a.den

/-- The largest natural number at most `a / b`. -/
def floorDiv (a b : Ratio) : Nat := (a.num * b.den) / (a.den * b.num)

/-- How far two rationals are apart. -/
def distance (a b : Ratio) : Ratio :=
  ⟨(a.num * b.den - b.num * a.den) + (b.num * a.den - a.num * b.den), a.den * b.den⟩

end Ratio

/-- The reals that round to a double: from `low` to `high`, the ends belonging if `closed`. -/
structure Interval where
  low : Ratio
  high : Ratio
  closed : Bool

/-- The interval of a magnitude. Below a power of two the doubles lie twice as densely. -/
def Interval.around (d : Dyadic) : Interval where
  low :=
    if d.mantissa = Nat.pow 2 52 ∧ -1074 < d.exponent then
      Ratio.scale (4 * d.mantissa - 1) 2 (d.exponent - 2)
    else Ratio.scale (2 * d.mantissa - 1) 2 (d.exponent - 1)
  high := Ratio.scale (2 * d.mantissa + 1) 2 (d.exponent - 1)
  closed := d.mantissa % 2 = 0

def Interval.contains (i : Interval) (r : Ratio) : Bool :=
  if i.closed then i.low.le r && r.le i.high else i.low.lt r && r.lt i.high

/-- The exponent `k` of the decade `10 ^ k ≤ value < 10 ^ (k + 1)`. The estimate from the binary
length is off by at most one. -/
def decadeOf (value : Ratio) : Int :=
  let estimate := ((value.num.log2 : Int) - (value.den.log2 : Int)) * 30103 / 100000
  -- 30103 / 100000 stands for the decimal logarithm of two
  let starts (k : Int) : Bool := (Ratio.scale 1 10 k).le value
  if starts (estimate + 1) then estimate + 1
  else if starts estimate then estimate
  else if starts (estimate - 1) then estimate - 1
  else estimate - 2

/-- The neighbour of `value` on the grid of multiples of `10 ^ exponent` that lies in the interval,
the nearer one if both do, and the upper one of two equally near. -/
def onGrid? (interval : Interval) (value : Ratio) (exponent : Int) : Option Scaled :=
  let below := value.floorDiv (Ratio.scale 1 10 exponent)
  let place (n : Nat) : Ratio := Ratio.scale n 10 exponent
  let fits (n : Nat) : Bool := interval.contains (place n)
  if fits below then
    if fits (below + 1) && ((place (below + 1)).distance value).le ((place below).distance value) then
      some ⟨below + 1, exponent⟩
    else some ⟨below, exponent⟩
  else if fits (below + 1) then some ⟨below + 1, exponent⟩
  else none

/-- The first grid with a point in the interval, from `digits` digits upward. -/
def firstGrid (interval : Interval) (value : Ratio) (decade : Int) : (tries digits : Nat) → Scaled
  | 0, digits => ⟨value.floorDiv (Ratio.scale 1 10 (decade - digits)), decade - digits⟩
  | tries + 1, digits =>
    (onGrid? interval value (decade + 1 - digits)).getD (firstGrid interval value decade tries (digits + 1))

/-- The shortest decimal for a positive magnitude. Seventeen digits always suffice. -/
def shortest (d : Dyadic) : Scaled :=
  let value := Ratio.scale d.mantissa 2 d.exponent
  firstGrid (Interval.around d) value (decadeOf value) 17 1

end Nikl.Decimal
