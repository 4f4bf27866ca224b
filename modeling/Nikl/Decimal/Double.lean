/-
Double-precision numbers taken apart and put together. A finite double is a sign and a dyadic
magnitude `mantissa · 2 ^ exponent`, with the mantissa below `2 ^ 53` and the exponent at least
`-1074`. What the language needs beyond the basic operations of `Float` is computed on that form in
exact integer arithmetic: the shortest decimal text, and the remainder of a division.
-/

set_option autoImplicit false

namespace Nikl.Decimal

/-- The magnitude `mantissa · 2 ^ exponent`. -/
structure Dyadic where
  mantissa : Nat
  exponent : Int
  deriving DecidableEq, Repr

/-- Whether the sign bit is set; it is for `-0.0`. -/
def isNegative (x : Float) : Bool := x.toBits.toNat / Nat.pow 2 63 % 2 = 1

/-- The field of a double's exponent, between 0 and 2047; 2047 stands for infinities and NaN. -/
def exponentField (x : Float) : Nat := x.toBits.toNat / Nat.pow 2 52 % Nat.pow 2 11

/-- The field of a double's fraction. -/
def fractionField (x : Float) : Nat := x.toBits.toNat % Nat.pow 2 52

/-- The magnitude of a finite double. -/
def magnitude (x : Float) : Dyadic :=
  if exponentField x = 0 then ⟨fractionField x, -1074⟩
  else ⟨Nat.pow 2 52 + fractionField x, (exponentField x : Int) - 1075⟩

/-- The double of a magnitude whose mantissa is below `2 ^ 53` and whose exponent is at least
`-1074`. -/
def ofMagnitude (negative : Bool) (d : Dyadic) : Float :=
  let room := (d.exponent + 1074).toNat
  let shift := min (52 - d.mantissa.log2) room
  -- the leading bit moves to place 52, or as far as the least exponent allows
  let mantissa := d.mantissa * Nat.pow 2 shift
  let field := (d.exponent - shift + 1075).toNat
  let bits := if mantissa < Nat.pow 2 52 then mantissa else field * Nat.pow 2 52 + (mantissa - Nat.pow 2 52)
  Float.ofBits (UInt64.ofNat (bits + if negative then Nat.pow 2 63 else 0))

/-- The remainder of a division whose quotient is cut toward zero (the `%` of `eval_float_binary`). It
has the sign of the dividend, is exact, and is not a number where the dividend is infinite or the
divisor zero. -/
def remainder (x y : Float) : Float :=
  if x.isNaN || y.isNaN || x.isInf || y == 0 then 0.0 / 0.0
  else if y.isInf then x
  else
    let a := magnitude x
    let b := magnitude y
    -- over the lesser exponent both are whole numbers, and so is the remainder
    let exponent := min a.exponent b.exponent
    let dividend := a.mantissa * Nat.pow 2 (a.exponent - exponent).toNat
    let divisor := b.mantissa * Nat.pow 2 (b.exponent - exponent).toNat
    ofMagnitude (isNegative x) ⟨dividend % divisor, exponent⟩

end Nikl.Decimal
