import Nikl.Decimal.Shortest

/-
How the language writes and reads numbers with a fraction. The shortest digits are laid out
positionally where the magnitude is at least `10 ^ -4` and below `10 ^ 16`, always with a fraction;
otherwise as digits times a power of ten, marked `e` and without a plus sign. Infinities and NaN are
words, and NaN has no sign.
-/

set_option autoImplicit false

namespace Nikl.Decimal

/-- The decisions of a text form for numbers. -/
structure NumberFormat where
  /-- The least decade that is written positionally. -/
  leastDecade : Int
  /-- The least decade above those that are. -/
  beyondDecade : Int
  infinity : String
  notANumber : String

/-- Numbers of the language. -/
def NumberFormat.language : NumberFormat := ⟨-4, 16, "inf", "NaN"⟩

/-- The decimal digits of a number, without zeros at the end. -/
def significant (n : Nat) : List Char :=
  ((Nat.toDigits 10 n).reverse.dropWhile (· = '0')).reverse

/-- Digits with the point after the first `whole` of them, zeros standing in where digits are
missing on either side. -/
def positional (digits : List Char) (decade : Int) : List Char :=
  if 0 ≤ decade then
    let whole := decade.toNat + 1
    let fraction := digits.drop whole
    digits.take whole ++ List.replicate (whole - digits.length) '0' ++ ['.'] ++
      (if fraction.isEmpty then ['0'] else fraction)
  else ['0', '.'] ++ List.replicate ((-decade).toNat - 1) '0' ++ digits

/-- Digits with the point after the first, times a power of ten. -/
def scientific (digits : List Char) (decade : Int) : List Char :=
  let fraction := digits.drop 1
  digits.take 1 ++ (if fraction.isEmpty then [] else '.' :: fraction) ++ ['e'] ++
    (toString decade).toList

/-- The text of a positive decimal. -/
def NumberFormat.layOut (format : NumberFormat) (s : Scaled) : List Char :=
  -- the decade is taken before zeros are cut: rounding up may have made a new leading digit
  let decade := s.exponent + (Nat.toDigits 10 s.digits).length - 1
  let digits := significant s.digits
  if format.leastDecade ≤ decade ∧ decade < format.beyondDecade then positional digits decade
  else scientific digits decade

/-- The text of a double. -/
def NumberFormat.write (format : NumberFormat) (x : Float) : String :=
  if x.isNaN then format.notANumber
  else
    let sign := if isNegative x then "-" else ""
    if x.isInf then sign ++ format.infinity
    else if x == 0 then sign ++ "0.0"
    else sign ++ String.ofList (format.layOut (shortest (magnitude x)))

/-- The text of a double as the language shows it (the floats of `Value::write_repr_inner`). -/
def floatText (x : Float) : String := NumberFormat.language.write x

/-! ## Reading -/

/-- The number that a list of decimal digits stands for. -/
def digitsValue (digits : List Char) : Nat :=
  digits.foldl (fun n c => 10 * n + (c.toNat - '0'.toNat)) 0

/-- The double nearest to `digits · 10 ^ exponent`. -/
def nearest (digits : Nat) (exponent : Int) : Float :=
  if 0 ≤ exponent then Float.ofScientific digits false exponent.toNat
  else Float.ofScientific digits true (-exponent).toNat

/-- The double that a whole part and a fraction stand for (as `convert_token` parses it). -/
def ofParts (whole fraction : List Char) : Float :=
  nearest (digitsValue (whole ++ fraction)) (-(fraction.length : Int))

/-- An optional sign, and what follows it. -/
def splitSign : List Char → Bool × List Char
  | '-' :: rest => (true, rest)
  | '+' :: rest => (false, rest)
  | text => (false, text)

/-- A signed exponent after the mark `e`; no mark stands for zero. -/
def exponent? : List Char → Option Int
  | [] => some 0
  | mark :: rest =>
    let (negative, digits) := splitSign rest
    if (mark = 'e' || mark = 'E') && !digits.isEmpty && digits.all Char.isDigit then
      some (if negative then -(digitsValue digits : Int) else digitsValue digits)
    else none

/-- Reads a number in positional or scientific form, or one of the words `inf` and `nan`. -/
def read? (text : List Char) : Option Float :=
  let (negative, rest) := splitSign text
  let sign (x : Float) : Float := if negative then -x else x
  if rest = "inf".toList then some (sign (1.0 / 0.0))
  else if rest = "nan".toList then some (0.0 / 0.0)
  else
    let whole := rest.takeWhile Char.isDigit
    let after := rest.dropWhile Char.isDigit
    let fraction := if after.head? = some '.' then (after.drop 1).takeWhile Char.isDigit else []
    let tail := if after.head? = some '.' then (after.drop 1).dropWhile Char.isDigit else after
    if whole.isEmpty && fraction.isEmpty then none
    else
      (exponent? tail).map fun e =>
        sign (nearest (digitsValue (whole ++ fraction)) (e - (fraction.length : Int)))

end Nikl.Decimal
