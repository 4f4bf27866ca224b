/-
Arithmetic on 64-bit integers. A result is computed exactly and then has to fit; one that does not is
an overflow, never a wrapped number. Quotients are cut toward zero, and a remainder has the sign of
the dividend. A remainder counts as an overflow where the quotient it belongs to does.
-/

set_option autoImplicit false

namespace Nikl

/-- What is computed, as messages name it (the names that `checked_arith` is given). -/
inductive Arithmetic where
  | addition | subtraction | multiplication | division | remainder | negation
  deriving DecidableEq, Repr

namespace Arithmetic

/-- How an operation is named. -/
def text : Arithmetic → String
  | addition => "addition"
  | subtraction => "subtraction"
  | multiplication => "multiplication"
  | division => "division"
  | remainder => "remainder"
  | negation => "negation"

/-- An integer in 64 bits, if it fits. -/
def fit? (n : Int) : Option Int64 :=
  if Int64.minValue.toInt ≤ n ∧ n ≤ Int64.maxValue.toInt then some (Int64.ofInt n) else none

/-- The quotient, cut toward zero (`checked_div`). -/
def quotient? (a b : Int64) : Option Int64 := fit? (a.toInt.tdiv b.toInt)

/-- The remainder that belongs to the quotient (`checked_rem`). -/
def remainder? (a b : Int64) : Option Int64 :=
  (quotient? a b).bind fun _ => fit? (a.toInt.tmod b.toInt)

end Arithmetic
end Nikl
