/-
Sets of characters for which there is no short rule. A set is held as the sorted list of the code
points at which membership changes, beginning outside the set, so a code point is in it when an odd
number of changes lies at or before it.
-/

set_option autoImplicit false

namespace Nikl.Text

/-- A set of characters, by the code points at which membership changes. -/
structure CharSet where
  changes : Array Nat

namespace CharSet

/-- How many entries of a sorted array between `low` and `high` are at most `x`, counted from the
start of the array, found by halving the interval at most `steps` times. -/
def countUpTo (sorted : Array Nat) (x : Nat) : (steps low high : Nat) → Nat
  | 0, low, _ => low
  | steps + 1, low, high =>
    if low < high then
      let middle := (low + high) / 2
      if sorted.getD middle 0 ≤ x then countUpTo sorted x steps (middle + 1) high
      else countUpTo sorted x steps low middle
    else low

/-- Whether a character is in a set. Each step halves what is left, so the binary length of the list
is steps enough. -/
def contains (set : CharSet) (c : Char) : Bool :=
  countUpTo set.changes c.toNat (set.changes.size.log2 + 1) 0 set.changes.size % 2 = 1

example : (['a', 'b', 'c', 'd'].map (CharSet.mk #[98, 100]).contains) = [false, true, true, false] := by
  decide +kernel

end CharSet
end Nikl.Text
