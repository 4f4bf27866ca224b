import Nikl.Value.Entries

/-
Equality of values. Numbers are equal only within their kind, and a number that is not a number equals
nothing. Tuples, arrays and maps are equal by what they hold, maps in any order; a collection is also
equal to itself, whatever it holds. Functions are equal only to themselves.

Two collections that contain themselves may be compared without end. On the way down through two
collections each pair is met at most once if the comparison ends, so a budget of as many steps as
there are pairs decides: a comparison that wants more never ends.
-/

set_option autoImplicit false

namespace Nikl

/-- Whether two lists are equal item by item. Lists of two lengths are not compared further. -/
def itemsEqual {ν : Type} (same : Value ν → Value ν → Settled Bool) (xs ys : List (Value ν)) : Settled Bool :=
  if xs.length = ys.length then go xs ys else return false
where
  go : List (Value ν) → List (Value ν) → Settled Bool
    | x :: xs, y :: ys => do if ← same x y then go xs ys else return false
    | _, _ => return true

/-- Whether two maps are equal: they have equally many entries and one has all of the other's. -/
def entriesEqual {ν : Type} (same : Value ν → Value ν → Settled Bool) (es fs : Entries ν) : Settled Bool :=
  if es.length = fs.length then fs.includes same es else return false

namespace Value

variable {ν : Type}

/-! ## One level

What two different collections hold is compared by `inner`. -/

mutual

/-- Whether two values are equal (`Value::structurally_equal`). -/
def equalWith (s : Store ν) (inner : Value ν → Value ν → Settled Bool) : Value ν → Value ν → Settled Bool
  | int a, int b => return a == b
  | float a, float b => return a == b
  | bool a, bool b => return a == b
  | string a, string b => return a == b
  | none, none => return true
  | tuple xs, tuple ys =>
    if xs.length = ys.length then tuplesEqualWith s inner xs ys else return false
  -- a collection is equal to itself even if it holds something that is not
  | array r, array q => if r = q then return true else itemsEqual inner (s.items r) (s.items q)
  | map r, map q => if r = q then return true else entriesEqual inner (s.entries r) (s.entries q)
  | function f, function g => return f.id == g.id
  | builtin a, builtin b => return a == b
  | _, _ => return false
termination_by structural v => v

/-- Whether two tuples of one length are equal item by item. -/
def tuplesEqualWith (s : Store ν) (inner : Value ν → Value ν → Settled Bool) :
    List (Value ν) → List (Value ν) → Settled Bool
  | x :: xs, y :: ys => do
    if ← equalWith s inner x y then tuplesEqualWith s inner xs ys else return false
  | _, _ => return true
termination_by structural xs => xs

end

/-! ## All levels -/

/-- Whether two values are equal, looking at most so many collections deep. -/
def equalWithin (s : Store ν) : (depth : Nat) → Value ν → Value ν → Settled Bool
  | 0 => equalWith s (fun _ _ => Option.none)
  | depth + 1 => equalWith s (equalWithin s depth)

/-- Whether two values are equal (`Value::eq`). -/
def equal? (s : Store ν) : Value ν → Value ν → Settled Bool := equalWithin s (s.size * s.size)

end Value
end Nikl
