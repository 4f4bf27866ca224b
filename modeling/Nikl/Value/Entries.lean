import Nikl.Value.Store

/-
Maps as lists of entries. A key is looked for from the first entry on, and the first that is the same
as the key counts. Writing to a known key keeps its place and the key that was written first; writing
to another key adds an entry at the end.

What counts as the same key is a parameter, since keys may be collections themselves, compared by what
they hold.
-/

set_option autoImplicit false

namespace Nikl

/-- A result, or `none` where a comparison on the way to it never ends. -/
abbrev Settled (α : Type) := Option α

namespace Entries

variable {ν : Type} (same : Value ν → Value ν → Settled Bool)

/-- The value of a key (`OrderedMap::get`). -/
def get? (key : Value ν) : Entries ν → Settled (Option (Value ν))
  | [] => return none
  | (k, v) :: rest => do
    if ← same k key then return some v
    get? key rest

/-- Whether there is a key (`OrderedMap::contains_key`). -/
def contains? (key : Value ν) (entries : Entries ν) : Settled Bool := do
  return (← get? same key entries).isSome

/-- The place of a key (`OrderedMap::position`). -/
def position? (key : Value ν) : Entries ν → Settled (Option Nat)
  | [] => return none
  | (k, _) :: rest => do
    if ← same k key then return some 0
    return (← position? key rest).map (· + 1)

/-- Writes a value to a key, and tells which value it replaces (`OrderedMap::insert`). -/
def insert (key value : Value ν) : Entries ν → Settled (Option (Value ν) × Entries ν)
  | [] => return (none, [(key, value)])
  | (k, v) :: rest => do
    if ← same k key then return (some v, (k, value) :: rest)
    let (old, rest) ← insert key value rest
    return (old, (k, v) :: rest)

/-- Whether each of some entries is among others: the key is found, with the same value. -/
def includes (entries : Entries ν) : Entries ν → Settled Bool
  | [] => return true
  | (k, v) :: rest => do
    match ← get? same k entries with
    | none => return false
    | some found => if ← same found v then includes entries rest else return false

/-- The map that writing some entries in turn makes (`OrderedMap::from_iter`). -/
def ofList (entries : Entries ν) : Settled (Entries ν) :=
  entries.foldlM (fun es (k, v) => return (← insert same k v es).2) []

omit same

/-- Writes a value to a place, and tells which value it replaces (`OrderedMap::replace_at`). -/
def replaceAt : Nat → Value ν → Entries ν → Option (Value ν) × Entries ν
  | _, _, [] => (none, [])
  | 0, value, (k, v) :: rest => (some v, (k, value) :: rest)
  | n + 1, value, e :: rest =>
    let (old, rest) := replaceAt n value rest
    (old, e :: rest)

/-- Adds an entry at the end, whose key is known to be new (`OrderedMap::push_new`). -/
def append (key value : Value ν) (entries : Entries ν) : Entries ν := entries ++ [(key, value)]

/-- The keys, in order (`OrderedMap::keys`). -/
def keys (entries : Entries ν) : List (Value ν) := entries.map (·.1)

end Entries
end Nikl
