import Nikl.Evaluation.Operator
import Nikl.Value.Text

/-
Reaching into values: reading an item by its index, giving an item of a collection another value, and
listing the items that a loop goes through. Texts are read by character, maps by key, everything else
by a place counted from zero.
-/

set_option autoImplicit false

namespace Nikl

/-- The place that an integer stands for in something of a given length (`position`). -/
def placeOf? (index : Int64) (length : Nat) : Option Nat :=
  if 0 ≤ index.toInt ∧ index.toInt < length then some index.toInt.toNat else none

/-- The item of a list at an integer place. -/
def itemAt {ν : Type} (items : List (Value ν)) (index : Int64) : StoreMOf ν (Value ν) :=
  match (placeOf? index items.length).bind (items[·]?) with
  | some v => return v
  | none => StoreM.fail (.outOfBounds index items.length)

namespace Value

variable {ν : Type}

/-- The characters of a text, each a text of its own. -/
def letters (content : String) : List (Value ν) :=
  content.toList.map fun c => string (String.ofList [c])

/-- What equality of keys means in a store. -/
def sameIn (s : Store ν) (stored key : Value ν) : Settled Bool := equal? s stored key

/-! ## Items by index -/

/-- The item of a value at an index (`index_value`). -/
def index [Naming ν] (target index : Value ν) : StoreMOf ν (Value ν) := do
  let s ← get
  match target, index with
  | array r, int i => itemAt (s.items r) i
  | tuple items, int i => itemAt items i
  | string content, int i => itemAt (letters content) i
  | map r, key =>
    match ← StoreM.ofSettled ((s.entries r).get? (sameIn s) key) with
    | some v => return v
    | Option.none => StoreM.fail (.keyNotFound (key.text s))
  | target, index => StoreM.fail (.cannotIndex target.kind index.kind)

/-- Gives the item of a collection at an index another value (`assign_index`). A key that a map does not
have is added to it. -/
def assignIndex (target index value : Value ν) : StoreMOf ν Unit := do
  match target, index with
  | array r, int i =>
    let items := (← get).items r
    match placeOf? i items.length with
    | some place => modify fun s => s.put r (.array (items.set place value))
    | Option.none => StoreM.fail (.outOfBounds i items.length)
  | array _, index => StoreM.fail (.cannotIndex .array index.kind)
  | map r, key =>
    let s ← get
    let entries := s.entries r
    match ← StoreM.ofSettled (entries.position? (sameIn s) key) with
    -- the key that was written first stays, even where it differs from the new one to the eye
    | some place => modify fun s => s.put r (.map (entries.replaceAt place value).2)
    | Option.none => modify fun s => s.put r (.map (entries.append key value))
  | tuple _, _ => StoreM.fail .immutableTuple
  | target, _ => StoreM.fail (.noItemAssignment target.kind)

/-! ## Items in turn -/

end Value

/-- What one round of a loop binds: a value, and a second one for a second name (`LoopItem`). -/
structure LoopItem (ν : Type := String) where
  first : Value ν
  second : Option (Value ν) := none

namespace Value

variable {ν : Type}

/-- The two values of a pair (`unpack_pair`). -/
def pair? (s : Store ν) (v : Value ν) : Except EvalFault (LoopItem ν) :=
  match v with
  | tuple [a, b] => .ok ⟨a, some b⟩
  | tuple items => .error (.cannotUnpack .tuple (some items.length))
  | array r =>
    match s.items r with
    | [a, b] => .ok ⟨a, some b⟩
    | items => .error (.cannotUnpack .array (some items.length))
  | v => .error (.cannotUnpack v.kind Option.none)

/-- What a loop with one name, or with two, goes through: the items as they are when it begins
(`loop_items`). -/
def loopItems (s : Store ν) (pairs : Bool) (v : Value ν) : Except EvalFault (List (LoopItem ν)) :=
  let each (items : List (Value ν)) : Except EvalFault (List (LoopItem ν)) :=
    if pairs then items.mapM (pair? s) else .ok (items.map fun v => ⟨v, Option.none⟩)
  match v with
  | map r =>
    .ok ((s.entries r).map fun (k, v) => ⟨k, if pairs then some v else Option.none⟩)
  | array r => each (s.items r)
  | tuple items => each items
  | string content => each (letters content)
  | v => .error (.notIterable v.kind)

end Value

namespace Builtin

/-- What a built-in function prints and gives back (`Builtin::call`). -/
def apply {ν : Type} [Naming ν] (s : Store ν) :
    Builtin → List (Value ν) → Except EvalFault (String × Value ν)
  | print, args => .ok (String.intercalate " " (args.map (·.printed s)) ++ "\n", .none)
  | len, [v] =>
    match v.length? s with
    | some n => .ok ("", .int (Int64.ofNat n))
    | none => .error (.noLength v.kind)
  | len, args => .error (.wrongArity len.name 1 args.length)

end Builtin
end Nikl
