import Nikl.Decimal.Layout
import Nikl.Text.Quoted
import Nikl.Value.Store

/-
How values are written. The form of a value is that of an expression which makes it, where there is
one: texts between quotes, collections in their brackets, a tuple of one item with a comma behind it.

A collection that is met again while it is being written is shown by three dots in its brackets. On
the way down each collection is opened at most once, so as many levels as there are collections are
enough for any value.
-/

set_option autoImplicit false

namespace Nikl.Value

variable {ν : Type}

/-! ## One level

`opened` are the collections being written around a value. What a collection holds is written by
`inner`, to which the collection counts as opened. -/

/-- Texts with a comma and a space between each two (`write_items`). -/
def separated (texts : List (List Char)) : List Char := [',', ' '].intercalate texts

/-- A key and its value. -/
def entryText (key value : List Char) : List Char := key ++ [':', ' '] ++ value

/-- The items of a tuple between its parentheses. -/
def tupleText (items : List (List Char)) : List Char :=
  -- without the comma, one item between parentheses would be the item itself
  '(' :: separated items ++ (if items.length = 1 then [','] else []) ++ [')']

variable [Naming ν]

mutual

/-- The form of a value, given how what a collection holds is written (`Value::write_repr_inner`). -/
def textWith (s : Store ν) (inner : List Ref → Value ν → List Char) (opened : List Ref) : Value ν → List Char
  | int n => (toString n.toInt).toList
  | float x => (Decimal.floatText x).toList
  | bool b => if b then "True".toList else "False".toList
  | string content => Text.Quoted.write content.toList
  | none => "None".toList
  | function f => "<fn ".toList ++ f.name.toList ++ ['>']
  | builtin b => "<built-in ".toList ++ b.name.toList ++ ['>']
  | tuple items => tupleText (itemTextsWith s inner opened items)
  | array r =>
    if r ∈ opened then "[...]".toList
    else '[' :: separated ((s.items r).map (inner (r :: opened))) ++ [']']
  | map r =>
    if r ∈ opened then "\x7b...\x7d".toList
    else
      '\x7b' ::
        separated ((s.entries r).map fun (k, v) => entryText (inner (r :: opened) k) (inner (r :: opened) v)) ++
        ['\x7d']
termination_by structural v => v

def itemTextsWith (s : Store ν) (inner : List Ref → Value ν → List Char) (opened : List Ref) :
    List (Value ν) → List (List Char)
  | [] => []
  | v :: rest => textWith s inner opened v :: itemTextsWith s inner opened rest
termination_by structural vs => vs

end

/-! ## All levels -/

/-- The form of a value in which collections nest at most so deep (`Value::write_repr`). -/
def textWithin (s : Store ν) : (depth : Nat) → (opened : List Ref) → Value ν → List Char
  | 0 => textWith s (fun _ _ => [])
  | depth + 1 => textWith s (textWithin s depth)

/-- The form of a value inside some opened collections. -/
def chars (s : Store ν) (opened : List Ref) (v : Value ν) : List Char := textWithin s s.size opened v

/-- The form of a value (`Value::fmt`). -/
def text (s : Store ν) (v : Value ν) : String := String.ofList (v.chars s [])

/-- A value as it is printed: a text stands for itself (`Value::display_value`). -/
def printed (s : Store ν) : Value ν → String
  | string content => content
  | v => v.text s

/-- The form of a value with its kind around it (the detailed `Value::fmt`). -/
def detailed (s : Store ν) : Value ν → String
  | bool b => s!"Bool({b})"
  | string content => s!"Str({Text.Quoted.ofString content})"
  | function f => s!"Function({f.name})"
  | builtin b => s!"BuiltIn({b.name})"
  | none => "None"
  | v => s!"{v.kind.text}({v.text s})"

end Nikl.Value

namespace Nikl

/-- A short account of a function (`FunctionValue::fmt`). -/
def Closure.summary {ν : Type} [Naming ν] (f : Closure ν) : String :=
  "FunctionValue \x7b name: " ++ Text.Quoted.ofString f.name ++ ", arity: " ++ toString f.arity ++ ", .. \x7d"

end Nikl
