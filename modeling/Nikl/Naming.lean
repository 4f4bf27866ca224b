/-
What names are. The names of a program and the contents of its strings are kept as texts, or as what
stands for texts, such as their numbers in a table. Whatever they are, they can be told apart, and the
text of each is known.
-/

set_option autoImplicit false

namespace Nikl

/-- What stands for texts. -/
class Naming (ν : Type) where
  /-- The text that a name stands for. -/
  text : ν → String

instance : Naming String where
  text x := x

@[simp] theorem Naming.text_string (x : String) : text x = x := rfl

end Nikl
