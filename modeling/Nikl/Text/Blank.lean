/-
Blank characters, those of Unicode's `White_Space` property, and trimming by them. The property is
wider than the blanks of the language itself, which are a matter of its lexemes; it decides which
typed lines count as empty.
-/

set_option autoImplicit false

namespace Nikl.Text

def isBlank (c : Char) : Bool :=
  let n := c.toNat
  (9 ≤ n && n ≤ 13) || n = 32 || n = 0x85 || n = 0xA0 || n = 0x1680 || (0x2000 ≤ n && n ≤ 0x200A) ||
    n = 0x2028 || n = 0x2029 || n = 0x202F || n = 0x205F || n = 0x3000

/-- The text without the characters of a class at its end. -/
def dropRight (drop : Char → Bool) (text : List Char) : List Char :=
  (text.reverse.dropWhile drop).reverse

/-- The text without blanks at its end (the `trim_end` of `repl_loop`). -/
def trimRight (text : List Char) : List Char := dropRight isBlank text

/-- The text without blanks at either end (the `trim` of `Repl::feed_line`). -/
def trim (text : List Char) : List Char := (trimRight text).dropWhile isBlank

/-- A text of blanks alone, or none. -/
def allBlank (text : List Char) : Bool := text.all isBlank

/-- Everything that core counts as white space is blank. -/
theorem isBlank_of_isWhitespace {c : Char} (h : c.isWhitespace = true) : isBlank c = true := by
  simp only [Char.isWhitespace, Bool.or_eq_true, decide_eq_true_eq] at h
  rcases h with ((h | h) | h) | h <;> subst h <;> decide

end Nikl.Text
