import Nikl.Text.Hidden

/-
The quoted form of a text: between double quotes, with a backslash before a quote or a backslash,
the four short escapes, and `\u` with the code point in braces for a character that is shown by its
number. Everything else stands for itself.
-/

set_option autoImplicit false

namespace Nikl.Text.Quoted

/-- The code point of a character in hexadecimal, in braces. -/
def byNumber (c : Char) : List Char :=
  ['\\', 'u', '\x7b'] ++ Nat.toDigits 16 c.toNat ++ ['\x7d']

/-- A character as it is written between the quotes. -/
def writeChar (c : Char) : List Char :=
  if c = '"' then ['\\', '"']
  else if c = '\\' then ['\\', '\\']
  else if c = '\n' then ['\\', 'n']
  else if c = '\t' then ['\\', 't']
  else if c = '\r' then ['\\', 'r']
  else if c = '\x00' then ['\\', '0']
  else if isHidden c then byNumber c
  else [c]

/-- The quoted form of a list of characters. -/
def write (text : List Char) : List Char := '"' :: (text.flatMap writeChar ++ ['"'])

/-- The quoted form of a string (the strings of `Value::write_repr_inner`). -/
def ofString (s : String) : String := String.ofList (write s.toList)

example : ofString "a\"b\\c'" = "\"a\\\"b\\\\c'\"" := by cbv

end Nikl.Text.Quoted
