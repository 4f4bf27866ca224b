/-
Byte offsets into a text that is held as a list of characters. Spans count bytes of the UTF-8 form,
while columns, underlines and the language's own strings count characters; everything that passes
from one to the other goes through the functions here.

A cut is made only between characters: `dropBytes?` and `takeBytes?` refuse an offset that falls
inside a character or past the end.
-/

set_option autoImplicit false

namespace Nikl.Source

/-- How many bytes the UTF-8 form of a text takes. -/
def byteLength : List Char → Nat
  | [] => 0
  | c :: rest => c.utf8Size + byteLength rest

/-- The text after the first `n` bytes, if a character ends there. -/
def dropBytes? : Nat → List Char → Option (List Char)
  | 0, text => some text
  | _ + 1, [] => none
  | n + 1, c :: rest => if c.utf8Size ≤ n + 1 then dropBytes? (n + 1 - c.utf8Size) rest else none

/-- The first `n` bytes of a text, if a character ends there. -/
def takeBytes? : Nat → List Char → Option (List Char)
  | 0, _ => some []
  | _ + 1, [] => none
  | n + 1, c :: rest =>
    if c.utf8Size ≤ n + 1 then (takeBytes? (n + 1 - c.utf8Size) rest).map (c :: ·) else none

/-- The bytes from `start` to `stop`, if both fall between characters and in this order. -/
def slice? (text : List Char) (start stop : Nat) : Option (List Char) :=
  if start ≤ stop then (dropBytes? start text).bind (takeBytes? (stop - start)) else none

@[simp] theorem byteLength_nil : byteLength [] = 0 := rfl

@[simp] theorem byteLength_cons (c : Char) (rest : List Char) :
    byteLength (c :: rest) = c.utf8Size + byteLength rest := rfl

theorem byteLength_append (a b : List Char) :
    byteLength (a ++ b) = byteLength a + byteLength b := by
  induction a with
  | nil => simp
  | cons c rest ih => simp only [List.cons_append, byteLength_cons, ih]; omega

/-- A character takes at least one byte, so a text is no shorter in bytes than in characters. -/
theorem length_le_byteLength (text : List Char) : text.length ≤ byteLength text := by
  induction text with
  | nil => simp
  | cons c rest ih =>
    have := c.utf8Size_pos
    simp only [List.length_cons, byteLength_cons]; omega

/-- Dropping the bytes of a whole piece leaves what follows it. -/
theorem dropBytes?_append (a b : List Char) : dropBytes? (byteLength a) (a ++ b) = some b := by
  induction a with
  | nil => simp [dropBytes?]
  | cons c rest ih =>
    have hc := c.utf8Size_pos
    obtain ⟨n, hn⟩ : ∃ n, c.utf8Size + byteLength rest = n + 1 := ⟨c.utf8Size + byteLength rest - 1, by omega⟩
    simp only [List.cons_append, byteLength_cons, hn, dropBytes?]
    rw [if_pos (by omega), show n + 1 - c.utf8Size = byteLength rest by omega, ih]

/-- Taking the bytes of a whole piece gives the piece. -/
theorem takeBytes?_append (a b : List Char) : takeBytes? (byteLength a) (a ++ b) = some a := by
  induction a with
  | nil => simp [takeBytes?]
  | cons c rest ih =>
    have hc := c.utf8Size_pos
    obtain ⟨n, hn⟩ : ∃ n, c.utf8Size + byteLength rest = n + 1 := ⟨c.utf8Size + byteLength rest - 1, by omega⟩
    simp only [List.cons_append, byteLength_cons, hn, takeBytes?]
    rw [if_pos (by omega), show n + 1 - c.utf8Size = byteLength rest by omega, ih]
    rfl

/-- The bytes of a whole piece are the piece. -/
theorem slice?_append (front piece back : List Char) :
    slice? (front ++ piece ++ back) (byteLength front) (byteLength (front ++ piece)) = some piece := by
  have hlen : byteLength (front ++ piece) - byteLength front = byteLength piece := by
    rw [byteLength_append, Nat.add_sub_cancel_left]
  rw [slice?, if_pos (by rw [byteLength_append]; omega), List.append_assoc, dropBytes?_append, hlen]
  exact takeBytes?_append piece back

end Nikl.Source
