/-
Places in a source text. A span is the half-open range of bytes `start ≤ i < stop` that a token, a
node of the tree or a fault covers, counted in the UTF-8 form of the text.

Offsets are held in 32 bits: a range that reaches further is cut to the largest offset, so a span
of an oversized text is short but never wrong about its beginning.
-/

set_option autoImplicit false

namespace Nikl

/-- A range of bytes of a source text, the end excluded (`Span`). -/
structure Span where
  start : Nat
  stop : Nat
  deriving DecidableEq, Repr, Inhabited

namespace Span

/-- The largest offset a span can hold. -/
def maxOffset : Nat := 4294967295

/-- The span of a range, each end cut to `maxOffset` (`Span::from_range`). -/
def ofRange (start stop : Nat) : Span := ⟨min start maxOffset, min stop maxOffset⟩

/-- The empty span at an offset (`Span::point`). -/
def point (offset : Nat) : Span := ⟨offset, offset⟩

/-- The span that stands for "nowhere" (`Span::DUMMY`). -/
def nowhere : Span := ⟨0, 0⟩

/-- How many bytes a span covers; a reversed range covers none (`Span::len`). -/
def size (s : Span) : Nat := s.stop - s.start

/-- Whether a span covers nothing (`Span::is_empty`). -/
def isEmpty (s : Span) : Bool := s.stop ≤ s.start

/-- The smallest span that covers both (`Span::merge`). -/
def merge (a b : Span) : Span := ⟨min a.start b.start, max a.stop b.stop⟩

/-- The written form, `start..stop` (`Span::fmt`). -/
def text (s : Span) : String := s!"{s.start}..{s.stop}"

theorem isEmpty_iff (s : Span) : s.isEmpty = true ↔ s.size = 0 := by
  simp only [isEmpty, size, decide_eq_true_eq]; omega

theorem merge_start (a b : Span) : (a.merge b).start = min a.start b.start := rfl

theorem merge_stop (a b : Span) : (a.merge b).stop = max a.stop b.stop := rfl

end Span
end Nikl
