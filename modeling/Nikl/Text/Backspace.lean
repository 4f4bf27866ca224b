import Nikl.Source.Bytes
import Nikl.Text.Cluster

/-
Lines with the backspaces still in them, as they are typed ahead. A backspace takes away the cluster
before it; at the beginning of a line it does nothing.

How many bytes a cluster has is remembered in a single byte. So of a cluster of 256 bytes or more only
what is above a multiple of 256 goes, counted from its end.
-/

set_option autoImplicit false

namespace Nikl.Text

open Nikl.Source

def backspace : Char := '\x08'

/-- A line while it is typed. -/
structure Typing where
  /-- What stands in the line, with the last character first. -/
  reversed : List Char := []
  /-- How many bytes each cluster in the line gives up, the last one first. -/
  sizes : List Nat := []

namespace Typing

/-- Puts a cluster behind the line. -/
def add (cluster : List Char) (t : Typing) : Typing :=
  ⟨cluster.reverse ++ t.reversed, byteLength cluster % 256 :: t.sizes⟩

/-- Takes away the last cluster. A character is never cut: if the bytes end inside of one, all stay. -/
def erase (t : Typing) : Typing :=
  match t.sizes with
  | [] => t
  | size :: sizes => ⟨(dropBytes? size t.reversed).getD t.reversed, sizes⟩

/-- The line after one more cluster, which may be a backspace. -/
def type (t : Typing) (cluster : List Char) : Typing :=
  if cluster = [backspace] then t.erase else t.add cluster

end Typing

/-- What stands in a line in the end (the line that `LineReader::read_line` hands on). -/
def typed (line : List Char) : List Char := ((clusters line).foldl Typing.type {}).reversed.reverse

/-! ## Lines without backspaces -/

theorem reversed_foldl_type (pieces : List (List Char)) (t : Typing) (h : [backspace] ∉ pieces) :
    (pieces.foldl Typing.type t).reversed = pieces.flatten.reverse ++ t.reversed := by
  induction pieces generalizing t with
  | nil => simp
  | cons piece rest ih =>
    simp only [List.mem_cons, not_or] at h
    have kept : t.type piece = t.add piece := if_neg (Ne.symm h.1)
    simp [kept, ih _ h.2, Typing.add]

/-- A line without backspaces is what was typed. -/
theorem typed_eq_self {line : List Char} (h : backspace ∉ line) : typed line = line := by
  have none_alone : [backspace] ∉ clusters line := fun alone =>
    h (flatten_clusters line ▸ List.mem_flatten.2 ⟨_, alone, by simp⟩)
  simp [typed, reversed_foldl_type _ _ none_alone, flatten_clusters]

end Nikl.Text
