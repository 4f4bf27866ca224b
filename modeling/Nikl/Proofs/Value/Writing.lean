import Nikl.Proofs.Value.Comparison
import Nikl.Proofs.Value.Data

/-
How deep writing a value has to go. On the way down each collection is opened at most once, since one
that is open is written as three dots. So there are never more levels than collections, and writing to
any greater depth gives the same text, also where collections contain themselves.
-/

set_option autoImplicit false

namespace Nikl

/-- The collections that could still be opened. -/
def Store.unopened (s : Store) (opened : List Ref) : Finset Nat :=
  (Finset.range s.size).filter fun i => Ref.mk i ∉ opened

theorem Store.unopened_le (s : Store) (opened : List Ref) : (s.unopened opened).card ≤ s.size := by
  have hle := (Finset.range s.size).card_filter_le fun i => Ref.mk i ∉ opened
  rwa [Finset.card_range] at hle

/-- Opening a collection leaves one less. -/
theorem Store.unopened_cons {s : Store} {opened : List Ref} {r : Ref} (hr : r ∉ opened)
    (hknown : r.index < s.size) : (s.unopened (r :: opened)).card < (s.unopened opened).card := by
  refine Finset.card_lt_card ⟨fun i hi => ?_, fun hsub => ?_⟩
  · simp only [unopened, Finset.mem_filter, List.mem_cons, not_or] at hi ⊢
    exact ⟨hi.1, hi.2.2⟩
  · -- `r` is one that could be opened before
    have hmem : r.index ∈ s.unopened opened := by simp [unopened, hr, hknown]
    have hno := hsub hmem
    simp [unopened] at hno

namespace Value

variable {s : Store} {opened : List Ref}

section OneLevel

variable {ν : Type} [Naming ν] (inner : List Ref → Value ν → List Char) {r : Ref}

theorem textWith_tuple (s : Store ν) (opened : List Ref) (items : List (Value ν)) :
    textWith s inner opened (.tuple items) = tupleText (items.map (textWith s inner opened)) :=
  congrArg tupleText (itemTextsWith_eq s opened inner items)

theorem textWith_array_opened (s : Store ν) (hr : r ∈ opened) :
    textWith s inner opened (.array r) = "[...]".toList := if_pos hr

theorem textWith_array (s : Store ν) (hr : r ∉ opened) : textWith s inner opened (.array r) =
    '[' :: separated ((s.items r).map (inner (r :: opened))) ++ [']'] := if_neg hr

theorem textWith_map_opened (s : Store ν) (hr : r ∈ opened) :
    textWith s inner opened (.map r) = "\x7b...\x7d".toList := if_pos hr

theorem textWith_map (s : Store ν) (hr : r ∉ opened) : textWith s inner opened (.map r) =
    '\x7b' :: separated ((s.entries r).map fun e =>
      entryText (inner (r :: opened) e.1) (inner (r :: opened) e.2)) ++ ['\x7d'] := if_neg hr

end OneLevel

/-- Texts agree on one level if they agree on what collections hold that are not open. -/
theorem textWith_congr {inner inner' : List Ref → Value → List Char}
    (h : ∀ r ∉ opened, r.index < s.size → ∀ w, inner (r :: opened) w = inner' (r :: opened) w)
    (v : Value) : textWith s inner opened v = textWith s inner' opened v := by
  induction v using inductTuple with
  | tuple items ih => rw [textWith_tuple, textWith_tuple, List.map_congr_left ih]
  | other v hv =>
    cases v with
    | tuple items => exact absurd rfl (hv items)
    | array r =>
      by_cases hr : r ∈ opened
      · rw [textWith_array_opened _ s hr, textWith_array_opened _ s hr]
      · have hitems : (s.items r).map (inner (r :: opened)) = (s.items r).map (inner' (r :: opened)) :=
          List.map_congr_left fun w hw => h r hr (s.index_lt_of_items (List.ne_nil_of_mem hw)) w
        rw [textWith_array _ s hr, textWith_array _ s hr, hitems]
    | map r =>
      by_cases hr : r ∈ opened
      · rw [textWith_map_opened _ s hr, textWith_map_opened _ s hr]
      · have hentries : ((s.entries r).map fun e =>
            entryText (inner (r :: opened) e.1) (inner (r :: opened) e.2)) =
            (s.entries r).map fun e =>
              entryText (inner' (r :: opened) e.1) (inner' (r :: opened) e.2) := by
          refine List.map_congr_left fun e he => ?_
          have hknown : r.index < s.size := s.index_lt_of_entries (List.ne_nil_of_mem he)
          rw [h r hr hknown e.1, h r hr hknown e.2]
        rw [textWith_map _ s hr, textWith_map _ s hr, hentries]
    | _ => rfl

/-- One level more changes nothing where there are as many levels as collections that are not open. -/
theorem textWithin_succ {n : Nat} (hn : (s.unopened opened).card ≤ n) (v : Value) :
    v.textWithin s (n + 1) opened = v.textWithin s n opened := by
  induction n generalizing opened v with
  | zero =>
    -- no collection is left that could be opened
    refine textWith_congr (fun r hr hknown w => ?_) v
    have hlt := Store.unopened_cons hr hknown
    omega
  | succ n ih =>
    refine textWith_congr (fun r hr hknown w => ih ?_ w) v
    have hlt := Store.unopened_cons hr hknown
    omega

/-- **Writing a value to a greater depth than there are collections gives the same text.** -/
theorem textWithin_stable (v : Value) {n : Nat} (hn : s.size ≤ n) : v.textWithin s n [] = v.chars s [] := by
  induction n, hn using Nat.le_induction with
  | base => rfl
  | succ n hn ih => rw [textWithin_succ (Nat.le_trans (s.unopened_le []) hn), ih]

/-- **What a value looks like depends on what looks like what it holds**, with the collection that is
written being open; how deep writing goes plays no role in it. -/
theorem chars_eq (s : Store) (opened : List Ref) (v : Value) :
    v.chars s opened = textWith s (chars s) opened v :=
  (textWithin_succ (s.unopened_le opened) v).symm

end Value

end Nikl
