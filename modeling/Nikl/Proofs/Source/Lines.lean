import Mathlib.Algebra.Group.Nat.Defs
import Mathlib.Data.List.DropRight
import Mathlib.Data.Prod.Lex
import Mathlib.Order.Interval.Set.Defs
import Mathlib.Order.Monotone.Defs
import Nikl.Source.Lines

/-
Where an offset lies. A text is cut at its line feeds, and an offset between two characters lies in the
line behind the last line feed before it, as many characters behind the beginning of the line as there
are between the two. The table of line starts counts bytes and is searched for the offset; that this
comes to the same holds as long as starts and offsets can be told apart in 32 bits.

Everything is derived from one cut of the text: whole lines, which end in a line feed, and what follows
them. `startOf_append`, `lineText_append` and `position_append` say what the table finds there.
-/

set_option autoImplicit false

namespace Nikl.Source

/-! ## Whole lines and the rest -/

/-- What stands behind the last line feed of a text. -/
def lastLine (text : List Char) : List Char := text.rtakeWhile (· ≠ '\n')

/-- The text up to its last line feed. -/
def wholeLines (text : List Char) : List Char := text.rdropWhile (· ≠ '\n')

/-- No line is left unfinished. -/
def EndsLine (text : List Char) : Prop := text = [] ∨ ∃ front, text = front ++ ['\n']

/-- A line without the carriage return that may stand at its end. -/
def withoutReturn (line : List Char) : List Char :=
  if line.getLast? = some '\r' then line.dropLast else line

section Cutting

variable {text front back : List Char}

theorem wholeLines_append_lastLine (text : List Char) : wholeLines text ++ lastLine text = text :=
  List.rdropWhile_append_rtakeWhile

theorem not_mem_lastLine (text : List Char) : '\n' ∉ lastLine text := by
  intro hmem
  simpa using List.mem_rtakeWhile_imp hmem

theorem endsLine_wholeLines (text : List Char) : EndsLine (wholeLines text) := by
  by_cases hnil : wholeLines text = []
  · exact .inl hnil
  · have hlast : (wholeLines text).getLast hnil = '\n' := by
      have hnot := List.rdropWhile_last_not (fun c => decide (c ≠ '\n')) text hnil
      rwa [decide_eq_true_eq, not_not] at hnot
    refine .inr ⟨(wholeLines text).dropLast, ?_⟩
    rw [← hlast, List.dropLast_append_getLast]

/-- More of the same line. -/
theorem lastLine_append (front : List Char) (h : '\n' ∉ back) :
    lastLine (front ++ back) = lastLine front ++ back := by
  induction back using List.reverseRecOn with
  | nil => simp
  | append_singleton back c ih =>
    rw [List.mem_append, List.mem_singleton, not_or] at h
    have hlast := List.rtakeWhile_concat_pos (fun d => decide (d ≠ '\n')) (front ++ back) c
      (decide_eq_true (Ne.symm h.2))
    rw [← List.append_assoc, ← List.append_assoc, ← ih h.1]
    exact hlast

theorem count_lastLine (text : List Char) : (lastLine text).count '\n' = 0 :=
  List.count_eq_zero.2 (not_mem_lastLine text)

theorem count_wholeLines (text : List Char) : (wholeLines text).count '\n' = text.count '\n' := by
  conv_rhs => rw [← wholeLines_append_lastLine text, List.count_append, count_lastLine, Nat.add_zero]

theorem byteLength_wholeLines (text : List Char) :
    byteLength (wholeLines text) + byteLength (lastLine text) = byteLength text := by
  rw [← byteLength_append, wholeLines_append_lastLine]

end Cutting

/-! ## The starts of lines -/

section Starts

variable {offset start : Nat} {text : List Char}

theorem lineStartsFrom_append (offset : Nat) (front back : List Char) :
    lineStartsFrom offset (front ++ back) =
      lineStartsFrom offset front ++ lineStartsFrom (offset + byteLength front) back := by
  induction front generalizing offset with
  | nil => rfl
  | cons c front ih =>
    have hoffset : offset + byteLength (c :: front) = offset + c.utf8Size + byteLength front := by
      rw [byteLength_cons, Nat.add_assoc]
    rw [List.cons_append, lineStartsFrom, lineStartsFrom, ih, hoffset]
    by_cases hc : c = '\n'
    · rw [if_pos hc, if_pos hc, List.cons_append]
    · rw [if_neg hc, if_neg hc]

theorem length_lineStartsFrom (offset : Nat) (text : List Char) :
    (lineStartsFrom offset text).length = text.count '\n' := by
  induction text generalizing offset with
  | nil => rfl
  | cons c text ih =>
    rw [lineStartsFrom]
    by_cases hc : c = '\n'
    · rw [if_pos hc, List.length_cons, ih, hc, List.count_cons_self]
    · rw [if_neg hc, ih, List.count_cons_of_ne hc]

/-- A line starts behind the place where the text does, as far as offsets can tell. -/
theorem le_of_mem_lineStartsFrom (h : start ∈ lineStartsFrom offset text) :
    min (offset + 1) Span.maxOffset ≤ start := by
  induction text generalizing offset with
  | nil => cases h
  | cons c text ih =>
    have hc := c.utf8Size_pos
    rw [lineStartsFrom] at h
    have hstart : start = min (offset + c.utf8Size) Span.maxOffset ∨
        min (offset + c.utf8Size + 1) Span.maxOffset ≤ start := by
      by_cases hbreak : c = '\n'
      · rw [if_pos hbreak, List.mem_cons] at h
        exact h.imp id ih
      · rw [if_neg hbreak] at h
        exact .inr (ih h)
    omega

/-- A line starts before the end of the text. -/
theorem mem_lineStartsFrom_le (h : start ∈ lineStartsFrom offset text) :
    start ≤ offset + byteLength text := by
  induction text generalizing offset with
  | nil => cases h
  | cons c text ih =>
    rw [lineStartsFrom] at h
    rw [byteLength_cons]
    by_cases hc : c = '\n'
    · rw [if_pos hc, List.mem_cons] at h
      rcases h with rfl | h
      · rw [saturated]
        omega
      · have := ih h
        omega
    · rw [if_neg hc] at h
      have := ih h
      omega

/-- The lines of a text whose offsets can all be told apart start one behind the other. -/
theorem pairwise_lineStartsFrom (h : offset + byteLength text ≤ Span.maxOffset) :
    (lineStartsFrom offset text).Pairwise (· < ·) := by
  induction text generalizing offset with
  | nil => exact .nil
  | cons c text ih =>
    rw [byteLength_cons] at h
    rw [lineStartsFrom]
    have hrest : (lineStartsFrom (offset + c.utf8Size) text).Pairwise (· < ·) := ih (by omega)
    by_cases hc : c = '\n'
    · rw [if_pos hc, List.pairwise_cons]
      refine ⟨fun start hstart => ?_, hrest⟩
      -- a line starts behind this one, so it is not at the end of the text
      have hlow := le_of_mem_lineStartsFrom hstart
      have hhigh := mem_lineStartsFrom_le hstart
      have hpos : 0 < byteLength text := by
        cases text with
        | nil => cases hstart
        | cons d text =>
          have := d.utf8Size_pos
          rw [byteLength_cons]
          omega
      rw [saturated]
      omega
    · rw [if_neg hc]
      exact hrest

end Starts

/-! ## What the table finds -/

/-- Numbers that are no larger stand before those that are. -/
theorem countP_le_append {x : Nat} {earlier later : List Nat} (hearlier : ∀ y ∈ earlier, y ≤ x)
    (hlater : ∀ y ∈ later, x < y) : (earlier ++ later).countP (· ≤ x) = earlier.length := by
  have hall : earlier.countP (· ≤ x) = earlier.length :=
    List.countP_eq_length.2 fun y hy => decide_eq_true (hearlier y hy)
  have hnone : later.countP (· ≤ x) = 0 :=
    List.countP_eq_zero.2 fun y hy hle => absurd (of_decide_eq_true hle) (hlater y hy).not_ge
  rw [List.countP_append, hall, hnone, Nat.add_zero]

namespace LineTable

section Cut

variable {front back : List Char}

theorem ofText_append (front back : List Char) :
    (ofText (front ++ back)).starts =
      (ofText front).starts ++ lineStartsFrom (byteLength front) back := by
  rw [ofText, ofText, lineStartsFrom_append, Nat.zero_add]
  rfl

theorem length_starts (text : List Char) : (ofText text).starts.length = text.count '\n' + 1 := by
  rw [ofText, List.length_cons, length_lineStartsFrom]

theorem count_eq (text : List Char) : (ofText text).count = text.count '\n' + 1 := length_starts text

theorem mem_starts_le {start : Nat} {text : List Char} (h : start ∈ (ofText text).starts) :
    start ≤ byteLength text := by
  rcases List.mem_cons.1 h with rfl | h
  · exact Nat.zero_le _
  · have := mem_lineStartsFrom_le h
    omega

theorem pairwise_starts {text : List Char} (h : byteLength text ≤ Span.maxOffset) :
    (ofText text).starts.Pairwise (· < ·) := by
  have hfits : 0 + byteLength text ≤ Span.maxOffset := by omega
  refine List.pairwise_cons.2 ⟨fun start hstart => ?_, pairwise_lineStartsFrom hfits⟩
  have hlow := le_of_mem_lineStartsFrom hstart
  rw [Span.maxOffset] at hlow
  omega

/-- The line behind whole lines starts where these end. -/
theorem startOf_append (hwhole : EndsLine front) (hfits : byteLength front ≤ Span.maxOffset)
    (back : List Char) : (ofText (front ++ back)).startOf (front.count '\n' + 1) = byteLength front := by
  rw [startOf, Nat.add_sub_cancel, List.getD_eq_getElem?_getD, ofText_append,
    List.getElem?_append_left (by rw [length_starts]; omega)]
  rcases hwhole with rfl | ⟨line, rfl⟩
  · rfl
  · have hcount : (line ++ ['\n']).count '\n' = (ofText line).starts.length := by
      rw [length_starts, List.count_append, List.count_singleton_self]
    have hbreak : lineStartsFrom (byteLength line) ['\n'] =
        [min (byteLength (line ++ ['\n'])) Span.maxOffset] := by
      rw [byteLength_append]
      rfl
    rw [ofText_append, hcount, List.getElem?_append_right (Nat.le_refl _), Nat.sub_self, hbreak,
      Nat.min_eq_left hfits]
    rfl

/-- An offset lies behind all line starts before it. It lies before those that follow if it can be told
apart from them. -/
theorem lineAt_append (h : byteLength front < Span.maxOffset ∨ back = []) :
    (ofText (front ++ back)).lineAt (byteLength front) = saturated (front.count '\n' + 1) := by
  have hlater : ∀ start ∈ lineStartsFrom (byteLength front) back, byteLength front < start := by
    intro start hstart
    rcases h with hlt | rfl
    · have hlow := le_of_mem_lineStartsFrom hstart
      omega
    · cases hstart
  have hcount := countP_le_append (fun _ => mem_starts_le) hlater
  rw [lineAt, ofText_append, hcount, length_starts, Nat.max_eq_right (Nat.le_add_left 1 _)]

/-- The line in which a text is cut starts behind the whole lines before the cut. -/
theorem startOf_cut (front back : List Char) (hfits : byteLength front ≤ Span.maxOffset) :
    (ofText (front ++ back)).startOf (front.count '\n' + 1) = byteLength (wholeLines front) := by
  have hbytes := byteLength_wholeLines front
  have hstart := startOf_append (endsLine_wholeLines front) (by omega) (lastLine front ++ back)
  rwa [← List.append_assoc, wholeLines_append_lastLine, count_wholeLines] at hstart

/-- **Line and column are counted in characters**: the line feeds before the offset, and the characters
behind the last of them. The column is held in 32 bits, as the line is, and this one is no exception. -/
theorem position_append (h : byteLength front < Span.maxOffset ∨ back = [])
    (hline : front.count '\n' < Span.maxOffset) (hfits : byteLength front ≤ Span.maxOffset) :
    (ofText (front ++ back)).position (front ++ back) (byteLength front) =
      (front.count '\n' + 1, saturated ((lastLine front).length + 1)) := by
  have hend : min (byteLength front) (byteLength (front ++ back)) = byteLength front := by
    rw [byteLength_append]
    omega
  have hslice : slice? (front ++ back) (byteLength (wholeLines front)) (byteLength front) =
      some (lastLine front) := by
    have hcut := slice?_append (wholeLines front) (lastLine front) back
    rwa [wholeLines_append_lastLine] at hcut
  rw [position, lineAt_append h, saturated_eq hline, startOf_cut front back hfits, hend, hslice]
  rfl

/-- Below the largest offset no line and no column is too large. -/
theorem position_append_of_lt (hlt : byteLength front < Span.maxOffset) (back : List Char) :
    (ofText (front ++ back)).position (front ++ back) (byteLength front) =
      (front.count '\n' + 1, (lastLine front).length + 1) := by
  have hbytes := byteLength_wholeLines front
  have hcolumn := length_le_byteLength (lastLine front)
  have hlines : front.count '\n' ≤ front.length := List.count_le_length
  have hlength := length_le_byteLength front
  rw [position_append (.inl hlt) (by omega) hlt.le, saturated_eq (by omega)]

/-- The text of the line behind whole lines reaches to the next line feed. -/
theorem lineText_append (hwhole : EndsLine front) (hfits : byteLength front ≤ Span.maxOffset)
    (back : List Char) :
    (ofText (front ++ back)).lineText (front ++ back) (front.count '\n' + 1) =
      withoutReturn (back.takeWhile (· ≠ '\n')) := by
  have hend : min (byteLength front) (byteLength (front ++ back)) = byteLength front := by
    rw [byteLength_append]
    omega
  rw [lineText, startOf_append hwhole hfits, hend, dropBytes?_append]
  rfl

/-- So the text of the line in which a text is cut begins with what is before the cut. -/
theorem lineText_cut (front back : List Char) (hfits : byteLength front ≤ Span.maxOffset) :
    (ofText (front ++ back)).lineText (front ++ back) (front.count '\n' + 1) =
      withoutReturn (lastLine front ++ back.takeWhile (· ≠ '\n')) := by
  have hbytes := byteLength_wholeLines front
  have hline := lineText_append (endsLine_wholeLines front) (by omega) (lastLine front ++ back)
  have hpart : (lastLine front ++ back).takeWhile (· ≠ '\n') =
      lastLine front ++ back.takeWhile (· ≠ '\n') := by
    refine List.takeWhile_append_of_pos fun c hc => decide_eq_true ?_
    rintro rfl
    exact not_mem_lastLine front hc
  rwa [← List.append_assoc, wholeLines_append_lastLine, count_wholeLines, hpart] at hline

end Cut

theorem dropBytes?_suffix {n : Nat} {text rest : List Char} (h : dropBytes? n text = some rest) :
    rest <:+ text := by
  induction text generalizing n with
  | nil =>
    cases n with
    | zero => exact Option.some.inj h ▸ List.suffix_rfl
    | succ n => cases h
  | cons c text ih =>
    cases n with
    | zero => exact Option.some.inj h ▸ List.suffix_rfl
    | succ n =>
      rw [dropBytes?] at h
      split at h
      · exact (ih h).trans (List.suffix_cons c text)
      · cases h

/-- The text of a line is a part of the whole text, whatever the table. -/
theorem lineText_sublist (table : LineTable) (text : List Char) (line : Nat) :
    (table.lineText text line).Sublist text := by
  have hrest : ((dropBytes? (min (table.startOf line) (byteLength text)) text).getD []).Sublist text := by
    cases hdrop : dropBytes? (min (table.startOf line) (byteLength text)) text with
    | none => exact List.nil_sublist text
    | some rest => exact (dropBytes?_suffix hdrop).sublist
  have hcontent := (List.takeWhile_sublist (· ≠ '\n')).trans hrest
  rw [lineText]
  split
  · exact (List.dropLast_sublist _).trans hcontent
  · exact hcontent

end LineTable

/-! ## The pieces between line feeds -/

section Pieces

variable {text piece : List Char} {n : Nat}

theorem splitOn_break (text : List Char) : ('\n' :: text).splitOn '\n' = [] :: text.splitOn '\n' := by
  rw [List.splitOn, List.splitOnP_cons_eq_if_modifyHead, if_pos (by rfl)]
  rfl

theorem splitOn_cons {c : Char} (hc : c ≠ '\n') (text : List Char) :
    (c :: text).splitOn '\n' = (text.splitOn '\n').modifyHead (c :: ·) := by
  rw [List.splitOn, List.splitOnP_cons_eq_if_modifyHead, if_neg (by simpa using hc)]
  rfl

theorem length_splitOn (text : List Char) : (text.splitOn '\n').length = text.count '\n' + 1 := by
  induction text with
  | nil => rfl
  | cons c text ih =>
    by_cases hc : c = '\n'
    · rw [hc, splitOn_break, List.length_cons, ih, List.count_cons_self]
    · rw [splitOn_cons hc, List.length_modifyHead, ih, List.count_cons_of_ne hc]

/-- Each piece is the beginning of what follows whole lines, and as many of these as there are pieces
before it. -/
theorem exists_cut_of_splitOn (h : (text.splitOn '\n')[n]? = some piece) :
    ∃ front back, front ++ back = text ∧ EndsLine front ∧ front.count '\n' = n ∧
      piece = back.takeWhile (· ≠ '\n') := by
  induction text generalizing n piece with
  | nil =>
    cases n with
    | zero =>
      obtain rfl : [] = piece := Option.some.inj h
      exact ⟨[], [], rfl, .inl rfl, rfl, rfl⟩
    | succ n => cases h
  | cons c text ih =>
    by_cases hc : c = '\n'
    · subst hc
      rw [splitOn_break] at h
      cases n with
      | zero =>
        obtain rfl : [] = piece := Option.some.inj h
        exact ⟨[], '\n' :: text, rfl, .inl rfl, rfl, rfl⟩
      | succ n =>
        obtain ⟨front, back, rfl, hwhole, rfl, hpiece⟩ := ih h
        refine ⟨'\n' :: front, back, rfl, .inr ?_, List.count_cons_self, hpiece⟩
        rcases hwhole with rfl | ⟨line, rfl⟩
        · exact ⟨[], rfl⟩
        · exact ⟨'\n' :: line, rfl⟩
    · rw [splitOn_cons hc, List.getElem?_modifyHead] at h
      cases n with
      | zero =>
        obtain ⟨rest, hrest, rfl⟩ := Option.map_eq_some_iff.1 h
        obtain ⟨front, back, rfl, hwhole, hcount, rfl⟩ := ih hrest
        -- before the first piece there is nothing
        obtain rfl : front = [] := by
          rcases hwhole with hnil | ⟨line, rfl⟩
          · exact hnil
          · rw [List.count_append, List.count_singleton_self] at hcount
            cases hcount
        refine ⟨[], c :: back, rfl, .inl rfl, rfl, ?_⟩
        rw [List.takeWhile_cons, if_pos (decide_eq_true hc)]
      | succ n =>
        obtain ⟨front, back, rfl, hwhole, hcount, hpiece⟩ := ih h
        refine ⟨c :: front, back, rfl, .inr ?_, by rw [List.count_cons_of_ne hc, hcount], hpiece⟩
        rcases hwhole with rfl | ⟨line, rfl⟩
        · cases hcount
        · exact ⟨c :: line, rfl⟩

end Pieces

/-! ## Searching for an offset -/

/-- What a search for a number in an ascending list answers: the place where it stands, or else the
place where it belongs. -/
inductive SearchResult where
  | found (place : Nat)
  | missing (place : Nat)

namespace SearchResult

/-- The answer is right. -/
def Right (numbers : List Nat) (x : Nat) : SearchResult → Prop
  | found place => numbers[place]? = some x
  | missing place =>
    place ≤ numbers.length ∧ (∀ y ∈ numbers.take place, y < x) ∧ ∀ y ∈ numbers.drop place, x < y

/-- The line whose start was found, or else the one before the place. -/
def line : SearchResult → Nat
  | found place => place + 1
  | missing place => place - 1 + 1

variable {numbers : List Nat} {x place : Nat}

theorem countP_of_found (hasc : numbers.Pairwise (· < ·)) (h : (found place).Right numbers x) :
    numbers.countP (· ≤ x) = place + 1 := by
  obtain ⟨hlt, rfl⟩ := List.getElem?_eq_some_iff.1 h
  rw [List.pairwise_iff_getElem] at hasc
  have hearlier : ∀ y ∈ numbers.take (place + 1), y ≤ numbers[place] := by
    intro y hy
    obtain ⟨i, hi, rfl⟩ := List.mem_take_iff_getElem.1 hy
    rcases Nat.lt_or_ge i place with hbefore | hafter
    · exact (hasc i place _ hlt hbefore).le
    · obtain rfl : i = place := by omega
      exact le_rfl
  have hlater : ∀ y ∈ numbers.drop (place + 1), numbers[place] < y := by
    intro y hy
    obtain ⟨i, hi, rfl⟩ := List.mem_drop_iff_getElem.1 hy
    exact hasc place (place + 1 + i) hlt _ (by omega)
  have hcount := countP_le_append hearlier hlater
  rwa [List.take_append_drop, List.length_take_of_le hlt] at hcount

theorem countP_of_missing (h : (missing place).Right numbers x) : numbers.countP (· ≤ x) = place := by
  obtain ⟨hle, hearlier, hlater⟩ := h
  have hcount := countP_le_append (fun y hy => (hearlier y hy).le) hlater
  rwa [List.take_append_drop, List.length_take_of_le hle] at hcount

/-- Every right answer stands for the same line. -/
theorem Right.lineAt {table : LineTable} {answer : SearchResult} {offset : Nat}
    (hasc : table.starts.Pairwise (· < ·)) (h : answer.Right table.starts offset) :
    table.lineAt offset = saturated answer.line := by
  rw [LineTable.lineAt]
  refine congrArg saturated ?_
  cases answer with
  | found place =>
    rw [countP_of_found hasc h, line]
    omega
  | missing place =>
    rw [countP_of_missing h, line]
    omega

end SearchResult

/-! ## Every offset in its place -/

/-- The offsets between two characters of a text, its beginning and its end among them. -/
def boundaries (text : List Char) : Set Nat :=
  {offset | ∃ front back, front ++ back = text ∧ byteLength front = offset}

section Located

variable {text front back : List Char}

theorem front_le (hfits : byteLength (front ++ back) ≤ Span.maxOffset) :
    byteLength front ≤ Span.maxOffset := by
  rw [byteLength_append] at hfits
  omega

/-- Of two cuts of a text, the one at the larger offset has more before it. -/
theorem exists_between {front' back' : List Char} (h : front ++ back = front' ++ back')
    (hlt : byteLength front < byteLength front') : ∃ between, between ≠ [] ∧ front' = front ++ between := by
  rcases List.append_eq_append_iff.1 h with ⟨between, rfl, -⟩ | ⟨between, rfl, -⟩
  · refine ⟨between, ?_, rfl⟩
    rintro rfl
    rw [List.append_nil] at hlt
    exact absurd hlt (Nat.lt_irrefl _)
  · rw [byteLength_append] at hlt
    omega

/-- **A later offset has a later position**, up to the largest offset: a later line, or a later column of
the same line. -/
theorem strictMonoOn_position (text : List Char) :
    StrictMonoOn (fun offset => toLex ((LineTable.ofText text).position text offset))
      (boundaries text ∩ Set.Iio Span.maxOffset) := by
  -- what lies between the two offsets has a line feed, or is more of the same line
  rintro _ ⟨⟨front, back, rfl, rfl⟩, hfits⟩ _ ⟨⟨front', back', htext, rfl⟩, hfits'⟩ hlt
  have hpos := LineTable.position_append_of_lt hfits back
  have hpos' := LineTable.position_append_of_lt hfits' back'
  rw [htext] at hpos'
  dsimp only
  rw [hpos, hpos', Prod.Lex.toLex_lt_toLex]
  obtain ⟨between, hne, rfl⟩ := exists_between htext.symm hlt
  rw [List.count_append]
  by_cases hbreak : '\n' ∈ between
  · have hcount := List.count_pos_iff.2 hbreak
    exact .inl (by omega)
  · have hlength := List.length_pos_of_ne_nil hne
    have hnone := List.count_eq_zero.2 hbreak
    rw [lastLine_append front hbreak, List.length_append]
    exact .inr ⟨by omega, by omega⟩

theorem withoutReturn_prefix_self (line : List Char) : withoutReturn line <+: line := by
  rw [withoutReturn]
  split
  · exact List.dropLast_prefix line
  · exact List.prefix_rfl

/-- Of two beginnings of a text, the one with no more bytes is the beginning of the other. -/
theorem prefix_of_byteLength_le {a b : List Char} (ha : a <+: text) (hb : b <+: text)
    (hle : byteLength a ≤ byteLength b) : a <+: b := by
  rcases List.prefix_or_prefix_of_prefix ha hb with hprefix | ⟨rest, rfl⟩
  · exact hprefix
  · have hlength := length_le_byteLength rest
    rw [byteLength_append] at hle
    obtain rfl : rest = [] := List.length_eq_zero_iff.1 (by omega)
    exact ⟨[], by rw [List.append_nil, List.append_nil]⟩

/-- What is before an offset in its line is the beginning of the line's text, unless the offset is behind
that text. -/
theorem take_lineText (hfits : byteLength front ≤ Span.maxOffset)
    (hinside : byteLength front ≤ byteLength (wholeLines front) + byteLength
      ((LineTable.ofText (front ++ back)).lineText (front ++ back) (front.count '\n' + 1))) :
    ((LineTable.ofText (front ++ back)).lineText (front ++ back) (front.count '\n' + 1)).take
      (lastLine front).length = lastLine front := by
  have hbytes := byteLength_wholeLines front
  rw [LineTable.lineText_cut front back hfits] at hinside ⊢
  have hprefix := prefix_of_byteLength_le
    (List.prefix_append (lastLine front) (back.takeWhile (· ≠ '\n'))) (withoutReturn_prefix_self _) (by omega)
  exact (List.prefix_iff_eq_take.1 hprefix).symm

end Located

/-- **Line and column locate an offset.** In a source of less than 2^32 bytes, the line of an offset
between two characters is one more than the line feeds before it, and its column one more than the
characters behind the last of these; a later offset has a later position. The largest offset is left out,
at which the last line or column may be one too many to be held. There is one line more than
there are line feeds, and the text of each is the piece between its line feeds, without a carriage return
at the end. An offset that is not behind the text of its line has as many characters of it before it as
its column says. All this holds of any search in the table of line starts, which is ascending, that
answers rightly. -/
theorem line_and_column_exact {text : List Char} (hsize : byteLength text < 2 ^ 32) :
    (∀ front back, front ++ back = text → byteLength front < Span.maxOffset →
      (LineTable.ofText text).position text (byteLength front) =
        (1 + front.count '\n', 1 + (lastLine front).length)) ∧
    StrictMonoOn (fun offset => toLex ((LineTable.ofText text).position text offset))
      (boundaries text ∩ Set.Iio Span.maxOffset) ∧
    Set.InjOn ((LineTable.ofText text).position text) (boundaries text ∩ Set.Iio Span.maxOffset) ∧
    (LineTable.ofText text).count = 1 + text.count '\n' ∧
    (∀ line, 1 ≤ line → line ≤ (LineTable.ofText text).count →
      ∃ piece, (text.splitOn '\n')[line - 1]? = some piece ∧
        (LineTable.ofText text).lineText text line = withoutReturn piece) ∧
    (∀ front back line column, front ++ back = text → byteLength front < Span.maxOffset →
      (LineTable.ofText text).position text (byteLength front) = (line, column) →
      (LineTable.ofText text).startOf line = byteLength (wholeLines front) ∧
      (byteLength front ≤ (LineTable.ofText text).startOf line +
          byteLength ((LineTable.ofText text).lineText text line) →
        ((LineTable.ofText text).lineText text line).take (column - 1) = lastLine front)) ∧
    (LineTable.ofText text).starts.Pairwise (· < ·) ∧
    ∀ offset (answer : SearchResult), answer.Right (LineTable.ofText text).starts offset →
      (LineTable.ofText text).lineAt offset = saturated answer.line := by
  have hfits : byteLength text ≤ Span.maxOffset := Nat.le_of_lt_succ hsize
  have hposition : ∀ front back, front ++ back = text → byteLength front < Span.maxOffset →
      (LineTable.ofText text).position text (byteLength front) =
        (front.count '\n' + 1, (lastLine front).length + 1) := by
    rintro front back rfl hlt
    exact LineTable.position_append_of_lt hlt back
  have hmono := strictMonoOn_position text
  have hascending := LineTable.pairwise_starts hfits
  refine ⟨fun front back htext hlt => ?_, hmono, ?_, ?_, fun line hpos hline => ?_, ?_, hascending,
    fun _ _ hright => hright.lineAt hascending⟩
  · rw [hposition front back htext hlt, Nat.add_comm, Nat.add_comm (lastLine front).length]
  · intro offset hoffset offset' hoffset' heq
    exact hmono.injOn hoffset hoffset' (congrArg toLex heq)
  · rw [LineTable.count_eq, Nat.add_comm]
  · rw [LineTable.count_eq, ← length_splitOn] at hline
    have hpiece := List.getElem?_eq_getElem (l := text.splitOn '\n') (i := line - 1) (by omega)
    obtain ⟨front, back, htext, hends, hcount, hpart⟩ := exists_cut_of_splitOn hpiece
    refine ⟨_, hpiece, ?_⟩
    obtain rfl : line = front.count '\n' + 1 := by omega
    subst htext
    rw [LineTable.lineText_append hends (front_le hfits), hpart]
  · rintro front back line column htext hlt hat
    rw [hposition front back htext hlt] at hat
    obtain ⟨rfl, rfl⟩ := Prod.mk.inj hat
    subst htext
    rw [LineTable.startOf_cut front back hlt.le]
    exact ⟨rfl, take_lineText hlt.le⟩

/-- A line with a carriage return at its end, an empty one, and one that nothing ends. -/
def unevenLines : List Char := ['é', 'a', '\r', '\n', '\n', 'b', 'ß', 'c']

/-- The last letter stands at byte 9 of the text and is the third of its line; the carriage return at
byte 3 is behind the text of its own. -/
theorem line_and_column_exact_unevenLines :
    byteLength unevenLines = 10 ∧
    (LineTable.ofText unevenLines).position unevenLines 9 = (3, 3) ∧
    toLex ((LineTable.ofText unevenLines).position unevenLines 4) <
      toLex ((LineTable.ofText unevenLines).position unevenLines 5) ∧
    (LineTable.ofText unevenLines).count = 3 ∧
    (∃ piece, (unevenLines.splitOn '\n')[0]? = some piece ∧
      (LineTable.ofText unevenLines).lineText unevenLines 1 = withoutReturn piece) ∧
    ((LineTable.ofText unevenLines).lineText unevenLines 3).take 2 = ['b', 'ß'] ∧
    (LineTable.ofText unevenLines).lineAt 9 = saturated (SearchResult.missing 3).line := by
  have hsize : byteLength unevenLines < 2 ^ 32 := by decide
  obtain ⟨hposition, hmono, -, hcount, htext, htake, -, hsearch⟩ := line_and_column_exact hsize
  refine ⟨by decide, ?_, ?_, hcount, htext 1 (by decide) (by decide), ?_, ?_⟩
  · exact hposition ['é', 'a', '\r', '\n', '\n', 'b', 'ß'] ['c'] rfl (by decide)
  · exact hmono ⟨⟨['é', 'a', '\r'], ['\n', '\n', 'b', 'ß', 'c'], rfl, rfl⟩, Set.mem_Iio.2 (by decide)⟩
      ⟨⟨['é', 'a', '\r', '\n'], ['\n', 'b', 'ß', 'c'], rfl, rfl⟩, Set.mem_Iio.2 (by decide)⟩ (by decide)
  · have hat := hposition ['é', 'a', '\r', '\n', '\n', 'b', 'ß'] ['c'] rfl (by decide)
    exact (htake _ ['c'] 3 3 rfl (by decide) hat).2 (by decide)
  · exact hsearch 9 (.missing 3) ⟨by decide, by decide, by decide⟩

/-! ## The largest offset -/

/-- One character so many times. -/
def letters (n : Nat) : List Char := List.replicate n 'a'

theorem byteLength_letters (n : Nat) : byteLength (letters n) = n := by
  induction n with
  | zero => rfl
  | succ n ih =>
    rw [letters, List.replicate_succ, byteLength_cons, ← letters, ih, Nat.add_comm]
    rfl

theorem not_mem_letters (n : Nat) : '\n' ∉ letters n := by
  intro hmem
  cases List.eq_of_mem_replicate hmem

theorem count_letters (n : Nat) : (letters n).count '\n' = 0 := List.count_eq_zero.2 (not_mem_letters n)

theorem length_lastLine_letters (n : Nat) : (lastLine (letters n)).length = n := by
  rw [← List.nil_append (letters n), lastLine_append [] (not_mem_letters n), List.length_append, letters,
    List.length_replicate]
  exact Nat.zero_add n

/-- In a line of 2^32 - 1 letters the offset of the last one and the end of the text have one position,
although there is one more character before the end: its column, 2^32, is too large to be held. -/
theorem line_and_column_last :
    byteLength (letters 4294967295) < 2 ^ 32 ∧
      4294967294 ∈ boundaries (letters 4294967295) ∧ 4294967295 ∈ boundaries (letters 4294967295) ∧
      (LineTable.ofText (letters 4294967295)).position (letters 4294967295) 4294967294 =
        (1, 4294967295) ∧
      (LineTable.ofText (letters 4294967295)).position (letters 4294967295) 4294967295 =
        (1, 4294967295) ∧
      1 + (lastLine (letters 4294967295)).length = 4294967296 := by
  have hcut : letters 4294967294 ++ letters 1 = letters 4294967295 := List.replicate_append_replicate
  have hwhole : letters 4294967295 ++ [] = letters 4294967295 := List.append_nil _
  have hbefore : byteLength (letters 4294967294) < Span.maxOffset := by
    rw [byteLength_letters]
    decide
  have hline : (letters 4294967295).count '\n' < Span.maxOffset := by
    rw [count_letters]
    decide
  have hfits : byteLength (letters 4294967295) ≤ Span.maxOffset := by
    rw [byteLength_letters]
    decide
  have hlast := LineTable.position_append_of_lt hbefore (letters 1)
  have hend := LineTable.position_append (.inr (Eq.refl [])) hline hfits
  rw [hcut, byteLength_letters, count_letters, length_lastLine_letters] at hlast
  rw [hwhole, byteLength_letters, count_letters, length_lastLine_letters] at hend
  refine ⟨?_, ⟨_, _, hcut, byteLength_letters _⟩, ⟨_, _, hwhole, byteLength_letters _⟩, hlast, hend, ?_⟩
  · rw [byteLength_letters]
    decide
  · rw [length_lastLine_letters]

end Nikl.Source
