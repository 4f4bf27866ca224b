import Nikl.Proofs.Diagnostic.Colors
import Nikl.Proofs.Source.Lines

/-
The marks under a labelled text. A label that lies in one line is shown under that line: the marks begin
under its first character, since a column counts characters. But their number is taken from the length of
the span, which counts bytes, and cut where the line ends. So a character of more than one byte has too
many marks, as far as the line goes on behind the label.
-/

set_option autoImplicit false

namespace Nikl.Terminal

open Nikl.Source

/-! ## A label in a line -/

/-- A line of a source, and a part of it that is labelled. A carriage return at the end of the line does
not count. -/
structure LabelledLine where
  before : List Char
  line : List Char
  after : List Char
  /-- What is before the labelled part in the line, the part itself, and what is behind it. -/
  front : List Char
  piece : List Char
  back : List Char
  begins : EndsLine before
  unbroken : '\n' ∉ line
  ends : after = [] ∨ ∃ rest, after = '\n' :: rest
  parts : withoutReturn line = front ++ piece ++ back

namespace LabelledLine

/-- The whole source. -/
def text (place : LabelledLine) : List Char := place.before ++ place.line ++ place.after

/-- Where the labelled part lies in the source. -/
def span (place : LabelledLine) : Span :=
  ⟨byteLength (place.before ++ place.front), byteLength (place.before ++ place.front ++ place.piece)⟩

/-- How many marks stand under it: one for each of its bytes, but none behind the line. -/
def marks (place : LabelledLine) : Nat :=
  min (byteLength place.piece) (place.piece.length + place.back.length)

variable (place : LabelledLine)

theorem size_span : place.span.size = byteLength place.piece := by
  rw [Span.size, span, byteLength_append (place.before ++ place.front), Nat.add_sub_cancel_left]

theorem not_mem_front : '\n' ∉ place.front := by
  intro hmem
  refine place.unbroken ((withoutReturn_prefix_self place.line).subset ?_)
  rw [place.parts]
  exact List.mem_append_left _ (List.mem_append_left _ hmem)

theorem exists_text_eq : ∃ rest, place.text = place.before ++ place.front ++ rest := by
  obtain ⟨ending, hending⟩ := withoutReturn_prefix_self place.line
  refine ⟨place.piece ++ place.back ++ ending ++ place.after, ?_⟩
  rw [text, ← hending, place.parts]
  simp only [List.append_assoc]

theorem lastLine_front : lastLine (place.before ++ place.front) = place.front := by
  rw [lastLine_append _ place.not_mem_front]
  rcases place.begins with hnil | ⟨earlier, hearlier⟩
  · rw [hnil]
    rfl
  · have hbreak := List.rtakeWhile_concat_neg (fun c => decide (c ≠ '\n')) earlier '\n' (by decide)
    rw [hearlier, lastLine, hbreak, List.nil_append]

theorem takeWhile_line : (place.line ++ place.after).takeWhile (· ≠ '\n') = place.line := by
  have hline : ∀ c ∈ place.line, decide (c ≠ '\n') = true := by
    intro c hc
    refine decide_eq_true ?_
    rintro rfl
    exact place.unbroken hc
  rw [List.takeWhile_append_of_pos hline]
  rcases place.ends with hnil | ⟨rest, hrest⟩
  · rw [hnil, List.takeWhile_nil, List.append_nil]
  · rw [hrest, List.takeWhile_cons_of_neg (by decide), List.append_nil]

/-- The line and the column of the part, which is counted in characters. -/
theorem position_eq (hfits : place.span.start < Span.maxOffset) :
    (LineTable.ofText place.text).position place.text place.span.start =
      (place.before.count '\n' + 1, place.front.length + 1) := by
  have hcount : (place.before ++ place.front).count '\n' = place.before.count '\n' := by
    rw [List.count_append, List.count_eq_zero.2 place.not_mem_front, Nat.add_zero]
  obtain ⟨rest, hrest⟩ := place.exists_text_eq
  have hat : (LineTable.ofText (place.before ++ place.front ++ rest)).position
      (place.before ++ place.front ++ rest) place.span.start =
        ((place.before ++ place.front).count '\n' + 1,
          (lastLine (place.before ++ place.front)).length + 1) :=
    LineTable.position_append_of_lt hfits rest
  rwa [← hrest, hcount, place.lastLine_front] at hat

/-- The text of the line. -/
theorem lineText_eq (hfits : place.span.start < Span.maxOffset) :
    (LineTable.ofText place.text).lineText place.text (place.before.count '\n' + 1) =
      place.front ++ place.piece ++ place.back := by
  have hbefore : byteLength place.before ≤ Span.maxOffset := by
    rw [span, byteLength_append] at hfits
    dsimp only at hfits
    omega
  have hline := LineTable.lineText_append place.begins hbefore (place.line ++ place.after)
  rwa [← List.append_assoc, place.takeWhile_line, place.parts] at hline

theorem start_le : place.span.start ≤ byteLength place.text := by
  obtain ⟨rest, hrest⟩ := place.exists_text_eq
  rw [hrest, byteLength_append]
  exact Nat.le_add_right _ _

end LabelledLine

section Snippet

variable {place : LabelledLine} {source : String} {view : View} {l : Label}

/-- A label is shown under the line that it lies in. -/
theorem snippet?_eq (hsource : source.toList = place.text) (hspan : l.span = place.span)
    (hfits : place.span.start < Span.maxOffset) (hview : view.listing = some (Listing.ofString source)) :
    view.snippet? l = some ⟨place.before.count '\n' + 1, place.front.length + 1,
      place.front ++ place.piece ++ place.back⟩ := by
  rw [View.snippet?, hview, Option.bind_some, Listing.ofString]
  dsimp only
  rw [hsource, hspan, if_neg (Nat.not_lt.2 place.start_le), place.position_eq hfits,
    place.lineText_eq hfits]

/-- The marks and what is written behind them. -/
theorem underline_text (hspan : l.span = place.span) (hpiece : place.piece ≠ []) (line : Nat) :
    ∃ remark, (remark = "" ∨ ∃ rest, remark = " " ++ rest) ∧
      (underline l ⟨line, place.front.length + 1, place.front ++ place.piece ++ place.back⟩).text =
        repeated (if l.primary then '^' else '-') place.marks ++ remark := by
  have hpos := List.length_pos_of_ne_nil hpiece
  have hbytes := length_le_byteLength place.piece
  -- the part is not empty, so the least number of marks does not matter
  have hwidth : underlineWidth l.span.size (place.front ++ place.piece ++ place.back)
      (place.front.length + 1) = place.marks := by
    rw [underlineWidth, hspan, place.size_span, LabelledLine.marks, List.length_append, List.length_append]
    omega
  rw [underline]
  dsimp only
  rw [hwidth]
  by_cases hmessage : l.message.isEmpty
  · rw [if_pos hmessage]
    exact ⟨"", .inl rfl, (String.append_empty).symm⟩
  · rw [if_neg hmessage]
    exact ⟨" " ++ l.message, .inr ⟨_, rfl⟩, String.append_assoc⟩

end Snippet

/-! ## What is written for a label -/

/-- The margin of a line with a number, or with as much space as a number takes. -/
def margin (number : String) : String := " " ++ number ++ " | "

/-- A text shows a line with its number, and under it marks from a column on, which is counted from zero.
The two margins have one width, and what follows the marks, if anything does, begins with a space. -/
def ShowsMarks (colors : Bool) (written : String) (line : Nat) (content : List Char) (column : Nat)
    (mark : Char) (count : Nat) : Prop :=
  ∃ (earlier remark later : String) (style : Style),
    written = earlier ++ "\n" ++ margin (toString line) ++ String.ofList content ++ "\n" ++
      margin (repeated ' ' (toString line).length) ++ repeated ' ' column ++
      Piece.write colors ⟨style, repeated mark count ++ remark⟩ ++ "\n" ++ later ∧
    (remark = "" ∨ ∃ rest, remark = " " ++ rest)

theorem ShowsMarks.amid {colors : Bool} {written : String} {line column count : Nat} {content : List Char}
    {mark : Char} (h : ShowsMarks colors written line content column mark count) (front back : String) :
    ShowsMarks colors (front ++ written ++ back) line content column mark count := by
  obtain ⟨earlier, remark, later, style, rfl, hremark⟩ := h
  refine ⟨front ++ earlier, remark, later ++ back, style, ?_, hremark⟩
  simp only [String.append_assoc]

theorem write_plain (colors : Bool) (text : String) : (plain text).write colors = text :=
  if_neg (by simp [plain])

section Label

variable {place : LabelledLine} {source : String} {view : View} {l : Label} {snippet : Snippet}

/-- A label whose line is known takes three lines below its heading. -/
theorem write_labelPieces (hsnippet : view.snippet? l = some snippet) (colors : Bool) :
    ∃ heading, String.join ((labelPieces view l).map (Piece.write colors)) =
      heading ++ "\n" ++ margin (toString snippet.line) ++ String.ofList snippet.content ++ "\n" ++
        margin (repeated ' ' (toString snippet.line).length) ++ repeated ' ' (snippet.column - 1) ++
        (underline l snippet).write colors ++ "\n" := by
  have hbreak : (" |\n " : String) = " |" ++ ("\n" ++ " ") := rfl
  refine ⟨(if l.primary then "  --> " else "  ::: ") ++ Piece.write colors ⟨.bold, view.location l⟩ ++ "\n" ++
    (" " ++ repeated ' ' (toString snippet.line).length ++ " |"), ?_⟩
  rw [labelPieces, hsnippet]
  simp only [List.cons_append, List.nil_append, List.map_cons, List.map_nil, String.join_cons,
    String.join_nil, write_plain, margin, toString, hbreak, String.append_assoc, String.append_empty]

theorem showsMarks_label (hsource : source.toList = place.text) (hspan : l.span = place.span)
    (hpiece : place.piece ≠ []) (hfits : place.span.start < Span.maxOffset)
    (hview : view.listing = some (Listing.ofString source)) (colors : Bool) :
    ShowsMarks colors (String.join ((labelPieces view l).map (Piece.write colors)))
      (place.before.count '\n' + 1) (place.front ++ place.piece ++ place.back) place.front.length
      (if l.primary then '^' else '-') place.marks := by
  obtain ⟨remark, hremark, htext⟩ := underline_text hspan hpiece (place.before.count '\n' + 1)
  obtain ⟨heading, hwritten⟩ := write_labelPieces (snippet?_eq hsource hspan hfits hview) colors
  refine ⟨heading, remark, "", if l.primary then .error else .secondary, ?_, hremark⟩
  rw [hwritten, String.append_empty, ← htext]
  rfl

/-- The pieces of a label stand together among those of its diagnostic. -/
theorem labelPieces_within {d : Diagnostic} (hl : l ∈ d.labels) (view : View) :
    labelPieces view l <:+: pieces view d := by
  obtain ⟨earlier, later, hlabels⟩ := List.append_of_mem hl
  have hrow : labelPieces view l <:+: d.labels.flatMap (labelPieces view) := by
    refine ⟨earlier.flatMap (labelPieces view), later.flatMap (labelPieces view), ?_⟩
    rw [hlabels, List.flatMap_append, List.flatMap_cons, List.append_assoc]
  exact hrow.trans (List.infix_append _ _ _)

end Label

/-- A text takes no more bytes than it has characters just if each is a single byte. -/
theorem byteLength_eq_length_iff (text : List Char) :
    byteLength text = text.length ↔ ∀ c ∈ text, c.utf8Size = 1 := by
  induction text with
  | nil => simp
  | cons c text ih =>
    have hc := c.utf8Size_pos
    have hbytes := length_le_byteLength text
    rw [byteLength_cons, List.length_cons, List.forall_mem_cons, ← ih]
    omega

/-- **Marks stand under what is labelled.** A label of a non-empty part of a line is shown under the line,
whatever the path and the colours. The marks start under the first character of the part. There are as
many of them as the part has bytes, as long as the line goes on; so no character is without a mark, and
there are no more marks than characters just if each character is a single byte or the line ends with the
part. -/
theorem marks_under_label {place : LabelledLine} {source : String} {view : View} {d : Diagnostic} {l : Label}
    (hview : view.listing = some (Listing.ofString source)) (hsource : source.toList = place.text)
    (hl : l ∈ d.labels) (hspan : l.span = place.span) (hfits : l.span.stop ≤ Span.maxOffset)
    (hpiece : place.piece ≠ []) (colors : Bool) :
    ShowsMarks colors (render colors view d) (place.before.count '\n' + 1)
      (place.front ++ place.piece ++ place.back) place.front.length (if l.primary then '^' else '-')
      place.marks ∧
    place.piece.length ≤ place.marks ∧
    (place.marks = place.piece.length ↔ (∀ c ∈ place.piece, c.utf8Size = 1) ∨ place.back = []) := by
  have hpos := List.length_pos_of_ne_nil hpiece
  have hbytes := length_le_byteLength place.piece
  -- something follows the first offset, so it is not one that was cut
  have hlow : place.span.start < Span.maxOffset := by
    have hsize := place.size_span
    rw [Span.size] at hsize
    rw [hspan] at hfits
    omega
  refine ⟨?_, ?_, ?_⟩
  · have hshown := showsMarks_label hsource hspan hpiece hlow hview colors
    obtain ⟨front, back, hrow⟩ := labelPieces_within hl view
    rw [render, ← hrow, List.map_append, List.map_append, String.join_append, String.join_append]
    exact hshown.amid _ _
  · rw [LabelledLine.marks]
    omega
  · rw [LabelledLine.marks, ← byteLength_eq_length_iff, ← List.length_eq_zero_iff]
    omega

/-- A text with a letter of two bytes, and a label on the operands. -/
def accentedSum : LabelledLine where
  before := []
  line := "print(\"é\" + 1)".toList
  after := ['\n']
  front := "print(".toList
  piece := "\"é\" + 1".toList
  back := [')']
  begins := .inl rfl
  unbroken := by decide
  ends := .inr ⟨[], rfl⟩
  parts := by decide

/-- What is said of it. -/
def accentedSumFault : Diagnostic :=
  { code := .operandMismatch, message := "operator + cannot be applied", labels := [⟨⟨6, 14⟩, "here", true⟩] }

/-- The text as it is shown. -/
def accentedSumView : View := ⟨some "main.nk", some (Listing.ofString "print(\"é\" + 1)\n")⟩

theorem marks_under_label_accentedSum :
    ShowsMarks true (render true accentedSumView accentedSumFault) 1 "print(\"é\" + 1)".toList 6 '^' 8 ∧
    7 ≤ accentedSum.marks ∧
    (accentedSum.marks = 7 ↔ (∀ c ∈ accentedSum.piece, c.utf8Size = 1) ∨ accentedSum.back = []) := by
  have hsource : "print(\"é\" + 1)\n".toList = accentedSum.text := by decide
  have hlabel : ⟨⟨6, 14⟩, "here", true⟩ ∈ accentedSumFault.labels := by decide
  have hspan : (⟨6, 14⟩ : Span) = accentedSum.span := by decide
  exact marks_under_label rfl hsource hlabel hspan (by decide) (by decide) true

/-- The labelled part has seven characters, and eight marks. -/
theorem marks_exceed_label_accentedSum :
    accentedSum.piece.length = 7 ∧
    render false accentedSumView accentedSumFault =
      "error[E6003]: operator + cannot be applied\n  --> main.nk:1:7\n   |\n 1 | print(\"é\" + 1)\n" ++
        "   |       ^^^^^^^^ here\n" := by
  decide +kernel

end Nikl.Terminal
