import Nikl.Proofs.Session.Reading
import Nikl.Proofs.Syntax.Bracketing

/-
When typing goes on. A session holds a chunk back while a quick look at its characters finds delimiters
open, and it is the reader that knows whether they are. The two agree: a chunk that can be read as a
program is never held back, and one that ends before a delimiter is closed always is.

The quick look counts what tokens open and close, and the reader keeps its openers on a list. A program
leaves the list empty; a fault at an open delimiter is found at the end of the text, with that delimiter
on the list.
-/

set_option autoImplicit false

namespace Nikl

open Nikl.Parser

/-! ## What the reader knows of open delimiters -/

/-- Behind the last token of a source there is none, and no other is the end of the text. -/
theorem openCount_of_end {tokens ts back : List Token} {offset : Nat} {newline : Bool} {text : List Char}
    (htiles : Tiles offset newline text tokens) (h : tokens = ts ++ back)
    (hend : (firstOf back).kind = .eof) : openCount tokens = openCount ts := by
  cases back with
  | nil => rw [h, List.append_nil]
  | cons t back =>
    replace hend : t.kind = .eof := hend
    obtain ⟨us, flag, hus, hnone⟩ := htiles.ends
    cases back with
    | nil =>
      have hweight : t.kind.weight = 0 := by rw [hend]; rfl
      rw [h, openCount_append, openCount_cons, hweight]
      simp
    | cons t' back =>
      -- the end of the text would stand before other tokens
      have hmem : t ∈ us := by
        have hdrop := congrArg List.dropLast (h.symm.trans hus)
        rw [List.dropLast_concat, List.dropLast_append_cons] at hdrop
        rw [← hdrop]
        simp
      exact absurd hend (hnone t hmem)

variable {source : String}

theorem openDelimiters_of_parse_ok {tokens : List Token} {b : Block} (hlex : lex source = .ok tokens)
    (hparse : parse tokens = .ok b) : openDelimiters source = 0 := by
  obtain ⟨c', hrun⟩ := parse_eq_ok_iff.1 hparse
  obtain ⟨ts, hts, hopen⟩ := (keeps_program (Cursor.ofTokens tokens) []).ok b c' hrun
  have hend : (firstOf c'.rest).kind = .eof := of_decide_eq_true (program_gives hrun).1
  rw [openDelimiters_eq hlex, openCount_of_end (lexFrom_eq_ok_iff.1 hlex) hts hend,
    openCount_of_stillOpen hopen]
  rfl

theorem openDelimiters_of_unclosed {tokens : List Token} {e : ParseError} {close : TokenKind}
    {opener : Span} (hlex : lex source = .ok tokens) (hparse : parse tokens = .error e)
    (hfault : e.fault = .unclosed close opener) : 0 < openDelimiters source := by
  have hrun := parse_eq_error_iff.1 hparse
  obtain ⟨ts, back, o, openers, hts, hend, -, hopen, -⟩ :=
    (keeps_program (Cursor.ofTokens tokens) []).error e close opener hrun hfault
  rw [openDelimiters_eq hlex, openCount_of_end (lexFrom_eq_ok_iff.1 hlex) hts hend,
    openCount_of_stillOpen hopen, List.length_cons, List.length_nil]
  omega

/-! ## Lines -/

namespace Repl

/-- A line is one more of a chunk, which comes to `source` with it: it is not blank, and does not end
the session. -/
structure Gathers (r : Repl) (line source : String) : Prop where
  notBlank : Text.allBlank (withoutBreak line) = false
  notExit : ¬ (r.pending.isEmpty = true ∧ String.ofList (Text.trim (withoutBreak line)) = "exit")
  chunk : r.pending ++ String.ofList (withoutBreak line) ++ "\n" = source

variable {r : Repl} {line : String}

/-- What becomes of a chunk is settled by its open delimiters. -/
theorem Gathers.feedLine (h : r.Gathers line source) :
    r.feedLine line =
      if 0 < openDelimiters source then (.incomplete, { r with pending := source })
      else r.runChunk source := by
  rw [Repl.feedLine]
  dsimp only
  rw [h.notBlank, if_neg Bool.false_ne_true, if_neg h.notExit, h.chunk]

theorem feedLine_blank (hblank : Text.allBlank (withoutBreak line) = true) (hpending : r.pending ≠ "") :
    r.feedLine line = r.runChunk r.pending := by
  have hempty : r.pending.isEmpty = false := by
    simpa [String.isEmpty_iff] using hpending
  rw [Repl.feedLine]
  dsimp only
  rw [hblank, if_pos rfl, hempty, if_neg Bool.false_ne_true]

/-- A chunk that is held back is run by a blank line, and as it is by no other. -/
theorem ran_pending_iff (hpending : r.pending ≠ "") :
    (∃ report, (r.feedLine line).1 = .ran report ∧ report.source = r.pending) ↔
      Text.allBlank (withoutBreak line) = true := by
  constructor
  · rintro ⟨report, hran, hsource⟩
    by_contra hblank
    rw [Bool.not_eq_true] at hblank
    have hexit : ¬ (r.pending.isEmpty = true ∧
        String.ofList (Text.trim (withoutBreak line)) = "exit") := by
      rintro ⟨hempty, -⟩
      exact hpending (String.isEmpty_iff.1 hempty)
    rw [Gathers.feedLine ⟨hblank, hexit, rfl⟩] at hran
    split at hran
    · cases hran
    · cases hran
      -- what is run then is longer than what was held back
      have hlen := congrArg String.length hsource
      replace hlen : (r.pending ++ String.ofList (withoutBreak line) ++ "\n").length =
        r.pending.length := hlen
      rw [String.length_append, String.length_append] at hlen
      have hone : ("\n" : String).length = 1 := rfl
      omega
  · intro hblank
    rw [feedLine_blank hblank hpending]
    exact ⟨_, rfl, rfl⟩

end Repl

/-! ## The reader and the session agree -/

/-- **Typing goes on just where delimiters are open.** The quick look at a source counts what its tokens
open and close. It finds none open in a source that can be read, so such a chunk is run; and it finds
some open where the reader does, so such a chunk is held back until a blank line comes. -/
theorem continuation_agrees (source : String) :
    (∀ tokens, lex source = .ok tokens →
      openDelimiters source =
        (tokens.countP (·.kind.isOpening) : Int) - tokens.countP (·.kind.isClosing)) ∧
    (∀ program, programOf source = .ok program →
      openDelimiters source = 0 ∧
      ∀ (r : Repl) (line : String), r.Gathers line source → r.feedLine line = r.runChunk source) ∧
    ∀ e, programOf source = .error (.parse e) → e.code = .unclosedDelimiter →
      0 < openDelimiters source ∧
      (∀ (r : Repl) (line : String), r.Gathers line source →
        r.feedLine line = (.incomplete, { r with pending := source })) ∧
      ∀ (r : Repl) (line : String), r.pending = source →
        ((∃ report, (r.feedLine line).1 = .ran report ∧ report.source = source) ↔
          Text.allBlank (Repl.withoutBreak line) = true) := by
  refine ⟨fun tokens hlex => openDelimiters_eq hlex, fun program hprogram => ?_, fun e he hcode => ?_⟩
  · obtain ⟨tokens, hlex, hparse⟩ := programOf_eq_ok_iff.1 hprogram
    have hnone := openDelimiters_of_parse_ok hlex hparse
    refine ⟨hnone, fun r line hline => ?_⟩
    rw [hline.feedLine, if_neg (by omega)]
  · obtain ⟨tokens, hlex, hparse⟩ := lex_of_parseError he
    obtain ⟨close, opener, hfault⟩ := unclosed_of_code hcode
    have hsome := openDelimiters_of_unclosed hlex hparse hfault
    refine ⟨hsome, fun r line hline => ?_, ?_⟩
    · rw [hline.feedLine, if_pos hsome]
    · rintro r line rfl
      refine Repl.ran_pending_iff fun hempty => ?_
      rw [hempty] at hsome
      exact absurd hsome (by decide)

/-- A call whose arguments go on, after a string and a comment with delimiters in them. -/
def unfinishedCall : String := "f(\")\", // (\n"

/-- The text ends where a further argument or the end of the call could stand. -/
def unfinishedCallError : ParseError :=
  ⟨.unclosed (.symbol .rightParen) ⟨1, 2⟩, ⟨12, 12⟩, some .functionCall⟩

theorem continuation_agrees_unfinishedCall :
    openDelimiters unfinishedCall = 1 ∧
    (Repl.mk (Machine.ofLimit 3) "").feedLine "f(\")\", // (" =
      (.incomplete, ⟨Machine.ofLimit 3, unfinishedCall⟩) ∧
    (∃ report, ((Repl.mk (Machine.ofLimit 3) unfinishedCall).feedLine "").1 = .ran report ∧
      report.source = unfinishedCall) ∧
    (Repl.mk (Machine.ofLimit 3) unfinishedCall).feedLine ")" =
      (Repl.mk (Machine.ofLimit 3) unfinishedCall).runChunk (unfinishedCall ++ ")\n") := by
  have hunclosed : programOf unfinishedCall = .error (.parse unfinishedCallError) := by
    have hfails : (programOf unfinishedCall).map (fun _ => ()) =
        .error (.parse unfinishedCallError) := by decide +kernel
    cases hprogram : programOf unfinishedCall with
    | ok program =>
      rw [hprogram] at hfails
      cases hfails
    | error failure =>
      rw [hprogram] at hfails
      cases hfails
      rfl
  have hreads : ∃ program, programOf (unfinishedCall ++ ")\n") = .ok program := by
    have hok : (programOf (unfinishedCall ++ ")\n")).isOk = true := by decide +kernel
    cases hprogram : programOf (unfinishedCall ++ ")\n") with
    | ok program => exact ⟨program, rfl⟩
    | error e =>
      rw [hprogram] at hok
      cases hok
  obtain ⟨program, hprogram⟩ := hreads
  obtain ⟨-, hholds, hruns⟩ := (continuation_agrees unfinishedCall).2.2 _ hunclosed rfl
  have hruns' := ((continuation_agrees (unfinishedCall ++ ")\n")).2.1 program hprogram).2
  refine ⟨by decide +kernel, ?_, ?_, ?_⟩
  · exact hholds ⟨Machine.ofLimit 3, ""⟩ _ ⟨by decide +kernel, by decide +kernel, by decide +kernel⟩
  · exact (hruns ⟨Machine.ofLimit 3, unfinishedCall⟩ "" rfl).2 (by decide +kernel)
  · exact hruns' ⟨Machine.ofLimit 3, unfinishedCall⟩ _
      ⟨by decide +kernel, by decide +kernel, by decide +kernel⟩

end Nikl
