import Mathlib.Data.List.DropRight
import Nikl.Proofs.Session.Continuation

/-
What is typed is neither lost nor used twice. Whatever comes in, line by line, is run as a part of one
chunk, or dropped with one that is broken off, or still waits for the rest of its chunk. Only blank lines
and the line that ends the session add nothing.

A line is answered in one of four ways, and in each the chunk that waits before it, with what the line
adds, is what goes and what waits after it. This adds up over a session, however lines and interruptions
follow one another.
-/

set_option autoImplicit false

namespace Nikl.Repl

/-! ## Lines -/

/-- A line without the line feeds and carriage returns that it ends in. -/
def stripped (line : String) : List Char := line.toList.rdropWhile (· ∈ ['\n', '\r'])

/-- What a line adds to a chunk: nothing if it is blank, else itself with one line feed for its end. -/
def contribution (line : String) : String :=
  if Text.allBlank line.toList then "" else String.ofList (stripped line) ++ "\n"

/-- A line ends a session that has no chunk waiting. -/
def Ends (r : Repl) (line : String) : Prop :=
  r.pending = "" ∧ String.ofList (Text.trim line.toList) = "exit"

section Line

variable {r : Repl} {line : String}

/-- Only line feeds and carriage returns are stripped from a line, and none is left at its end. -/
theorem exists_breaks (line : String) :
    ∃ breaks, line.toList = stripped line ++ breaks ∧ (∀ c ∈ breaks, c ∈ ['\n', '\r']) ∧
      ∀ c ∈ (stripped line).getLast?, c ∉ ['\n', '\r'] := by
  refine ⟨line.toList.rtakeWhile (· ∈ ['\n', '\r']), List.rdropWhile_append_rtakeWhile.symm, fun c hc => ?_,
    fun c hc => ?_⟩
  · simpa using List.mem_rtakeWhile_imp hc
  · obtain ⟨hne, rfl⟩ := List.mem_getLast?_eq_getLast hc
    exact of_decide_eq_false (Bool.not_eq_true _ ▸ List.rdropWhile_last_not _ line.toList hne)

/-- This is what the session cuts off, and it is blank. -/
theorem withoutBreak_eq (line : String) : withoutBreak line = stripped line := by
  have hsame : (fun c : Char => c = '\n' || c = '\r') = fun c => decide (c ∈ ['\n', '\r']) := by
    funext c
    simp
  rw [withoutBreak, hsame]
  rfl

theorem exists_blanks (line : String) :
    ∃ blanks, line.toList = withoutBreak line ++ blanks ∧ ∀ c ∈ blanks, Text.isBlank c = true := by
  obtain ⟨breaks, hline, hbreaks, -⟩ := exists_breaks line
  refine ⟨breaks, withoutBreak_eq line ▸ hline, fun c hc => ?_⟩
  have hbreak := hbreaks c hc
  simp only [List.mem_cons, List.not_mem_nil, or_false] at hbreak
  rcases hbreak with rfl | rfl <;> decide

theorem trim_append {back : List Char} (h : ∀ c ∈ back, Text.isBlank c = true) (front : List Char) :
    Text.trim (front ++ back) = Text.trim front := by
  have hdrop : (front ++ back).reverse.dropWhile Text.isBlank = front.reverse.dropWhile Text.isBlank := by
    rw [List.reverse_append]
    exact List.dropWhile_append_of_pos fun c hc => h c (List.mem_reverse.1 hc)
  rw [Text.trim, Text.trimRight, Text.dropRight, hdrop]
  rfl

theorem trim_withoutBreak (line : String) : Text.trim (withoutBreak line) = Text.trim line.toList := by
  obtain ⟨blanks, hline, hblank⟩ := exists_blanks line
  rw [hline, trim_append hblank]

theorem allBlank_withoutBreak (line : String) :
    Text.allBlank (withoutBreak line) = Text.allBlank line.toList := by
  obtain ⟨blanks, hline, hblank⟩ := exists_blanks line
  have hall : blanks.all Text.isBlank = true := List.all_eq_true.2 hblank
  rw [hline, Text.allBlank, Text.allBlank, List.all_append, hall, Bool.and_true]

/-- A blank line ends nothing. -/
theorem not_ends_of_blank (h : Text.allBlank line.toList = true) : ¬ r.Ends line := by
  rintro ⟨-, hexit⟩
  have hnone : Text.trim line.toList = [] := by
    have hback := List.all_eq_true.1 h
    have htrim := trim_append hback []
    rwa [List.nil_append] at htrim
  rw [hnone] at hexit
  exact absurd hexit (by decide)

/-- How a line is answered. -/
inductive Answers (r : Repl) (line : String) : Step → Repl → Prop where
  | exit (hends : r.Ends line) : Answers r line .exit r
  | empty (hends : ¬ r.Ends line) (hpending : r.pending = "") (hnone : contribution line = "") :
      Answers r line .empty r
  | incomplete (hends : ¬ r.Ends line) (hopen : 0 < openDelimiters (r.pending ++ contribution line)) :
      Answers r line .incomplete { r with pending := r.pending ++ contribution line }
  | ran {step : Step} {r' : Repl} (hends : ¬ r.Ends line)
      (hrun : r.runChunk (r.pending ++ contribution line) = (step, r')) : Answers r line step r'

theorem answers_blank (h : Text.allBlank line.toList = true) :
    Answers r line (r.feedLine line).1 (r.feedLine line).2 := by
  have hblank : Text.allBlank (withoutBreak line) = true := by rwa [allBlank_withoutBreak]
  have hends := not_ends_of_blank (r := r) h
  have hnone : contribution line = "" := if_pos h
  by_cases hpending : r.pending = ""
  · have hfed : r.feedLine line = (.empty, r) := by
      rw [feedLine]
      dsimp only
      rw [hblank, if_pos rfl, String.isEmpty_iff.2 hpending, if_pos rfl]
    rw [hfed]
    exact .empty hends hpending hnone
  · rw [feedLine_blank hblank hpending]
    refine .ran hends ?_
    rw [hnone, String.append_empty]

theorem answers_text (h : Text.allBlank line.toList = false) :
    Answers r line (r.feedLine line).1 (r.feedLine line).2 := by
  have hblank : Text.allBlank (withoutBreak line) = false := by rwa [allBlank_withoutBreak]
  -- the session looks for the word in the line without its break
  have hexit : r.Ends line ↔
      r.pending.isEmpty = true ∧ String.ofList (Text.trim (withoutBreak line)) = "exit" := by
    rw [Ends, String.isEmpty_iff, trim_withoutBreak]
  by_cases hends : r.Ends line
  · have hfed : r.feedLine line = (.exit, r) := by
      rw [feedLine]
      dsimp only
      rw [hblank, if_neg Bool.false_ne_true, if_pos (hexit.1 hends)]
    rw [hfed]
    exact .exit hends
  · have hchunk : r.pending ++ String.ofList (withoutBreak line) ++ "\n" = r.pending ++ contribution line := by
      rw [contribution, h, if_neg Bool.false_ne_true, ← withoutBreak_eq, String.append_assoc]
    rw [Gathers.feedLine ⟨hblank, fun hno => hends (hexit.2 hno), hchunk⟩]
    by_cases hopen : 0 < openDelimiters (r.pending ++ contribution line)
    · rw [if_pos hopen]
      exact .incomplete hends hopen
    · rw [if_neg hopen]
      exact .ran hends rfl

theorem answers_feedLine (r : Repl) (line : String) :
    Answers r line (r.feedLine line).1 (r.feedLine line).2 := by
  cases h : Text.allBlank line.toList
  · exact answers_text h
  · exact answers_blank h

/-- A line ends the session just if no chunk waits and it says so. -/
theorem feedLine_exit_iff : (r.feedLine line).1 = .exit ↔ r.Ends line := by
  have hanswer := answers_feedLine r line
  generalize (r.feedLine line).1 = step at hanswer ⊢
  generalize (r.feedLine line).2 = r' at hanswer
  cases hanswer with
  | exit hends => exact iff_of_true rfl hends
  | empty hends => exact iff_of_false nofun hends
  | incomplete hends => exact iff_of_false nofun hends
  | ran hends hrun =>
    cases hrun
    exact iff_of_false nofun hends

end Line

/-! ## Sessions -/

/-- What a session is asked to do. -/
inductive Call where
  | line (text : String)
  /-- To forget the chunk that waits. -/
  | discard

/-- What came of a call. -/
inductive Exchange where
  | fed (line : String) (step : Step)
  | dropped (chunk : String)

/-- What came in with a call. -/
def Exchange.taken : Exchange → String
  | fed _ .exit => ""
  | fed line _ => contribution line
  | dropped _ => ""

/-- What went with a call. -/
def Exchange.released : Exchange → String
  | fed _ (.ran report) => report.source
  | fed _ _ => ""
  | dropped chunk => chunk

/-- A session, and what came of the calls in it. -/
structure Dialogue where
  exchanges : List Exchange
  repl : Repl

namespace Dialogue

/-- A session at its beginning. -/
def begin (m : Machine) : Dialogue := ⟨[], ⟨m, ""⟩⟩

def call (d : Dialogue) : Call → Dialogue
  | .line text => ⟨d.exchanges ++ [.fed text (d.repl.feedLine text).1], (d.repl.feedLine text).2⟩
  | .discard => ⟨d.exchanges ++ [.dropped d.repl.pending], d.repl.discard⟩

/-- Everything that came in and did not go waits, and only a chunk with a delimiter open waits. -/
structure Balanced (d : Dialogue) : Prop where
  held : d.repl.pending = "" ∨ 0 < openDelimiters d.repl.pending
  waits : d.repl.pending ≠ "" ↔ ∃ line, d.exchanges.getLast? = some (.fed line .incomplete)
  kept : String.join (d.exchanges.map (·.released)) ++ d.repl.pending =
    String.join (d.exchanges.map (·.taken))

variable {d : Dialogue}

theorem balanced_begin (m : Machine) : (begin m).Balanced where
  held := .inl rfl
  waits := by simp [begin]
  kept := rfl

/-- What waits and what comes in is what goes and what waits then. -/
theorem Balanced.next (h : d.Balanced) {e : Exchange} {r : Repl}
    (hheld : r.pending = "" ∨ 0 < openDelimiters r.pending)
    (hwaits : r.pending ≠ "" ↔ ∃ line, e = .fed line .incomplete)
    (hkept : d.repl.pending ++ e.taken = e.released ++ r.pending) :
    Balanced ⟨d.exchanges ++ [e], r⟩ where
  held := hheld
  waits := by
    rw [hwaits]
    simp only [List.getLast?_concat, Option.some.injEq]
  kept := by
    dsimp only
    rw [List.map_append, List.map_append, String.join_append, String.join_append, ← h.kept,
      List.map_singleton, List.map_singleton, String.join_cons, String.join_cons, String.join_nil,
      String.append_empty, String.append_empty, String.append_assoc, String.append_assoc, hkept]

theorem ne_empty_of_open {source : String} (h : 0 < openDelimiters source) : source ≠ "" := by
  rintro rfl
  exact absurd h (by decide)

theorem Balanced.call (h : d.Balanced) (c : Call) : (d.call c).Balanced := by
  cases c with
  | discard =>
    refine h.next (.inl rfl) ?_ ?_
    · exact iff_of_false (fun hne => hne rfl) nofun
    · rfl
  | line text =>
    have hanswer := answers_feedLine d.repl text
    rw [Dialogue.call]
    generalize (d.repl.feedLine text).1 = step at hanswer ⊢
    generalize (d.repl.feedLine text).2 = r at hanswer ⊢
    -- whether a chunk waits then, and what went
    cases hanswer with
    | exit hends =>
      refine h.next h.held ?_ ?_
      · exact iff_of_false (fun hne => hne hends.1) nofun
      · rw [hends.1]
        rfl
    | empty _ hpending hnone =>
      refine h.next h.held ?_ ?_
      · exact iff_of_false (fun hne => hne hpending) nofun
      · rw [hpending]
        exact hnone
    | incomplete _ hopen =>
      refine h.next (.inr hopen) ?_ ?_
      · exact iff_of_true (ne_empty_of_open hopen) ⟨text, rfl⟩
      · exact (String.empty_append).symm
    | ran _ hrun =>
      cases hrun
      refine h.next (.inl rfl) ?_ ?_
      · exact iff_of_false (fun hne => hne rfl) nofun
      · exact (String.append_empty).symm

theorem Balanced.calls (h : d.Balanced) (calls : List Call) : (calls.foldl Dialogue.call d).Balanced := by
  induction calls generalizing d with
  | nil => exact h
  | cons c calls ih => exact ih (h.call c)

end Dialogue

/-- **Nothing that is typed is lost or used twice**, whatever lines come in, blank or not, readable or not,
and whenever a chunk is dropped. What waits is nothing or has a delimiter open, and it is something, as the
prompt shows, just if the last call was a line that left its chunk open. The chunks that were run or
dropped and the one that waits are, in order, the lines that came in. A line ends the session just if it
says so and no chunk waits. -/
theorem input_kept (m : Machine) (calls : List Call) :
    let d := calls.foldl Dialogue.call (Dialogue.begin m)
    (d.repl.pending = "" ∨ 0 < openDelimiters d.repl.pending) ∧
    (d.repl.prompt = "... " ↔ d.repl.pending ≠ "") ∧
    (d.repl.pending ≠ "" ↔ ∃ line, d.exchanges.getLast? = some (.fed line .incomplete)) ∧
    String.join (d.exchanges.map (·.released)) ++ d.repl.pending =
      String.join (d.exchanges.map (·.taken)) ∧
    ∀ line, (d.repl.feedLine line).1 = .exit ↔
      d.repl.pending = "" ∧ String.ofList (Text.trim line.toList) = "exit" := by
  intro d
  have hbalanced : d.Balanced := (Dialogue.balanced_begin m).calls calls
  refine ⟨hbalanced.held, ?_, hbalanced.waits, hbalanced.kept, fun line => feedLine_exit_iff⟩
  rw [prompt, Ne, ← String.isEmpty_iff]
  cases d.repl.pending.isEmpty <;> simp

/-- A line that would end the session is a part of the chunk that waits, until it is dropped. -/
example :
    let d := [.line "[1,\r\n", .line "exit", .discard, .line " exit "].foldl Dialogue.call
      (Dialogue.begin (Machine.ofLimit 3))
    d.exchanges.map (·.released) = ["", "", "[1,\nexit\n", ""] ∧
      d.exchanges.map (·.taken) = ["[1,\n", "exit\n", "", ""] := by
  decide +kernel

end Nikl.Repl
