import Nikl.Proofs.Evaluation.Relabeling
import Nikl.Proofs.Session.Reading
import Nikl.Proofs.Syntax.Layout

/-
Layout and meaning. Two sources whose tokens are the same words, with the same line breaks where these
are looked at, are read as the same tree up to spans (`bare_parse_of_sameLayout`), and a tree does the
same whatever its spans are (`Machine.run_relabel`). So they do the same from states that are the same
up to spans, and leave such states behind: comments, blanks, indentation and all other line breaks are
without meaning. What is left of a failure without its spans is all but the places: its fault, and the
names of the calls that were under way.
-/

set_option autoImplicit false

namespace Nikl

/-- The failure without its spans. -/
def Failure.bare : Failure → Failure
  | lex e => lex e
  | parse e => parse e.bare
  | eval e => eval (e.mapSpans fun _ => Span.nowhere)
  | endless => endless

/-- The state without the spans in it. -/
def Machine.bare (m : Machine) : Machine := m.relabel (.ofSpans fun _ => Span.nowhere)

/-- The end of a run without the spans in it. -/
def bareEnd (r : Except Failure Unit × Machine) : Except Failure Unit × Machine :=
  (r.1.mapError Failure.bare, r.2.bare)

theorem Failure.bare_ofStop (stop : Stop) :
    (ofStop stop).bare = ofStop (stop.mapError (·.mapSpans fun _ => Span.nowhere)) := by
  cases stop <;> rfl

namespace Machine

variable {m m' : Machine} {source source' : String} {tokens tokens' : List Token}

/-- What a source does whose tokens can be told. -/
theorem runSource_of_lex (h : lex source = .ok tokens) (m : Machine) :
    m.runSource source =
      match parse tokens with
      | .error e => (.error (.parse e), m)
      | .ok program =>
        match m.run program with
        | .ok _ n => (.ok (), n)
        | .error stop n => (.error (.ofStop stop), n) := by
  have hprogram : programOf source = (parse tokens).mapError .parse := by
    rw [programOf, tokensOf, h]
    rfl
  rw [runSource, hprogram]
  cases parse tokens <;> rfl

/-- Runs of programs that are the same up to spans, from such states, end the same up to spans. -/
theorem moved_run_of_bare {program program' : Block} (hm : m.bare = m'.bare)
    (h : program.bare = program'.bare) :
    moved (fun _ => Span.nowhere) bare id (m.run program) =
      moved (fun _ => Span.nowhere) bare id (m'.run program') := by
  have hkeeps : (Relabeling.ofSpans fun _ => Span.nowhere : Relabeling String String).KeepsText :=
    Relabeling.keepsText_ofSpans _
  have hrun := m.run_relabel hkeeps program
  have hrun' := m'.run_relabel hkeeps program'
  rw [Block.relabel_ofSpans] at hrun hrun'
  replace hrun : m.bare.run program.bare = _ := hrun
  replace hrun' : m'.bare.run program'.bare = _ := hrun'
  rw [hm, h] at hrun
  exact hrun.symm.trans hrun'

/-- **Sources of one layout do the same**, up to spans, from states that are the same up to spans. -/
theorem bareEnd_runSource (h : lex source = .ok tokens) (h' : lex source' = .ok tokens')
    (hsame : SameLayout tokens tokens') (hm : m.bare = m'.bare) :
    bareEnd (m.runSource source) = bareEnd (m'.runSource source') := by
  have hparse := bare_parse_of_sameLayout hsame
  rw [runSource_of_lex h, runSource_of_lex h']
  cases hp : parse tokens with
  | error e =>
    cases hp' : parse tokens' with
    | ok program' =>
      rw [hp, hp'] at hparse
      cases hparse
    | error e' =>
      rw [hp, hp'] at hparse
      have he : e.bare = e'.bare := Except.error.inj hparse
      show (Except.error (Failure.parse e.bare), m.bare) = (Except.error (Failure.parse e'.bare), m'.bare)
      rw [he, hm]
  | ok program =>
    cases hp' : parse tokens' with
    | error e' =>
      rw [hp, hp'] at hparse
      cases hparse
    | ok program' =>
      rw [hp, hp'] at hparse
      have hrun := moved_run_of_bare hm (Except.ok.inj hparse)
      cases hr : m.run program with
      | ok u n =>
        cases hr' : m'.run program' with
        | error stop' n' =>
          rw [hr, hr'] at hrun
          cases hrun
        | ok u' n' =>
          rw [hr, hr'] at hrun
          have hn : n.bare = n'.bare := (EStateM.Result.ok.inj hrun).2
          simp only [hr, hr']
          exact congrArg (Except.ok (), ·) hn
      | error stop n =>
        cases hr' : m'.run program' with
        | ok u' n' =>
          rw [hr, hr'] at hrun
          cases hrun
        | error stop' n' =>
          rw [hr, hr'] at hrun
          obtain ⟨hstop, hn⟩ := EStateM.Result.error.inj hrun
          replace hn : n.bare = n'.bare := hn
          simp only [hr, hr']
          show (Except.error (Failure.ofStop stop).bare, n.bare) =
            (Except.error (Failure.ofStop stop').bare, n'.bare)
          rw [Failure.bare_ofStop, Failure.bare_ofStop, hstop, hn]

end Machine

/-- **Layout does not change meaning.** Sources whose tokens are of the same kinds, with the same line
breaks before opening parentheses and brackets and behind `return`, are read as the same tree or with the
same error, up to spans; and on fresh machines with one limit on calls they print the same and end the
same way: regularly, or with the same failure up to spans. -/
theorem layout_does_not_change_meaning {source source' : String} {tokens tokens' : List Token}
    (h : lex source = .ok tokens) (h' : lex source' = .ok tokens')
    (hsame : SameLayout tokens tokens') :
    ((parse tokens).map Block.bare).mapError ParseError.bare =
      ((parse tokens').map Block.bare).mapError ParseError.bare ∧
    ∀ limit : Nat,
      ((Machine.ofLimit limit).runSource source).2.output =
        ((Machine.ofLimit limit).runSource source').2.output ∧
      ((Machine.ofLimit limit).runSource source).1.mapError Failure.bare =
        ((Machine.ofLimit limit).runSource source').1.mapError Failure.bare := by
  refine ⟨bare_parse_of_sameLayout hsame, fun limit => ?_⟩
  have hends := Machine.bareEnd_runSource h h' hsame (m := .ofLimit limit) rfl
  exact ⟨congrArg (·.2.output) hends, congrArg Prod.fst hends⟩

/-- A function, a call of it that is printed, and one that fails. -/
def firstItems : String := "fn f(a) \x7b return a[0] \x7d print(f([7])) f([])"

/-- The same on many lines, with a remark. -/
def firstItemsOnLines : String :=
  "fn f(a) // the first\n\x7b\n  return a[\n0] \x7d\n\nprint(f([7\n]))  f([])\n"

/-- The words of both. -/
def firstItemsWords : List TokenKind :=
  [.keyword .fnWord, .ident "f", .symbol .leftParen, .ident "a", .symbol .rightParen, .symbol .leftBrace,
   .keyword .returnWord, .ident "a", .symbol .leftBracket, .int 0, .symbol .rightBracket,
   .symbol .rightBrace, .ident "print", .symbol .leftParen, .ident "f", .symbol .leftParen,
   .symbol .leftBracket, .int 7, .symbol .rightBracket, .symbol .rightParen, .symbol .rightParen,
   .ident "f", .symbol .leftParen, .symbol .leftBracket, .symbol .rightBracket, .symbol .rightParen, .eof]

/-- Tokens by their words, the ends of their places, and the line breaks before them. -/
def placedWords (words : List TokenKind) (places : List (Nat × Nat × Bool)) : List Token :=
  words.zipWith (fun kind place => ⟨kind, ⟨place.1, place.2.1⟩, place.2.2⟩) places

def firstItemsTokens : List Token :=
  placedWords firstItemsWords
    [(0, 2, false), (3, 4, false), (4, 5, false), (5, 6, false), (6, 7, false), (8, 9, false),
     (10, 16, false), (17, 18, false), (18, 19, false), (19, 20, false), (20, 21, false),
     (22, 23, false), (24, 29, false), (29, 30, false), (30, 31, false), (31, 32, false),
     (32, 33, false), (33, 34, false), (34, 35, false), (35, 36, false), (36, 37, false),
     (38, 39, false), (39, 40, false), (40, 41, false), (41, 42, false), (42, 43, false),
     (43, 43, false)]

def firstItemsOnLinesTokens : List Token :=
  placedWords firstItemsWords
    [(0, 2, false), (3, 4, false), (4, 5, false), (5, 6, false), (6, 7, false), (21, 22, true),
     (25, 31, true), (32, 33, false), (33, 34, false), (35, 36, true), (36, 37, false), (38, 39, false),
     (41, 46, true), (46, 47, false), (47, 48, false), (48, 49, false), (49, 50, false),
     (50, 51, false), (52, 53, true), (53, 54, false), (54, 55, false), (57, 58, false),
     (58, 59, false), (59, 60, false), (60, 61, false), (61, 62, false), (63, 63, true)]

/-- An index behind the last, found in a call. -/
def firstOfNone : EvalError :=
  ⟨.outOfBounds 0 0, some Span.nowhere, some [⟨"f", some Span.nowhere⟩]⟩

/-- Both print the first item of the one list, and fail for the other in the same call. -/
theorem layout_does_not_change_meaning_firstItems :
    lex firstItems = .ok firstItemsTokens ∧ lex firstItemsOnLines = .ok firstItemsOnLinesTokens ∧
    SameLayout firstItemsTokens firstItemsOnLinesTokens ∧
    ((Machine.ofLimit 5).runSource firstItemsOnLines).2.output = "7\n" ∧
    ((Machine.ofLimit 5).runSource firstItemsOnLines).1.mapError Failure.bare =
      .error (.eval firstOfNone) := by
  have hlex : lex firstItems = .ok firstItemsTokens := by decide +kernel
  have hlex' : lex firstItemsOnLines = .ok firstItemsOnLinesTokens := by decide +kernel
  have hsame : SameLayout firstItemsTokens firstItemsOnLinesTokens := ⟨rfl, by decide⟩
  obtain ⟨houtput, hend⟩ := (layout_does_not_change_meaning hlex hlex' hsame).2 5
  rw [Machine.runSource_of_lex hlex] at houtput hend
  exact ⟨hlex, hlex', hsame, houtput.symm.trans rfl, hend.symm.trans rfl⟩

end Nikl
