import Nikl.Proofs.Token.ErrorPlaces
import Nikl.Proofs.Token.Joining
import Nikl.Proofs.Token.StringLiterals

/-
Where the reader stops. A source that is refused has a first malformed lexeme: the reader comes to it with
tokens made of all that stands before, and there is one of four things wrong with it (`Malformed`). What
stands before it is a source in its own right, and what comes behind its line has no part in the matter
(`stops_at_first_malformed`).

Both are one lemma. A reader that gets somewhere gets there as well when the text behind that place is
another one, if no lexeme that was the longest comes to be too short (`ReadsOn.replace`). Nothing at all is
such a text, and so is another text behind the end of the line, since no lexeme reaches over a line feed.
-/

set_option autoImplicit false

namespace Nikl

open Source Lexeme LexemeKind

/-! ## Characters that begin nothing -/

/-- What a symbol begins with is a symbol. -/
theorem exists_symbol_of_head {s : Symbol} {c : Char} {text : List Char}
    (h : s.spelling.toList = c :: text) : ∃ s' : Symbol, s'.spelling.toList = [c] := by
  by_cases hone : text = []
  · exact ⟨s, by rw [h, hone]⟩
  cases s
  case equal => exact ⟨.assign, congrArg ([·]) (List.cons.inj h).1⟩
  case notEqual => exact ⟨.bang, congrArg ([·]) (List.cons.inj h).1⟩
  case lessEqual => exact ⟨.less, congrArg ([·]) (List.cons.inj h).1⟩
  case greaterEqual => exact ⟨.greater, congrArg ([·]) (List.cons.inj h).1⟩
  case arrow => exact ⟨.minus, congrArg ([·]) (List.cons.inj h).1⟩
  all_goals exact absurd (List.cons.inj h).2.symm hone

/-- What a lexeme begins with is a lexeme. -/
theorem LexemeKind.Allows.head {kind : LexemeKind} {c : Char} {text : List Char}
    (h : kind.Allows (c :: text)) : ∃ kind' : LexemeKind, kind'.Allows [c] := by
  have hnumber : ∀ {digits : List Char}, (∀ d ∈ c :: digits, d.isDigit = true) → Allows .integer [c] := by
    intro digits hdigits
    exact .integer (List.cons_ne_nil _ _) (List.forall_mem_singleton.2 (hdigits c List.mem_cons_self))
  generalize hpiece : c :: text = piece at h
  cases h with
  | blank _ hblank =>
    subst hpiece
    exact ⟨_, .blank (List.cons_ne_nil _ _)
      (List.forall_mem_singleton.2 (hblank c List.mem_cons_self))⟩
  | newline =>
    cases hpiece
    exact ⟨_, .newline⟩
  | comment =>
    cases hpiece
    exact ⟨_, Allows.symbol .slash⟩
  | word hc =>
    cases hpiece
    exact ⟨_, .word hc nofun⟩
  | integer _ hdigits =>
    subst hpiece
    exact ⟨_, hnumber hdigits⟩
  | @decimal whole _ hwhole _ hdigits =>
    obtain ⟨d, whole, rfl⟩ := List.exists_cons_of_ne_nil hwhole
    obtain ⟨rfl, -⟩ := List.cons.inj hpiece
    exact ⟨_, hnumber hdigits⟩
  | string | openString =>
    cases hpiece
    exact ⟨_, .openString .nil⟩
  | symbol s =>
    obtain ⟨s', hs'⟩ := exists_symbol_of_head hpiece.symm
    exact ⟨.symbol s', hs' ▸ Allows.symbol s'⟩

/-- **The reader finds nothing just where no rule begins.** -/
theorem first?_eq_none_iff {c : Char} {rest : List Char} :
    first? (c :: rest) = none ↔ ∀ (kind : LexemeKind) (text : List Char), ¬ kind.Allows (c :: text) := by
  constructor
  · intro hnone kind text hallows
    obtain ⟨kind', hhead⟩ := hallows.head
    obtain ⟨l, after, hfirst, -⟩ := hhead.first?_eq rest
    rw [List.singleton_append, hnone] at hfirst
    cases hfirst
  · intro hnone
    refine Option.eq_none_iff_forall_ne_some.2 fun ⟨l, after⟩ hfirst => ?_
    have happend := first?_append hfirst
    obtain ⟨d, text, htext⟩ := List.exists_cons_of_ne_nil (first?_ne_nil hfirst)
    have hallows := first?_allowed hfirst
    rw [htext] at happend hallows
    obtain ⟨rfl, -⟩ := List.cons.inj happend
    exact hnone _ _ hallows

/-! ## Malformed lexemes -/

/-- What is wrong with a lexeme, and where. The lexeme stands at byte `offset`, before the rest of the
text. -/
inductive Malformed (offset : Nat) : List Char → List Char → LexError → Prop where
  /-- A string that nothing can be added to has no closing quote. -/
  | unterminated {body rest : List Char} (hbody : InString body) (hlongest : Longest ('"' :: body) rest) :
    Malformed offset ('"' :: body) rest
      ⟨.unterminatedString, Span.ofRange offset (offset + byteLength ('"' :: body))⟩
  /-- A character begins no lexeme. -/
  | unexpected {c : Char} {rest : List Char}
    (hnone : ∀ (kind : LexemeKind) (text : List Char), ¬ kind.Allows (c :: text)) :
    Malformed offset [c] rest ⟨.unexpectedChar c, Span.ofRange offset (offset + byteLength [c])⟩
  /-- A run of digits writes a number that is too large. -/
  | tooLarge {digits rest : List Char} (hdigits : Allows .integer digits) (hlongest : Longest digits rest)
    (hvalue : maxInt < Decimal.digitsValue digits) :
    Malformed offset digits rest
      ⟨.invalidNumber (String.ofList digits), Span.ofRange offset (offset + byteLength digits)⟩
  /-- A string with its closing quote has an escape that does not exist, behind others that do. -/
  | badEscape {good more rest : List Char} {c : Char} (hbody : InString (good ++ '\\' :: c :: more))
    (hgood : InString good) (hlegal : ∀ e ∈ escapes good, e ∈ legalEscapes) (hc : c ∉ legalEscapes) :
    Malformed offset ('"' :: (good ++ '\\' :: c :: more) ++ ['"']) rest
      ⟨.invalidEscape c, Span.ofRange (offset + byteLength ('"' :: good))
        (offset + byteLength ('"' :: good ++ ['\\', c]))⟩

section Malformed

variable {offset : Nat} {lexeme rest : List Char} {e : LexError}

theorem byteLength_quoted (text : List Char) :
    offset + byteLength ('"' :: text) = offset + 1 + byteLength text := by
  rw [byteLength_cons, ← Nat.add_assoc]
  rfl

/-- A lexeme that makes no token, and does not merely separate, is malformed. -/
theorem malformed_of_tokenKind? {l : Lexeme} (hoffset : offset < Span.maxOffset)
    (hallows : l.kind.Allows l.text) (hlongest : Longest l.text rest)
    (h : l.tokenKind? (Span.ofRange offset (offset + byteLength l.text)) = .error e) :
    Malformed offset l.text rest e := by
  obtain ⟨kind, text⟩ := l
  cases hallows with
  | blank | newline | comment | word | decimal | symbol => cases h
  | integer hne hdigits =>
    have hnumber : intLiteral text (Span.ofRange offset (offset + byteLength text)) = .error e := map_eq_error h
    unfold intLiteral at hnumber
    dsimp only at hnumber
    split at hnumber
    · cases hnumber
    · next hlarge =>
      cases hnumber
      exact .tooLarge (.integer hne hdigits) hlongest (Nat.lt_of_not_le hlarge)
  | @string body hbody =>
    have hcontent := map_eq_error ((tokenKind?_literal body _).symm.trans h)
    rw [Span.behindFirst_ofRange hoffset] at hcontent
    by_cases hlegal : ∀ e ∈ escapes body, e ∈ legalEscapes
    · obtain ⟨content, hstands⟩ := hbody.exists_standsFor_iff.2 hlegal
      rw [(unescape_ok_iff hbody _).2 hstands] at hcontent
      cases hcontent
    · obtain ⟨good, c, more, content, rfl, hgood, hstands, hc⟩ := hbody.first_bad_escape hlegal
      rw [unescape_bad_escape hstands hc] at hcontent
      cases hcontent
      rw [← byteLength_quoted, ← byteLength_quoted]
      exact .badEscape hbody hgood (hgood.exists_standsFor_iff.1 ⟨content, hstands⟩) hc
  | openString hbody =>
    cases h
    exact .unterminated hbody hlongest

/-- A malformed lexeme stops the reader, whatever follows it. -/
theorem Malformed.tokens (h : Malformed offset lexeme rest e) (hoffset : offset < Span.maxOffset)
    (newline : Bool) :
    Reader.tokens ⟨offset, newline, lexeme ++ rest⟩ = .error e := by
  have hstops : ∀ l : Lexeme, l.text = lexeme → first? (lexeme ++ rest) = some (l, rest) →
      l.tokenKind? (Span.ofRange offset (offset + byteLength lexeme)) = .error e →
      Reader.tokens ⟨offset, newline, lexeme ++ rest⟩ = .error e := by
    rintro l rfl hfirst hkind
    rw [Reader.tokens_first (r := ⟨offset, newline, l.text ++ rest⟩) hfirst, Reader.spanOf, hkind]
  cases h with
  | unterminated hbody hlongest =>
    exact hstops ⟨.openString, _⟩ rfl (first?_eq_some_iff.2 ⟨rfl, .openString hbody, hlongest⟩) rfl
  | @unexpected c _ hnone =>
    have hfirst : first? ([c] ++ rest) = none := first?_eq_none_iff.2 hnone
    rw [Reader.tokens, lexFrom_eq]
    split
    · rfl
    · next hsome =>
      rw [hfirst] at hsome
      cases hsome
  | tooLarge hdigits hlongest hvalue =>
    refine hstops ⟨.integer, lexeme⟩ rfl (first?_eq_some_iff.2 ⟨rfl, hdigits, hlongest⟩) ?_
    rw [tokenKind?, intLiteral]
    dsimp only
    rw [if_neg (Nat.not_le_of_lt hvalue)]
    rfl
  | badEscape hbody hgood hlegal hc =>
    obtain ⟨content, hstands⟩ := hgood.exists_standsFor_iff.2 hlegal
    refine hstops ⟨.string, _⟩ rfl (hbody.first?_string rest) ?_
    rw [tokenKind?_literal, Span.behindFirst_ofRange hoffset, unescape_bad_escape hstands hc,
      byteLength_quoted, List.cons_append, byteLength_quoted]
    rfl

/-- A malformed lexeme is on one line. -/
theorem Malformed.no_line (h : Malformed offset lexeme rest e) : '\n' ∉ lexeme := by
  cases h with
  | unterminated hbody => simp [hbody.no_line]
  | unexpected hnone =>
    rw [List.mem_singleton]
    rintro rfl
    exact hnone _ _ .newline
  | tooLarge hdigits =>
    intro hmem
    cases hdigits with
    | integer _ hdigits => exact absurd (hdigits _ hmem) (by decide)
  | badEscape hbody => simpa using hbody.no_line

/-- What is wrong with a lexeme depends on what follows it only as far as the lexeme could go on. -/
theorem Malformed.replace {rest' : List Char} (h : Malformed offset lexeme rest e)
    (hkeep : Longest lexeme rest → Longest lexeme rest') : Malformed offset lexeme rest' e := by
  cases h with
  | unterminated hbody hlongest => exact .unterminated hbody (hkeep hlongest)
  | unexpected hnone => exact .unexpected hnone
  | tooLarge hdigits hlongest hvalue => exact .tooLarge hdigits (hkeep hlongest) hvalue
  | badEscape hbody hgood hlegal hc => exact .badEscape hbody hgood hlegal hc

theorem Malformed.ne_nil (h : Malformed offset lexeme rest e) : lexeme ≠ [] := by
  cases h with
  | tooLarge hdigits => exact hdigits.ne_nil
  | _ => exact List.cons_ne_nil _ _

/-- What is said to be wrong is a piece of the lexeme, which begins the lexeme if it is no escape. -/
theorem Malformed.place {front : List Char} (h : Malformed (byteLength front) lexeme rest e)
    (hsize : byteLength (front ++ (lexeme ++ rest)) ≤ Span.maxOffset) :
    ∃ inside piece past, lexeme = inside ++ piece ++ past ∧ piece ≠ [] ∧
      e.span = ⟨byteLength (front ++ inside), byteLength (front ++ inside ++ piece)⟩ ∧
      ((∀ c, e.fault ≠ .invalidEscape c) → inside = []) := by
  have hwhole : e.span = Span.ofRange (byteLength front) (byteLength front + byteLength lexeme) →
      ∃ inside piece past, lexeme = inside ++ piece ++ past ∧ piece ≠ [] ∧
        e.span = ⟨byteLength (front ++ inside), byteLength (front ++ inside ++ piece)⟩ ∧
        ((∀ c, e.fault ≠ .invalidEscape c) → inside = []) := by
    intro hspan
    refine ⟨[], lexeme, [], by simp, h.ne_nil, ?_, fun _ => rfl⟩
    simp only [byteLength_append, List.append_nil] at hsize ⊢
    rw [hspan]
    simp only [Span.ofRange, Span.mk.injEq]
    omega
  cases h with
  | unterminated => exact hwhole rfl
  | unexpected => exact hwhole rfl
  | tooLarge => exact hwhole rfl
  | @badEscape good more _ c =>
    refine ⟨'"' :: good, ['\\', c], more ++ ['"'], by simp, List.cons_ne_nil _ _, ?_,
      fun hfault => absurd rfl (hfault c)⟩
    simp only [byteLength_append, List.cons_append, byteLength_cons] at hsize ⊢
    simp only [Span.ofRange, Span.mk.injEq]
    omega

/-- A string that nothing can be added to is no string with a closing quote, and does not begin with one. -/
theorem Malformed.unclosed (h : Malformed offset lexeme rest e) (he : e.fault = .unterminatedString)
    {piece : List Char} (hpiece : Allows .string piece) : ¬ piece <+: lexeme ++ rest := by
  cases h with
  | @unterminated body _ hbody hlongest =>
    rintro ⟨back, hback⟩
    cases hpiece with
    | string hstring =>
      have hopen : first? ('"' :: body ++ rest) = some (⟨.openString, '"' :: body⟩, rest) :=
        first?_eq_some_iff.2 ⟨rfl, .openString hbody, hlongest⟩
      rw [← hback, hstring.first?_string back] at hopen
      cases hopen
  | unexpected => cases he
  | tooLarge => cases he
  | badEscape => cases he

/-! ## Up to a malformed lexeme -/

/-- A reader that is stopped comes to a malformed lexeme first. -/
theorem Reader.stops {r : Reader} (hsize : r.offset + byteLength r.text ≤ Span.maxOffset)
    (h : r.tokens = .error e) :
    ∃ ts r' lexeme rest, ReadsOn r ts r' ∧ r'.text = lexeme ++ rest ∧
      Malformed r'.offset lexeme rest e := by
  -- each lexeme leaves less of the text
  induction hn : r.text.length using Nat.strongRecOn generalizing r with
  | _ n ih =>
    subst hn
    cases hfirst : first? r.text with
    | none =>
      obtain ⟨offset, newline, text⟩ := r
      cases text with
      | nil =>
        rw [Reader.tokens, lexFrom_eq] at h
        cases h
      | cons c rest =>
        have hmalformed : Malformed offset [c] rest _ := .unexpected (first?_eq_none_iff.1 hfirst)
        have hoffset : offset < Span.maxOffset := by
          have hpos := c.utf8Size_pos
          dsimp only at hsize
          rw [byteLength_cons] at hsize
          omega
        obtain rfl := Except.error.inj ((hmalformed.tokens hoffset newline).symm.trans h)
        exact ⟨[], _, [c], rest, .here _, rfl, hmalformed⟩
    | some first =>
      obtain ⟨l, rest⟩ := first
      rw [Reader.tokens_first hfirst] at h
      have hshorter := first?_length_lt hfirst
      obtain ⟨htext, hallows, hlongest⟩ := first?_eq_some_iff.1 hfirst
      have hpos := List.length_pos_iff.2 hallows.ne_nil
      have hle := length_le_byteLength l.text
      rw [htext, byteLength_append] at hsize
      cases hkind : l.tokenKind? (r.spanOf l) with
      | error e' =>
        rw [hkind] at h
        cases h
        exact ⟨[], r, l.text, rest, .here r, htext,
          malformed_of_tokenKind? (by omega) hallows hlongest hkind⟩
      | ok kind =>
        rw [hkind] at h
        cases kind with
        | none =>
          obtain ⟨ts, r', lexeme, rest', hreads, hstops⟩ := ih _ hshorter (by dsimp only; omega) h rfl
          exact ⟨ts, r', lexeme, rest', .separator hfirst hkind hreads, hstops⟩
        | some k =>
          obtain ⟨ts, r', lexeme, rest', hreads, hstops⟩ := ih _ hshorter (by dsimp only; omega) (map_eq_error h) rfl
          exact ⟨_, r', lexeme, rest', .token hfirst hkind hreads, hstops⟩

/-- A reader gets as far, and makes the same tokens, where another text follows, if the lexemes on the way
stay the longest ones. -/
theorem ReadsOn.replace {r r' : Reader} {ts : List Token} {text : List Char} (h : ReadsOn r ts r')
    (hkeep : ∀ piece front, piece ≠ [] → Longest piece (front ++ r'.text) → Longest piece (front ++ text)) :
    ∃ front, r.text = front ++ r'.text ∧
      ReadsOn ⟨r.offset, r.newline, front ++ text⟩ ts ⟨r'.offset, r'.newline, text⟩ := by
  have step : ∀ {l : Lexeme} {r : Reader} {front : List Char},
      first? r.text = some (l, front ++ r'.text) →
      r.text = l.text ++ front ++ r'.text ∧
        first? (l.text ++ front ++ text) = some (l, front ++ text) := by
    intro l r front hfirst
    obtain ⟨htext, hallows, hlongest⟩ := first?_eq_some_iff.1 hfirst
    rw [List.append_assoc, List.append_assoc]
    exact ⟨htext, first?_eq_some_iff.2 ⟨rfl, hallows, hkeep _ _ hallows.ne_nil hlongest⟩⟩
  induction h with
  | here r => exact ⟨[], rfl, .here _⟩
  | @separator r r' l rest ts hfirst hkind _ ih =>
    obtain ⟨front, rfl, hreads⟩ := ih hkeep step
    obtain ⟨htext, hfirst'⟩ := step hfirst
    exact ⟨l.text ++ front, htext, .separator (r := ⟨r.offset, r.newline, _⟩) hfirst' hkind hreads⟩
  | @token r r' l rest k ts hfirst hkind _ ih =>
    obtain ⟨front, rfl, hreads⟩ := ih hkeep step
    obtain ⟨htext, hfirst'⟩ := step hfirst
    exact ⟨l.text ++ front, htext, .token (r := ⟨r.offset, r.newline, _⟩) hfirst' hkind hreads⟩

end Malformed

/-! ## Lines -/

/-- What may stand behind a line: nothing, or a line feed and anything. -/
def EndsLine (text : List Char) : Prop := ∀ c ∈ text.head?, c = '\n'

/-- A text is a line and what stands behind it. -/
theorem exists_line (text : List Char) :
    ∃ line after, text = line ++ after ∧ '\n' ∉ line ∧ EndsLine after := by
  induction text with
  | nil => exact ⟨[], [], rfl, List.not_mem_nil, nofun⟩
  | cons c text ih =>
    by_cases hc : c = '\n'
    · exact ⟨[], c :: text, rfl, List.not_mem_nil, fun d hd => hc ▸ (Option.some.inj hd).symm⟩
    · obtain ⟨line, after, rfl, hline, hafter⟩ := ih
      exact ⟨c :: line, after, rfl, by simp [Ne.symm hc, hline], hafter⟩

/-- The longest piece on a line is the longest there whatever is behind the line. -/
theorem Longest.replaceBehind {piece line after after' : List Char} (h : Longest piece (line ++ after))
    (hne : piece ≠ []) (hafter : EndsLine after') : Longest piece (line ++ after') := by
  cases after' with
  | nil =>
    rw [List.append_nil]
    exact h.shorten
  | cons c more =>
    obtain rfl := hafter c rfl
    exact h.shorten.before_line hne more

/-! ## The main statement -/

/-- A source is refused for its first malformed lexeme: `front` stands before it, `line` behind it up to the
end of its line, and `after` behind the line. -/
structure FirstMalformed (source : List Char) (e : LexError) (front lexeme line after : List Char) :
    Prop where
  text : source = front ++ (lexeme ++ (line ++ after))
  noLine : '\n' ∉ lexeme ++ line
  endsLine : EndsLine after
  /-- What stands before is a source without fault, and the reader makes its tokens on the way. -/
  before : ∃ tokens newline, ReadsOn ⟨0, false, source⟩ tokens
      ⟨byteLength front, newline, lexeme ++ (line ++ after)⟩ ∧
    lex (String.ofList front) = .ok (tokens ++ [Token.endAt (byteLength front) newline])
  malformed : Malformed (byteLength front) lexeme (line ++ after) e
  /-- No string with a closing quote stands where one is said to be missing. -/
  unclosed : e.fault = .unterminatedString →
    ∀ piece, Allows .string piece → ¬ piece <+: lexeme ++ (line ++ after)
  nonempty : e.span.start < e.span.stop
  within : e.span.Within (byteLength source)
  /-- The span is that of a piece of the lexeme, which begins the lexeme if it is no escape. -/
  place : ∃ inside piece past, lexeme = inside ++ piece ++ past ∧ piece ≠ [] ∧
    e.span = ⟨byteLength (front ++ inside), byteLength (front ++ inside ++ piece)⟩ ∧
    ((∀ c, e.fault ≠ .invalidEscape c) → inside = [])
  /-- What stands behind the line may be anything. -/
  anythingBehind : ∀ after', EndsLine after' →
    lex (String.ofList (front ++ (lexeme ++ (line ++ after')))) = .error e

/-- **A source is refused for its first malformed lexeme**, which is a string without an end, a character
that begins no lexeme, a number that is too large or a string with an escape that does not exist. All
that stands before it can be read, and nothing behind its line matters. -/
theorem stops_at_first_malformed {source : String} {e : LexError}
    (hsize : byteLength source.toList < 2 ^ 32) (hlex : lex source = .error e) :
    ∃ front lexeme line after, FirstMalformed source.toList e front lexeme line after := by
  have hstopped : (Reader.start source).tokens = .error e := hlex
  have hfits : (Reader.start source).offset + byteLength (Reader.start source).text ≤ Span.maxOffset := by
    rw [Reader.start, Nat.zero_add]
    exact Nat.le_of_lt_succ hsize
  obtain ⟨ts, ⟨offset, newline, text⟩, lexeme, rest, hreads, rfl, hmalformed⟩ := Reader.stops hfits hstopped
  obtain ⟨line, after, rfl, hline, hafter⟩ := exists_line rest
  obtain ⟨front, hsource, hoffset⟩ := hreads.front
  replace hsource : source.toList = front ++ (lexeme ++ (line ++ after)) := hsource
  replace hoffset : offset = byteLength front := by simpa [Reader.start] using hoffset
  subst hoffset
  have hreplace : ∀ behind, (∀ piece front, piece ≠ [] →
        Longest piece (front ++ (lexeme ++ (line ++ after))) → Longest piece (front ++ behind)) →
      ReadsOn ⟨0, false, front ++ behind⟩ ts ⟨byteLength front, newline, behind⟩ := by
    intro behind hkeep
    obtain ⟨front', hsource', hreads'⟩ := hreads.replace hkeep
    obtain rfl := List.append_cancel_right (hsource.symm.trans hsource')
    exact hreads'
  have hplace := hmalformed.place (hsource ▸ Nat.le_of_lt_succ hsize)
  have hfront : byteLength front < Span.maxOffset := by
    have hpos := List.length_pos_iff.2 hmalformed.ne_nil
    have hle := length_le_byteLength lexeme
    rw [hsource, byteLength_append, byteLength_append] at hsize
    rw [Span.maxOffset]
    omega
  refine ⟨front, lexeme, line, after, hsource, ?_, hafter, ⟨ts, newline, hreads, ?_⟩, hmalformed,
    fun he piece hpiece => hmalformed.unclosed he hpiece, ?_,
    within_of_lexFrom_error hlex (Nat.zero_add _), hplace, fun after' hafter' => ?_⟩
  · simp [hmalformed.no_line, hline]
  · have hfront := hreplace [] fun piece text _ hlongest => by
      rw [List.append_nil]
      exact hlongest.shorten
    rw [List.append_nil] at hfront
    have hend : Reader.tokens ⟨byteLength front, newline, []⟩ =
        .ok [Token.endAt (byteLength front) newline] := by
      rw [Reader.tokens, lexFrom_eq]
      rfl
    have hread : lexFrom 0 false front = _ := hfront.tokens_eq
    rw [lex, String.toList_ofList, hread, hend]
    rfl
  · obtain ⟨inside, piece, past, -, hpiece, hspan, -⟩ := hplace
    have hpos := List.length_pos_iff.2 hpiece
    have hle := length_le_byteLength piece
    rw [hspan, byteLength_append (front ++ inside)]
    dsimp only
    omega
  · have hreached := hreplace (lexeme ++ (line ++ after')) fun piece text hne hlongest => by
      simp only [← List.append_assoc] at hlongest ⊢
      exact hlongest.replaceBehind hne hafter'
    have hread : lexFrom 0 false (front ++ (lexeme ++ (line ++ after'))) = _ := hreached.tokens_eq
    have hstill := hmalformed.replace fun hlongest => hlongest.replaceBehind hmalformed.ne_nil hafter'
    rw [lex, String.toList_ofList, hread, hstill.tokens hfront]
    rfl

/-- A quote in a comment, then a string with an escape that does not exist, and more that is wrong. -/
def severalFaults : String := "x = 1 // \"\ny = \"é\\q@\" + 99999999999999999999\n\"open"

/-- The escape is what is said to be wrong. -/
theorem stops_at_first_malformed_severalFaults :
    byteLength severalFaults.toList < 2 ^ 32 ∧
      lex severalFaults = .error ⟨.invalidEscape 'q', ⟨18, 20⟩⟩ ∧
      ∃ front lexeme line after,
        FirstMalformed severalFaults.toList ⟨.invalidEscape 'q', ⟨18, 20⟩⟩ front lexeme line after := by
  have hsize : byteLength severalFaults.toList < 2 ^ 32 := by decide +kernel
  have hlex : lex severalFaults = .error ⟨.invalidEscape 'q', ⟨18, 20⟩⟩ := by decide +kernel
  exact ⟨hsize, hlex, stops_at_first_malformed hsize hlex⟩

end Nikl
