import Nikl.Proofs.Token.Tiling

/-
String literals. Where a literal ends and what it stands for are found out apart from each other: the
lexeme is taken first, a backslash pairing with whatever stands behind it, and its content is decoded
afterwards. Both keep to the same pairs, so every text has a literal (`literal raw s`), and a literal is
refused for nothing but an escape that does not exist.

A literal inside a source is judged where the reader comes to it. `ReadsOn r ts r'` says that the reader,
standing at `r`, gets to `r'` and has made the tokens `ts` by then.
-/

set_option autoImplicit false

namespace Nikl

open Source Lexeme LexemeKind

/-! ## Writing -/

/-- The character behind the backslash in the escape for a character, where there is one. -/
def escapeFor? : Char → Option Char
  | '\n' => some 'n'
  | '\t' => some 't'
  | '\r' => some 'r'
  | '\\' => some '\\'
  | '"' => some '"'
  | '\x00' => some '0'
  | _ => none

/-- Characters that have an escape and do not need it. -/
def mayStayRaw (c : Char) : Bool := c = '\t' || c = '\r' || c = '\x00'

/-- A character as it is written in a literal, its escape left out if it is to be raw and may be. -/
def literalChar (raw : Bool) (c : Char) : List Char :=
  match escapeFor? c with
  | some e => if raw && mayStayRaw c then [c] else ['\\', e]
  | none => [c]

/-- The content of a literal for a text: `raw` tells of each place in the text whether the character there
is to stay raw. -/
def literalContent (raw : Nat → Bool) : List Char → List Char
  | [] => []
  | c :: text => literalChar (raw 0) c ++ literalContent (fun i => raw (i + 1)) text

/-- A literal for a text. -/
def literal (raw : Nat → Bool) (text : String) : String :=
  String.ofList ('"' :: literalContent raw text.toList ++ ['"'])

theorem escape?_of_escapeFor? {c e : Char} (h : escapeFor? c = some e) :
    escape? e = some c ∧ e ≠ '\n' := by
  unfold escapeFor? at h
  split at h
  all_goals cases h
  all_goals exact ⟨rfl, by decide⟩

/-- What stands for itself in a literal. -/
theorem stands_for_itself {c : Char} (h : escapeFor? c = none ∨ mayStayRaw c = true) :
    c ≠ '"' ∧ c ≠ '\\' ∧ c ≠ '\n' := by
  refine ⟨?_, ?_, ?_⟩ <;> (rintro rfl; revert h; decide)

/-- A character is written as itself or as its escape. -/
theorem literalChar_cases (raw : Bool) (c : Char) :
    (literalChar raw c = [c] ∧ c ≠ '"' ∧ c ≠ '\\' ∧ c ≠ '\n') ∨
      ∃ e, literalChar raw c = ['\\', e] ∧ escape? e = some c ∧ e ≠ '\n' := by
  unfold literalChar
  split
  · next e he =>
    split
    · next hraw =>
      rw [Bool.and_eq_true] at hraw
      exact .inl ⟨rfl, stands_for_itself (.inr hraw.2)⟩
    · exact .inr ⟨e, rfl, escape?_of_escapeFor? he⟩
  · next hnone => exact .inl ⟨rfl, stands_for_itself (.inl hnone)⟩

/-- What is written for a text is the content of a literal, and stands for the text. -/
theorem literalContent_spec (raw : Nat → Bool) (text : List Char) :
    InString (literalContent raw text) ∧ StandsFor (literalContent raw text) text := by
  induction text generalizing raw with
  | nil => exact ⟨.nil, .nil⟩
  | cons c text ih =>
    obtain ⟨hbody, hstands⟩ := ih fun i => raw (i + 1)
    rw [literalContent]
    rcases literalChar_cases (raw 0) c with ⟨hself, hquote, hslash, hline⟩ | ⟨e, hpair, he, hline⟩
    · rw [hself]
      exact ⟨.plain hquote hslash hline hbody, .plain hslash hstands⟩
    · rw [hpair]
      exact ⟨.escape hline hbody, .escape he hstands⟩

/-! ## Escapes -/

/-- The characters behind the backslashes of a content. -/
def escapes : List Char → List Char
  | '\\' :: c :: rest => c :: escapes rest
  | _ :: rest => escapes rest
  | [] => []

/-- The characters that a backslash may stand before. -/
def legalEscapes : List Char := ['n', 't', 'r', '\\', '"', '0']

theorem escape?_eq_none_iff {c : Char} : escape? c = none ↔ c ∉ legalEscapes := by
  constructor
  · intro h hmem
    simp only [legalEscapes, List.mem_cons, List.not_mem_nil, or_false] at hmem
    rcases hmem with rfl | rfl | rfl | rfl | rfl | rfl
    all_goals cases h
  · intro h
    unfold escape?
    split
    all_goals first | rfl | exact absurd (by decide) h

theorem escapes_plain {c : Char} (hc : c ≠ '\\') (rest : List Char) :
    escapes (c :: rest) = escapes rest := by
  rw [escapes]
  simp [hc]

/-- A content stands for something just if all its escapes exist. -/
theorem InString.exists_standsFor_iff {body : List Char} (h : InString body) :
    (∃ content, StandsFor body content) ↔ ∀ e ∈ escapes body, e ∈ legalEscapes := by
  constructor
  · rintro ⟨content, hstands⟩
    induction hstands with
    | nil => exact nofun
    | plain hc _ ih =>
      rw [escapes_plain hc]
      cases h with
      | plain _ _ _ hrest => exact ih hrest
      | escape => exact absurd rfl hc
    | @escape e c body content he _ ih =>
      have hlegal : e ∈ legalEscapes := by
        by_contra hmem
        rw [escape?_eq_none_iff.2 hmem] at he
        cases he
      cases h with
      | plain _ hslash => exact absurd rfl hslash
      | escape _ hrest => exact List.forall_mem_cons.2 ⟨hlegal, ih hrest⟩
  · intro hlegal
    induction h with
    | nil => exact ⟨[], .nil⟩
    | plain _ hslash _ _ ih =>
      rw [escapes_plain hslash] at hlegal
      obtain ⟨content, hstands⟩ := ih hlegal
      exact ⟨_, .plain hslash hstands⟩
    | @escape c rest _ _ ih =>
      rw [escapes, List.forall_mem_cons] at hlegal
      obtain ⟨content, hstands⟩ := ih hlegal.2
      obtain ⟨d, hd⟩ := Option.ne_none_iff_exists'.1 fun hnone =>
        escape?_eq_none_iff.1 hnone hlegal.1
      exact ⟨_, .escape hd hstands⟩

/-- A content that has an escape which does not exist has a first one. -/
theorem InString.first_bad_escape {body : List Char} (h : InString body)
    (hbad : ¬ ∀ e ∈ escapes body, e ∈ legalEscapes) :
    ∃ good c more content, body = good ++ '\\' :: c :: more ∧ InString good ∧ StandsFor good content ∧
      c ∉ legalEscapes := by
  induction h with
  | nil => exact absurd nofun hbad
  | @plain c rest hquote hslash hline _ ih =>
    rw [escapes_plain hslash] at hbad
    obtain ⟨good, d, more, content, rfl, hgood, hstands, hd⟩ := ih hbad
    exact ⟨c :: good, d, more, c :: content, rfl, .plain hquote hslash hline hgood,
      .plain hslash hstands, hd⟩
  | @escape c rest hline _ ih =>
    by_cases hc : c ∈ legalEscapes
    · rw [escapes, List.forall_mem_cons] at hbad
      obtain ⟨good, d, more, content, rfl, hgood, hstands, hd⟩ := ih fun hrest => hbad ⟨hc, hrest⟩
      obtain ⟨e, he⟩ := Option.ne_none_iff_exists'.1 fun hnone => escape?_eq_none_iff.1 hnone hc
      exact ⟨'\\' :: c :: good, d, more, e :: content, rfl, .escape hline hgood, .escape he hstands, hd⟩
    · exact ⟨[], c, rest, [], rfl, .nil, .nil, hc⟩

/-- Decoding stops at an escape that does not exist, the bytes before it counted. -/
theorem unescape_bad_escape {good content more : List Char} {c : Char} (h : StandsFor good content)
    (hc : c ∉ legalEscapes) (offset : Nat) :
    unescape offset (good ++ '\\' :: c :: more) =
      .error ⟨.invalidEscape c, Span.ofRange (offset + byteLength good)
        (offset + byteLength (good ++ ['\\', c]))⟩ := by
  induction h generalizing offset with
  | nil =>
    rw [List.nil_append, unescape, escape?_eq_none_iff.2 hc]
    simp only [List.nil_append, byteLength_nil, byteLength_cons, Nat.add_zero, Nat.add_assoc]
    rfl
  | plain hd _ ih =>
    rw [List.cons_append, unescape_plain hd, ih, List.cons_append, byteLength_cons, byteLength_cons,
      ← Nat.add_assoc, ← Nat.add_assoc]
    rfl
  | @escape e d body content he _ ih =>
    rw [List.cons_append, List.cons_append, unescape, he]
    dsimp only
    rw [ih]
    simp only [List.cons_append, byteLength_cons, ← Nat.add_assoc]
    rfl

/-! ## Reading on -/

/-- Where a reader stands: at a byte of the source, behind a line break since its last token or not, and
before the rest of the text. -/
structure Reader where
  offset : Nat
  newline : Bool
  text : List Char

namespace Reader

/-- The reader before a source. -/
def start (source : String) : Reader := ⟨0, false, source.toList⟩

/-- The tokens that are made from here on. -/
def tokens (r : Reader) : Except LexError (List Token) := lexFrom r.offset r.newline r.text

/-- The place of a lexeme that stands here. -/
def spanOf (r : Reader) (l : Lexeme) : Span := Span.ofRange r.offset (r.offset + byteLength l.text)

end Reader

/-- The reader gets from one place to another, lexeme by lexeme, and makes tokens on the way. -/
inductive ReadsOn : Reader → List Token → Reader → Prop where
  | here (r : Reader) : ReadsOn r [] r
  | separator {r r' : Reader} {l : Lexeme} {rest : List Char} {ts : List Token}
    (hfirst : first? r.text = some (l, rest)) (hkind : l.tokenKind? (r.spanOf l) = .ok none) :
    ReadsOn ⟨r.offset + byteLength l.text, r.newline || l.kind = .newline, rest⟩ ts r' → ReadsOn r ts r'
  | token {r r' : Reader} {l : Lexeme} {rest : List Char} {k : TokenKind} {ts : List Token}
    (hfirst : first? r.text = some (l, rest)) (hkind : l.tokenKind? (r.spanOf l) = .ok (some k)) :
    ReadsOn ⟨r.offset + byteLength l.text, false, rest⟩ ts r' →
      ReadsOn r (⟨k, r.spanOf l, r.newline⟩ :: ts) r'

/-- One step of a reader that stands before a lexeme. -/
theorem Reader.tokens_first {r : Reader} {l : Lexeme} {rest : List Char}
    (hfirst : first? r.text = some (l, rest)) :
    r.tokens =
      match l.tokenKind? (r.spanOf l) with
      | .error e => .error e
      | .ok none => Reader.tokens ⟨r.offset + byteLength l.text, r.newline || l.kind = .newline, rest⟩
      | .ok (some k) =>
        (Reader.tokens ⟨r.offset + byteLength l.text, false, rest⟩).map
          (⟨k, r.spanOf l, r.newline⟩ :: ·) := by
  unfold Reader.tokens
  rw [lexFrom_eq]
  split
  · next hnone =>
    rw [hfirst] at hnone
    cases hnone
  · next l' rest' hsome =>
    rw [hfirst] at hsome
    cases hsome
    rfl

namespace ReadsOn

variable {r r' : Reader} {ts : List Token}

/-- What is read later stands behind what was read before. -/
theorem tokens_eq (h : ReadsOn r ts r') : r.tokens = r'.tokens.map (ts ++ ·) := by
  induction h with
  | here r => exact (congrFun Except.map_id _).symm
  | separator hfirst hkind _ ih =>
    rw [Reader.tokens_first hfirst, hkind]
    exact ih
  | @token r r' l rest k ts hfirst hkind _ ih =>
    rw [Reader.tokens_first hfirst, hkind]
    dsimp only
    rw [ih]
    cases r'.tokens <;> rfl

/-- The text between two places makes up the bytes between them. -/
theorem front (h : ReadsOn r ts r') :
    ∃ front, r.text = front ++ r'.text ∧ r'.offset = r.offset + byteLength front := by
  have step : ∀ {l : Lexeme} {r r' : Reader} {rest : List Char}, first? r.text = some (l, rest) →
      (∃ front, rest = front ++ r'.text ∧ r'.offset = r.offset + byteLength l.text + byteLength front) →
      ∃ front, r.text = front ++ r'.text ∧ r'.offset = r.offset + byteLength front := by
    rintro l r r' rest hfirst ⟨front, rfl, hoffset⟩
    refine ⟨l.text ++ front, ?_, ?_⟩
    · rw [List.append_assoc, first?_append hfirst]
    · rw [byteLength_append, ← Nat.add_assoc, hoffset]
  induction h with
  | here r => exact ⟨[], rfl, rfl⟩
  | separator hfirst _ _ ih => exact step hfirst ih
  | token hfirst _ _ ih => exact step hfirst ih

/-- A reader that makes a token takes the lexeme before it first. -/
theorem first {l : Lexeme} {rest : List Char} (h : ReadsOn r ts r') (hts : ts ≠ [])
    (hfirst : first? r.text = some (l, rest)) :
    (l.tokenKind? (r.spanOf l) = .ok none ∧
      ReadsOn ⟨r.offset + byteLength l.text, r.newline || l.kind = .newline, rest⟩ ts r') ∨
    ∃ k us, l.tokenKind? (r.spanOf l) = .ok (some k) ∧ ts = ⟨k, r.spanOf l, r.newline⟩ :: us ∧
      ReadsOn ⟨r.offset + byteLength l.text, false, rest⟩ us r' := by
  cases h with
  | here => exact absurd rfl hts
  | separator hfirst' hkind hrest =>
    cases hfirst.symm.trans hfirst'
    exact .inl ⟨hkind, hrest⟩
  | token hfirst' hkind hrest =>
    cases hfirst.symm.trans hfirst'
    exact .inr ⟨_, _, hkind, rfl, hrest⟩

/-- Tokens that are made after others are made behind the place where those were complete. -/
theorem later {r'' : Reader} {us : List Token} (h : ReadsOn r ts r') (hmore : ReadsOn r (ts ++ us) r'')
    (hus : us ≠ []) : ReadsOn r' us r'' := by
  induction h with
  | here => exact hmore
  | separator hfirst hkind _ ih =>
    rcases hmore.first (List.append_ne_nil_of_right_ne_nil _ hus) hfirst with
      ⟨-, hrest⟩ | ⟨k, more, hkind', -, -⟩
    · exact ih hrest
    · cases hkind.symm.trans hkind'
  | token hfirst hkind _ ih =>
    rcases hmore.first (List.cons_ne_nil _ _) hfirst with ⟨hkind', -⟩ | ⟨k, more, -, hmade, hrest⟩
    · cases hkind.symm.trans hkind'
    · obtain ⟨-, rfl⟩ := List.cons.inj hmade
      exact ih hrest

theorem trans {r'' : Reader} {us : List Token} (h : ReadsOn r ts r') (h' : ReadsOn r' us r'') :
    ReadsOn r (ts ++ us) r'' := by
  induction h with
  | here => exact h'
  | separator hfirst hkind _ ih => exact .separator hfirst hkind (ih h')
  | token hfirst hkind _ ih => exact .token hfirst hkind (ih h')

end ReadsOn

/-! ## Literals -/

section Literals

variable {body : List Char}

/-- The place of a literal that stands at byte `offset`. -/
def literalSpan (offset : Nat) (body : List Char) : Span :=
  Span.ofRange offset (offset + byteLength ('"' :: body ++ ['"']))

/-- What becomes of a literal is what becomes of its content. -/
theorem tokenKind?_literal (body : List Char) (span : Span) :
    tokenKind? ⟨.string, '"' :: body ++ ['"']⟩ span =
      (unescape span.behindFirst body).map fun content => some (.string (String.ofList content)) := by
  rw [tokenKind?, dropQuotes]

/-- Where a reader stands before a literal, everything is decided by the content of the literal. -/
theorem Reader.tokens_literal (hbody : InString body) (back : List Char) (offset : Nat)
    (newline : Bool) :
    Reader.tokens ⟨offset, newline, '"' :: body ++ ['"'] ++ back⟩ =
      match unescape (literalSpan offset body).behindFirst body with
      | .error e => .error e
      | .ok content =>
        (Reader.tokens ⟨offset + byteLength ('"' :: body ++ ['"']), false, back⟩).map
          (⟨.string (String.ofList content), literalSpan offset body, newline⟩ :: ·) := by
  have hfirst : first? (Reader.text ⟨offset, newline, '"' :: body ++ ['"'] ++ back⟩) = _ :=
    hbody.first?_string back
  rw [Reader.tokens_first hfirst, tokenKind?_literal]
  unfold Reader.spanOf literalSpan
  cases unescape _ body <;> rfl

/-- **Every text has literals**: with the escapes of quotes, backslashes and line feeds written out, and
those of tabs, carriage returns and null characters written out or not, what is read is one token with
the text for its content. -/
theorem lex_literal (raw : Nat → Bool) (text : String) :
    lex (literal raw text) =
      .ok [⟨.string text, literalSpan 0 (literalContent raw text.toList), false⟩,
        Token.endAt (byteLength (literal raw text).toList) false] := by
  obtain ⟨hbody, hstands⟩ := literalContent_spec raw text.toList
  have hsource : (literal raw text).toList = '"' :: literalContent raw text.toList ++ ['"'] ++ [] := by
    rw [literal, String.toList_ofList, List.append_nil]
  have hread : lexFrom 0 false ('"' :: literalContent raw text.toList ++ ['"'] ++ []) = _ :=
    Reader.tokens_literal hbody [] 0 false
  have hend : Reader.tokens ⟨0 + byteLength ('"' :: literalContent raw text.toList ++ ['"']), false, []⟩ =
      .ok [Token.endAt (byteLength (literal raw text).toList) false] := by
    rw [hsource, List.append_nil, Nat.zero_add, Reader.tokens, lexFrom_eq]
    rfl
  rw [(unescape_ok_iff hbody _).2 hstands] at hread
  dsimp only at hread
  rw [hend, ← hsource, String.ofList_toList] at hread
  exact hread

example : literal (· == 1) "\t\t\"\\" = "\"\\t\t\\\"\\\\\"" := by decide +kernel

end Literals

/-! ## Literals inside a source -/

/-- A literal with the content `body` in a source, to which the reader comes with the tokens `earlier`
made: `front` stands before it and `back` behind it. -/
structure LiteralIn (source : String) (front body back : List Char) (earlier : List Token)
    (newline : Bool) : Prop where
  text : source.toList = front ++ ('"' :: body ++ ['"'] ++ back)
  content : InString body
  reached : ReadsOn (.start source) earlier ⟨byteLength front, newline, '"' :: body ++ ['"'] ++ back⟩

/-- Whenever the lexeme before the reader is a string with its closing quote, it is a literal in the
source. -/
theorem ReadsOn.literalIn {source : String} {r : Reader} {earlier : List Token} {l : Lexeme}
    {back : List Char} (h : ReadsOn (.start source) earlier r) (hfirst : first? r.text = some (l, back))
    (hkind : l.kind = .string) :
    ∃ front body, l.text = '"' :: body ++ ['"'] ∧ LiteralIn source front body back earlier r.newline := by
  obtain ⟨front, hsource, hoffset⟩ := h.front
  obtain ⟨offset, newline, text⟩ := r
  obtain ⟨htext, hallows, -⟩ := first?_eq_some_iff.1 hfirst
  obtain ⟨kind, piece⟩ := l
  subst hkind
  cases hallows with
  | @string body hbody =>
    dsimp only at htext hsource hoffset
    rw [Reader.start, Nat.zero_add] at hoffset
    subst htext hoffset
    exact ⟨front, body, rfl, hsource, hbody, h⟩

section Inside

variable {source : String} {front body back : List Char} {earlier : List Token} {newline : Bool}

/-- The reader gets past a literal whose content stands for something. -/
theorem LiteralIn.past {content : List Char} (h : LiteralIn source front body back earlier newline)
    (hstands : StandsFor body content) :
    ReadsOn (.start source)
      (earlier ++ [⟨.string (String.ofList content), literalSpan (byteLength front) body, newline⟩])
      ⟨byteLength front + byteLength ('"' :: body ++ ['"']), false, back⟩ := by
  have hkind := tokenKind?_literal body (literalSpan (byteLength front) body)
  rw [(unescape_ok_iff h.content _).2 hstands] at hkind
  exact h.reached.trans
    (ReadsOn.token (r := ⟨byteLength front, newline, _⟩) (h.content.first?_string back) hkind (.here _))

/-- The reader gets past no literal that has a bad escape. -/
theorem LiteralIn.legal_of_past {t : Token} {r : Reader}
    (h : LiteralIn source front body back earlier newline)
    (hpast : ReadsOn (.start source) (earlier ++ [t]) r) : ∀ e ∈ escapes body, e ∈ legalEscapes := by
  have hnext := h.reached.later hpast (List.cons_ne_nil _ _)
  have hkind : ∃ k, tokenKind? ⟨.string, '"' :: body ++ ['"']⟩
      (literalSpan (byteLength front) body) = .ok k := by
    rcases hnext.first (List.cons_ne_nil _ _) (h.content.first?_string back) with
      ⟨hkind, -⟩ | ⟨k, more, hkind, -, -⟩
    · exact ⟨none, hkind⟩
    · exact ⟨some k, hkind⟩
  obtain ⟨k, hkind⟩ := hkind
  rw [tokenKind?_literal] at hkind
  obtain ⟨content, hcontent, -⟩ := map_eq_ok_iff.1 hkind
  exact h.content.exists_standsFor_iff.1 ⟨content, (unescape_ok_iff h.content _).1 hcontent⟩

/-- A source is refused for the first bad escape of a literal that the reader comes to. The place counts
from the byte that the reader takes for the beginning of the content. -/
theorem LiteralIn.refused (h : LiteralIn source front body back earlier newline)
    (hbad : ¬ ∀ e ∈ escapes body, e ∈ legalEscapes) :
    ∃ good c more, body = good ++ '\\' :: c :: more ∧ InString good ∧
      (∀ e ∈ escapes good, e ∈ legalEscapes) ∧ c ∉ legalEscapes ∧
      lex source = .error ⟨.invalidEscape c,
        Span.ofRange ((literalSpan (byteLength front) body).behindFirst + byteLength good)
          ((literalSpan (byteLength front) body).behindFirst + byteLength (good ++ ['\\', c]))⟩ := by
  obtain ⟨good, c, more, content, rfl, hgood, hstands, hc⟩ := h.content.first_bad_escape hbad
  refine ⟨good, c, more, rfl, hgood, hgood.exists_standsFor_iff.1 ⟨content, hstands⟩, hc, ?_⟩
  have hread := Reader.tokens_literal h.content back (byteLength front) newline
  rw [unescape_bad_escape hstands hc] at hread
  have hlex : lex source = _ := h.reached.tokens_eq
  rw [hlex, hread]
  rfl

/-- Up to the largest offset this is where the escape stands. -/
theorem place_of_escape {good more : List Char} {c : Char}
    (hsize : byteLength (front ++ '"' :: good ++ ['\\', c]) ≤ Span.maxOffset) :
    Span.ofRange
        ((literalSpan (byteLength front) (good ++ '\\' :: c :: more)).behindFirst + byteLength good)
        ((literalSpan (byteLength front) (good ++ '\\' :: c :: more)).behindFirst +
          byteLength (good ++ ['\\', c])) =
      ⟨byteLength (front ++ '"' :: good), byteLength (front ++ '"' :: good ++ ['\\', c])⟩ := by
  have hquote : '"'.utf8Size = 1 := rfl
  simp only [byteLength_append, byteLength_cons, byteLength_nil, hquote] at hsize ⊢
  rw [literalSpan, Span.behindFirst_ofRange (by omega), Span.ofRange, Span.mk.injEq]
  omega

/-- With the content of the literal decoded, what is read behind it follows its token. -/
theorem LiteralIn.lex_eq {content : List Char} (h : LiteralIn source front body back earlier newline)
    (hstands : StandsFor body content) :
    lex source =
      (lexFrom (byteLength (front ++ ('"' :: body ++ ['"']))) false back).map
        (earlier ++
          [⟨.string (String.ofList content), literalSpan (byteLength front) body, newline⟩] ++ ·) := by
  rw [byteLength_append]
  exact (h.past hstands).tokens_eq

end Inside

/-- **String literals.** Every text has one, with the optional escapes left out at any places, and it is
read as one token. Every string with its closing quote that the reader comes to is a literal in the
source. Such a literal is got past just if all its escapes exist, and then its token
carries what its content stands for. Otherwise the source is refused for the first bad escape; the place is
that of the backslash and the character behind it, unless these reach further than a span can. -/
theorem string_literals :
    (∀ (raw : Nat → Bool) (text : String),
      lex (literal raw text) =
        .ok [⟨.string text, literalSpan 0 (literalContent raw text.toList), false⟩,
          Token.endAt (byteLength (literal raw text).toList) false]) ∧
    (∀ (source : String) (r : Reader) (earlier : List Token) (l : Lexeme) (back : List Char),
      ReadsOn (.start source) earlier r → first? r.text = some (l, back) → l.kind = .string →
      ∃ front body, l.text = '"' :: body ++ ['"'] ∧
        LiteralIn source front body back earlier r.newline) ∧
    ∀ (source : String) (front body back : List Char) (earlier : List Token) (newline : Bool),
      LiteralIn source front body back earlier newline →
      ((∃ t r, ReadsOn (.start source) (earlier ++ [t]) r) ↔ ∀ e ∈ escapes body, e ∈ legalEscapes) ∧
      ((∀ e ∈ escapes body, e ∈ legalEscapes) → ∃ content, StandsFor body content ∧
        lex source =
          (lexFrom (byteLength (front ++ ('"' :: body ++ ['"']))) false back).map
            (earlier ++
              [⟨.string (String.ofList content), literalSpan (byteLength front) body, newline⟩] ++ ·)) ∧
      ((¬ ∀ e ∈ escapes body, e ∈ legalEscapes) → ∃ good c more,
        body = good ++ '\\' :: c :: more ∧ InString good ∧ (∀ e ∈ escapes good, e ∈ legalEscapes) ∧
        c ∉ legalEscapes ∧ ∃ span, lex source = .error ⟨.invalidEscape c, span⟩ ∧
          (byteLength (front ++ '"' :: good ++ ['\\', c]) ≤ Span.maxOffset →
            span = ⟨byteLength (front ++ '"' :: good), byteLength (front ++ '"' :: good ++ ['\\', c])⟩)) := by
  refine ⟨lex_literal, fun _ _ _ _ _ hreads hfirst hkind => hreads.literalIn hfirst hkind,
    fun source front body back earlier newline h => ⟨⟨?_, ?_⟩, ?_, ?_⟩⟩
  · rintro ⟨t, r, hpast⟩
    exact h.legal_of_past hpast
  · intro hlegal
    obtain ⟨content, hstands⟩ := h.content.exists_standsFor_iff.2 hlegal
    exact ⟨_, _, h.past hstands⟩
  · intro hlegal
    obtain ⟨content, hstands⟩ := h.content.exists_standsFor_iff.2 hlegal
    exact ⟨content, hstands, h.lex_eq hstands⟩
  · intro hbad
    obtain ⟨good, c, more, rfl, hgood, hlegal, hc, hlex⟩ := h.refused hbad
    exact ⟨good, c, more, rfl, hgood, hlegal, hc, _, hlex, place_of_escape⟩

/-- A literal behind a name, with a bad escape of a character that takes three bytes. -/
def badEscape : String := "x\"\\né\\日\""

theorem string_literals_badEscape :
    LiteralIn badEscape ['x'] ['\\', 'n', 'é', '\\', '日'] [] [⟨.ident "x", ⟨0, 1⟩, false⟩] false ∧
      (∃ good c more, ['\\', 'n', 'é', '\\', '日'] = good ++ '\\' :: c :: more ∧ InString good ∧
        (∀ e ∈ escapes good, e ∈ legalEscapes) ∧ c ∉ legalEscapes ∧
        ∃ span, lex badEscape = .error ⟨.invalidEscape c, span⟩ ∧
          (byteLength (['x'] ++ '"' :: good ++ ['\\', c]) ≤ Span.maxOffset →
            span =
              ⟨byteLength (['x'] ++ '"' :: good), byteLength (['x'] ++ '"' :: good ++ ['\\', c])⟩)) ∧
      lex badEscape = .error ⟨.invalidEscape '日', ⟨6, 10⟩⟩ := by
  have hin : LiteralIn badEscape ['x'] ['\\', 'n', 'é', '\\', '日'] []
      [⟨.ident "x", ⟨0, 1⟩, false⟩] false := by
    refine ⟨by decide +kernel, ?_, ?_⟩
    · exact .escape (by decide) (.plain (by decide) (by decide) (by decide) (.escape (by decide) .nil))
    · have hfirst : first? (Reader.start badEscape).text =
          some (⟨.word, ['x']⟩, '"' :: ['\\', 'n', 'é', '\\', '日'] ++ ['"'] ++ []) := by decide +kernel
      exact .token hfirst rfl (.here _)
  have hbad : ¬ ∀ e ∈ escapes ['\\', 'n', 'é', '\\', '日'], e ∈ legalEscapes := by
    simp [escapes, legalEscapes]
  exact ⟨hin, (string_literals.2.2 _ _ _ _ _ _ hin).2.2 hbad, by decide +kernel⟩

/-- The reader gets over blanks. -/
theorem ReadsOn.blankText (n offset : Nat) (newline : Bool) (text : List Char)
    (hnext : ∀ c ∈ text.head?, isSpace c = false) :
    ReadsOn ⟨offset, newline, Nikl.blankText n ++ text⟩ [] ⟨offset + n, newline, text⟩ := by
  cases n with
  | zero => exact .here _
  | succ n =>
    have hblank : ∀ c ∈ Nikl.blankText (n + 1), isSpace c = true := fun c hc =>
      List.eq_of_mem_replicate hc ▸ rfl
    have hfirst : first? (Nikl.blankText (n + 1) ++ text) =
        some (⟨.blank, Nikl.blankText (n + 1)⟩, text) := by
      rw [← run_append_eq .blank hblank hnext]
      exact first?_space rfl
    have hrest := ReadsOn.here ⟨offset + byteLength (Nikl.blankText (n + 1)), newline || false, text⟩
    have hread := ReadsOn.separator (r := ⟨offset, newline, _⟩) hfirst rfl hrest
    rwa [byteLength_blankText, Bool.or_false] at hread

/-- Behind blanks to the largest offset but one, an escape has its first byte at the largest offset, and its
place covers none of its two bytes. -/
theorem string_literals_far :
    LiteralIn (String.ofList (blankText 4294967294 ++ ['"', '\\', 'q', '"'])) (blankText 4294967294)
        ['\\', 'q'] [] [] false ∧
      byteLength (blankText 4294967294 ++ ['"']) = 4294967295 ∧
      byteLength (blankText 4294967294 ++ ['"', '\\', 'q']) = 4294967297 ∧
      lex (String.ofList (blankText 4294967294 ++ ['"', '\\', 'q', '"'])) =
        .error ⟨.invalidEscape 'q', ⟨4294967295, 4294967295⟩⟩ := by
  have hread := ReadsOn.blankText 4294967294 0 false ['"', '\\', 'q', '"'] (by simp [isSpace])
  rw [Nat.zero_add] at hread
  have hbody : InString ['\\', 'q'] := .escape (by decide) .nil
  refine ⟨⟨?_, hbody, ?_⟩, ?_, ?_, ?_⟩
  · rw [String.toList_ofList]
    rfl
  · rw [Reader.start, String.toList_ofList, byteLength_blankText]
    exact hread
  · rw [byteLength_append, byteLength_blankText]
    rfl
  · rw [byteLength_append, byteLength_blankText]
    rfl
  · have hlex := hread.tokens_eq
    rw [lex, String.toList_ofList]
    exact hlex.trans (congrArg (Except.map _) (Reader.tokens_literal hbody [] 4294967294 false))

end Nikl
