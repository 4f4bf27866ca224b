import Nikl.Decimal.Layout
import Nikl.Interner
import Nikl.Source.Bytes
import Nikl.Token.Error
import Nikl.Token.Lexeme

/-
From source text to tokens. The text is cut into lexemes from left to right; lexemes that separate
are dropped and the others become tokens, ended by one token for the end of the text. The first
lexeme that makes no token stops the reading.
-/

set_option autoImplicit false

namespace Nikl

open Nikl.Source

/-! ## Literals -/

/-- The character that a backslash and another character stand for in a string (the escapes of
`unescape_string`). -/
def escape? : Char → Option Char
  | 'n' => some '\n'
  | 't' => some '\t'
  | 'r' => some '\r'
  | '\\' => some '\\'
  | '"' => some '"'
  | '0' => some '\x00'
  | _ => none

/-- The byte behind the first one of a span, which `convert_token` hands to `unescape_string`. It has 32
bits as offsets have, and begins anew behind the largest. -/
def Span.behindFirst (s : Span) : Nat := (s.start + 1) % (maxOffset + 1)

theorem Span.behindFirst_ofRange_le (start stop : Nat) :
    (Span.ofRange start stop).behindFirst ≤ start + 1 :=
  Nat.le_trans (Nat.mod_le _ _) (Nat.add_le_add_right (Nat.min_le_left start maxOffset) 1)

/-- Up to the largest offset it is the byte that it should be. -/
theorem Span.behindFirst_ofRange {start : Nat} (h : start < maxOffset) (stop : Nat) :
    (Span.ofRange start stop).behindFirst = start + 1 := by
  rw [behindFirst, ofRange, Nat.min_eq_left (Nat.le_of_lt h), Nat.mod_eq_of_lt (Nat.succ_lt_succ h)]

/-- The text that the content of a string stands for, its escapes resolved (`unescape_string`). The
content is said to begin at byte `offset` of the source, to which the place of a bad escape refers. -/
def unescape (offset : Nat) : List Char → Except LexError (List Char)
  | [] => .ok []
  | '\\' :: [] => .ok ['\\']
  | '\\' :: c :: rest =>
    match escape? c with
    | some plain => (unescape (offset + 1 + c.utf8Size) rest).map (plain :: ·)
    | none => .error ⟨.invalidEscape c, Span.ofRange offset (offset + 1 + c.utf8Size)⟩
  | c :: rest => (unescape (offset + c.utf8Size) rest).map (c :: ·)

/-- The largest integer of the language. -/
def maxInt : Nat := 9223372036854775807

/-- The integer that a run of digits stands for (`RawToken::Int` in `convert_token`). -/
def intLiteral (digits : List Char) (span : Span) : Except LexError TokenKind :=
  let value := Decimal.digitsValue digits
  if value ≤ maxInt then .ok (.int (Int64.ofNat value))
  else .error ⟨.invalidNumber (String.ofList digits), span⟩

/-- The number that digits around a point stand for (`RawToken::Float` in `convert_token`). -/
def floatLiteral (text : List Char) : TokenKind :=
  .float (Decimal.ofParts (text.takeWhile Char.isDigit) ((text.dropWhile Char.isDigit).drop 1))

/-- What a word is: a reserved one, or else a name. -/
def wordKind (word : String) : TokenKind :=
  match Keyword.all.find? (fun k => k.spelling == word), TypeName.all.find? (fun t => t.spelling == word) with
  | some k, _ => .keyword k
  | none, some t => .typeName t
  | none, none => .ident word

/-! ## Tokens -/

/-- The token a lexeme becomes, if it does not merely separate (`convert_token`). -/
def Lexeme.tokenKind? (l : Lexeme) (span : Span) : Except LexError (Option TokenKind) :=
  match l.kind with
  | .blank | .newline | .comment => .ok none
  | .word => .ok (some (wordKind (String.ofList l.text)))
  | .integer => (intLiteral l.text span).map some
  | .decimal => .ok (some (floatLiteral l.text))
  | .string =>
    (unescape span.behindFirst ((l.text.drop 1).dropLast)).map fun content =>
      some (.string (String.ofList content))
  | .openString => .error ⟨.unterminatedString, span⟩
  | .symbol s => .ok (some (.symbol s))

/-- The token with its name or its string kept in some way, in a state that may change. -/
def TokenKind.keep {ν σ : Type} (keep : String → σ → ν × σ) (kind : TokenKind) (s : σ) :
    TokenKind ν × σ :=
  match kind with
  | .int n => (.int n, s)
  | .float x => (.float x, s)
  | .string content => let (name, s) := keep content s; (.string name, s)
  | .ident x => let (name, s) := keep x s; (.ident name, s)
  | .keyword w => (.keyword w, s)
  | .typeName t => (.typeName t, s)
  | .symbol x => (.symbol x, s)
  | .eof => (.eof, s)

/-- The tokens of a text that begins at byte `offset` of the source, behind a line break since the last
token if `newline` (the loop of `lex`). Names and strings are kept as they are read, up to the end of
the text or to the first lexeme that makes no token. -/
def lexWith {ν σ : Type} (keep : String → σ → ν × σ) (offset : Nat) (newline : Bool)
    (text : List Char) (s : σ) : Except LexError (List (Token ν)) × σ :=
  match h : Lexeme.first? text with
  | none =>
    match text with
    | [] => (.ok [Token.endAt offset newline], s)
    | c :: _ => (.error ⟨.unexpectedChar c, Span.ofRange offset (offset + c.utf8Size)⟩, s)
  | some (lexeme, rest) =>
    have := Lexeme.first?_length_lt h
    let next := offset + byteLength lexeme.text
    let span := Span.ofRange offset next
    match lexeme.tokenKind? span with
    | .error e => (.error e, s)
    -- a line break counts for the next token, however many blanks and comments lie between
    | .ok none => lexWith keep next (newline || lexeme.kind = .newline) rest s
    | .ok (some kind) =>
      let (kind, s) := kind.keep keep s
      let (tokens, s) := lexWith keep next false rest s
      (tokens.map (⟨kind, span, newline⟩ :: ·), s)
termination_by text.length

/-- What is read first, and what behind it. -/
theorem lexWith_eq {ν σ : Type} (keep : String → σ → ν × σ) (offset : Nat) (newline : Bool)
    (text : List Char) (s : σ) : lexWith keep offset newline text s =
    match Lexeme.first? text with
    | none =>
      match text with
      | [] => (.ok [Token.endAt offset newline], s)
      | c :: _ => (.error ⟨.unexpectedChar c, Span.ofRange offset (offset + c.utf8Size)⟩, s)
    | some (lexeme, rest) =>
      let next := offset + byteLength lexeme.text
      let span := Span.ofRange offset next
      match lexeme.tokenKind? span with
      | .error e => (.error e, s)
      | .ok none => lexWith keep next (newline || lexeme.kind = .newline) rest s
      | .ok (some kind) =>
        ((lexWith keep next false rest (kind.keep keep s).2).1.map
            (⟨(kind.keep keep s).1, span, newline⟩ :: ·),
          (lexWith keep next false rest (kind.keep keep s).2).2) := by
  rw [lexWith]
  split
  · next hfirst =>
    simp only [hfirst]
    cases text <;> rfl
  · next lexeme rest hfirst => simp only [hfirst]

/-- The tokens of a text whose names are texts. -/
def lexFrom (offset : Nat) (newline : Bool) (text : List Char) : Except LexError (List Token) :=
  (lexWith (fun x u => (x, u)) offset newline text ()).1

theorem lexFrom_eq (offset : Nat) (newline : Bool) (text : List Char) : lexFrom offset newline text =
    match Lexeme.first? text with
    | none =>
      match text with
      | [] => .ok [Token.endAt offset newline]
      | c :: _ => .error ⟨.unexpectedChar c, Span.ofRange offset (offset + c.utf8Size)⟩
    | some (lexeme, rest) =>
      let next := offset + byteLength lexeme.text
      let span := Span.ofRange offset next
      match lexeme.tokenKind? span with
      | .error e => .error e
      | .ok none => lexFrom next (newline || lexeme.kind = .newline) rest
      | .ok (some kind) => (lexFrom next false rest).map (⟨kind, span, newline⟩ :: ·) := by
  have hkeep : ∀ kind : TokenKind, kind.keep (fun x u => (x, u)) () = (kind, ()) := by
    intro kind
    cases kind <;> rfl
  unfold lexFrom
  rw [lexWith_eq]
  cases Lexeme.first? text with
  | none => cases text <;> rfl
  | some first =>
    simp only [hkeep]
    rcases first.1.tokenKind? (Span.ofRange offset (offset + byteLength first.1.text)) with e | _ | kind <;>
      rfl

/-- What holds of every text that is read, by its lexemes: none is left, none can be taken, the first one
is refused, it only separates, or it is a token. -/
theorem lexing_induction {P : Nat → Bool → List Char → Prop}
    (done : ∀ offset newline, P offset newline [])
    (stuck : ∀ offset newline c rest, Lexeme.first? (c :: rest) = none → P offset newline (c :: rest))
    (refused : ∀ offset newline text l rest e, Lexeme.first? text = some (l, rest) →
      l.tokenKind? (Span.ofRange offset (offset + byteLength l.text)) = .error e →
      P offset newline text)
    (gap : ∀ offset newline text l rest, Lexeme.first? text = some (l, rest) →
      l.tokenKind? (Span.ofRange offset (offset + byteLength l.text)) = .ok none →
      P (offset + byteLength l.text) (newline || l.kind = .newline) rest → P offset newline text)
    (token : ∀ offset newline text l rest kind, Lexeme.first? text = some (l, rest) →
      l.tokenKind? (Span.ofRange offset (offset + byteLength l.text)) = .ok (some kind) →
      P (offset + byteLength l.text) false rest → P offset newline text)
    (offset : Nat) (newline : Bool) (text : List Char) : P offset newline text := by
  induction hlength : text.length using Nat.strongRecOn generalizing offset newline text with
  | _ length ih =>
  cases hfirst : Lexeme.first? text with
  | none =>
    cases text with
    | nil => exact done offset newline
    | cons c rest => exact stuck offset newline c rest hfirst
  | some first =>
    rcases first with ⟨l, rest⟩
    have hshort : rest.length < length := hlength ▸ Lexeme.first?_length_lt hfirst
    cases hkind : l.tokenKind? (Span.ofRange offset (offset + byteLength l.text)) with
    | error e => exact refused offset newline text l rest e hfirst hkind
    | ok kind? =>
      cases kind? with
      | none => exact gap offset newline text l rest hfirst hkind (ih _ hshort _ _ rest rfl)
      | some kind => exact token offset newline text l rest kind hfirst hkind (ih _ hshort _ _ rest rfl)

/-- The tokens of a source text (`lex`). -/
def lex (source : String) : Except LexError (List Token) := lexFrom 0 false source.toList

/-- The tokens of a source text with its names numbered in a table, and the table behind them (`lex`
with its `StringInterner`). What is read before the first lexeme that makes no token has its numbers all
the same. -/
def lexInto (table : Interner) (source : String) : Except LexError (List (Token Name)) × Interner :=
  lexWith (fun x table => table.intern x) 0 false source.toList table

/-- The texts that number themselves when a list of tokens is read: names and strings, in order. -/
def tokenTexts (tokens : List Token) : List String :=
  tokens.filterMap fun t =>
    match t.kind with
    | .ident name => some name
    | .string content => some content
    | _ => none

end Nikl
