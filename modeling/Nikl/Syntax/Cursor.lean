import Nikl.Syntax.Error

/-
A place in a list of tokens. The list ends with the token for the end of the text, which is never
passed: a cursor that has come to it stays there.
-/

set_option autoImplicit false

namespace Nikl

/-- The tokens still to be read, and the place of the last one read (`Cursor`). -/
structure Cursor (ν : Type := String) where
  rest : List (Token ν)
  previous : Span := Span.nowhere
  deriving DecidableEq

namespace Cursor

variable {ν : Type}

/-- The cursor at the first token (`Cursor::new`). -/
def ofTokens (tokens : List (Token ν)) : Cursor ν := ⟨tokens, Span.nowhere⟩

/-- The token at the cursor (`Cursor::current`). -/
def current (c : Cursor ν) : Token ν := c.rest.headD (Token.endAt 0 false)

/-- What the token at the cursor is (`Cursor::current_kind`). -/
def kind (c : Cursor ν) : TokenKind ν := c.current.kind

/-- Where the token at the cursor stands (`Cursor::current_span`). -/
def span (c : Cursor ν) : Span := c.current.span

/-- Whether a line break comes before the token at the cursor (`Cursor::at_line_start`). -/
def atLineStart (c : Cursor ν) : Bool := c.current.newlineBefore

/-- Whether the cursor has come to the end of the text (`Cursor::is_at_end`). -/
def atEnd [DecidableEq ν] (c : Cursor ν) : Bool := c.kind = .eof

/-- Whether the token at the cursor is of a kind, whatever it carries (`Cursor::check`). -/
def check [DecidableEq ν] (c : Cursor ν) (kind : TokenKind ν) : Bool := c.kind.sameKind kind

/-- Whether the token at the cursor is a name (`Cursor::check_ident`). -/
def atIdent (c : Cursor ν) : Bool :=
  match c.kind with
  | .ident _ => true
  | _ => false

/-- The kind of the token `n` places ahead (`Cursor::peek_kind_at`). -/
def peek (c : Cursor ν) (n : Nat) : TokenKind ν := (c.rest[n]?.map (·.kind)).getD .eof

/-- The cursor behind the current token, or the same one at the end of the text. -/
def next [DecidableEq ν] (c : Cursor ν) : Cursor ν := if c.atEnd then c else ⟨c.rest.tail, c.span⟩

end Cursor

/-! ## Reading tokens -/

/-- Readers of a part of the tree: from a cursor to the part and the cursor behind it (`Parser`). -/
abbrev ParserOf (ν : Type) := StateT (Cursor ν) (Except (ParseError ν))

/-- Readers of tokens whose names are texts. -/
abbrev Parser := ParserOf String

namespace Parser

variable {ν : Type}

/-- Fails at the token under the cursor. -/
def failHere {α : Type} (fault : TokenKind ν → ParseFault ν) : ParserOf ν α :=
  fun c => .error ⟨fault c.kind, c.span, none⟩

/-- Reads the token under the cursor, whatever it is (`Cursor::advance`). -/
def advance [DecidableEq ν] : ParserOf ν (Token ν) := fun c => .ok (c.current, c.next)

/-- Reads a token if it is of the given kind, and tells whether it was (`Cursor::eat`). -/
def eat [DecidableEq ν] (kind : TokenKind ν) : ParserOf ν Bool := fun c =>
  if c.check kind then .ok (true, c.next) else .ok (false, c)

/-- Reads a token that must be of the given kind (`Cursor::expect`). -/
def expect [DecidableEq ν] (kind : TokenKind ν) : ParserOf ν (Token ν) := fun c =>
  if c.check kind then advance c else failHere (.expectedToken kind) c

/-- Reads a name (`Cursor::expect_ident`). -/
def expectIdent [DecidableEq ν] : ParserOf ν (ν × Span) := fun c =>
  match c.kind with
  | .ident name => .ok ((name, c.span), c.next)
  | _ => failHere .expectedIdentifier c

/-- Reads the delimiter that closes the one at `opener`, and gives its place (`Cursor::expect_closing`).
At the end of the text the delimiter at `opener` is what is wrong. -/
def expectClosing [DecidableEq ν] (close : TokenKind ν) (opener : Span) : ParserOf ν Span := fun c =>
  if c.check close then .ok (c.span, c.next)
  else if c.atEnd then .error ⟨.unclosed close opener, c.span, none⟩
  else failHere (.expectedToken close) c

/-- Reads a part that keeps account of what is being read (`Parser::in_error_context`). -/
def within {α : Type} (context : Context) (p : ParserOf ν α) : ParserOf ν α := fun c =>
  (p c).mapError (ParseError.orContext context)

/-! ## Repetition

Every round of a repeated reader takes a token at least, so there are no more rounds than tokens
still to be read. A repeated reader is handed those tokens and drops one of them in each round; only
their number counts. -/

/-- Reads items that each end in a comma or stand before the closing delimiter (the loop of
`Parser::comma_separated`). -/
def items [DecidableEq ν] {α : Type} (close : TokenKind ν) (item : ParserOf ν α) :
    (rounds : List (Token ν)) → ParserOf ν (List α)
  | [] => pure []
  | _ :: rounds => do
    let c ← get
    if c.check close || c.atEnd then return []
    -- the end of the text is left to whoever reads the closing delimiter
    let first ← item
    if ← eat (.symbol .comma) then
      return first :: (← items close item rounds)
    let c ← get
    if c.check close || c.atEnd then return [first]
    failHere (.expectedSeparator close)

/-- A list of items up to the delimiter that closes the one at `opener`, with the place of the closing
one (`Parser::comma_separated`). A comma may follow the last item. -/
def commaSeparated [DecidableEq ν] {α : Type} (opener : Span) (close : TokenKind ν)
    (item : ParserOf ν α) : ParserOf ν (List α × Span) := do
  let c ← get
  let parts ← items close item c.rest
  let closing ← expectClosing close opener
  return (parts, closing)

end Parser
end Nikl
