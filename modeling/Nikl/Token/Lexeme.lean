import Nikl.Token

/-
Lexemes: the pieces that a source text falls into. Some become tokens and some, such as blanks and
comments, only separate them. At every place the longest piece that one of the rules allows is taken:

* a run of spaces, tabs, carriage returns and form feeds;
* a line feed;
* two slashes and everything up to the line feed;
* a word: a letter or underscore, then letters, digits and underscores;
* a run of digits, or two such runs with a point between them;
* a double quote, then characters and pairs of a backslash and a character, up to the next double
  quote; without one before the end of the line, the string is open;
* a symbol.

A character that begins none of these begins no lexeme.
-/

set_option autoImplicit false

namespace Nikl

/-- The rules that make lexemes (`RawToken`). -/
inductive LexemeKind where
  | blank | newline | comment | word | integer | decimal | string | openString
  | symbol (symbol : Symbol)
  deriving DecidableEq, Repr

namespace LexemeKind

/-- Blanks between tokens, line feeds apart. -/
def isSpace (c : Char) : Bool := c = ' ' || c = '\t' || c = '\r' || c = '\x0c'

/-- Characters that may begin a word: ASCII letters and the underscore. -/
def beginsWord (c : Char) : Bool := c.isAlpha || c = '_'

/-- Characters that may continue a word. -/
def continuesWord (c : Char) : Bool := c.isAlpha || c.isDigit || c = '_'

/-- The symbol that two characters write, if they do. -/
def pairSymbol? : Char → Char → Option Symbol
  | '=', '=' => some .equal
  | '!', '=' => some .notEqual
  | '<', '=' => some .lessEqual
  | '>', '=' => some .greaterEqual
  | '-', '>' => some .arrow
  | _, _ => none

/-- The symbol that one character writes, if it does. -/
def singleSymbol? : Char → Option Symbol
  | '(' => some .leftParen
  | ')' => some .rightParen
  | '\x7b' => some .leftBrace
  | '\x7d' => some .rightBrace
  | '[' => some .leftBracket
  | ']' => some .rightBracket
  | ',' => some .comma
  | ':' => some .colon
  | ';' => some .semicolon
  | '=' => some .assign
  | '<' => some .less
  | '>' => some .greater
  | '+' => some .plus
  | '-' => some .minus
  | '*' => some .star
  | '/' => some .slash
  | '%' => some .percent
  | '!' => some .bang
  | _ => none

end LexemeKind

/-- A piece of source text and the rule that made it. -/
structure Lexeme where
  kind : LexemeKind
  text : List Char
  deriving DecidableEq, Repr

namespace Lexeme

open LexemeKind

/-- The content of a string from behind its opening quote, and what follows the content. The content
ends before a double quote, a line feed, or a backslash that no character of the line follows. -/
def stringBody : List Char → List Char × List Char
  | [] => ([], [])
  | '\\' :: [] => ([], ['\\'])
  | '\\' :: c :: rest =>
    -- a backslash does not carry a string over the end of its line
    if c = '\n' then ([], '\\' :: c :: rest)
    else
      let (body, after) := stringBody rest
      ('\\' :: c :: body, after)
  | c :: rest =>
    if c = '"' ∨ c = '\n' then ([], c :: rest)
    else
      let (body, after) := stringBody rest
      (c :: body, after)

/-- The string that a quote opens, and what follows it (`RawToken::String`,
`RawToken::UnterminatedString`). -/
def string (rest : List Char) : Lexeme × List Char :=
  match stringBody rest with
  | (body, '"' :: after) => (⟨.string, '"' :: body ++ ['"']⟩, after)
  | (body, after) => (⟨.openString, '"' :: body⟩, after)

/-- The number that a run of digits begins, and what follows it (`RawToken::Int`, `RawToken::Float`). -/
def number (text : List Char) : Lexeme × List Char :=
  let whole := text.takeWhile Char.isDigit
  match text.dropWhile Char.isDigit with
  | '.' :: after =>
    -- a point without a digit behind it is left for the next lexeme
    if (after.takeWhile Char.isDigit).isEmpty then (⟨.integer, whole⟩, '.' :: after)
    else (⟨.decimal, whole ++ '.' :: after.takeWhile Char.isDigit⟩, after.dropWhile Char.isDigit)
  | after => (⟨.integer, whole⟩, after)

/-- The symbol that a text begins with, and what follows it. -/
def symbol? : List Char → Option (Lexeme × List Char)
  | [] => none
  | [c] => (singleSymbol? c).map fun s => (⟨.symbol s, [c]⟩, [])
  | c :: d :: rest =>
    -- two characters before one, so that an arrow is no minus sign
    match pairSymbol? c d with
    | some s => some (⟨.symbol s, [c, d]⟩, rest)
    | none => (singleSymbol? c).map fun s => (⟨.symbol s, [c]⟩, d :: rest)

/-- A lexeme of the characters of one class, as many as there are. -/
def run (kind : LexemeKind) (belongs : Char → Bool) (text : List Char) : Lexeme × List Char :=
  (⟨kind, text.takeWhile belongs⟩, text.dropWhile belongs)

/-- The lexeme that a text begins with, and what follows it (one step of `RawToken::lexer`). -/
def first? : List Char → Option (Lexeme × List Char)
  | [] => none
  | c :: rest =>
    if c = '\n' then some (⟨.newline, ['\n']⟩, rest)
    else if isSpace c then some (run .blank isSpace (c :: rest))
    else if c = '/' ∧ rest.head? = some '/' then some (run .comment (· ≠ '\n') (c :: rest))
    else if beginsWord c then some (run .word continuesWord (c :: rest))
    else if c.isDigit then some (number (c :: rest))
    else if c = '"' then some (string rest)
    else symbol? (c :: rest)

/-! ## A lexeme and what follows it make up the text -/

theorem stringBody_append (text : List Char) :
    (stringBody text).1 ++ (stringBody text).2 = text := by
  fun_induction stringBody text <;> simp_all

theorem string_append {rest : List Char} :
    (string rest).1.text ++ (string rest).2 = '"' :: rest := by
  have parts := stringBody_append rest
  unfold string
  split
  · next body after h => simp only [h] at parts; simp [← parts]
  · next body after _ h => simp only [h] at parts; simp [← parts]

theorem number_append (text : List Char) : (number text).1.text ++ (number text).2 = text := by
  have parts := List.takeWhile_append_dropWhile (p := Char.isDigit) (l := text)
  unfold number
  split
  · next after h =>
    rw [h] at parts
    split
    · exact parts
    · simpa [List.append_assoc, List.takeWhile_append_dropWhile] using parts
  · exact parts

theorem symbol?_append {text rest : List Char} {l : Lexeme} (h : symbol? text = some (l, rest)) :
    l.text ++ rest = text := by
  unfold symbol? at h
  split at h
  · simp at h
  · simp only [Option.map_eq_some_iff, Prod.mk.injEq] at h
    obtain ⟨s, -, rfl, rfl⟩ := h
    rfl
  · split at h
    · simp only [Option.some.injEq, Prod.mk.injEq] at h
      obtain ⟨rfl, rfl⟩ := h
      rfl
    · simp only [Option.map_eq_some_iff, Prod.mk.injEq] at h
      obtain ⟨s, -, rfl, rfl⟩ := h
      rfl

theorem run_append (kind : LexemeKind) (belongs : Char → Bool) (text : List Char) :
    (run kind belongs text).1.text ++ (run kind belongs text).2 = text :=
  List.takeWhile_append_dropWhile

theorem first?_append {text rest : List Char} {l : Lexeme} (h : first? text = some (l, rest)) :
    l.text ++ rest = text := by
  have whole : ∀ p : Lexeme × List Char, p.1.text ++ p.2 = text → some p = some (l, rest) →
      l.text ++ rest = text := by
    rintro p hp ⟨⟩
    exact hp
  unfold first? at h
  split at h
  · simp at h
  · next c tail =>
    split at h
    · next newline => exact whole _ (by simp [newline]) h
    split at h
    · exact whole _ (run_append ..) h
    split at h
    · exact whole _ (run_append ..) h
    split at h
    · exact whole _ (run_append ..) h
    split at h
    · exact whole _ (number_append _) h
    split at h
    · next quote => exact whole _ (by rw [string_append, quote]) h
    · exact symbol?_append h

/-! ## A lexeme is not empty -/

theorem string_ne_nil (rest : List Char) : (string rest).1.text ≠ [] := by
  unfold string
  split <;> simp

theorem number_ne_nil {c : Char} (rest : List Char) (digit : c.isDigit = true) :
    (number (c :: rest)).1.text ≠ [] := by
  unfold number
  repeat' split
  all_goals simp [digit]

theorem symbol?_ne_nil {text rest : List Char} {l : Lexeme} (h : symbol? text = some (l, rest)) :
    l.text ≠ [] := by
  unfold symbol? at h
  split at h
  · simp at h
  · simp only [Option.map_eq_some_iff, Prod.mk.injEq] at h
    obtain ⟨s, -, rfl, rfl⟩ := h
    simp
  · split at h
    · simp only [Option.some.injEq, Prod.mk.injEq] at h
      obtain ⟨rfl, rfl⟩ := h
      simp
    · simp only [Option.map_eq_some_iff, Prod.mk.injEq] at h
      obtain ⟨s, -, rfl, rfl⟩ := h
      simp

theorem run_ne_nil {kind : LexemeKind} {belongs : Char → Bool} {c : Char} (rest : List Char)
    (h : belongs c = true) : (run kind belongs (c :: rest)).1.text ≠ [] := by
  simp [run, h]

theorem first?_ne_nil {text rest : List Char} {l : Lexeme} (h : first? text = some (l, rest)) :
    l.text ≠ [] := by
  have whole : ∀ p : Lexeme × List Char, p.1.text ≠ [] → some p = some (l, rest) → l.text ≠ [] := by
    rintro p hp ⟨⟩
    exact hp
  unfold first? at h
  split at h
  · simp at h
  · next c tail =>
    split at h
    · exact whole _ (by simp) h
    split at h
    · next space => exact whole _ (run_ne_nil _ space) h
    split at h
    · next slash => exact whole _ (run_ne_nil _ (by simp [slash.1])) h
    split at h
    · next letter =>
      refine whole _ (run_ne_nil _ ?_) h
      simp only [beginsWord, Bool.or_eq_true] at letter
      rcases letter with letter | letter <;> simp [continuesWord, letter]
    split at h
    · next digit => exact whole _ (number_ne_nil _ digit) h
    split at h
    · exact whole _ (string_ne_nil _) h
    · exact symbol?_ne_nil h

/-- What follows a lexeme is shorter than what it was taken from. -/
theorem first?_length_lt {text rest : List Char} {l : Lexeme} (h : first? text = some (l, rest)) :
    rest.length < text.length := by
  have parts := congrArg List.length (first?_append h)
  have := List.length_pos_iff.2 (first?_ne_nil h)
  simp only [List.length_append] at parts
  omega

end Lexeme
end Nikl
