import Nikl.Proofs.Token.Tiling
import Nikl.Repl

/-
Open delimiters, counted twice: over the tokens of a source, and by the quick look at its characters
that decides whether a line goes on. Where the source can be read into tokens the two agree, because
the quick look passes over each gap and each piece of the tiling as a whole: it is among code again
behind each of them, and has counted what the piece opens or closes (`scan_gap`, `scan_piece`).
-/

set_option autoImplicit false

namespace Nikl

open Lexeme LexemeKind

/-! ## Delimiters among tokens -/

namespace TokenKind

/-- The symbol that closes what a token opens. -/
def closer? : TokenKind → Option Symbol
  | symbol .leftParen => some .rightParen
  | symbol .leftBracket => some .rightBracket
  | symbol .leftBrace => some .rightBrace
  | _ => none

def isOpening (k : TokenKind) : Bool := k.closer?.isSome

def isClosing : TokenKind → Bool
  | symbol .rightParen | symbol .rightBracket | symbol .rightBrace => true
  | _ => false

/-- What a token adds to the number of open delimiters. -/
def weight (k : TokenKind) : Int := (if k.isOpening then 1 else 0) - if k.isClosing then 1 else 0

end TokenKind

/-- How many more delimiters some tokens open than they close. -/
def openCount (tokens : List Token) : Int :=
  (tokens.countP (·.kind.isOpening) : Int) - tokens.countP (·.kind.isClosing)

@[simp] theorem openCount_nil : openCount [] = 0 := rfl

@[simp] theorem openCount_cons (t : Token) (tokens : List Token) :
    openCount (t :: tokens) = t.kind.weight + openCount tokens := by
  rw [openCount, openCount, List.countP_cons, List.countP_cons, TokenKind.weight]
  split <;> split <;> omega

@[simp] theorem openCount_append (front back : List Token) :
    openCount (front ++ back) = openCount front + openCount back := by
  induction front with
  | nil => simp
  | cons t front ih => rw [List.cons_append, openCount_cons, openCount_cons, ih, Int.add_assoc]

/-- The openers still open behind some tokens, innermost first, given those that were open before
them. None where a token closes what is not open, or not what was opened last. -/
def stillOpen : List Token → List Token → Option (List Token)
  | [], openers => some openers
  | t :: ts, openers =>
    if t.kind.isOpening then stillOpen ts (t :: openers)
    else if t.kind.isClosing then
      match openers with
      | [] => none
      | o :: openers =>
        if o.kind.closer?.map TokenKind.symbol = some t.kind then stillOpen ts openers else none
    else stillOpen ts openers

section StillOpen

variable {t o : Token} {ts openers : List Token} {s : Symbol}

theorem stillOpen_cons : stillOpen (t :: ts) openers =
    if t.kind.isOpening then stillOpen ts (t :: openers)
    else if t.kind.isClosing then
      match openers with
      | [] => none
      | o :: openers =>
        if o.kind.closer?.map TokenKind.symbol = some t.kind then stillOpen ts openers else none
    else stillOpen ts openers := by
  cases openers <;> rfl

theorem stillOpen_opening (h : t.kind.isOpening = true) :
    stillOpen (t :: ts) openers = stillOpen ts (t :: openers) := by
  rw [stillOpen_cons, if_pos h]

theorem stillOpen_other (h : t.kind.isOpening = false) (h' : t.kind.isClosing = false) :
    stillOpen (t :: ts) openers = stillOpen ts openers := by
  rw [stillOpen_cons, h, h', if_neg Bool.false_ne_true, if_neg Bool.false_ne_true]

/-- What closes an opener is no opener, and closes something. -/
theorem closer?_closes {k : TokenKind} (h : k.closer? = some s) :
    (TokenKind.symbol s).isOpening = false ∧ (TokenKind.symbol s).isClosing = true := by
  unfold TokenKind.closer? at h
  split at h
  all_goals cases h
  all_goals exact ⟨rfl, rfl⟩

theorem stillOpen_closing (ho : o.kind.closer? = some s) (ht : t.kind = .symbol s) :
    stillOpen (t :: ts) (o :: openers) = stillOpen ts openers := by
  obtain ⟨hopening, hclosing⟩ := closer?_closes ho
  rw [← ht] at hopening hclosing
  rw [stillOpen_cons, hopening, hclosing, if_neg Bool.false_ne_true, if_pos rfl]
  simp [ho, ht]

theorem stillOpen_append (front back : List Token) (openers : List Token) :
    stillOpen (front ++ back) openers = (stillOpen front openers).bind (stillOpen back) := by
  induction front generalizing openers with
  | nil => rfl
  | cons t front ih =>
    rw [List.cons_append, stillOpen_cons, stillOpen_cons]
    split
    · exact ih _
    split
    · split
      · rfl
      split
      · exact ih _
      · rfl
    · exact ih _

/-- Where delimiters are nested, those still open are as many as were opened and not closed. -/
theorem openCount_of_stillOpen {openers' : List Token} (h : stillOpen ts openers = some openers') :
    openCount ts = openers'.length - openers.length := by
  induction ts generalizing openers with
  | nil =>
    cases h
    simp
  | cons t ts ih =>
    rw [openCount_cons]
    rw [stillOpen_cons] at h
    split at h
    · next hopening =>
      have hclosing : t.kind.isClosing = false := by
        cases hk : t.kind with
        | symbol s => rw [hk] at hopening; cases s <;> first | rfl | cases hopening
        | _ => rfl
      rw [ih h, TokenKind.weight, hopening, hclosing, List.length_cons]
      push_cast
      simp
      omega
    next hopening =>
    rw [Bool.not_eq_true] at hopening
    split at h
    · next hclosing =>
      split at h
      · cases h
      split at h
      · rw [ih h, TokenKind.weight, hopening, hclosing, List.length_cons]
        push_cast
        simp
        omega
      · cases h
    · next hclosing =>
      rw [Bool.not_eq_true] at hclosing
      rw [ih h, TokenKind.weight, hopening, hclosing]
      simp

end StillOpen

/-! ## The quick look -/

section Scan

variable {count : Int} {rest : List Char}

theorem scan_code {c : Char} (hquote : c ≠ '"') (hslash : c = '/' → rest.head? ≠ some '/') :
    openDelimitersFrom count .code (c :: rest) =
      openDelimitersFrom (count + delimiterWeight c) .code rest := by
  rw [openDelimitersFrom]
  · simp [hquote]
  · rintro rest' rfl rfl
    exact hslash rfl rfl

/-- Characters that are neither delimiters nor begin strings or comments. -/
def Plain (c : Char) : Prop := delimiterWeight c = 0 ∧ c ≠ '"' ∧ c ≠ '/'

instance : DecidablePred Plain := fun _ => inferInstanceAs (Decidable (_ ∧ _))

theorem scan_plain {text : List Char} (h : ∀ c ∈ text, Plain c) (count : Int) (rest : List Char) :
    openDelimitersFrom count .code (text ++ rest) = openDelimitersFrom count .code rest := by
  induction text with
  | nil => rfl
  | cons c text ih =>
    rw [List.forall_mem_cons] at h
    obtain ⟨⟨hweight, hquote, hslash⟩, htext⟩ := h
    rw [List.cons_append, scan_code hquote fun hc => absurd hc hslash, hweight, Int.add_zero, ih htext]

/-- A comment is passed over, up to the end of its line. -/
theorem scan_comment {text : List Char} (htext : ∀ c ∈ text, c ≠ '\n')
    (hend : ∀ c ∈ rest.head?, c = '\n') :
    openDelimitersFrom count .comment (text ++ rest) = openDelimitersFrom count .code rest := by
  induction text with
  | nil =>
    cases rest with
    | nil => rfl
    | cons c rest =>
      obtain rfl := hend c rfl
      rw [List.nil_append, scan_code (by decide) (by simp)]
      show openDelimitersFrom count .code rest = openDelimitersFrom (count + 0) .code rest
      rw [Int.add_zero]
  | cons c text ih =>
    rw [List.forall_mem_cons] at htext
    rw [List.cons_append, openDelimitersFrom, ih htext.2]
    exact fun h => htext.1 h

/-- The content of a string is passed over, and its closing quote ends it. -/
theorem scan_string {body : List Char} (h : InString body) (rest : List Char) :
    openDelimitersFrom count .string (body ++ '"' :: rest) = openDelimitersFrom count .code rest := by
  induction h with
  | nil =>
    rw [List.nil_append, openDelimitersFrom]
  | @plain c body hquote hslash hline _ ih =>
    rw [List.cons_append, openDelimitersFrom, ih]
    all_goals simp [hquote, hslash, hline]
  | @escape c body hline _ ih =>
    rw [List.cons_append, List.cons_append, openDelimitersFrom, ih]
    exact fun h => hline h

end Scan

/-- What stands between tokens is passed over. -/
theorem scan_gap {behind gap : List Char} (h : Gap behind gap) (count : Int) :
    openDelimitersFrom count .code (gap ++ behind) = openDelimitersFrom count .code behind := by
  induction h with
  | nil => rfl
  | @blank c gap hc _ ih =>
    have hplain : Plain c := by
      rcases hc with hc | rfl
      · simp only [isSpace, Bool.or_eq_true, decide_eq_true_eq] at hc
        rcases hc with ((rfl | rfl) | rfl) | rfl <;> exact ⟨rfl, by decide, by decide⟩
      · exact ⟨rfl, by decide, by decide⟩
    rw [← ih]
    have halone : ∀ d ∈ [c], Plain d := by simpa using hplain
    exact scan_plain halone count (gap ++ behind)
  | @comment text gap htext hend _ ih =>
    rw [List.append_assoc, ← ih]
    exact scan_comment htext hend

/-! ## Pieces -/

theorem plain_of_continuesWord {c : Char} (h : continuesWord c = true) : Plain c := by
  have hne : ∀ {d : Char}, continuesWord d = false → c ≠ d := by
    rintro d hd rfl
    rw [h] at hd
    cases hd
  refine ⟨?_, hne rfl, hne rfl⟩
  rw [delimiterWeight, if_neg, if_neg]
  · simp [hne (d := ')') rfl, hne (d := ']') rfl, hne (d := '\x7d') rfl]
  · simp [hne (d := '(') rfl, hne (d := '[') rfl, hne (d := '\x7b') rfl]

theorem plain_of_isDigit {c : Char} (h : c.isDigit = true) : Plain c :=
  plain_of_continuesWord (by simp [continuesWord, h])

theorem plain_of_word {text : List Char} (h : Allows .word text) : ∀ c ∈ text, Plain c := by
  cases h with
  | word hc htext =>
    refine List.forall_mem_cons.2 ⟨?_, fun d hd => plain_of_continuesWord (htext d hd)⟩
    exact plain_of_continuesWord (continuesWord_of_beginsWord hc)

theorem plain_of_integer {text : List Char} (h : Allows .integer text) : ∀ c ∈ text, Plain c := by
  cases h with
  | integer _ htext => exact fun c hc => plain_of_isDigit (htext c hc)

/-- A symbol counts for what it opens or closes. -/
theorem scan_symbol (s : Symbol) {rest : List Char} (h : Longest s.spelling.toList rest) (count : Int) :
    openDelimitersFrom count .code (s.spelling.toList ++ rest) =
      openDelimitersFrom (count + (TokenKind.symbol s).weight) .code rest := by
  have single : ∀ {c : Char}, c ≠ '"' → c ≠ '/' → delimiterWeight c = (TokenKind.symbol s).weight →
      openDelimitersFrom count .code ([c] ++ rest) =
        openDelimitersFrom (count + (TokenKind.symbol s).weight) .code rest := by
    intro c hquote hslash hweight
    rw [List.singleton_append, scan_code hquote fun hc => absurd hc hslash, hweight]
  have plain : s.spelling.toList.all (decide <| Plain ·) = true → (TokenKind.symbol s).weight = 0 →
      openDelimitersFrom count .code (s.spelling.toList ++ rest) =
        openDelimitersFrom (count + (TokenKind.symbol s).weight) .code rest := by
    intro hall hweight
    have hplain : ∀ c ∈ s.spelling.toList, Plain c := by simpa using hall
    rw [scan_plain hplain, hweight, Int.add_zero]
  cases s
  case slash =>
    have hnext : rest.head? ≠ some '/' := by
      -- two slashes would begin a comment, which is longer than the symbol
      intro hnext
      obtain ⟨rest, rfl⟩ := List.head?_eq_some_iff.1 hnext
      have hslashes : Allows .comment ['/', '/'] := .comment nofun
      have hle := h .comment ['/', '/'] hslashes ⟨rest, rfl⟩
      exact absurd hle (by decide)
    exact scan_code (by decide) fun _ => hnext
  case leftParen | rightParen | leftBrace | rightBrace | leftBracket | rightBracket =>
    all_goals exact single (by decide) (by decide) rfl
  all_goals exact plain (by decide) rfl

/-- **A piece is passed over as a whole**, and counts for what its token opens or closes. -/
theorem scan_piece {piece rest : List Char} {k : TokenKind} (h : Means piece k)
    (hlongest : Longest piece rest) (count : Int) :
    openDelimitersFrom count .code (piece ++ rest) =
      openDelimitersFrom (count + k.weight) .code rest := by
  have plain : (∀ c ∈ piece, Plain c) → k.weight = 0 →
      openDelimitersFrom count .code (piece ++ rest) =
        openDelimitersFrom (count + k.weight) .code rest := by
    intro hplain hweight
    rw [scan_plain hplain, hweight, Int.add_zero]
  cases h with
  | keyword w => exact plain (plain_of_word (allows_keyword w)) rfl
  | typeName t => exact plain (plain_of_word (allows_typeName t)) rfl
  | ident hword => exact plain (plain_of_word hword) rfl
  | int hdigits => exact plain (plain_of_integer hdigits) rfl
  | float hwhole hfraction =>
    refine plain (fun c hc => ?_) rfl
    rcases List.mem_append.1 hc with hc | hc
    · exact plain_of_integer hwhole c hc
    rcases List.mem_cons.1 hc with rfl | hc
    · exact ⟨rfl, by decide, by decide⟩
    · exact plain_of_integer hfraction c hc
  | @string body content hbody _ =>
    show openDelimitersFrom count .code ('"' :: body ++ ['"'] ++ rest) =
      openDelimitersFrom (count + 0) .code rest
    rw [Int.add_zero, List.append_assoc, List.singleton_append, List.cons_append, openDelimitersFrom]
    exact scan_string hbody rest
  | symbol s => exact scan_symbol s hlongest count

theorem scan_tiles {offset : Nat} {newline : Bool} {text : List Char} {tokens : List Token}
    (h : Tiles offset newline text tokens) (count : Int) :
    openDelimitersFrom count .code text = count + openCount tokens := by
  induction h generalizing count with
  | stop hgap =>
    have hscan := scan_gap hgap count
    rw [List.append_nil] at hscan
    rw [hscan]
    exact (Int.add_zero count).symm
  | tile hgap hmeans hlongest _ ih =>
    rw [scan_gap hgap, scan_piece hmeans hlongest, ih, openCount_cons, Int.add_assoc]

/-- **The quick look counts what the tokens open and close.** -/
theorem openDelimiters_eq {source : String} {tokens : List Token} (h : lex source = .ok tokens) :
    openDelimiters source = openCount tokens := by
  rw [openDelimiters, scan_tiles (lexFrom_eq_ok_iff.1 h), Int.zero_add]

end Nikl
