import Nikl.Text.Quoted
import Nikl.Token.Lexer

/-
What texts are read as. `Spells text ks F` says that a text is read as tokens of the kinds `ks`, without
line breaks among them, before anything that goes on with a character in `F`. Where one word or number
ends is told by the character behind it alone, so texts that each spell something spell all of it when
they are put together, if each goes on as the one before it asks.
-/

set_option autoImplicit false

namespace Nikl

open Lexeme LexemeKind

/-- A text is read as tokens of the kinds `ks`, before any text that begins as `F` asks. -/
def Spells (text : List Char) (ks : List TokenKind) (F : Option Char → Prop) : Prop :=
  ∀ (offset : Nat) (rest : List Char), F rest.head? →
    ∃ ts offset', ts.map (·.kind) = ks ∧ (∀ t ∈ ts, t.newlineBefore = false) ∧
      lexFrom offset false (text ++ rest) = (lexFrom offset' false rest).map (ts ++ ·)

namespace Spells

variable {text text' : List Char} {ks ks' : List TokenKind} {F G : Option Char → Prop}

/-! ## Putting texts together -/

theorem nil : Spells [] [] F := by
  intro offset rest _
  exact ⟨[], offset, rfl, nofun, (congrFun Except.map_id _).symm⟩

theorem weaken (h : Spells text ks F) (hF : ∀ next, G next → F next) : Spells text ks G :=
  fun offset rest hrest => h offset rest (hF _ hrest)

theorem append (h : Spells text ks F) (h' : Spells text' ks' G)
    (hF : ∀ next, G next → F (text'.head?.or next)) : Spells (text ++ text') (ks ++ ks') G := by
  intro offset rest hrest
  have hnext : F (text' ++ rest).head? := by
    rw [List.head?_append]
    exact hF _ hrest
  obtain ⟨ts, offset', hts, hline, hlex⟩ := h offset (text' ++ rest) hnext
  obtain ⟨ts', offset'', hts', hline', hlex'⟩ := h' offset' rest hrest
  refine ⟨ts ++ ts', offset'', by rw [List.map_append, hts, hts'], ?_, ?_⟩
  · intro t ht
    rcases List.mem_append.1 ht with ht | ht
    · exact hline t ht
    · exact hline' t ht
  · rw [List.append_assoc, hlex, hlex']
    cases lexFrom offset'' false rest <;> simp [Except.map]

end Spells

/-! ## Single lexemes -/

section Lexemes

variable {text rest : List Char} {l : Lexeme} {offset : Nat} {newline : Bool} {k : TokenKind}

theorem lexFrom_token (hfirst : first? text = some (l, rest))
    (hkind : ∀ span, l.tokenKind? span = .ok (some k)) :
    lexFrom offset newline text =
      (lexFrom (offset + Source.byteLength l.text) false rest).map
        (⟨k, Span.ofRange offset (offset + Source.byteLength l.text), newline⟩ :: ·) := by
  rw [lexFrom_eq]
  split
  · next hnone => simp [hfirst] at hnone
  · next l' rest' hsome =>
    obtain ⟨rfl, rfl⟩ : l = l' ∧ rest = rest' := by simpa [hfirst] using hsome
    simp only [hkind]

theorem lexFrom_separator (hfirst : first? text = some (l, rest))
    (hkind : ∀ span, l.tokenKind? span = .ok none) :
    lexFrom offset newline text =
      lexFrom (offset + Source.byteLength l.text) (newline || l.kind = .newline) rest := by
  rw [lexFrom_eq]
  split
  · next hnone => simp [hfirst] at hnone
  · next l' rest' hsome =>
    obtain ⟨rfl, rfl⟩ : l = l' ∧ rest = rest' := by simpa [hfirst] using hsome
    simp only [hkind]

end Lexemes

/-- A run of characters of a class ends where another character follows. -/
theorem run_append_eq (kind : LexemeKind) {belongs : Char → Bool} {text rest : List Char}
    (htext : ∀ c ∈ text, belongs c = true) (hrest : ∀ c ∈ rest.head?, belongs c = false) :
    run kind belongs (text ++ rest) = (⟨kind, text⟩, rest) := by
  have hnone : rest.takeWhile belongs = [] ∧ rest.dropWhile belongs = rest := by
    cases rest with
    | nil => exact ⟨rfl, rfl⟩
    | cons c rest =>
      rw [List.takeWhile_cons, List.dropWhile_cons, hrest c rfl]
      exact ⟨rfl, rfl⟩
  rw [run, List.takeWhile_append_of_pos htext, List.dropWhile_append_of_pos htext, hnone.1, hnone.2,
    List.append_nil]

/-- What neither separates nor begins a comment is told by its class. -/
theorem first?_cons {c : Char} {rest : List Char} (hline : c ≠ '\n') (hspace : isSpace c = false)
    (hslash : c ≠ '/') :
    first? (c :: rest) =
      if beginsWord c then some (run .word continuesWord (c :: rest))
      else if c.isDigit then some (number (c :: rest))
      else if c = '"' then some (string rest)
      else symbol? (c :: rest) := by
  rw [first?, if_neg hline, if_neg (by rw [hspace]; exact Bool.false_ne_true),
    if_neg fun h => hslash h.1]

/-- Spaces are none of the characters that begin words and numbers. -/
theorem isSpace_eq_false {c : Char} (h : ' ' ≠ c ∧ '\t' ≠ c ∧ '\r' ≠ c ∧ '\x0c' ≠ c) :
    isSpace c = false := by
  simp [isSpace, h.1.symm, h.2.1.symm, h.2.2.1.symm, h.2.2.2.symm]

/-- No word begins with a digit. -/
theorem beginsWord_eq_false {c : Char} (h : c.isDigit = true) : beginsWord c = false := by
  have hbounds : 48 ≤ c.toNat ∧ c.toNat ≤ 57 := by
    simpa [Char.isDigit, UInt32.le_iff_toNat_le] using h
  -- digits lie below all letters
  have halpha : c.isAlpha = false := by
    show (decide (65 ≤ c.val ∧ c.val ≤ 90) || (decide (97 ≤ c.val) && decide (c.val ≤ 122))) = false
    simp [UInt32.le_iff_toNat_le]
    omega
  have hunderscore : c ≠ '_' := by rintro rfl; cases h
  rw [beginsWord, halpha, decide_eq_false hunderscore, Bool.or_self]

/-- The digits of a number begin with a digit. -/
theorem toDigits_begin (n : Nat) : ∃ c cs, Nat.toDigits 10 n = c :: cs ∧ c.isDigit = true := by
  obtain ⟨c, cs, hcs⟩ := List.exists_cons_of_ne_nil (Nat.toDigits_ne_nil (n := n) (b := 10))
  refine ⟨c, cs, hcs, Nat.isDigit_of_mem_toDigits (b := 10) (n := n) (by decide) (by decide) ?_⟩
  rw [hcs]
  exact List.mem_cons_self

/-! ## Escapes -/

namespace Text.Quoted

/-- Characters that are written as themselves or by a short escape. -/
def Readable (c : Char) : Prop := c ∈ ['"', '\\', '\n', '\t', '\r', '\x00'] ∨ writeChar c = [c]

instance : DecidablePred Readable := fun _ => inferInstanceAs (Decidable (_ ∨ _))

/-- How such a character is written. -/
theorem Readable.cases {c : Char} (h : Readable c) :
    (∃ e, writeChar c = ['\\', e] ∧ e ≠ '\n' ∧ escape? e = some c) ∨
      (writeChar c = [c] ∧ c ≠ '"' ∧ c ≠ '\n' ∧ c ≠ '\\') := by
  rcases h with h | h
  · left
    simp only [List.mem_cons, List.not_mem_nil, or_false] at h
    rcases h with rfl | rfl | rfl | rfl | rfl | rfl <;> exact ⟨_, rfl, by decide, rfl⟩
  · right
    refine ⟨h, ?_, ?_, ?_⟩ <;> (rintro rfl; cases h)

end Text.Quoted

open Text.Quoted

/-- The content of a written text ends at its closing quote. -/
theorem stringBody_write {content : List Char} (h : ∀ c ∈ content, Readable c) (rest : List Char) :
    stringBody (content.flatMap writeChar ++ '"' :: rest) =
      (content.flatMap writeChar, '"' :: rest) := by
  induction content with
  | nil =>
    show stringBody ('"' :: rest) = _
    rw [stringBody]
    all_goals simp
  | cons c content ih =>
    rw [List.forall_mem_cons] at h
    have hrest := ih h.2
    rw [List.flatMap_cons, List.append_assoc]
    rcases h.1.cases with ⟨e, hwrite, he, -⟩ | ⟨hwrite, hquote, hline, hslash⟩
    -- an escape is taken with the character behind it, so a written quote does not end the text
    · rw [hwrite]
      show stringBody ('\\' :: e :: (content.flatMap writeChar ++ '"' :: rest)) = _
      rw [stringBody, if_neg he, hrest]
      rfl
    · rw [hwrite]
      show stringBody (c :: (content.flatMap writeChar ++ '"' :: rest)) = _
      rw [stringBody, if_neg (by simp [hquote, hline]), hrest]
      · rfl
      all_goals simp [hslash]

/-- The escapes of a written text stand for its characters. -/
theorem unescape_write {content : List Char} (h : ∀ c ∈ content, Readable c) (offset : Nat) :
    unescape offset (content.flatMap writeChar) = .ok content := by
  induction content generalizing offset with
  | nil => rfl
  | cons c content ih =>
    rw [List.forall_mem_cons] at h
    rw [List.flatMap_cons]
    rcases h.1.cases with ⟨e, hwrite, -, he⟩ | ⟨hwrite, -, -, hslash⟩
    · rw [hwrite]
      show unescape offset ('\\' :: e :: content.flatMap writeChar) = _
      rw [unescape, he, ih h.2]
      rfl
    · rw [hwrite]
      show unescape offset (c :: content.flatMap writeChar) = _
      rw [unescape, ih h.2]
      · rfl
      all_goals simp [hslash]

namespace Spells

variable {F : Option Char → Prop}

/-- A text that is one lexeme, and becomes one token. -/
theorem lexeme {text : List Char} {k : TokenKind} (kind : LexemeKind)
    (hfirst : ∀ rest : List Char, F rest.head? → first? (text ++ rest) = some (⟨kind, text⟩, rest))
    (hkind : ∀ span, tokenKind? ⟨kind, text⟩ span = .ok (some k)) :
    Spells text [k] F := by
  intro offset rest hrest
  exact ⟨[_], _, rfl, by simp, lexFrom_token (hfirst rest hrest) hkind⟩

/-- A space separates and is no token. -/
theorem space : Spells [' '] [] (fun next => ∀ c ∈ next, isSpace c = false) := by
  intro offset rest hrest
  have hrun : run .blank isSpace ([' '] ++ rest) = (⟨.blank, [' ']⟩, rest) :=
    run_append_eq .blank (by simp [isSpace]) hrest
  have hfirst : first? (' ' :: rest) = some (⟨.blank, [' ']⟩, rest) := congrArg some hrun
  refine ⟨[], offset + Source.byteLength [' '], rfl, nofun, ?_⟩
  rw [List.singleton_append, lexFrom_separator hfirst fun _ => rfl]
  exact (congrFun Except.map_id _).symm

/-! ## Symbols, words, numbers and texts -/

/-- Symbols of one character that no other symbol begins like. -/
def marks : List (Char × Symbol) :=
  [('(', .leftParen), (')', .rightParen), ('[', .leftBracket), (']', .rightBracket),
   ('\x7b', .leftBrace), ('\x7d', .rightBrace), (',', .comma), (':', .colon)]

theorem mark {c : Char} {s : Symbol} (h : (c, s) ∈ marks) : Spells [c] [.symbol s] (fun _ => True) := by
  refine lexeme (.symbol s) (fun rest _ => ?_) fun _ => rfl
  simp only [marks, List.mem_cons, Prod.mk.injEq, List.not_mem_nil, or_false] at h
  rcases h with ⟨rfl, rfl⟩ | ⟨rfl, rfl⟩ | ⟨rfl, rfl⟩ | ⟨rfl, rfl⟩ | ⟨rfl, rfl⟩ | ⟨rfl, rfl⟩ |
    ⟨rfl, rfl⟩ | ⟨rfl, rfl⟩
  all_goals cases rest <;> rfl

/-- A minus sign, where no arrow follows. -/
theorem minus : Spells ['-'] [.symbol .minus] (fun next => ∀ c ∈ next, c ≠ '>') := by
  refine lexeme (.symbol .minus) (fun rest hrest => ?_) fun _ => rfl
  cases rest with
  | nil => rfl
  | cons c rest =>
    have hc : pairSymbol? '-' c = none := by
      rw [pairSymbol?]
      all_goals simp [hrest c rfl]
    show symbol? ('-' :: c :: rest) = _
    rw [symbol?, hc]
    rfl

/-- What ends a word or a number. -/
def Apart (next : Option Char) : Prop := ∀ c ∈ next, continuesWord c = false ∧ c ≠ '.'

/-- A word. -/
theorem word {text : List Char} {c : Char} {cs : List Char} (htext : text = c :: cs)
    (hc : beginsWord c = true) (hcs : ∀ c ∈ text, continuesWord c = true) :
    Spells text [wordKind (String.ofList text)] Apart := by
  refine lexeme .word (fun rest hrest => ?_) fun _ => rfl
  have hrun := run_append_eq .word hcs fun c hc => (hrest c hc).1
  have hline : c ≠ '\n' := by rintro rfl; cases hc
  have hslash : c ≠ '/' := by rintro rfl; cases hc
  have hspace : isSpace c = false := by
    refine isSpace_eq_false ⟨?_, ?_, ?_, ?_⟩ <;> (rintro rfl; cases hc)
  rw [htext, List.cons_append] at hrun ⊢
  rw [first?_cons hline hspace hslash, if_pos hc, hrun]

/-- The digits of a number that is not too large. -/
theorem number {n : Nat} (hn : n ≤ maxInt) :
    Spells (Nat.toDigits 10 n) [.int (Int64.ofNat n)] Apart := by
  have hdigits : ∀ c ∈ Nat.toDigits 10 n, c.isDigit = true := fun c hc =>
    Nat.isDigit_of_mem_toDigits (by decide) (by decide) hc
  refine lexeme .integer (fun rest hrest => ?_) fun span => ?_
  · have hend : ∀ c ∈ rest.head?, c.isDigit = false := by
      intro c hc
      have hword := (hrest c hc).1
      simp only [continuesWord, Bool.or_eq_false_iff] at hword
      exact hword.1.2
    have hrun := run_append_eq .integer hdigits hend
    have hnumber : Lexeme.number (Nat.toDigits 10 n ++ rest) =
        (⟨.integer, Nat.toDigits 10 n⟩, rest) := by
      rw [run, Prod.mk.injEq, Lexeme.mk.injEq] at hrun
      rw [Lexeme.number, hrun.1.2, hrun.2]
      -- no point follows, so the digits are not the front of a floating-point number
      cases rest with
      | nil => rfl
      | cons c rest =>
        have hpoint : c ≠ '.' := (hrest c rfl).2
        split
        · next heq =>
          obtain ⟨rfl, -⟩ : c = '.' ∧ _ := by simpa using heq
          exact absurd rfl hpoint
        · rfl
    obtain ⟨c, cs, hcs, hc⟩ := toDigits_begin n
    have hline : c ≠ '\n' := by rintro rfl; cases hc
    have hslash : c ≠ '/' := by rintro rfl; cases hc
    have hspace : isSpace c = false := by
      refine isSpace_eq_false ⟨?_, ?_, ?_, ?_⟩ <;> (rintro rfl; cases hc)
    have hword := beginsWord_eq_false hc
    rw [hcs, List.cons_append] at hnumber ⊢
    rw [first?_cons hline hspace hslash, hword, if_neg Bool.false_ne_true, if_pos hc, hnumber]
  · have hvalue : Decimal.digitsValue (Nat.toDigits 10 n) = n := Nat.ofDigitChars_ten_toDigits
    show (intLiteral (Nat.toDigits 10 n) span).map some = _
    rw [intLiteral, hvalue, if_pos hn]
    rfl

/-- A text in quotes. -/
theorem string {content : List Char} (h : ∀ c ∈ content, Readable c) :
    Spells (write content) [.string (String.ofList content)] (fun _ => True) := by
  refine lexeme .string (fun rest _ => ?_) fun span => ?_
  · have hbody := stringBody_write h rest
    have happend : write content ++ rest = '"' :: (content.flatMap writeChar ++ '"' :: rest) := by
      simp [write]
    rw [happend, first?_cons (by decide) rfl (by decide)]
    show some (Lexeme.string (content.flatMap writeChar ++ '"' :: rest)) = _
    rw [Lexeme.string, hbody]
    rfl
  -- the lexeme has its quotes still, and its content is what stands between them
  · have hcontent : ((write content).drop 1).dropLast = content.flatMap writeChar := by
      simp [write]
    show (unescape span.behindFirst (((write content).drop 1).dropLast)).map _ = _
    rw [hcontent, unescape_write h]
    rfl

end Spells
end Nikl
