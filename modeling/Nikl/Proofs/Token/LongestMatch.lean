import Mathlib.Data.List.TakeWhile
import Nikl.Proofs.Token.Spelling

/-
The rules that make lexemes, as sets of texts, and the reader of lexemes against them. At every place
the reader takes a piece that a rule allows, and no rule allows a longer piece there
(`first?_allowed`, `first?_longest`). A piece that is as long as the longest one is allowed by one rule
only, so the longest match settles the rule as well (`Allows.kind_unique`).

It is the rules that the converse is proved over, one after another: whatever a rule allows at the
front of a text, the reader gets at least as far (`Allows.first?_eq`). For each rule the first character
tells which branch of the reader is taken.
-/

set_option autoImplicit false

namespace Nikl

/-! ## The rules -/

/-- The content of a string, up to where it ends: no quote and no line feed stands in it, and a
backslash takes the character behind it along. -/
inductive InString : List Char → Prop where
  | nil : InString []
  | plain {c : Char} {rest : List Char} (hquote : c ≠ '"') (hslash : c ≠ '\\') (hline : c ≠ '\n') :
    InString rest → InString (c :: rest)
  | escape {c : Char} {rest : List Char} (hline : c ≠ '\n') :
    InString rest → InString ('\\' :: c :: rest)

/-- The texts that a rule allows. -/
inductive LexemeKind.Allows : LexemeKind → List Char → Prop where
  | blank {text : List Char} (hne : text ≠ []) (h : ∀ c ∈ text, isSpace c = true) : Allows .blank text
  | newline : Allows .newline ['\n']
  | comment {text : List Char} (h : ∀ c ∈ text, c ≠ '\n') : Allows .comment ('/' :: '/' :: text)
  | word {c : Char} {text : List Char} (hc : beginsWord c = true)
    (h : ∀ d ∈ text, continuesWord d = true) : Allows .word (c :: text)
  | integer {text : List Char} (hne : text ≠ []) (h : ∀ c ∈ text, c.isDigit = true) :
    Allows .integer text
  | decimal {whole fraction : List Char} (hwhole : whole ≠ []) (hfraction : fraction ≠ [])
    (h : ∀ c ∈ whole, c.isDigit = true) (h' : ∀ c ∈ fraction, c.isDigit = true) :
    Allows .decimal (whole ++ '.' :: fraction)
  | string {body : List Char} (h : InString body) : Allows .string ('"' :: body ++ ['"'])
  | openString {body : List Char} (h : InString body) : Allows .openString ('"' :: body)
  | symbol (s : Symbol) : Allows (.symbol s) s.spelling.toList

namespace Lexeme

open LexemeKind

/-! ## Classes of characters -/

theorem beginsWord_ne {c d : Char} (h : beginsWord c = true) (hd : beginsWord d = false) : c ≠ d := by
  rintro rfl
  rw [h] at hd
  cases hd

theorem isDigit_ne {c d : Char} (h : c.isDigit = true) (hd : d.isDigit = false) : c ≠ d := by
  rintro rfl
  rw [h] at hd
  cases hd

theorem isSpace_of_beginsWord {c : Char} (h : beginsWord c = true) : isSpace c = false := by
  refine isSpace_eq_false ⟨?_, ?_, ?_, ?_⟩
  all_goals exact (beginsWord_ne h rfl).symm

theorem isSpace_of_isDigit {c : Char} (h : c.isDigit = true) : isSpace c = false := by
  refine isSpace_eq_false ⟨?_, ?_, ?_, ?_⟩
  all_goals exact (isDigit_ne h rfl).symm

theorem continuesWord_of_beginsWord {c : Char} (h : beginsWord c = true) : continuesWord c = true := by
  simp only [beginsWord, Bool.or_eq_true] at h
  rcases h with h | h <;> simp [continuesWord, h]

/-! ## What a first character leads to -/

section Branches

variable {c : Char} {rest : List Char}

theorem first?_space (h : isSpace c = true) :
    first? (c :: rest) = some (run .blank isSpace (c :: rest)) := by
  have hline : c ≠ '\n' := by
    rintro rfl
    cases h
  rw [first?, if_neg hline, if_pos h]

theorem first?_slashes : first? ('/' :: '/' :: rest) =
    some (run .comment (· ≠ '\n') ('/' :: '/' :: rest)) := rfl

theorem first?_letter (h : beginsWord c = true) :
    first? (c :: rest) = some (run .word continuesWord (c :: rest)) := by
  rw [first?_cons (beginsWord_ne h rfl) (isSpace_of_beginsWord h) (beginsWord_ne h rfl), if_pos h]

theorem first?_digit (h : c.isDigit = true) : first? (c :: rest) = some (number (c :: rest)) := by
  rw [first?_cons (isDigit_ne h rfl) (isSpace_of_isDigit h) (isDigit_ne h rfl), beginsWord_eq_false h,
    if_neg Bool.false_ne_true, if_pos h]

theorem first?_quote : first? ('"' :: rest) = some (string rest) := rfl

end Branches

/-! ## Numbers and strings -/

/-- A number without a fraction, or with one. -/
theorem number_allowed {c : Char} (text : List Char) (h : c.isDigit = true) :
    (number (c :: text)).1.kind.Allows (number (c :: text)).1.text := by
  have hwhole : ∀ d ∈ (c :: text).takeWhile Char.isDigit, d.isDigit = true := fun d hd =>
    List.mem_takeWhile_imp hd
  have hne : (c :: text).takeWhile Char.isDigit ≠ [] := by
    rw [List.takeWhile_cons, if_pos h]
    exact List.cons_ne_nil _ _
  unfold number
  split
  · next after _ =>
    split
    · exact .integer hne hwhole
    · next hfraction =>
      refine .decimal hne (fun hnil => hfraction ?_) hwhole fun d hd => List.mem_takeWhile_imp hd
      rw [hnil]
      rfl
  · exact .integer hne hwhole

theorem number_fraction {whole fraction : List Char} (rest : List Char)
    (h : ∀ c ∈ whole, c.isDigit = true) (hne : fraction ≠ [])
    (h' : ∀ c ∈ fraction, c.isDigit = true) :
    ∃ more, (number (whole ++ '.' :: (fraction ++ rest))).1 =
      ⟨.decimal, whole ++ '.' :: (fraction ++ more)⟩ := by
  have hrun : run .integer Char.isDigit (whole ++ '.' :: (fraction ++ rest)) = _ :=
    run_append_eq .integer h (by simp)
  rw [run, Prod.mk.injEq, Lexeme.mk.injEq] at hrun
  refine ⟨rest.takeWhile Char.isDigit, ?_⟩
  rw [number, hrun.1.2, hrun.2]
  have hsome : (fraction ++ rest.takeWhile Char.isDigit).isEmpty = false := by
    simp [hne]
  simp only [List.takeWhile_append_of_pos h', hsome, Bool.false_eq_true, if_false]

theorem stringBody_plain {c : Char} (rest : List Char) (hquote : c ≠ '"') (hslash : c ≠ '\\')
    (hline : c ≠ '\n') :
    stringBody (c :: rest) = (c :: (stringBody rest).1, (stringBody rest).2) := by
  rw [stringBody, if_neg (by simp [hquote, hline])]
  all_goals simp [hslash]

theorem stringBody_escape {c : Char} (rest : List Char) (hline : c ≠ '\n') :
    stringBody ('\\' :: c :: rest) =
      ('\\' :: c :: (stringBody rest).1, (stringBody rest).2) := by
  rw [stringBody, if_neg hline]

theorem stringBody_quote (rest : List Char) : stringBody ('"' :: rest) = ([], '"' :: rest) := by
  rw [stringBody, if_pos (Or.inl rfl)]
  all_goals simp

/-- What is taken for the content of a string is one. -/
theorem stringBody_inString (text : List Char) : InString (stringBody text).1 := by
  fun_induction stringBody text with
  | case4 c rest hline body after hbody ih =>
    rw [hbody] at ih
    exact .escape hline ih
  | case6 c rest hlone hescape hends body after hbody ih =>
    rw [hbody] at ih
    rw [not_or] at hends
    refine .plain hends.1 ?_ hends.2 ih
    -- a backslash stands alone or before a character, and both are other cases
    intro hslash
    cases rest with
    | nil => exact hlone hslash rfl
    | cons d rest => exact hescape d rest hslash rfl
  | _ => exact .nil

end Lexeme

open Lexeme LexemeKind

/-- The content of a string is taken as far as it is known to go, and on from there. -/
theorem InString.stringBody_append {body : List Char} (h : InString body) (rest : List Char) :
    stringBody (body ++ rest) = (body ++ (stringBody rest).1, (stringBody rest).2) := by
  induction h with
  | nil => rfl
  | plain hquote hslash hline _ ih =>
    rw [List.cons_append, stringBody_plain _ hquote hslash hline, ih]
    rfl
  | escape hline _ ih =>
    rw [List.cons_append, List.cons_append, stringBody_escape _ hline, ih]
    rfl

/-- Between quotes, the content of a string is a lexeme. -/
theorem InString.first?_string {body : List Char} (h : InString body) (rest : List Char) :
    first? ('"' :: body ++ ['"'] ++ rest) = some (⟨.string, '"' :: body ++ ['"']⟩, rest) := by
  have hbody := h.stringBody_append ('"' :: rest)
  rw [stringBody_quote, List.append_nil] at hbody
  rw [List.cons_append, List.cons_append, List.append_assoc, first?_quote]
  show some (Lexeme.string (body ++ '"' :: rest)) = _
  rw [Lexeme.string, hbody]
  rfl

/-! ## The reader keeps to the rules -/

namespace Lexeme

theorem string_allowed (rest : List Char) : (string rest).1.kind.Allows (string rest).1.text := by
  have hbody := stringBody_inString rest
  unfold string
  split
  · next body after heq =>
    rw [heq] at hbody
    exact .string hbody
  · next body after _ heq =>
    rw [heq] at hbody
    exact .openString hbody

theorem singleSymbol?_spelling {c : Char} {s : Symbol} (h : singleSymbol? c = some s) :
    s.spelling.toList = [c] := by
  unfold singleSymbol? at h
  split at h
  all_goals cases h
  all_goals rfl

theorem pairSymbol?_spelling {c d : Char} {s : Symbol} (h : pairSymbol? c d = some s) :
    s.spelling.toList = [c, d] := by
  unfold pairSymbol? at h
  split at h
  all_goals cases h
  all_goals rfl

theorem symbol?_allowed {text rest : List Char} {l : Lexeme} (h : symbol? text = some (l, rest)) :
    l.kind.Allows l.text := by
  have single : ∀ {c : Char} {s : Symbol}, singleSymbol? c = some s → Allows (.symbol s) [c] := by
    intro c s hs
    rw [← singleSymbol?_spelling hs]
    exact .symbol s
  unfold symbol? at h
  split at h
  · cases h
  · obtain ⟨s, hs, heq⟩ := Option.map_eq_some_iff.1 h
    cases heq
    exact single hs
  · split at h
    · next s hs =>
      cases h
      show Allows (.symbol s) _
      rw [← pairSymbol?_spelling hs]
      exact .symbol s
    · obtain ⟨s, hs, heq⟩ := Option.map_eq_some_iff.1 h
      cases heq
      exact single hs

/-- **What is taken for a lexeme is allowed by its rule.** -/
theorem first?_allowed {text rest : List Char} {l : Lexeme} (h : first? text = some (l, rest)) :
    l.kind.Allows l.text := by
  have taken : ∀ p : Lexeme × List Char, p.1.kind.Allows p.1.text → some p = some (l, rest) →
      l.kind.Allows l.text := by
    rintro p hp ⟨⟩
    exact hp
  unfold first? at h
  split at h
  · cases h
  · next c tail =>
    split at h
    · exact taken _ .newline h
    split at h
    · next hspace =>
      refine taken _ (.blank (run_ne_nil _ hspace) fun d hd => ?_) h
      exact List.mem_takeWhile_imp hd
    split at h
    · next hslash =>
      obtain ⟨rfl, hnext⟩ := hslash
      obtain ⟨tail, rfl⟩ := List.head?_eq_some_iff.1 hnext
      refine taken _ ?_ h
      have hline : ∀ d ∈ tail.takeWhile (· ≠ '\n'), d ≠ '\n' := fun d hd => by
        simpa using List.mem_takeWhile_imp hd
      exact .comment hline
    split at h
    · next hletter =>
      refine taken _ ?_ h
      rw [run, List.takeWhile_cons, if_pos (continuesWord_of_beginsWord hletter)]
      exact .word hletter fun d hd => List.mem_takeWhile_imp hd
    split at h
    · next hdigit => exact taken _ (number_allowed tail hdigit) h
    split at h
    · exact taken _ (string_allowed tail) h
    · exact symbol?_allowed h

end Lexeme

/-! ## No rule allows more -/

/-- What the reader takes at the front of a text, against a piece that a rule allows there: it is no
shorter, and if it is no longer, it is that rule's. -/
def Covers (kind : LexemeKind) (piece : List Char) (l : Lexeme) : Prop :=
  piece.length ≤ l.text.length ∧ (l.text.length = piece.length → l.kind = kind)

namespace Lexeme

/-- A run takes all that is known to belong to it. -/
theorem covers_run (kind : LexemeKind) {belongs : Char → Bool} {text : List Char} (rest : List Char)
    (h : ∀ c ∈ text, belongs c = true) : Covers kind text (run kind belongs (text ++ rest)).1 := by
  refine ⟨?_, fun _ => rfl⟩
  rw [run, List.takeWhile_append_of_pos h, List.length_append]
  omega

/-- Digits are taken as they are, or with more digits or a fraction behind them. -/
theorem covers_number {digits : List Char} (rest : List Char)
    (h : ∀ c ∈ digits, c.isDigit = true) : Covers .integer digits (number (digits ++ rest)).1 := by
  have htake : digits.length ≤ ((digits ++ rest).takeWhile Char.isDigit).length := by
    rw [List.takeWhile_append_of_pos h, List.length_append]
    omega
  unfold number
  split
  · split
    · exact ⟨htake, fun _ => rfl⟩
    · -- the fraction makes it longer
      constructor
      · rw [List.length_append]
        omega
      · intro heq
        rw [List.length_append, List.length_cons] at heq
        omega
  · exact ⟨htake, fun _ => rfl⟩

/-- An open string is taken as it is, or with more of its content and its closing quote. -/
theorem covers_string {body : List Char} (rest : List Char) (h : InString body) :
    Covers .openString ('"' :: body) (string (body ++ rest)).1 := by
  have hbody := h.stringBody_append rest
  unfold string
  rw [hbody]
  split
  · next more after heq =>
    obtain ⟨rfl, -⟩ := Prod.mk.inj heq
    constructor
    · simp only [List.cons_append, List.length_cons, List.length_append]
      omega
    · intro hlen
      simp only [List.cons_append, List.length_cons, List.length_append] at hlen
      omega
  · next more after _ heq =>
    obtain ⟨rfl, -⟩ := Prod.mk.inj heq
    refine ⟨?_, fun _ => rfl⟩
    rw [List.length_cons, List.length_cons, List.length_append]
    omega

/-- A symbol of one character is taken, or one of two characters that begins with it. -/
theorem symbol?_single {c : Char} {s : Symbol} (h : singleSymbol? c = some s) (rest : List Char) :
    ∃ l after, symbol? (c :: rest) = some (l, after) ∧ Covers (.symbol s) [c] l := by
  have one : Covers (.symbol s) [c] ⟨.symbol s, [c]⟩ := ⟨Nat.le_refl _, fun _ => rfl⟩
  cases rest with
  | nil => exact ⟨⟨.symbol s, [c]⟩, [], by rw [symbol?, h]; rfl, one⟩
  | cons d rest =>
    cases hpair : pairSymbol? c d with
    | none => exact ⟨⟨.symbol s, [c]⟩, d :: rest, by rw [symbol?, hpair, h]; rfl, one⟩
    | some s' =>
      refine ⟨⟨.symbol s', [c, d]⟩, rest, by rw [symbol?, hpair], ?_, ?_⟩
      · exact Nat.le_succ 1
      · exact fun hlen => absurd hlen (by simp)

theorem symbol?_pair {c d : Char} {s : Symbol} (h : pairSymbol? c d = some s) (rest : List Char) :
    ∃ l after, symbol? (c :: d :: rest) = some (l, after) ∧ Covers (.symbol s) [c, d] l :=
  ⟨⟨.symbol s, [c, d]⟩, rest, by rw [symbol?, h], Nat.le_refl _, fun _ => rfl⟩

/-- Characters that begin symbols, and neither comments nor anything else. -/
def Sign (c : Char) : Prop :=
  c ∉ ['\n', ' ', '\t', '\r', '\x0c', '/', '"'] ∧ beginsWord c = false ∧ c.isDigit = false

instance : DecidablePred Sign := fun _ => inferInstanceAs (Decidable (_ ∧ _))

theorem first?_sign {c : Char} (h : Sign c) (rest : List Char) :
    first? (c :: rest) = symbol? (c :: rest) := by
  obtain ⟨hnone, hword, hdigit⟩ := h
  simp only [List.mem_cons, List.not_mem_nil, or_false, not_or] at hnone
  obtain ⟨hline, hblank, htab, hreturn, hfeed, hslash, hquote⟩ := hnone
  have hspace := isSpace_eq_false ⟨Ne.symm hblank, Ne.symm htab, Ne.symm hreturn, Ne.symm hfeed⟩
  rw [first?_cons hline hspace hslash, hword, hdigit, if_neg Bool.false_ne_true,
    if_neg Bool.false_ne_true, if_neg hquote]

theorem first?_single {c : Char} {s : Symbol} (hc : Sign c) (h : singleSymbol? c = some s)
    (rest : List Char) :
    ∃ l after, first? ([c] ++ rest) = some (l, after) ∧ Covers (.symbol s) [c] l := by
  rw [List.singleton_append, first?_sign hc]
  exact symbol?_single h rest

theorem first?_pair {c d : Char} {s : Symbol} (hc : Sign c) (h : pairSymbol? c d = some s)
    (rest : List Char) :
    ∃ l after, first? ([c, d] ++ rest) = some (l, after) ∧ Covers (.symbol s) [c, d] l := by
  rw [List.cons_append, List.singleton_append, first?_sign hc]
  exact symbol?_pair h rest

/-- A slash is taken for a symbol, or for the beginning of a comment, which is longer. -/
theorem first?_slash (rest : List Char) :
    ∃ l after, first? (['/'] ++ rest) = some (l, after) ∧ Covers (.symbol .slash) ['/'] l := by
  rw [List.singleton_append]
  by_cases hnext : rest.head? = some '/'
  · obtain ⟨rest, rfl⟩ := List.head?_eq_some_iff.1 hnext
    refine ⟨_, _, first?_slashes, ?_, fun hlen => ?_⟩
    · exact Nat.succ_le_succ (Nat.zero_le _)
    · exact absurd (Nat.succ.inj hlen) (Nat.succ_ne_zero _)
  · rw [first?, if_neg (by decide), if_neg (by decide), if_neg fun h => hnext h.2]
    exact symbol?_single rfl rest

/-- A symbol is taken, or something longer. -/
theorem first?_symbol (s : Symbol) (rest : List Char) :
    ∃ l after, first? (s.spelling.toList ++ rest) = some (l, after) ∧
      Covers (.symbol s) s.spelling.toList l := by
  cases s
  case slash => exact first?_slash rest
  case arrow | equal | notEqual | lessEqual | greaterEqual =>
    all_goals exact first?_pair (by decide) rfl rest
  all_goals exact first?_single (by decide) rfl rest

end Lexeme

/-- **Whatever a rule allows at the front of a text, the reader gets at least as far.** -/
theorem LexemeKind.Allows.first?_eq {kind : LexemeKind} {piece : List Char} (h : kind.Allows piece)
    (rest : List Char) :
    ∃ l after, first? (piece ++ rest) = some (l, after) ∧ Covers kind piece l := by
  cases h with
  | blank hne h =>
    obtain ⟨c, cs, rfl⟩ := List.exists_cons_of_ne_nil hne
    exact ⟨_, _, first?_space (h c List.mem_cons_self), covers_run .blank rest h⟩
  | newline => exact ⟨_, _, rfl, Nat.le_refl _, fun _ => rfl⟩
  | @comment text h =>
    have hall : ∀ c ∈ '/' :: '/' :: text, decide (c ≠ '\n') = true := by
      simpa using h
    exact ⟨_, _, first?_slashes, covers_run .comment rest hall⟩
  | @word c text hc h =>
    have hall : ∀ d ∈ c :: text, continuesWord d = true :=
      List.forall_mem_cons.2 ⟨continuesWord_of_beginsWord hc, h⟩
    exact ⟨_, _, first?_letter hc, covers_run .word rest hall⟩
  | integer hne h =>
    obtain ⟨c, cs, rfl⟩ := List.exists_cons_of_ne_nil hne
    exact ⟨_, _, first?_digit (h c List.mem_cons_self), covers_number rest h⟩
  | @decimal whole fraction hwhole hfraction h h' =>
    obtain ⟨c, cs, rfl⟩ := List.exists_cons_of_ne_nil hwhole
    obtain ⟨more, hnumber⟩ := number_fraction rest h hfraction h'
    have hfirst : first? (c :: (cs ++ '.' :: (fraction ++ rest))) = _ :=
      first?_digit (h c List.mem_cons_self)
    rw [← List.cons_append] at hfirst
    refine ⟨⟨.decimal, c :: cs ++ '.' :: (fraction ++ more)⟩,
      (number (c :: cs ++ '.' :: (fraction ++ rest))).2, ?_, ?_, fun _ => rfl⟩
    · rw [← hnumber, List.append_assoc]
      exact hfirst
    · simp only [List.length_append, List.length_cons]
      omega
  | string h => exact ⟨_, rest, h.first?_string rest, Nat.le_refl _, fun _ => rfl⟩
  | @openString body h => exact ⟨_, _, first?_quote, covers_string rest h⟩
  | symbol s => exact first?_symbol s rest

namespace Lexeme

variable {kind kind' : LexemeKind} {piece text rest : List Char} {l : Lexeme}

/-- **No rule allows a longer piece** than the one that is taken for a lexeme. -/
theorem first?_longest (h : first? text = some (l, rest)) (hkind : kind.Allows piece)
    (hpiece : piece <+: text) : piece.length ≤ l.text.length := by
  obtain ⟨behind, rfl⟩ := hpiece
  obtain ⟨l', after, hfirst, hcovers⟩ := hkind.first?_eq behind
  rw [hfirst] at h
  cases h
  exact hcovers.1

end Lexeme

/-- One rule at most allows a piece. -/
theorem LexemeKind.Allows.kind_unique {kind kind' : LexemeKind} {piece : List Char}
    (h : kind.Allows piece) (h' : kind'.Allows piece) : kind = kind' := by
  obtain ⟨l, after, hfirst, hle, hkind⟩ := h.first?_eq []
  obtain ⟨l', after', hfirst', -, hkind'⟩ := h'.first?_eq []
  rw [hfirst] at hfirst'
  cases hfirst'
  -- the reader takes all of it, so it takes it for a lexeme of either kind
  have hwhole := congrArg List.length (first?_append hfirst)
  rw [List.append_nil, List.length_append] at hwhole
  have hlen : l.text.length = piece.length := by omega
  rw [← hkind hlen, ← hkind' hlen]

theorem LexemeKind.Allows.ne_nil {kind : LexemeKind} {piece : List Char} (h : kind.Allows piece) :
    piece ≠ [] := by
  rintro rfl
  obtain ⟨l, after, hfirst, -⟩ := h.first?_eq []
  cases hfirst

/-- A piece that a rule allows and that no rule allows more than, where it stands. -/
def Longest (piece behind : List Char) : Prop :=
  ∀ (kind : LexemeKind) (p : List Char), kind.Allows p → p <+: piece ++ behind → p.length ≤ piece.length

/-- **A piece is taken for a lexeme just if a rule allows it and none allows more.** -/
theorem Lexeme.first?_eq_some_iff {l : Lexeme} {text rest : List Char} :
    first? text = some (l, rest) ↔
      text = l.text ++ rest ∧ l.kind.Allows l.text ∧ Longest l.text rest := by
  constructor
  · intro h
    have happend := first?_append h
    refine ⟨happend.symm, first?_allowed h, fun kind p hp hfront => ?_⟩
    rw [happend] at hfront
    exact first?_longest h hp hfront
  · rintro ⟨rfl, hallowed, hlongest⟩
    obtain ⟨l', after, hfirst, hle, hkind⟩ := hallowed.first?_eq rest
    have happend := first?_append hfirst
    have hge := hlongest l'.kind l'.text (first?_allowed hfirst) ⟨after, happend⟩
    have hlen : l'.text.length = l.text.length := by omega
    obtain ⟨htext, rfl⟩ := List.append_inj happend hlen
    have hsame : l' = l := by
      cases l
      cases l'
      exact congrArg₂ Lexeme.mk (hkind hlen) htext
    rw [hfirst, hsame]

end Nikl
