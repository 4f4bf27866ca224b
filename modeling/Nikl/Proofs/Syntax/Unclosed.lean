import Mathlib.Data.List.Induction
import Nikl.Proofs.Syntax.Bracketing
import Nikl.Proofs.Syntax.OffendingToken

/-
Words of brackets, and what a parse says of them. The brackets of a program are properly nested
(`WellNested`). Where a delimiter is not closed, the brackets are the beginning of such a word, and the
error names the last of those that nothing closes (`unclosed_delimiters`).

The readers keep their openers on a list (`stillOpen`); a word says nothing of lists. In between stands
`LeavesOpen ts openers`: the tokens are cut before each opener on the list, and the brackets behind each of
them are properly nested.
-/

set_option autoImplicit false

namespace Nikl

open Nikl.Parser

/-! ## Words of brackets -/

/-- The brackets among some tokens. -/
def brackets (ts : List Token) : List Token :=
  ts.filter fun t => t.kind.isOpening || t.kind.isClosing

@[simp] theorem brackets_append (ts us : List Token) : brackets (ts ++ us) = brackets ts ++ brackets us :=
  List.filter_append ..

theorem brackets_cons_of_isOpening {t : Token} (h : t.kind.isOpening = true) (ts : List Token) :
    brackets (t :: ts) = t :: brackets ts := List.filter_cons_of_pos (by simp [h])

theorem brackets_cons_of_isClosing {t : Token} (h : t.kind.isClosing = true) (ts : List Token) :
    brackets (t :: ts) = t :: brackets ts := List.filter_cons_of_pos (by simp [h])

/-- `c` closes what `o` opens. -/
def Closes (c o : Token) : Prop := ∃ s, o.kind.closer? = some s ∧ c.kind = .symbol s

/-- Properly nested words over `()`, `[]` and `{}`. -/
inductive WellNested : List Token → Prop
  | nil : WellNested []
  | pair {o c : Token} {inside behind : List Token} (hcloses : Closes c o) (hinside : WellNested inside)
      (hbehind : WellNested behind) : WellNested (o :: (inside ++ c :: behind))

/-- The bracket that closes `o` stands in the word behind it. -/
def ClosedIn (o : Token) (word : List Token) : Prop :=
  ∃ inside c behind, word = inside ++ c :: behind ∧ WellNested inside ∧ Closes c o

/-- `o` is the last opening token among some that nothing closes. -/
def LastUnclosed (ts : List Token) (o : Token) : Prop :=
  ∃ front back, ts = front ++ o :: back ∧ o.kind.isOpening = true ∧ ¬ ClosedIn o (brackets back) ∧
    ∀ between o' behind, back = between ++ o' :: behind → o'.kind.isOpening = true →
      ClosedIn o' (brackets behind)

section Words

variable {o c : Token} {word word' : List Token}

theorem Closes.isOpening (h : Closes c o) : o.kind.isOpening = true := by
  obtain ⟨s, ho, -⟩ := h
  exact isOpening_of_closer? ho

theorem Closes.isClosing (h : Closes c o) : c.kind.isOpening = false ∧ c.kind.isClosing = true := by
  obtain ⟨s, ho, hc⟩ := h
  rw [hc]
  exact closer?_closes ho

theorem exists_closes (h : o.kind.isOpening = true) : ∃ c, Closes c o := by
  obtain ⟨s, hs⟩ := Option.isSome_iff_exists.1 h
  exact ⟨⟨.symbol s, o.span, false⟩, s, hs, rfl⟩

theorem WellNested.append (h : WellNested word) (h' : WellNested word') : WellNested (word ++ word') := by
  induction h with
  | nil => exact h'
  | pair hcloses hinside _ _ ih =>
    rw [List.cons_append, List.append_assoc, List.cons_append]
    exact .pair hcloses hinside ih

/-- A properly nested word leaves the list of openers as it is. -/
theorem WellNested.stillOpen (h : WellNested word) (openers : List Token) :
    stillOpen word openers = some openers := by
  induction h generalizing openers with
  | nil => rfl
  | pair hcloses _ _ ihInside ihBehind =>
    have ⟨s, ho, hc⟩ := hcloses
    rw [stillOpen_opening hcloses.isOpening, stillOpen_append, ihInside, Option.bind_some,
      stillOpen_closing ho hc, ihBehind]

/-- In a properly nested word, nothing is closed that was not opened in it. -/
theorem WellNested.not_closedIn (h : WellNested word) : ¬ ClosedIn o word := by
  rintro ⟨inside, c, behind, rfl, hinside, hcloses⟩
  have hopen := h.stillOpen []
  obtain ⟨hopening, hclosing⟩ := hcloses.isClosing
  rw [stillOpen_append, hinside.stillOpen, Option.bind_some, stillOpen_cons, hopening, hclosing] at hopen
  cases hopen

theorem ClosedIn.append (h : ClosedIn o word) (more : List Token) : ClosedIn o (word ++ more) := by
  obtain ⟨inside, c, behind, rfl, hinside, hcloses⟩ := h
  exact ⟨inside, c, behind ++ more, by simp, hinside, hcloses⟩

/-- Whatever is opened in a properly nested word is closed in what stands behind it. -/
theorem WellNested.closedIn {between behind : List Token} (h : WellNested word)
    (hword : word = between ++ o :: behind) (ho : o.kind.isOpening = true) : ClosedIn o behind := by
  induction h generalizing between behind with
  | nil => simp at hword
  | @pair o' c inside after hcloses hinside _ ihInside ihBehind =>
    cases between with
    | nil =>
      obtain ⟨rfl, rfl⟩ := List.cons.inj hword
      exact ⟨inside, c, after, rfl, hinside, hcloses⟩
    | cons t between =>
      have hrest : inside ++ c :: after = between ++ o :: behind := (List.cons.inj hword).2
      have hother : c ≠ o := by
        rintro rfl
        rw [hcloses.isClosing.1] at ho
        cases ho
      rcases List.append_eq_append_iff.1 hrest with ⟨more, -, hmore⟩ | ⟨more, hinside', hmore⟩
      · cases more with
        | nil => exact absurd (List.cons.inj hmore).1 hother
        | cons u more => exact ihBehind (List.cons.inj hmore).2
      · cases more with
        | nil => exact absurd (List.cons.inj hmore).1.symm hother
        | cons u more =>
          obtain ⟨rfl, rfl⟩ := List.cons.inj hmore
          exact (ihInside hinside').append _

end Words

/-! ## What is left open -/

/-- The brackets that some tokens leave open are `openers`, the last of them first. -/
inductive LeavesOpen : List Token → List Token → Prop
  | none {ts : List Token} (h : WellNested (brackets ts)) : LeavesOpen ts []
  | opener {front back openers : List Token} {o : Token} (hfront : LeavesOpen front openers)
      (ho : o.kind.isOpening = true) (hback : WellNested (brackets back)) :
      LeavesOpen (front ++ o :: back) (o :: openers)

section LeavesOpen

variable {o : Token} {ts us openers : List Token}

theorem LeavesOpen.append (h : LeavesOpen ts openers) (hus : WellNested (brackets us)) :
    LeavesOpen (ts ++ us) openers := by
  cases h with
  | none h =>
    refine .none ?_
    rw [brackets_append]
    exact h.append hus
  | opener hfront ho hback =>
    rw [List.append_assoc, List.cons_append]
    refine .opener hfront ho ?_
    rw [brackets_append]
    exact hback.append hus

/-- **The openers on the list are those that the tokens leave open.** -/
theorem leavesOpen_of_stillOpen (h : stillOpen ts [] = some openers) : LeavesOpen ts openers := by
  -- from the last token, since that is the one that changes the end of the list
  induction ts using List.reverseRecOn generalizing openers with
  | nil =>
    cases h
    exact .none .nil
  | append_singleton ts t ih =>
    rw [stillOpen_append] at h
    obtain ⟨between, hbetween, hlast⟩ := Option.bind_eq_some_iff.1 h
    have hts := ih hbetween
    rw [stillOpen_cons] at hlast
    split at hlast
    · next hopening =>
      cases hlast
      exact .opener hts hopening .nil
    next hopening =>
    rw [Bool.not_eq_true] at hopening
    split at hlast
    · next hclosing =>
      cases hts with
      | none => cases hlast
      | @opener front back openers o hfront ho hback =>
        dsimp only at hlast
        split at hlast
        · next hmatch =>
          -- the last opener is closed, and the pair stands behind the opener before it
          cases hlast
          obtain ⟨s, hs, ht⟩ := Option.map_eq_some_iff.1 hmatch
          rw [List.append_assoc, List.cons_append]
          refine hfront.append ?_
          rw [brackets_cons_of_isOpening ho, brackets_append, brackets_cons_of_isClosing hclosing]
          exact .pair ⟨s, hs, ht.symm⟩ hback .nil
        · cases hlast
    · next hclosing =>
      cases hlast
      refine hts.append ?_
      have hnone : brackets [t] = [] := by simp [brackets, hopening, hclosing]
      rw [hnone]
      exact .nil

/-- As many more brackets make a properly nested word. -/
theorem LeavesOpen.completed (h : LeavesOpen ts openers) : ∃ more, more.length = openers.length ∧
    ∀ word, WellNested word → WellNested (brackets ts ++ word ++ more) := by
  induction h with
  | none h => exact ⟨[], rfl, fun word hword => by simpa using h.append hword⟩
  | @opener front back openers o _ ho hback ih =>
    obtain ⟨more, hlength, hmore⟩ := ih
    obtain ⟨c, hcloses⟩ := exists_closes ho
    -- its own closing bracket comes first, so the brackets that are put before that stand in its pair
    refine ⟨c :: more, by simp [hlength], fun word hword => ?_⟩
    have hinside := hmore _ (.pair hcloses (hback.append hword) .nil)
    rw [brackets_append, brackets_cons_of_isOpening ho]
    simpa using hinside

/-- The first on the list is the last that nothing closes. -/
theorem LeavesOpen.lastUnclosed (h : LeavesOpen ts (o :: openers)) : LastUnclosed ts o := by
  cases h with
  | @opener front back _ _ _ ho hback =>
    refine ⟨front, back, rfl, ho, hback.not_closedIn, fun between o' behind hsplit ho' => ?_⟩
    have hword : brackets back = brackets between ++ o' :: brackets behind := by
      rw [hsplit, brackets_append, brackets_cons_of_isOpening ho']
    exact hback.closedIn hword ho'

end LeavesOpen

/-! ## Brackets of a text -/

section Texts

variable {ts : List Token} {last : Token}

/-- At the only end of a text, what is open is what the tokens before it leave open. -/
theorem stillOpen_of_only_end {us rest : List Token} (hts : EndFree ts) (hlast : last.kind = .eof)
    (hend : (firstOf rest).kind = .eof) (h : ts ++ [last] = us ++ rest) (openers : List Token) :
    stillOpen ts openers = stillOpen us openers := by
  rcases List.append_eq_append_iff.1 h with ⟨more, rfl, hrest⟩ | ⟨more, rfl, rfl⟩
  · cases more with
    | nil => rw [List.append_nil]
    | cons t more =>
      -- the end of the text was passed, which opens and closes nothing
      obtain ⟨rfl, hnone⟩ := List.cons.inj hrest
      obtain ⟨rfl, -⟩ := List.append_eq_nil_iff.1 hnone.symm
      have hneutral : Neutral last.kind := by rw [hlast]; exact ⟨rfl, rfl⟩
      rw [stillOpen_append]
      cases stillOpen ts openers with
      | none => rfl
      | some openers => exact hneutral.stillOpen.symm
  · -- nor does it stand before
    cases more with
    | nil => rw [List.append_nil]
    | cons t more =>
      rw [endFree_append, endFree_cons] at hts
      exact absurd hend hts.2.1

/-- A delimiter is found unclosed at the end of the text, which is the last token. -/
theorem span_of_unclosed {e : ParseError} {close : TokenKind} {opener : Span} (hts : EndFree ts)
    (hlast : last.kind = .eof) (hparse : parse (ts ++ [last]) = .error e)
    (hfault : e.fault = .unclosed close opener) : e.span = last.span := by
  have hfound : e.fault.found? = some .eof := by rw [hfault]; rfl
  obtain ⟨front, t, back, htokens, hfree, hat⟩ := parse_error_at hlast hparse (by simp [hfound])
  have ht : t.kind = .eof := Option.some.inj (hat.found.symm.trans hfound)
  have hend : (firstOf (t :: back)).kind = .eof := ht
  obtain ⟨-, hlasts⟩ := rest_of_only_end hts hfree hlast hend htokens
  rw [hat.span, (List.cons.inj hlasts).1]

/-- **Unclosed delimiters.** The brackets of a text that can be parsed are properly nested. If a delimiter
is not closed then they are a proper beginning of such a word, the error lies at the end of the text, and
it names the last opening token that nothing closes and what would close it. -/
theorem unclosed_delimiters (hts : EndFree ts) (hlast : last.kind = .eof) :
    (∀ b, parse (ts ++ [last]) = .ok b → WellNested (brackets ts)) ∧
    ∀ e, parse (ts ++ [last]) = .error e → e.code = .unclosedDelimiter →
      (∃ more, more ≠ [] ∧ WellNested (brackets ts ++ more)) ∧ e.span = last.span ∧
      ∃ o s, LastUnclosed ts o ∧ e.fault.opener? = some o.span ∧ o.kind.closer? = some s ∧
        e.message = "unclosed delimiter: expected " ++ (.symbol s : TokenKind).displayName := by
  constructor
  · intro b hparse
    obtain ⟨c', hrun⟩ := parse_eq_ok_iff.1 hparse
    obtain ⟨us, hus, hopen⟩ := (keeps_program (Cursor.ofTokens (ts ++ [last])) []).ok b c' hrun
    have hend : (firstOf c'.rest).kind = .eof := of_decide_eq_true (program_gives hrun).1
    rw [← stillOpen_of_only_end hts hlast hend hus] at hopen
    cases leavesOpen_of_stillOpen hopen with
    | none h => exact h
  · intro e hparse hcode
    obtain ⟨close, opener, hfault⟩ := unclosed_of_code hcode
    obtain ⟨us, back, o, openers, hus, hend, -, hopen, rfl, hclose⟩ :=
      (keeps_program (Cursor.ofTokens (ts ++ [last])) []).error e close opener
        (parse_eq_error_iff.1 hparse) hfault
    rw [← stillOpen_of_only_end hts hlast hend hus] at hopen
    have hleft := leavesOpen_of_stillOpen hopen
    have hspan := span_of_unclosed hts hlast hparse hfault
    obtain ⟨more, hlength, hmore⟩ := hleft.completed
    obtain ⟨s, hs, rfl⟩ := Option.map_eq_some_iff.1 hclose
    refine ⟨⟨more, ?_, ?_⟩, hspan, o, s, hleft.lastUnclosed, by rw [hfault]; rfl, hs, ?_⟩
    · rw [← List.length_pos_iff, hlength]
      exact Nat.succ_pos _
    · simpa using hmore [] .nil
    · rw [ParseError.message, hfault]
      rfl

end Texts

/-- `f([1]`, where the bracket that was opened last is closed. -/
def openCall : List Token :=
  [⟨.ident "f", ⟨0, 1⟩, false⟩, ⟨.symbol .leftParen, ⟨1, 2⟩, false⟩,
   ⟨.symbol .leftBracket, ⟨2, 3⟩, false⟩, ⟨.int 1, ⟨3, 4⟩, false⟩, ⟨.symbol .rightBracket, ⟨4, 5⟩, false⟩]

theorem unclosed_delimiters_openCall :
    let last : Token := ⟨.eof, ⟨5, 5⟩, false⟩
    let e : ParseError := ⟨.unclosed (.symbol .rightParen) ⟨1, 2⟩, ⟨5, 5⟩, some .functionCall⟩
    EndFree openCall ∧ parse (openCall ++ [last]) = .error e ∧ e.code = .unclosedDelimiter ∧
      (∃ more, more ≠ [] ∧ WellNested (brackets openCall ++ more)) ∧ e.span = last.span ∧
      ∃ o s, LastUnclosed openCall o ∧ e.fault.opener? = some o.span ∧ o.kind.closer? = some s ∧
        e.message = "unclosed delimiter: expected " ++ (.symbol s : TokenKind).displayName := by
  intro last e
  have hfree : EndFree openCall := by simp [openCall]
  have herror : parse (openCall ++ [last]) = .error e := rfl
  exact ⟨hfree, herror, rfl, (unclosed_delimiters hfree rfl).2 e herror rfl⟩

end Nikl
