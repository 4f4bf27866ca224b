import Nikl.Proofs.Syntax.Soundness
import Nikl.Proofs.Token.Delimiters

/-
Readers and nested delimiters. `Nests before p c after` says what a reader does to the delimiters that
are open: with the openers `before` open at a cursor, a run that succeeds leaves the openers `after`
open, and a run that fails because a delimiter is not closed has come to the end of the text, with that
delimiter the innermost of those that are open there.

Openers are put on the list by the step that takes an opening token, and taken off it by the one that
takes the closing token. All other readers leave the list as it is (`Keeps`), since they are put together
from such pairs.
-/

set_option autoImplicit false

namespace Nikl.Parser

theorem unclosed_of_code {e : ParseError} (h : e.code = .unclosedDelimiter) :
    ∃ close opener, e.fault = .unclosed close opener := by
  obtain ⟨fault, place, context⟩ := e
  cases fault with
  | unclosed close opener => exact ⟨close, opener, rfl⟩
  | _ => cases h

/-- At the end of the text, with `before` open where `rest` begins, the innermost open delimiter is the
one at `opener`, and `close` would close it. -/
def LeftOpen (rest before : List Token) (close : TokenKind) (opener place : Span) : Prop :=
  ∃ ts back o openers, rest = ts ++ back ∧ (firstOf back).kind = .eof ∧ place = (firstOf back).span ∧
    stillOpen ts before = some (o :: openers) ∧ o.span = opener ∧
    o.kind.closer?.map TokenKind.symbol = some close

/-- What a reader does to the open delimiters, `before` it and `after` it. -/
structure Nests {α : Type} (before : List Token) (p : Parser α) (c : Cursor) (after : List Token) :
    Prop where
  ok : ∀ a c', p c = .ok (a, c') → ∃ ts, c.rest = ts ++ c'.rest ∧ stillOpen ts before = some after
  error : ∀ e close opener, p c = .error e → e.fault = .unclosed close opener →
    LeftOpen c.rest before close opener e.span

/-- A reader that leaves the open delimiters as they are, wherever it stands. -/
def Keeps {α : Type} (p : Parser α) : Prop := ∀ c openers, Nests openers p c openers

section Rules

variable {α β : Type} {p : Parser α} {f : α → Parser β} {c : Cursor} {before between after : List Token}
  {kind : TokenKind} {o : Token} {s : Symbol}

/-! ## Putting readers together -/

theorem Nests.pure (a : α) : Nests before (pure a) c before := by
  constructor
  · rintro a c' ⟨⟩
    exact ⟨[], rfl, rfl⟩
  · rintro e close opener ⟨⟩

theorem bind_eq_error {e : ParseError} (h : (p >>= f) c = .error e) :
    p c = .error e ∨ ∃ a c₁, p c = .ok (a, c₁) ∧ f a c₁ = .error e := by
  replace h : (p c >>= fun r => f r.1 r.2) = .error e := h
  cases hp : p c with
  | error e' =>
    rw [hp] at h
    cases h
    exact .inl rfl
  | ok r =>
    rw [hp] at h
    exact .inr ⟨r.1, r.2, rfl, h⟩

theorem LeftOpen.further {rest rest' ts : List Token} {opener place : Span} (hrest : rest = ts ++ rest')
    (hts : stillOpen ts before = some between) (h : LeftOpen rest' between kind opener place) :
    LeftOpen rest before kind opener place := by
  obtain ⟨ts', back, o, openers, rfl, hend, hplace, hopen, hopener, hclose⟩ := h
  refine ⟨ts ++ ts', back, o, openers, ?_, hend, hplace, ?_, hopener, hclose⟩
  · rw [hrest, List.append_assoc]
  · rw [stillOpen_append, hts]
    exact hopen

theorem Nests.bind (hp : Nests before p c between)
    (hf : ∀ a c₁, p c = .ok (a, c₁) → Nests between (f a) c₁ after) :
    Nests before (p >>= f) c after := by
  constructor
  · intro b c' h
    obtain ⟨a, c₁, ha, hb⟩ := bind_eq_ok h
    obtain ⟨ts, hts, hopen⟩ := hp.ok a c₁ ha
    obtain ⟨ts', hts', hopen'⟩ := (hf a c₁ ha).ok b c' hb
    refine ⟨ts ++ ts', by rw [hts, hts', List.append_assoc], ?_⟩
    rw [stillOpen_append, hopen]
    exact hopen'
  · intro e close opener h hfault
    rcases bind_eq_error h with ha | ⟨a, c₁, ha, hb⟩
    · exact hp.error e close opener ha hfault
    · obtain ⟨ts, hts, hopen⟩ := hp.ok a c₁ ha
      exact LeftOpen.further hts hopen ((hf a c₁ ha).error e close opener hb hfault)

theorem Nests.get {f : Cursor → Parser β} (h : Nests before (f c) c after) :
    Nests before (get >>= f) c after := ⟨h.ok, h.error⟩

theorem Nests.within {context : Context} (h : Nests before p c after) :
    Nests before (within context p) c after := by
  constructor
  · exact fun a c' hrun => h.ok a c' (within_eq_ok hrun)
  · intro e close opener hrun hfault
    rw [Parser.within] at hrun
    cases hp : p c with
    | ok r =>
      rw [hp] at hrun
      cases hrun
    | error e' =>
      rw [hp] at hrun
      cases hrun
      exact h.error e' close opener hp hfault

theorem Nests.fail {e : ParseError} (he : ∀ close opener, e.fault ≠ .unclosed close opener) {p : Parser α}
    (hp : p c = .error e) : Nests before p c after := by
  constructor
  · intro a c' h
    rw [hp] at h
    cases h
  · intro e' close opener h hfault
    rw [hp] at h
    cases h
    exact absurd hfault (he close opener)

/-! ## Taking tokens -/

/-- A step that takes one token. -/
theorem Nests.take {t : Token} (hrun : ∀ a c', p c = .ok (a, c') → c.rest = t :: c'.rest)
    (hfail : ∀ e close opener, p c = .error e → e.fault ≠ .unclosed close opener)
    (hopen : stillOpen [t] before = some after) : Nests before p c after := by
  constructor
  · exact fun a c' h => ⟨[t], hrun a c' h, hopen⟩
  · exact fun e close opener h hfault => absurd hfault (hfail e close opener h)

/-- A token that neither opens nor closes anything. -/
def Neutral (kind : TokenKind) : Prop := kind.isOpening = false ∧ kind.isClosing = false

theorem Neutral.stillOpen {t : Token} (h : Neutral t.kind) : stillOpen [t] before = some before :=
  stillOpen_other h.1 h.2

theorem Nests.advance (h : Neutral c.kind) : Nests before advance c before := by
  by_cases hend : c.kind = .eof
  · -- the end of the text is not passed
    constructor
    · intro t c' hrun
      rw [Parser.advance, Cursor.next, if_pos (by simpa [Cursor.atEnd] using hend)] at hrun
      cases hrun
      exact ⟨[], rfl, rfl⟩
    · rintro e close opener ⟨⟩
  · exact Nests.take (t := c.current) (fun t c' hrun => by
      obtain ⟨hrest, rfl⟩ := advance_eq_ok hend hrun
      exact hrest) (by rintro e close opener ⟨⟩) h.stillOpen

theorem isOpening_of_closer? {k : TokenKind} (h : k.closer? = some s) : k.isOpening = true := by
  rw [TokenKind.isOpening, h]
  rfl

/-- An opening token, and what is read behind it. -/
theorem Nests.open {f : Token → Parser β} (hc : c.kind.closer? = some s)
    (hf : ∀ t c₁, t.kind = c.kind → Nests (t :: before) (f t) c₁ after) :
    Nests before (Parser.advance >>= f) c after := by
  have hend : c.kind ≠ .eof := by
    intro hend
    rw [hend] at hc
    cases hc
  have hopen : Nests before Parser.advance c (c.current :: before) := by
    refine Nests.take (fun t c' hrun => ?_) (by rintro e close opener ⟨⟩)
      (stillOpen_opening (isOpening_of_closer? hc))
    obtain ⟨hrest, rfl⟩ := advance_eq_ok hend hrun
    exact hrest
  refine hopen.bind fun t c₁ ht => ?_
  obtain ⟨-, rfl⟩ := advance_eq_ok hend ht
  exact hf _ c₁ rfl

/-- A closing token that is known to be there. -/
theorem Nests.close {f : Token → Parser β} (ho : o.kind.closer? = some s) (hc : c.kind = .symbol s)
    (hf : ∀ t c₁, Nests before (f t) c₁ after) : Nests (o :: before) (Parser.advance >>= f) c after := by
  have hclose : Nests (o :: before) Parser.advance c before := by
    refine Nests.take (fun t c' hrun => ?_) (by rintro e close opener ⟨⟩) (stillOpen_closing ho hc)
    obtain ⟨hrest, rfl⟩ := advance_eq_ok (by rw [hc]; simp) hrun
    exact hrest
  exact hclose.bind fun t c₁ _ => hf t c₁

theorem Nests.eat (hkind : IsMark kind) (h : Neutral kind) : Nests before (eat kind) c before := by
  constructor
  · intro b c' hrun
    rcases eat_eq_ok hkind hrun with ⟨-, t, hrest, ht⟩ | ⟨-, rfl, -⟩
    · exact ⟨[t], hrest, Neutral.stillOpen (by rwa [ht])⟩
    · exact ⟨[], rfl, rfl⟩
  · intro e close opener hrun
    rw [Parser.eat] at hrun
    split at hrun <;> cases hrun

theorem expect_error {e : ParseError} (h : expect kind c = .error e) (close : TokenKind)
    (opener : Span) : e.fault ≠ .unclosed close opener := by
  rw [expect] at h
  split at h <;> cases h
  simp

theorem Nests.expect (hkind : IsMark kind) (h : Neutral kind) :
    Nests before (expect kind) c before := by
  constructor
  · intro t c' hrun
    obtain ⟨hrest, ht⟩ := expect_eq_ok hkind hrun
    exact ⟨[t], hrest, Neutral.stillOpen (by rwa [ht])⟩
  · exact fun e close opener hrun hfault => absurd hfault (expect_error hrun close opener)

/-- An opening token that must be there, and what is read behind it. -/
theorem Nests.expectOpen {f : Token → Parser β} (hkind : IsMark kind) (h : kind.closer? = some s)
    (hf : ∀ t c₁, t.kind = kind → Nests (t :: before) (f t) c₁ after) :
    Nests before (Parser.expect kind >>= f) c after := by
  constructor
  · intro b c' hrun
    obtain ⟨t, c₁, ht, hb⟩ := bind_eq_ok hrun
    obtain ⟨hrest, hk⟩ := expect_eq_ok hkind ht
    obtain ⟨ts, hts, hopen⟩ := (hf t c₁ hk).ok b c' hb
    refine ⟨t :: ts, by rw [hrest, hts]; rfl, ?_⟩
    rw [stillOpen_opening (isOpening_of_closer? (by rw [hk]; exact h))]
    exact hopen
  · intro e close opener hrun hfault
    rcases bind_eq_error hrun with ht | ⟨t, c₁, ht, hb⟩
    · exact absurd hfault (expect_error ht close opener)
    · obtain ⟨hrest, hk⟩ := expect_eq_ok hkind ht
      have hopen : stillOpen [t] before = some (t :: before) :=
        stillOpen_opening (isOpening_of_closer? (by rw [hk]; exact h))
      exact LeftOpen.further hrest hopen ((hf t c₁ hk).error e close opener hb hfault)

theorem Nests.expectIdent : Nests before expectIdent c before := by
  constructor
  · rintro ⟨name, place⟩ c' hrun
    obtain ⟨t, hrest, ht, -⟩ := expectIdent_eq_ok hrun
    exact ⟨[t], hrest, Neutral.stillOpen (by rw [ht]; exact ⟨rfl, rfl⟩)⟩
  · intro e close opener hrun hfault
    rw [Parser.expectIdent] at hrun
    split at hrun
    · cases hrun
    · cases hrun
      cases hfault

/-- **The closing token, or the end of the text**, where the delimiter that is to be closed is the
innermost open one. -/
theorem Nests.expectClosing (ho : o.kind.closer? = some s) :
    Nests (o :: before) (expectClosing (.symbol s) o.span) c before := by
  constructor
  · intro place c' hrun
    obtain ⟨t, hrest, ht, -⟩ := expectClosing_eq_ok (.symbol s) hrun
    exact ⟨[t], hrest, stillOpen_closing ho ht⟩
  · intro e close opener hrun hfault
    rw [Parser.expectClosing] at hrun
    split at hrun
    · cases hrun
    split at hrun
    · next hend =>
      cases hrun
      cases hfault
      exact ⟨[], c.rest, o, before, rfl, of_decide_eq_true hend, rfl, rfl, rfl, by rw [ho]; rfl⟩
    · cases hrun
      cases hfault

end Rules

/-! ## Lists -/

section Lists

variable {α : Type} {item : Parser α}

theorem Keeps.items (hitem : Keeps item) (close : TokenKind) (rounds : List Token) :
    Keeps (items close item rounds) := by
  induction rounds with
  | nil => exact fun c openers => Nests.pure []
  | cons t rounds ih =>
    intro c openers
    refine Nests.get ?_
    split
    · exact Nests.pure []
    refine (hitem c openers).bind fun first c₁ _ => ?_
    refine (Nests.eat (.symbol .comma) ⟨rfl, rfl⟩).bind fun b c₂ _ => ?_
    split
    · exact (ih c₂ openers).bind fun more c₃ _ => Nests.pure _
    refine Nests.get ?_
    split
    · exact Nests.pure _
    · exact Nests.fail (by simp) rfl

/-- A list of items closes the delimiter that it stands behind. -/
theorem Keeps.commaSeparated (hitem : Keeps item) {o : Token} {s : Symbol}
    (ho : o.kind.closer? = some s) (c : Cursor) (openers : List Token) :
    Nests (o :: openers) (commaSeparated o.span (.symbol s) item) c openers := by
  refine Nests.get ?_
  refine (hitem.items _ _ c (o :: openers)).bind fun parts c₁ _ => ?_
  exact (Nests.expectClosing ho).bind fun closing c₂ _ => Nests.pure _

end Lists

/-! ## Expressions -/

section Expressions

variable {inner : Parser Expr} {c : Cursor} {openers : List Token}

theorem nests_parenOrTuple (hinner : Keeps inner) (hc : c.kind = .symbol .leftParen) :
    Nests openers (parenOrTuple inner) c openers := by
  have hopens : c.kind.closer? = some .rightParen := by rw [hc]; rfl
  refine Nests.open hopens fun o c₁ ho => Nests.get ?_
  rw [hc] at ho
  have hcloser : o.kind.closer? = some .rightParen := by rw [ho]; rfl
  split
  · next hcheck =>
    exact Nests.close hcloser ((IsMark.symbol _).check_iff.1 hcheck) fun t c₂ => Nests.pure _
  refine (hinner c₁ _).bind fun first c₂ _ => ?_
  refine (Nests.eat (.symbol .comma) ⟨rfl, rfl⟩).bind fun b c₃ _ => ?_
  split
  · refine Nests.within ((hinner.commaSeparated hcloser c₃ openers).bind fun r c₄ _ => ?_)
    exact Nests.pure _
  · exact (Nests.expectClosing hcloser).bind fun close c₄ _ => Nests.pure _

theorem nests_array (hinner : Keeps inner) (hc : c.kind = .symbol .leftBracket) :
    Nests openers (array inner) c openers := by
  refine Nests.open (s := .rightBracket) (by rw [hc]; rfl) fun o c₁ ho => ?_
  refine (hinner.commaSeparated (by rw [ho, hc]; rfl) c₁ openers).bind fun r c₂ _ => ?_
  exact Nests.pure _

theorem Keeps.entry (hinner : Keeps inner) : Keeps (entry inner) := by
  intro c openers
  refine (hinner c openers).bind fun key c₁ _ => ?_
  refine (Nests.expect (.symbol .colon) ⟨rfl, rfl⟩).bind fun colon c₂ _ => ?_
  exact (hinner c₂ openers).bind fun value c₃ _ => Nests.pure _

theorem nests_map (hinner : Keeps inner) (hc : c.kind = .symbol .leftBrace) :
    Nests openers (map inner) c openers := by
  refine Nests.open (s := .rightBrace) (by rw [hc]; rfl) fun o c₁ ho => ?_
  refine (hinner.entry.commaSeparated (by rw [ho, hc]; rfl) c₁ openers).bind fun r c₂ _ => ?_
  exact Nests.pure _

theorem neutral_of_atom? {k : TokenKind} {place : Span} {e : Expr} (h : atom? k place = some e) :
    Neutral k := by
  cases isAtom_of_atom? h
  all_goals exact ⟨rfl, rfl⟩

theorem Keeps.primary (hinner : Keeps inner) : Keeps (primary inner) := by
  intro c openers
  refine Nests.get ?_
  cases hatom : atom? c.kind c.span with
  | some e => exact (Nests.advance (neutral_of_atom? hatom)).bind fun t c₁ _ => Nests.pure _
  | none =>
    cases hc : c.kind with
    | symbol s =>
      cases s with
      | leftParen => exact nests_parenOrTuple hinner hc
      | leftBracket => exact Nests.within (nests_array hinner hc)
      | leftBrace => exact Nests.within (nests_map hinner hc)
      | _ => exact Nests.fail (by simp) rfl
    | _ => exact Nests.fail (by simp) rfl

theorem nests_call (hinner : Keeps inner) (callee : Expr) (hc : c.kind = .symbol .leftParen) :
    Nests openers (call inner callee) c openers := by
  refine Nests.open (s := .rightParen) (by rw [hc]; rfl) fun o c₁ ho => ?_
  refine (hinner.commaSeparated (by rw [ho, hc]; rfl) c₁ openers).bind fun r c₂ _ => ?_
  exact Nests.pure _

theorem nests_index (hinner : Keeps inner) (target : Expr) (hc : c.kind = .symbol .leftBracket) :
    Nests openers (index inner target) c openers := by
  refine Nests.open (s := .rightBracket) (by rw [hc]; rfl) fun o c₁ ho => ?_
  refine (hinner c₁ _).bind fun place c₂ _ => ?_
  exact (Nests.expectClosing (by rw [ho, hc]; rfl)).bind fun close c₃ _ => Nests.pure _

theorem Keeps.suffixesFrom (hinner : Keeps inner) (rounds : List Token) (left : Expr) :
    Keeps (suffixesFrom inner rounds left) := by
  induction rounds generalizing left with
  | nil => exact fun c openers => Nests.pure left
  | cons t rounds ih =>
    intro c openers
    refine Nests.get ?_
    split
    · exact Nests.pure left
    split
    · next hcheck =>
      have hc := (IsMark.symbol _).check_iff.1 hcheck
      exact (nests_call hinner left hc).within.bind fun e c₁ _ => ih e c₁ openers
    split
    · next hcheck =>
      have hc := (IsMark.symbol _).check_iff.1 hcheck
      exact (nests_index hinner left hc).within.bind fun e c₁ _ => ih e c₁ openers
    · exact Nests.pure left

theorem Keeps.suffixed (hinner : Keeps inner) : Keeps (suffixed inner) := by
  intro c openers
  refine (hinner.primary c openers).bind fun e c₁ _ => Nests.get ?_
  exact hinner.suffixesFrom _ e c₁ openers

theorem neutral_of_unaryOp? {k : TokenKind} {op : UnaryOp} (h : unaryOp? k = some op) : Neutral k := by
  unfold unaryOp? at h
  split at h
  all_goals cases h
  all_goals exact ⟨rfl, rfl⟩

theorem Keeps.unaryFrom (hinner : Keeps inner) (rounds : List Token) :
    Keeps (unaryFrom inner rounds) := by
  induction rounds with
  | nil => exact hinner.suffixed
  | cons t rounds ih =>
    intro c openers
    refine Nests.get ?_
    cases hop : unaryOp? c.kind with
    | none => exact hinner.suffixed c openers
    | some op =>
      refine (Nests.advance (neutral_of_unaryOp? hop)).bind fun t c₁ _ => ?_
      exact (ih c₁ openers).bind fun e c₂ _ => Nests.pure _

theorem neutral_of_opAt {L : Nat} (hL : L < 3) {k : TokenKind} {op : BinaryOp}
    (h : opAt L k = some op) : Neutral k := by
  cases k with
  | symbol s =>
    obtain rfl | rfl | rfl : L = 0 ∨ L = 1 ∨ L = 2 := by omega
    all_goals cases s <;> first | exact ⟨rfl, rfl⟩ | cases h
  | _ => exact ⟨rfl, rfl⟩

theorem Keeps.chain {L : Nat} (hL : L < 3) {operand : Parser Expr} (hoperand : Keeps operand) :
    Keeps (chain (opAt L) operand) := by
  have loop : ∀ (rounds : List Token) (left : Expr),
      Keeps (chainFrom (opAt L) operand rounds left) := by
    intro rounds
    induction rounds with
    | nil => exact fun left c openers => Nests.pure left
    | cons t rounds ih =>
      intro left c openers
      refine Nests.get ?_
      cases hop : opAt L c.kind with
      | none => exact Nests.pure left
      | some op =>
        refine (Nests.advance (neutral_of_opAt hL hop)).bind fun t c₁ _ => ?_
        exact (hoperand c₁ openers).bind fun right c₂ _ => ih _ c₂ openers
  intro c openers
  exact (hoperand c openers).bind fun left c₁ _ => Nests.get (loop _ left c₁ openers)

theorem keeps_expressionWithin (depth : List Token) : Keeps (expressionWithin depth) := by
  induction depth with
  | nil => exact fun c openers => Nests.fail (by simp) rfl
  | cons t depth ih =>
    have hunary : Keeps (unary (expressionWithin depth)) := fun c openers =>
      Nests.get (ih.unaryFrom _ c openers)
    exact Keeps.chain (L := 0) (by decide) (Keeps.chain (L := 1) (by decide)
      (Keeps.chain (L := 2) (by decide) hunary))

theorem keeps_expression : Keeps expression := fun c openers =>
  Nests.get (keeps_expressionWithin _ c openers)

end Expressions

/-! ## Statements -/

section Statements

variable {inner : Parser Stmt} {c : Cursor} {openers : List Token}

theorem neutral_of_typeTag? {k : TokenKind} {tag : TypeTag} (h : typeTag? k = some tag) :
    Neutral k := by
  unfold typeTag? at h
  split at h
  all_goals cases h
  all_goals exact ⟨rfl, rfl⟩

theorem keeps_typeAfter {mark : Symbol} (hmark : Neutral (.symbol mark)) : Keeps (typeAfter mark) := by
  intro c openers
  refine (Nests.eat (.symbol mark) hmark).bind fun b c₁ _ => ?_
  split
  · refine Nests.bind ?_ fun tag c₂ _ => Nests.pure _
    refine Nests.get ?_
    cases htag : typeTag? c₁.kind with
    | some tag => exact (Nests.advance (neutral_of_typeTag? htag)).bind fun t c₂ _ => Nests.pure _
    | none => exact Nests.within (Nests.fail (by simp) rfl)
  · exact Nests.pure _

theorem keeps_param : Keeps param := by
  intro c openers
  refine Nests.expectIdent.bind fun name c₁ _ => ?_
  exact (keeps_typeAfter ⟨rfl, rfl⟩ c₁ openers).bind fun type c₂ _ => Nests.pure _

theorem keeps_params : Keeps params := by
  intro c openers
  refine Nests.expectOpen (s := .rightParen) (.symbol .leftParen) rfl fun o c₁ ho => ?_
  refine (keeps_param.commaSeparated (by rw [ho]; rfl) c₁ openers).bind fun ps c₂ _ => ?_
  cases hrepeated : repeatedParam? [] ps.1 with
  | some p =>
    simp only [hrepeated]
    exact Nests.fail (by simp) rfl
  | none =>
    simp only [hrepeated]
    exact Nests.pure _

theorem Keeps.stmtsUntil (hinner : Keeps inner) (ends : Cursor → Bool) (rounds : List Token) :
    Keeps (stmtsUntil ends inner rounds) := by
  induction rounds with
  | nil => exact fun c openers => Nests.pure []
  | cons t rounds ih =>
    intro c openers
    refine (Nests.eat (.symbol .semicolon) ⟨rfl, rfl⟩).bind fun b c₁ _ => ?_
    split
    · exact ih c₁ openers
    refine Nests.get ?_
    split
    · exact Nests.pure []
    have hstmt : Keeps (terminated inner) := by
      intro c openers
      refine (hinner c openers).bind fun s c₁ _ => ?_
      exact (Nests.eat (.symbol .semicolon) ⟨rfl, rfl⟩).bind fun b c₂ _ => Nests.pure _
    exact (hstmt c₁ openers).bind fun s c₂ _ => (ih c₂ openers).bind fun more c₃ _ => Nests.pure _

theorem Keeps.block (hinner : Keeps inner) : Keeps (block inner) := by
  intro c openers
  refine Nests.within (Nests.expectOpen (s := .rightBrace) (.symbol .leftBrace) rfl fun o c₁ ho => ?_)
  refine Nests.get ((hinner.stmtsUntil _ _ c₁ (o :: openers)).bind fun ss c₂ _ => ?_)
  exact (Nests.expectClosing (by rw [ho]; rfl)).bind fun close c₃ _ => Nests.pure _

theorem nests_keyword {w : Keyword} {α : Type} {f : Token → Parser α} (hc : c.kind = .keyword w)
    (hf : ∀ t, Keeps (f t)) : Nests openers (advance >>= f) c openers :=
  (Nests.advance (by rw [hc]; exact ⟨rfl, rfl⟩)).bind fun t c₁ _ => hf t c₁ openers

theorem nests_letBinding (hc : c.kind = .keyword .letWord) : Nests openers letBinding c openers := by
  refine nests_keyword hc fun t c₁ openers => ?_
  refine Nests.expectIdent.bind fun name c₂ _ => ?_
  refine (keeps_typeAfter ⟨rfl, rfl⟩ c₂ openers).bind fun type c₃ _ => ?_
  refine (Nests.expect (.symbol .assign) ⟨rfl, rfl⟩).bind fun equals c₄ _ => ?_
  exact (keeps_expression c₄ openers).bind fun value c₅ _ => Nests.pure _

theorem nests_functionDefinition (hinner : Keeps inner) (hc : c.kind = .keyword .fnWord) :
    Nests openers (functionDefinition inner) c openers := by
  refine nests_keyword hc fun t c₁ openers => ?_
  refine Nests.expectIdent.bind fun name c₂ _ => ?_
  refine (keeps_params c₂ openers).within.bind fun ps c₃ _ => ?_
  refine (keeps_typeAfter ⟨rfl, rfl⟩ c₃ openers).bind fun type c₄ _ => ?_
  exact (hinner.block c₄ openers).bind fun body c₅ _ => Nests.pure _

theorem nests_ifStatement (hinner : Keeps inner) (hc : c.kind = .keyword .ifWord) :
    Nests openers (ifStatement inner) c openers := by
  refine nests_keyword hc fun t c₁ openers => ?_
  refine (keeps_expression c₁ openers).bind fun condition c₂ _ => ?_
  refine (hinner.block c₂ openers).bind fun thenBranch c₃ _ => ?_
  refine (Nests.eat (.keyword .elseWord) ⟨rfl, rfl⟩).bind fun b c₄ _ => ?_
  split
  · refine Nests.get ?_
    split
    · exact (hinner c₄ openers).bind fun nested c₅ _ => Nests.pure _
    · exact (hinner.block c₄ openers).bind fun elseBranch c₅ _ => Nests.pure _
  · exact Nests.pure _

theorem nests_forLoop (hinner : Keeps inner) (hc : c.kind = .keyword .forWord) :
    Nests openers (forLoop inner) c openers := by
  refine nests_keyword hc fun t c₁ openers => ?_
  refine Nests.expectIdent.bind fun first c₂ _ => ?_
  have rest : ∀ second : Option String, Keeps (do
      let _ ← expect (.keyword .inWord)
      let iterable ← expression
      let body ← block inner
      return Stmt.forEach first.1 second iterable body (t.span.merge body.span)) := by
    intro second c openers
    refine (Nests.expect (.keyword .inWord) ⟨rfl, rfl⟩).bind fun word c₃ _ => ?_
    refine (keeps_expression c₃ openers).bind fun iterable c₄ _ => ?_
    exact (hinner.block c₄ openers).bind fun body c₅ _ => Nests.pure _
  refine (Nests.eat (.symbol .comma) ⟨rfl, rfl⟩).bind fun b c₃ _ => ?_
  split
  · exact Nests.expectIdent.bind fun second c₄ _ => rest _ c₄ openers
  · exact rest _ c₃ openers

theorem nests_returnStatement (hc : c.kind = .keyword .returnWord) :
    Nests openers returnStatement c openers := by
  refine nests_keyword hc fun t c₁ openers => Nests.get ?_
  split
  · exact Nests.pure _
  · exact (keeps_expression c₁ openers).bind fun value c₂ _ => Nests.pure _

theorem nests_delStatement (hc : c.kind = .keyword .delWord) :
    Nests openers delStatement c openers :=
  nests_keyword hc fun _ _ _ => Nests.expectIdent.bind fun _ _ _ => Nests.pure _

theorem keeps_expressionOrAssignment : Keeps expressionOrAssignment := by
  intro c openers
  refine (keeps_expression c openers).bind fun target c₁ _ => Nests.get ?_
  split
  · next hcheck =>
    have hc := (IsMark.symbol .assign).check_iff.1 hcheck
    refine Nests.within ?_
    split
    · refine (Nests.advance (by rw [hc]; exact ⟨rfl, rfl⟩)).bind fun equals c₂ _ => ?_
      exact (keeps_expression c₂ openers).bind fun value c₃ _ => Nests.pure _
    · exact Nests.fail (by simp) rfl
  · exact Nests.pure _

theorem Keeps.statementForm (hinner : Keeps inner) : Keeps (statementForm inner) := by
  intro c openers
  refine Nests.get ?_
  cases hc : c.kind with
  | keyword w =>
    cases w with
    | letWord => exact Nests.within (nests_letBinding hc)
    | fnWord => exact Nests.within (nests_functionDefinition hinner hc)
    | ifWord => exact Nests.within (nests_ifStatement hinner hc)
    | forWord => exact Nests.within (nests_forLoop hinner hc)
    | returnWord => exact Nests.within (nests_returnStatement hc)
    | delWord => exact Nests.within (nests_delStatement hc)
    | _ => exact keeps_expressionOrAssignment c openers
  | _ => exact keeps_expressionOrAssignment c openers

/-- **Statements leave the open delimiters as they are.** -/
theorem keeps_statementWithin (depth : List Token) : Keeps (statementWithin depth) := by
  induction depth with
  | nil => exact fun c openers => Nests.fail (by simp) rfl
  | cons t depth ih => exact ih.statementForm

end Statements

/-! ## Programs -/

theorem keeps_program : Keeps program := by
  intro c openers
  refine Nests.get ?_
  refine ((keeps_statementWithin _).stmtsUntil _ _ c openers).bind fun ss c₁ _ => Nests.get ?_
  exact Nests.pure _

end Nikl.Parser
