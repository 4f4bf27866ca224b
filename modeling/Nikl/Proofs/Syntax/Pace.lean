import Nikl.Proofs.Syntax.EndOfText
import Nikl.Proofs.Syntax.Rounds
import Nikl.Proofs.Syntax.Taking

/-
Where a parser stops, and what it has looked at by then. A fault lies at the token under the cursor, and
a reader decides nothing by the tokens behind that one. So an error depends on no token behind the one
that it lies at (`parse_error_prefix`).

`KeepsPace n taken p p'` says it of two readers, one before the tokens `seen` and more, the other before
`seen` and something else. Either both stop inside `seen`, with the same result or the same error, and
take `taken` tokens at least if they succeed; or the first goes `Beyond` what they share, and then nothing
is said of the second. The two are one reader of the grammar with different allowances for its rounds and
its depth, which are taken from the length of the text; the allowances do for `n` shared tokens.

With nothing shared only the first reader is spoken of: it takes tokens off the front, none of them the
end of the text, and fails at the token behind them.
-/

set_option autoImplicit false

namespace Nikl

/-- The token that a fault says was found, if it says so. A delimiter is found unclosed at the end of the
text. -/
def ParseFault.found? : ParseFault → Option TokenKind
  | expectedToken _ found | expectedExpression found | expectedIdentifier found | expectedType found
  | expectedSeparator _ found => some found
  | unclosed .. => some .eof
  | invalidAssignmentTarget | duplicateParameter _ => none

/-- An error at a token: that is where it lies, and what it says was found. -/
structure ParseError.At (e : ParseError) (t : Token) : Prop where
  span : e.span = t.span
  found : e.fault.found? = some t.kind

/-! ## The same token under both cursors -/

namespace Cursor

variable {c c' : Cursor}

theorem kind_congr (h : c.current = c'.current) : c.kind = c'.kind := congrArg Token.kind h

theorem span_congr (h : c.current = c'.current) : c.span = c'.span := congrArg Token.span h

theorem atLineStart_congr (h : c.current = c'.current) : c.atLineStart = c'.atLineStart :=
  congrArg Token.newlineBefore h

theorem check_congr (h : c.current = c'.current) (kind : TokenKind) : c.check kind = c'.check kind := by
  rw [check, check, kind_congr h]

theorem atEnd_congr (h : c.current = c'.current) : c.atEnd = c'.atEnd := by
  rw [atEnd, atEnd, kind_congr h]

end Cursor

namespace Parser

/-! ## Two runs -/

/-- A run that went beyond the tokens `seen`, into the tokens `back` behind them: it has passed some of
these, and failed at the token behind them if it failed. Two faults lie at a part that was read as a whole
and not at a token. -/
inductive Beyond {α : Type} (seen back : List Token) : Except ParseError (α × Cursor) → Prop where
  | ok {a : α} {c : Cursor} (passed : List Token) (hback : back = passed ++ c.rest)
    (hfree : EndFree (seen ++ passed)) : Beyond seen back (.ok (a, c))
  | error {e : ParseError} (passed rest : List Token) (hback : back = passed ++ rest)
    (hfree : EndFree (seen ++ passed)) (hat : e.At (firstOf rest)) : Beyond seen back (.error e)
  | whole {e : ParseError} (h : e.fault.found? = none) (passed rest : List Token)
    (hback : back = passed ++ rest) (hfree : EndFree (seen ++ passed)) : Beyond seen back (.error e)

/-- Runs before `seen` and `back` and before `seen` and `back'`: both stop inside `seen`, or the first does
not. -/
inductive Paced {α : Type} (taken : Nat) (seen back back' : List Token) :
    Except ParseError (α × Cursor) → Except ParseError (α × Cursor) → Prop where
  | ok {a : α} (gone left : List Token) {previous : Span} (hseen : seen = gone ++ left)
    (hfree : EndFree gone) (hleft : left ≠ []) (htaken : taken ≤ gone.length) :
    Paced taken seen back back' (.ok (a, ⟨left ++ back, previous⟩)) (.ok (a, ⟨left ++ back', previous⟩))
  | error {e : ParseError} (hseen : seen ≠ []) : Paced taken seen back back' (.error e) (.error e)
  | beyond {r r' : Except ParseError (α × Cursor)} (h : Beyond seen back r) :
    Paced taken seen back back' r r'

/-- Two readers keep pace where `n` tokens at most are shared and `t` is under both cursors. -/
def KeepsPaceAt {α : Type} (t : Token) (n taken : Nat) (p p' : Parser α) : Prop :=
  ∀ (seen back back' : List Token) (previous : Span), seen.length ≤ n → firstOf (seen ++ back) = t →
    firstOf (seen ++ back') = t →
      Paced taken seen back back' (p ⟨seen ++ back, previous⟩) (p' ⟨seen ++ back', previous⟩)

/-- Two readers keep pace where `n` tokens at most are shared. -/
def KeepsPace {α : Type} (n taken : Nat) (p p' : Parser α) : Prop :=
  ∀ t, KeepsPaceAt t n taken p p'

section Rules

variable {α β : Type} {p p' : Parser α} {f f' : α → Parser β} {t : Token} {m n s u : Nat}
  {kind : TokenKind}

/-! ### Going beyond -/

/-- With nothing shared, the first reader goes beyond it. -/
theorem Paced.going {back back' : List Token} {r r' : Except ParseError (α × Cursor)}
    (h : Paced s [] back back' r r') : Beyond [] back r := by
  cases h with
  | ok _ _ hseen _ hleft => exact absurd (List.append_eq_nil_iff.1 hseen.symm).2 hleft
  | error hseen => exact absurd rfl hseen
  | beyond h => exact h

theorem KeepsPaceAt.going (h : KeepsPaceAt t n s p p') {back : List Token} (hback : firstOf back = t)
    (previous : Span) : Beyond [] back (p ⟨back, previous⟩) :=
  (h [] back back previous (Nat.zero_le n) hback hback).going

/-- A run that is beyond the tokens behind some others is beyond all of them. -/
theorem Beyond.behind {seen passed rest : List Token} {r : Except ParseError (α × Cursor)}
    (hfree : EndFree (seen ++ passed)) (h : Beyond [] rest r) : Beyond seen (passed ++ rest) r := by
  cases h with
  | @ok a c passed' hback hfree' =>
    exact .ok (passed ++ passed') (by rw [hback, List.append_assoc])
      (by rw [← List.append_assoc, endFree_append]; exact ⟨hfree, hfree'⟩)
  | @error e passed' rest' hback hfree' hat =>
    exact .error (passed ++ passed') rest' (by rw [hback, List.append_assoc])
      (by rw [← List.append_assoc, endFree_append]; exact ⟨hfree, hfree'⟩) hat
  | whole h passed' rest' hback hfree' =>
    exact .whole h (passed ++ passed') rest' (by rw [hback, List.append_assoc])
      (by rw [← List.append_assoc, endFree_append]; exact ⟨hfree, hfree'⟩)

/-- A run that is beyond what is left of some tokens is beyond them. -/
theorem Beyond.further {gone left back : List Token} {r : Except ParseError (α × Cursor)}
    (hfree : EndFree gone) (h : Beyond left back r) : Beyond (gone ++ left) back r := by
  cases h with
  | ok passed hback hfree' =>
    exact .ok passed hback (by rw [List.append_assoc, endFree_append]; exact ⟨hfree, hfree'⟩)
  | error passed rest hback hfree' hat =>
    exact .error passed rest hback (by rw [List.append_assoc, endFree_append]; exact ⟨hfree, hfree'⟩) hat
  | whole h passed rest hback hfree' =>
    exact .whole h passed rest hback (by rw [List.append_assoc, endFree_append]; exact ⟨hfree, hfree'⟩)

/-! ### Putting readers together -/

theorem KeepsPaceAt.mono (h : KeepsPaceAt t n s p p') (hn : m ≤ n) : KeepsPaceAt t m s p p' :=
  fun seen back back' previous hlen => h seen back back' previous (Nat.le_trans hlen hn)

theorem KeepsPace.mono (h : KeepsPace n s p p') (hn : m ≤ n) : KeepsPace m s p p' :=
  fun t => (h t).mono hn

/-- Whoever takes a token takes none at least. -/
theorem KeepsPaceAt.free (h : KeepsPaceAt t n s p p') : KeepsPaceAt t n 0 p p' := by
  intro seen back back' previous hlen ht ht'
  have hpaced := h seen back back' previous hlen ht ht'
  generalize p _ = r at hpaced ⊢
  generalize p' _ = r' at hpaced ⊢
  cases hpaced with
  | ok gone left hseen hfree hleft _ => exact .ok gone left hseen hfree hleft (Nat.zero_le _)
  | error hseen => exact .error hseen
  | beyond h => exact .beyond h

theorem KeepsPace.free (h : KeepsPace n s p p') : KeepsPace n 0 p p' := fun t => (h t).free

/-- With nothing shared, the second reader may be any. -/
theorem KeepsPace.zero (h : KeepsPace n s p p') (q : Parser α) : KeepsPace 0 u p q := by
  intro t seen back back' previous hlen ht _
  obtain rfl := List.length_eq_zero_iff.1 (Nat.le_zero.1 hlen)
  exact .beyond ((h t).going ht previous)

theorem KeepsPaceAt.congr {q q' : Parser α} (h : KeepsPaceAt t n s q q')
    (hp : ∀ c : Cursor, c.current = t → p c = q c) (hp' : ∀ c : Cursor, c.current = t → p' c = q' c) :
    KeepsPaceAt t n s p p' := by
  intro seen back back' previous hlen ht ht'
  rw [hp ⟨seen ++ back, previous⟩ ht, hp' ⟨seen ++ back', previous⟩ ht']
  exact h seen back back' previous hlen ht ht'

theorem KeepsPace.pure (a : α) : KeepsPace n 0 (pure a) (pure a) := by
  intro t seen back back' previous _ _ _
  cases seen with
  | nil => exact .beyond (.ok [] rfl endFree_nil)
  | cons u seen => exact .ok [] _ rfl endFree_nil (List.cons_ne_nil _ _) (Nat.le_refl 0)

/-- One reader after the other. What the first takes, the second does not share any more. -/
theorem KeepsPaceAt.bindTaking (hp : KeepsPaceAt t n s p p') (hn : n ≤ m + s)
    (hf : ∀ a, KeepsPace m u (f a) (f' a)) : KeepsPaceAt t n (s + u) (p >>= f) (p' >>= f') := by
  intro seen back back' previous hlen ht ht'
  have hpaced := hp seen back back' previous hlen ht ht'
  show Paced (s + u) seen back back' (p _ >>= fun r => f r.1 r.2) (p' _ >>= fun r => f' r.1 r.2)
  generalize p _ = r at hpaced ⊢
  generalize p' _ = r' at hpaced ⊢
  cases hpaced with
  | error hseen => exact .error hseen
  | beyond h =>
    refine .beyond ?_
    cases h with
    | error passed rest hback hfree hat => exact .error passed rest hback hfree hat
    | whole h passed rest hback hfree => exact .whole h passed rest hback hfree
    | @ok a c passed hback hfree =>
      -- it is the first reader alone that is followed from here on
      rw [hback]
      exact ((hf a _).going rfl c.previous).behind hfree
  | @ok a gone left previous' hseen hfree hleft htaken =>
    -- what is left is shared by the readers behind, the first of it under both cursors
    have hlength := congrArg List.length hseen
    rw [List.length_append] at hlength
    obtain ⟨u', left, rfl⟩ := List.exists_cons_of_ne_nil hleft
    have hnext := hf a u' (u' :: left) back back' previous' (by omega) rfl rfl
    show Paced (s + u) seen back back' (f a _) (f' a _)
    generalize f a _ = r at hnext ⊢
    generalize f' a _ = r' at hnext ⊢
    cases hnext with
    | ok gone' left' hseen' hfree' hleft' htaken' =>
      have hall : seen = gone ++ gone' ++ left' := by rw [hseen, hseen', List.append_assoc]
      refine .ok (gone ++ gone') left' hall (endFree_append.2 ⟨hfree, hfree'⟩) hleft' ?_
      rw [List.length_append]
      omega
    | error => exact .error (by rw [hseen]; simp)
    | beyond h => exact .beyond (hseen ▸ h.further hfree)

theorem KeepsPaceAt.bind (hp : KeepsPaceAt t n s p p') (hn : n ≤ m + s)
    (hf : ∀ a, KeepsPace m 0 (f a) (f' a)) : KeepsPaceAt t n s (p >>= f) (p' >>= f') :=
  hp.bindTaking hn hf

theorem KeepsPace.bind (hp : KeepsPace n s p p') (hf : ∀ a, KeepsPace n 0 (f a) (f' a)) :
    KeepsPace n s (p >>= f) (p' >>= f') :=
  fun t => (hp t).bind (Nat.le_add_right n s) hf

/-- The second of two readers may be the one that takes tokens. -/
theorem KeepsPace.bindTaking (hp : KeepsPace n 0 p p') (hf : ∀ a, KeepsPace n s (f a) (f' a)) :
    KeepsPace n s (p >>= f) (p' >>= f') := by
  intro t
  have h := (hp t).bindTaking (Nat.le_add_right n 0) hf
  rwa [Nat.zero_add] at h

/-- Behind a reader that takes a token there is one less to share. -/
theorem KeepsPace.step (hp : KeepsPace n 1 p p') (hn : n ≤ m + 1)
    (hf : ∀ a, KeepsPace m 0 (f a) (f' a)) : KeepsPace n 1 (p >>= f) (p' >>= f') :=
  fun t => (hp t).bind hn hf

theorem KeepsPaceAt.within {context : Context} (h : KeepsPaceAt t n s p p') :
    KeepsPaceAt t n s (within context p) (within context p') := by
  intro seen back back' previous hlen ht ht'
  have hpaced := h seen back back' previous hlen ht ht'
  rw [Parser.within, Parser.within]
  generalize p _ = r at hpaced ⊢
  generalize p' _ = r' at hpaced ⊢
  cases hpaced with
  | ok gone left hseen hfree hleft htaken => exact .ok gone left hseen hfree hleft htaken
  | error hseen => exact .error hseen
  | beyond h =>
    refine .beyond ?_
    cases h with
    | ok passed hback hfree => exact .ok passed hback hfree
    | error passed rest hback hfree hat => exact .error passed rest hback hfree ⟨hat.span, hat.found⟩
    | whole h passed rest hback hfree => exact .whole h passed rest hback hfree

theorem KeepsPace.within {context : Context} (h : KeepsPace n s p p') :
    KeepsPace n s (within context p) (within context p') :=
  fun t => (h t).within

/-! ### Looking at the cursor -/

/-- A look at the cursor. How many tokens there are is seen only where it is enough for what is shared. -/
theorem KeepsPace.getRest {f f' : Cursor → Parser β}
    (h : ∀ (c c' : Cursor) (k : Nat), c.current = c'.current → k ≤ n → k ≤ c.rest.length →
      k ≤ c'.rest.length → KeepsPaceAt c.current k s (f c) (f' c')) :
    KeepsPace n s (get >>= f) (get >>= f') := by
  intro t seen back back' previous hlen ht ht'
  have hshared : ∀ more : List Token, seen.length ≤ (seen ++ more).length := by
    intro more
    rw [List.length_append]
    omega
  exact h ⟨seen ++ back, previous⟩ ⟨seen ++ back', previous⟩ seen.length (ht.trans ht'.symm) hlen
    (hshared back) (hshared back') seen back back' previous (Nat.le_refl _) rfl (ht'.trans ht.symm)

/-- A look at the token under the cursor. -/
theorem KeepsPace.look {f f' : Cursor → Parser β}
    (h : ∀ c c' : Cursor, c.current = c'.current → KeepsPaceAt c.current n s (f c) (f' c')) :
    KeepsPace n s (get >>= f) (get >>= f') :=
  .getRest fun c c' _ hc hk _ _ => (h c c' hc).mono hk

/-! ### Single tokens -/

/-- A token is taken that is not the end of the text. -/
theorem KeepsPaceAt.take {a : α} (ht : t.kind ≠ .eof)
    (hp : ∀ c : Cursor, c.current = t → p c = .ok (a, c.next)) : KeepsPaceAt t n 1 p p := by
  intro seen back back' previous _ hcurrent hcurrent'
  rw [hp ⟨seen ++ back, previous⟩ hcurrent, hp ⟨seen ++ back', previous⟩ hcurrent']
  cases seen with
  | nil =>
    rw [List.nil_append] at hcurrent
    cases back with
    | nil => exact absurd (congrArg Token.kind hcurrent).symm ht
    | cons u back =>
      obtain rfl : u = t := hcurrent
      rw [List.nil_append, next_cons ht]
      exact .beyond (.ok [u] rfl (by simpa using ht))
  | cons u seen =>
    obtain rfl : u = t := hcurrent
    rw [List.cons_append, List.cons_append, next_cons ht, next_cons ht]
    cases seen with
    | nil => exact .beyond (.ok [] rfl (by simpa using ht))
    | cons v seen => exact .ok [u] _ rfl (by simpa using ht) (List.cons_ne_nil _ _) (Nat.le_refl 1)

/-- A fault at the token under the cursor. -/
theorem KeepsPaceAt.fail {e : ParseError} (hat : e.At t)
    (hp : ∀ c : Cursor, c.current = t → p c = .error e) : KeepsPaceAt t n s p p := by
  intro seen back back' previous _ hcurrent hcurrent'
  rw [hp ⟨seen ++ back, previous⟩ hcurrent, hp ⟨seen ++ back', previous⟩ hcurrent']
  cases seen with
  | nil => exact .beyond (.error [] _ rfl endFree_nil (by rw [← hcurrent] at hat; exact hat))
  | cons u seen => exact .error (List.cons_ne_nil _ _)

theorem KeepsPace.failHere {fault : TokenKind → ParseFault} (h : ∀ k, (fault k).found? = some k) :
    KeepsPace n s (failHere fault : Parser α) (failHere fault) := by
  intro t
  refine .fail (e := ⟨fault t.kind, t.span, none⟩) ⟨rfl, h t.kind⟩ fun c hc => ?_
  rw [Parser.failHere, Cursor.kind, Cursor.span, hc]

/-- A fault of a part that was read as a whole. -/
theorem KeepsPace.throw {e : ParseError} (h : e.fault.found? = none) :
    KeepsPace n s (throw e : Parser α) (throw e) := by
  intro t seen back back' previous _ _ _
  cases seen with
  | nil => exact .beyond (.whole h [] back rfl endFree_nil)
  | cons u seen => exact .error (List.cons_ne_nil _ _)

theorem KeepsPaceAt.advance (ht : t.kind ≠ .eof) : KeepsPaceAt t n 1 advance advance :=
  .take ht fun c hc => by rw [Parser.advance, hc]

/-- A reader of one token: by the token under the cursor it is told whether it is taken, and what is wrong
if it is not. -/
theorem KeepsPace.one
    (h : ∀ t, (t.kind ≠ .eof ∧ ∃ a, ∀ c : Cursor, c.current = t → p c = .ok (a, c.next)) ∨
      ∃ e : ParseError, e.At t ∧ ∀ c : Cursor, c.current = t → p c = .error e) :
    KeepsPace n 1 p p := by
  intro t
  rcases h t with ⟨ht, a, hp⟩ | ⟨e, hat, hp⟩
  · exact .take ht hp
  · exact .fail hat hp

theorem KeepsPace.expect (hkind : IsMark kind) : KeepsPace n 1 (expect kind) (expect kind) := by
  refine .one fun t => ?_
  by_cases ht : t.kind = kind
  · refine .inl ⟨by rw [ht]; exact hkind.ne_eof, t, fun c hc => ?_⟩
    rw [Parser.expect, if_pos (hkind.check_iff.2 (by rw [Cursor.kind, hc, ht])), Parser.advance, hc]
  · refine .inr ⟨⟨.expectedToken kind t.kind, t.span, none⟩, ⟨rfl, rfl⟩, fun c hc => ?_⟩
    rw [Parser.expect, if_neg, Parser.failHere, Cursor.kind, Cursor.span, hc]
    rw [hkind.check_iff, Cursor.kind, hc]
    exact ht

theorem KeepsPace.expectIdent : KeepsPace n 1 expectIdent expectIdent := by
  refine .one fun t => ?_
  by_cases ht : ∃ name, t.kind = .ident name
  · obtain ⟨name, ht⟩ := ht
    refine .inl ⟨by rw [ht]; simp, (name, t.span), fun c hc => ?_⟩
    have hk : c.kind = .ident name := by rw [Cursor.kind, hc, ht]
    rw [Parser.expectIdent, hk, Cursor.span, hc]
  · refine .inr ⟨⟨.expectedIdentifier t.kind, t.span, none⟩, ⟨rfl, rfl⟩, fun c hc => ?_⟩
    rw [Parser.expectIdent]
    split
    · next name hname => exact absurd ⟨name, by rw [← hc]; exact hname⟩ ht
    · rw [Parser.failHere, Cursor.kind, Cursor.span, hc]

theorem KeepsPace.expectClosing (hkind : IsMark kind) (opener : Span) :
    KeepsPace n 1 (expectClosing kind opener) (expectClosing kind opener) := by
  refine .one fun t => ?_
  by_cases ht : t.kind = kind
  · refine .inl ⟨by rw [ht]; exact hkind.ne_eof, t.span, fun c hc => ?_⟩
    rw [Parser.expectClosing, if_pos (hkind.check_iff.2 (by rw [Cursor.kind, hc, ht])), Cursor.span, hc]
  have hother : ∀ c : Cursor, c.current = t → ¬ c.check kind = true := fun c hc => by
    rw [hkind.check_iff, Cursor.kind, hc]
    exact ht
  by_cases hend : t.kind = .eof
  · refine .inr ⟨⟨.unclosed kind opener, t.span, none⟩, ⟨rfl, by rw [hend]; rfl⟩, fun c hc => ?_⟩
    have hat : c.atEnd = true := decide_eq_true (by rw [Cursor.kind, hc, hend])
    rw [Parser.expectClosing, if_neg (hother c hc), if_pos hat, Cursor.span, hc]
  · refine .inr ⟨⟨.expectedToken kind t.kind, t.span, none⟩, ⟨rfl, rfl⟩, fun c hc => ?_⟩
    have hat : ¬ c.atEnd = true := fun hat => hend (by rw [← hc]; exact of_decide_eq_true hat)
    rw [Parser.expectClosing, if_neg (hother c hc), if_neg hat, Parser.failHere, Cursor.kind, Cursor.span,
      hc]

/-- A token that may be there. Behind it there is one less to share. -/
theorem KeepsPace.eat {f f' : Bool → Parser β} (hkind : IsMark kind) (hn : n ≤ m + 1)
    (htrue : KeepsPace m 0 (f true) (f' true)) (hfalse : KeepsPace n 0 (f false) (f' false)) :
    KeepsPace n 0 (eat kind >>= f) (eat kind >>= f') := by
  intro t
  by_cases ht : t.kind = kind
  · have hend : t.kind ≠ .eof := by
      rw [ht]
      exact hkind.ne_eof
    have htaken : ∀ (g : Bool → Parser β) (c : Cursor), c.current = t →
        (Parser.eat kind >>= g) c = (Parser.advance >>= fun _ => g true) c := by
      intro g c hc
      have heat : Parser.eat kind c = .ok (true, c.next) := by
        rw [Parser.eat, if_pos (hkind.check_iff.2 (by rw [Cursor.kind, hc, ht]))]
      rw [run_bind heat]
      rfl
    have hstep := (KeepsPaceAt.advance hend).bind hn fun _ => htrue
    exact hstep.free.congr (htaken f) (htaken f')
  · have hleft : ∀ (g : Bool → Parser β) (c : Cursor), c.current = t →
        (Parser.eat kind >>= g) c = g false c := by
      intro g c hc
      have heat : Parser.eat kind c = .ok (false, c) := by
        rw [Parser.eat, if_neg]
        rw [hkind.check_iff, Cursor.kind, hc]
        exact ht
      rw [run_bind heat]
    exact (hfalse t).congr (hleft f) (hleft f')

/-! ### Rounds -/

/-- Single rounds that keep pace, if the rounds behind them do so on one token less. -/
def RoundsKeepPace {γ : Type} (n taken : Nat) (round round' : Round γ α) : Prop :=
  ∀ m ≤ n, ∀ again again' : γ → Parser α,
    (∀ b, KeepsPace (m - 1) taken (again b) (again' b)) →
      ∀ b, KeepsPace m taken (round again b) (round' again' b)

/-- A reader in rounds, each of which takes a token. There are enough rounds for what is shared. -/
theorem KeepsPace.rounds {γ : Type} {P Q : List Token → γ → Parser α} {round round' : Round γ α}
    (hround : RoundsKeepPace n s round round') (hP : ∀ r rs, P (r :: rs) = round (P rs))
    (hQ : ∀ r rs, Q (r :: rs) = round' (Q rs)) (hnil : ∀ b, KeepsPace 0 s (P [] b) (Q [] b))
    {rounds rounds' : List Token} (hm : m ≤ n) (h : m ≤ rounds.length) (h' : m ≤ rounds'.length)
    (b : γ) : KeepsPace m s (P rounds b) (Q rounds' b) := by
  induction rounds generalizing rounds' m b with
  | nil =>
    obtain rfl := Nat.le_zero.1 h
    exact (hnil b).zero _
  | cons r rounds ih =>
    rw [List.length_cons] at h
    cases rounds' with
    | nil =>
      -- nothing is shared, and the rounds of the first reader are those of another one
      obtain rfl := Nat.le_zero.1 h'
      have hsome := hround 0 hm _ _ (ih hm (Nat.zero_le _) h') b
      rw [← hP r] at hsome
      exact hsome.zero _
    | cons r' rounds' =>
      rw [List.length_cons] at h'
      rw [hP, hQ]
      exact hround m hm _ _ (ih (by omega) (by omega) (by omega)) b

end Rules

end Parser
end Nikl
