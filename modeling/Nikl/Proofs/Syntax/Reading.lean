import Nikl.Syntax.Cursor
import Nikl.Proofs.Syntax.Written

/-
What readers do on tokens of known kinds. `Reads p ks F P` says that `p` takes tokens of the kinds `ks`,
on one line, off the front of any text that goes on with a token in `F`, leaves the text behind them,
and gives something with the property `P`.

Readers are put together by `bind`, and so are their laws: each rule below peels off the first step of
a reader. A reader that looks at what follows, as loops do to see whether they go on, asks for a
condition on the next token, and the rules carry that condition from the text behind to the step.
-/

set_option autoImplicit false

namespace Nikl.Parser

/-- The kind of the first of some tokens; none are like the end of the text. -/
def headKind (rest : List Token) : TokenKind := (rest.headD (Token.endAt 0 false)).kind

theorem headKind_append (ts rest : List Token) :
    headKind (ts ++ rest) = (ts.map (·.kind)).headD (headKind rest) := by
  cases ts <;> rfl

/-- `p` reads tokens of the kinds `ks` and gives something with the property `P`, before any text that
goes on with a token in `F`. -/
def Reads {α : Type} (p : Parser α) (ks : List TokenKind) (F : TokenKind → Prop) (P : α → Prop) :
    Prop :=
  ∀ (ts rest : List Token) (previous : Span),
    ts.map (·.kind) = ks → (∀ t ∈ ts, t.newlineBefore = false) → F (headKind rest) →
      ∃ a previous', p ⟨ts ++ rest, previous⟩ = .ok (a, ⟨rest, previous'⟩) ∧ P a

section Rules

variable {α β : Type} {p : Parser α} {f : α → Parser β} {k : TokenKind} {ks ks' : List TokenKind}
  {F G : TokenKind → Prop} {P Q : α → Prop} {R : β → Prop}

/-! ## Putting readers together -/

theorem Reads.pure {a : α} (h : P a) : Reads (pure a) [] F P := by
  intro ts rest previous hks _ _
  obtain rfl : ts = [] := List.map_eq_nil_iff.1 hks
  exact ⟨a, previous, rfl, h⟩

theorem Reads.weaken (h : Reads p ks F P) (hF : ∀ k, G k → F k) (hP : ∀ a, P a → Q a) :
    Reads p ks G Q := by
  intro ts rest previous hks hline hG
  obtain ⟨a, previous', hp, ha⟩ := h ts rest previous hks hline (hF _ hG)
  exact ⟨a, previous', hp, hP a ha⟩

/-- Two readers in turn. What the first one looks at behind its own tokens are those of the second, or
what follows both. -/
theorem Reads.bind (hp : Reads p ks F P) (hF : ∀ k, G k → F (ks'.headD k))
    (hf : ∀ a, P a → Reads (f a) ks' G R) : Reads (p >>= f) (ks ++ ks') G R := by
  intro ts rest previous hks hline hG
  obtain ⟨ts₁, ts₂, rfl, h₁, h₂⟩ := List.map_eq_append_iff.1 hks
  have hnext : F (headKind (ts₂ ++ rest)) := by
    rw [headKind_append, h₂]
    exact hF _ hG
  obtain ⟨a, previous₁, hrun, ha⟩ := hp ts₁ (ts₂ ++ rest) previous h₁
    (fun t ht => hline t (List.mem_append_left _ ht)) hnext
  obtain ⟨b, previous₂, hrun', hb⟩ := hf a ha ts₂ rest previous₁ h₂
    (fun t ht => hline t (List.mem_append_right _ ht)) hG
  refine ⟨b, previous₂, ?_, hb⟩
  show p ⟨ts₁ ++ ts₂ ++ rest, previous⟩ >>= (fun r => f r.1 r.2) = _
  rw [List.append_assoc, hrun]
  exact hrun'

/-- The last reader that takes tokens. What it looks at behind its own is what follows all of them. -/
theorem Reads.bind_last (hp : Reads p ks F P) (hF : ∀ k, G k → F k)
    (hf : ∀ a, P a → Reads (f a) [] G R) : Reads (p >>= f) ks G R := by
  rw [← List.append_nil ks]
  exact hp.bind hF hf

theorem Reads.within {context : Context} (h : Reads p ks F P) : Reads (within context p) ks F P := by
  intro ts rest previous hks hline hF
  obtain ⟨a, previous', hp, ha⟩ := h ts rest previous hks hline hF
  refine ⟨a, previous', ?_, ha⟩
  rw [Parser.within, hp]
  rfl

/-! ## Looking -/

/-- A look at the cursor before tokens of which the first is known. -/
theorem Reads.get_cons {f : Cursor → Parser β} (hks : ks = k :: ks')
    (h : ∀ c : Cursor, c.kind = k → c.atLineStart = false → ks.length ≤ c.rest.length →
      Reads (f c) ks G R) : Reads (get >>= f) ks G R := by
  intro ts rest previous hkinds hline hG
  subst hks
  obtain ⟨t, ts', rfl, hk, -⟩ := List.map_eq_cons_iff.1 hkinds
  have hlen : (k :: ks').length ≤ (t :: ts' ++ rest).length := by
    rw [← hkinds, List.length_map, List.length_append]
    omega
  exact h ⟨t :: ts' ++ rest, previous⟩ hk (hline t List.mem_cons_self) hlen (t :: ts') rest previous
    hkinds hline hG

/-- A look at the cursor that only asks how many tokens there are. -/
theorem Reads.get_rest {f : Cursor → Parser β}
    (h : ∀ c : Cursor, ks.length ≤ c.rest.length → Reads (f c) ks G R) :
    Reads (get >>= f) ks G R := by
  intro ts rest previous hks hline hG
  have hlen : ks.length ≤ (ts ++ rest).length := by
    rw [← hks, List.length_map, List.length_append]
    omega
  exact h ⟨ts ++ rest, previous⟩ hlen ts rest previous hks hline hG

/-- A look at the cursor behind the last token that is read. -/
theorem Reads.get_nil {f : Cursor → Parser β} (h : ∀ c : Cursor, G c.kind → Reads (f c) [] G R) :
    Reads (get >>= f) [] G R := by
  intro ts rest previous hks hline hG
  obtain rfl : ts = [] := List.map_eq_nil_iff.1 hks
  exact h ⟨rest, previous⟩ hG [] rest previous rfl hline hG

/-! ## Single tokens -/

/-- A step that takes the token under the cursor. -/
theorem Reads.step (hk : k ≠ .eof) (hp : ∀ c : Cursor, c.kind = k → ∃ a, p c = .ok (a, c.next) ∧ P a)
    (hf : ∀ a, P a → Reads (f a) ks G R) : Reads (p >>= f) (k :: ks) G R := by
  have one : Reads p [k] (fun _ => True) P := by
    intro ts rest previous hks _ _
    obtain ⟨t, rfl, rfl⟩ : ∃ t, ts = [t] ∧ t.kind = k := by simpa using hks
    obtain ⟨a, hrun, ha⟩ := hp ⟨[t] ++ rest, previous⟩ rfl
    refine ⟨a, t.span, ?_, ha⟩
    rw [hrun, Cursor.next, if_neg (by simpa [Cursor.atEnd, Cursor.kind, Cursor.current] using hk)]
    rfl
  exact one.bind (fun _ _ => trivial) hf

theorem Reads.advance {f : Token → Parser β} (hk : k ≠ .eof)
    (hf : ∀ t, t.kind = k → Reads (f t) ks G R) : Reads (advance >>= f) (k :: ks) G R :=
  Reads.step hk (fun c hc => ⟨c.current, rfl, hc⟩) hf

theorem Reads.eat {f : Bool → Parser β} {kind : TokenKind} (hk : k ≠ .eof)
    (hsame : k.sameKind kind = true) (hf : Reads (f true) ks G R) :
    Reads (eat kind >>= f) (k :: ks) G R := by
  refine Reads.step (P := (· = true)) hk (fun c hc => ⟨true, ?_, rfl⟩) ?_
  · rw [Parser.eat, Cursor.check, hc, if_pos hsame]
  · rintro a rfl
    exact hf

/-- A token that is not there is not taken. -/
theorem Reads.eat_other {f : Bool → Parser β} {kind : TokenKind}
    (hother : ∀ k, G k → (ks.headD k).sameKind kind = false) (hf : Reads (f false) ks G R) :
    Reads (Parser.eat kind >>= f) ks G R := by
  intro ts rest previous hks hline hG
  have hkind : ((⟨ts ++ rest, previous⟩ : Cursor).check kind) = false := by
    have hhead : (⟨ts ++ rest, previous⟩ : Cursor).kind = ks.headD (headKind rest) := by
      rw [← hks]
      exact headKind_append ts rest
    rw [Cursor.check, hhead]
    exact hother _ hG
  obtain ⟨b, previous', hrun, hb⟩ := hf ts rest previous hks hline hG
  refine ⟨b, previous', ?_, hb⟩
  show Parser.eat kind ⟨ts ++ rest, previous⟩ >>= (fun r => f r.1 r.2) = _
  rw [Parser.eat, hkind]
  exact hrun

theorem Reads.expect {f : Token → Parser β} {kind : TokenKind} (hk : k ≠ .eof)
    (hsame : k.sameKind kind = true) (hf : ∀ t, t.kind = k → Reads (f t) ks G R) :
    Reads (expect kind >>= f) (k :: ks) G R := by
  refine Reads.step hk (fun c hc => ⟨c.current, ?_, hc⟩) hf
  rw [Parser.expect, Cursor.check, hc, if_pos hsame]
  rfl

theorem Reads.expectIdent {f : String × Span → Parser β} {name : String}
    (hf : ∀ span, Reads (f (name, span)) ks G R) :
    Reads (expectIdent >>= f) (.ident name :: ks) G R := by
  refine Reads.step (P := fun r => r.1 = name) (by simp) (fun c hc => ⟨(name, c.span), ?_, rfl⟩) ?_
  · rw [Parser.expectIdent, hc]
  · rintro ⟨_, span⟩ rfl
    exact hf span

theorem Reads.expectClosing {f : Span → Parser β} {kind : TokenKind} {opener : Span} (hk : k ≠ .eof)
    (hsame : k.sameKind kind = true) (hf : ∀ span, Reads (f span) ks G R) :
    Reads (expectClosing kind opener >>= f) (k :: ks) G R := by
  refine Reads.step (P := fun _ => True) hk (fun c hc => ⟨c.span, ?_, trivial⟩) fun span _ => hf span
  rw [Parser.expectClosing, Cursor.check, hc, if_pos hsame]

end Rules

/-! ## Lists -/

@[simp] theorem sameKind_symbol (k : TokenKind) (s : Symbol) :
    k.sameKind (.symbol s) = decide (k = .symbol s) := by
  cases k <;> rfl

@[simp] theorem sameKind_keyword (k : TokenKind) (w : Keyword) :
    k.sameKind (.keyword w) = decide (k = .keyword w) := by
  cases k <;> rfl

@[simp] theorem check_symbol (c : Cursor) (s : Symbol) :
    c.check (.symbol s) = decide (c.kind = .symbol s) := sameKind_symbol c.kind s

@[simp] theorem check_keyword (c : Cursor) (w : Keyword) :
    c.check (.keyword w) = decide (c.kind = .keyword w) := sameKind_keyword c.kind w

open Written

theorem separated_cons_cons (a b : List TokenKind) (rest : List (List TokenKind)) :
    separated (a :: b :: rest) = a ++ .symbol .comma :: separated (b :: rest) := by
  simp [separated, List.intercalate]

theorem separated_singleton (a : List TokenKind) : separated [a] = a := by
  simp [separated, List.intercalate]

section Lists

variable {α β γ : Type} {item : Parser α} {close : Symbol} {written : β → List TokenKind}
  {view : α → γ} {meant : β → γ}

/-- A reader of items reads a list of them, if it reads each of them before a comma and before the
closing delimiter, and none begins like that delimiter. What is read is compared with what was meant
through `view`. -/
theorem reads_items (hclose : close ≠ .comma) (parts : List β)
    (hitem : ∀ b ∈ parts, Reads item (written b)
      (fun k => k = .symbol .comma ∨ k = .symbol close) (fun a => view a = meant b))
    (hfirst : ∀ b ∈ parts, ∃ k ks, written b = k :: ks ∧ k ≠ .symbol close ∧ k ≠ .eof) :
    ∀ rounds, (separated (parts.map written)).length ≤ rounds.length →
      Reads (items (.symbol close) item rounds) (separated (parts.map written))
        (· = .symbol close) (fun as => as.map view = parts.map meant) := by
  induction parts with
  | nil =>
    intro rounds _
    cases rounds with
    | nil => exact Reads.pure rfl
    | cons t rounds =>
      refine Reads.get_nil fun c hc => ?_
      simp only [check_symbol, hc, decide_true, Bool.true_or, if_true]
      exact Reads.pure rfl
  | cons b parts ih =>
    intro rounds hrounds
    obtain ⟨k, ks, hwritten, hkclose, hkend⟩ := hfirst b List.mem_cons_self
    have hb := hitem b List.mem_cons_self
    have hwhole : ∃ ks', separated ((b :: parts).map written) = k :: ks' := by
      cases parts with
      | nil => exact ⟨ks, by rw [List.map_singleton, separated_singleton, hwritten]⟩
      | cons b' parts =>
        exact ⟨_, by rw [List.map_cons, List.map_cons, separated_cons_cons, hwritten]; rfl⟩
    obtain ⟨ks', hwhole⟩ := hwhole
    cases rounds with
    | nil =>
      rw [hwhole] at hrounds
      exact absurd hrounds (by simp)
    | cons t rounds =>
      rw [items]
      refine Reads.get_cons hwhole fun c hc _ _ => ?_
      have goesOn : (c.check (.symbol close) || c.atEnd) = false := by
        simp [Cursor.atEnd, hc, hkclose, hkend]
      rw [goesOn]
      cases parts with
      | nil =>
        -- the last item: no comma follows, and the closing delimiter ends the list
        rw [List.map_singleton, separated_singleton]
        refine hb.bind_last (fun k hk => .inr hk) fun a ha => ?_
        refine Reads.eat_other (fun k hk => by subst hk; simpa using hclose) ?_
        refine Reads.get_nil fun c hc => ?_
        simp only [check_symbol, hc, decide_true, Bool.true_or, if_true]
        exact Reads.pure (by simp [ha])
      | cons b' parts =>
        rw [List.map_cons, List.map_cons, separated_cons_cons] at hrounds ⊢
        refine hb.bind (fun k _ => .inl rfl) fun a ha => ?_
        refine Reads.eat (by simp) (by simp) ?_
        have hrest := ih (fun b hb => hitem b (List.mem_cons_of_mem _ hb))
          (fun b hb => hfirst b (List.mem_cons_of_mem _ hb)) rounds (by
            simp only [List.length_append, List.length_cons, List.map_cons] at hrounds ⊢
            omega)
        exact hrest.bind_last (fun _ hk => hk) fun as has => Reads.pure (by simp [ha, has])

/-- A list of items with the closing delimiter behind it. -/
theorem reads_commaSeparated {opener : Span} {F : TokenKind → Prop} (hclose : close ≠ .comma)
    (parts : List β)
    (hitem : ∀ b ∈ parts, Reads item (written b)
      (fun k => k = .symbol .comma ∨ k = .symbol close) (fun a => view a = meant b))
    (hfirst : ∀ b ∈ parts, ∃ k ks, written b = k :: ks ∧ k ≠ .symbol close ∧ k ≠ .eof) :
    Reads (commaSeparated opener (.symbol close) item)
      (separated (parts.map written) ++ [.symbol close]) F
      (fun r => r.1.map view = parts.map meant) := by
  refine Reads.get_rest fun c hlen => ?_
  have hlist := reads_items hclose parts hitem hfirst c.rest (by
    rw [List.length_append] at hlen
    omega)
  refine hlist.bind (fun _ _ => rfl) fun as has => ?_
  exact Reads.expectClosing (by simp) (by simp) fun span => Reads.pure has

end Lists

end Nikl.Parser
