import Nikl.Proofs.Syntax.Soundness

/-
What readers do on given tokens. `Takes p ts F a` says that `p` takes the tokens `ts` off the front of any
text that goes on with a token in `F`, leaves the text behind them, and gives `a`. Where only the kinds of
the tokens are known, a tree is known up to its spans; here the tokens themselves are given, and with them
every span of the tree.
-/

set_option autoImplicit false

namespace Nikl.Parser

/-- `p` takes the tokens `ts` and gives `a`, before any text that begins with a token in `F`. -/
def Takes {α : Type} (p : Parser α) (ts : List Token) (F : Token → Prop) (a : α) : Prop :=
  ∀ (rest : List Token) (previous : Span), F (firstOf rest) →
    ∃ previous', p ⟨ts ++ rest, previous⟩ = .ok (a, ⟨rest, previous'⟩)

theorem firstOf_append (ts rest : List Token) : firstOf (ts ++ rest) = ts.headD (firstOf rest) := by
  cases ts <;> rfl

section Rules

variable {α β : Type} {p : Parser α} {f : α → Parser β} {a : α} {b : β} {t : Token}
  {ts ts' : List Token} {F G : Token → Prop} {kind : TokenKind}

/-! ## Putting readers together -/

/-- A reader that gives something hands it on. -/
theorem run_bind {c c' : Cursor} (h : p c = .ok (a, c')) : (p >>= f) c = f a c' := by
  show (p c >>= fun r => f r.1 r.2) = _
  rw [h]
  rfl

theorem run_get {f : Cursor → Parser β} {c : Cursor} : (get >>= f) c = f c c := rfl

theorem Takes.pure (a : α) : Takes (pure a) [] F a := fun _ previous _ => ⟨previous, rfl⟩

theorem Takes.weaken (h : Takes p ts F a) (hF : ∀ t, G t → F t) : Takes p ts G a :=
  fun rest previous hG => h rest previous (hF _ hG)

theorem Takes.bind (hp : Takes p ts F a) (hF : ∀ t, G t → F (ts'.headD t)) (hf : Takes (f a) ts' G b) :
    Takes (p >>= f) (ts ++ ts') G b := by
  intro rest previous hG
  have hnext : F (firstOf (ts' ++ rest)) := by
    rw [firstOf_append]
    exact hF _ hG
  obtain ⟨previous₁, hrun⟩ := hp (ts' ++ rest) previous hnext
  obtain ⟨previous₂, hrun'⟩ := hf rest previous₁ hG
  refine ⟨previous₂, ?_⟩
  rw [List.append_assoc, run_bind hrun]
  exact hrun'

/-- The last reader that takes tokens. -/
theorem Takes.bind_last (hp : Takes p ts F a) (hF : ∀ t, G t → F t) (hf : Takes (f a) [] G b) :
    Takes (p >>= f) ts G b := by
  rw [← List.append_nil ts]
  exact hp.bind hF hf

theorem Takes.within {context : Context} (h : Takes p ts F a) : Takes (within context p) ts F a := by
  intro rest previous hF
  obtain ⟨previous', hrun⟩ := h rest previous hF
  refine ⟨previous', ?_⟩
  rw [Parser.within, hrun]
  rfl

/-- A look at the cursor before tokens of which the first is known. -/
theorem Takes.get_cons {f : Cursor → Parser β}
    (h : ∀ c : Cursor, c.current = t → (t :: ts).length ≤ c.rest.length → Takes (f c) (t :: ts) G b) :
    Takes (get >>= f) (t :: ts) G b := by
  intro rest previous hG
  refine h ⟨t :: ts ++ rest, previous⟩ rfl ?_ rest previous hG
  rw [List.length_append]
  omega

/-- A look at the cursor behind the last token that is taken. -/
theorem Takes.get_nil {f : Cursor → Parser β} (h : ∀ c : Cursor, G c.current → Takes (f c) [] G b) :
    Takes (get >>= f) [] G b :=
  fun rest previous hG => h ⟨rest, previous⟩ hG rest previous hG

/-- A look at the cursor that only asks how many tokens there are. -/
theorem Takes.get_rest {f : Cursor → Parser β}
    (h : ∀ c : Cursor, ts.length ≤ c.rest.length → Takes (f c) ts G b) :
    Takes (get >>= f) ts G b := by
  intro rest previous hG
  refine h ⟨ts ++ rest, previous⟩ ?_ rest previous hG
  rw [List.length_append]
  omega

/-! ## Single tokens -/

theorem next_cons {previous : Span} (ht : t.kind ≠ .eof) :
    Cursor.next ⟨t :: ts, previous⟩ = ⟨ts, t.span⟩ := by
  rw [Cursor.next, if_neg]
  · rfl
  · exact fun hend => ht (of_decide_eq_true hend)

theorem advance_cons {previous : Span} (ht : t.kind ≠ .eof) :
    Parser.advance ⟨t :: ts, previous⟩ = .ok (t, ⟨ts, t.span⟩) := by
  rw [Parser.advance, next_cons ht]
  rfl

/-- A step that takes the token under the cursor. -/
theorem Takes.step (ht : t.kind ≠ .eof) (hp : ∀ c : Cursor, c.current = t → p c = .ok (a, c.next))
    (hf : Takes (f a) ts G b) : Takes (p >>= f) (t :: ts) G b := by
  have one : Takes p [t] (fun _ => True) a := by
    intro rest previous _
    refine ⟨t.span, ?_⟩
    rw [hp _ rfl, List.cons_append, next_cons ht]
    rfl
  exact one.bind (fun _ _ => trivial) hf

theorem Takes.advance {f : Token → Parser β} (ht : t.kind ≠ .eof) (hf : Takes (f t) ts G b) :
    Takes (advance >>= f) (t :: ts) G b :=
  Takes.step ht (fun c hc => by rw [Parser.advance, hc]) hf

theorem Takes.eat {f : Bool → Parser β} (hkind : IsMark kind) (ht : t.kind = kind)
    (hf : Takes (f true) ts G b) : Takes (eat kind >>= f) (t :: ts) G b := by
  refine Takes.step (by rw [ht]; exact hkind.ne_eof) (fun c hc => ?_) hf
  rw [Parser.eat, if_pos (hkind.check_iff.2 (by rw [Cursor.kind, hc, ht]))]

/-- A token that is not there is not taken. -/
theorem Takes.eat_other {f : Bool → Parser β} (hkind : IsMark kind)
    (hother : ∀ t, G t → (ts.headD t).kind ≠ kind) (hf : Takes (f false) ts G b) :
    Takes (Parser.eat kind >>= f) ts G b := by
  intro rest previous hG
  obtain ⟨previous', hrun⟩ := hf rest previous hG
  refine ⟨previous', ?_⟩
  show (Parser.eat kind ⟨ts ++ rest, previous⟩ >>= fun r => f r.1 r.2) = _
  rw [Parser.eat, if_neg]
  · exact hrun
  · intro hcheck
    have hk := hkind.check_iff.1 hcheck
    replace hk : (firstOf (ts ++ rest)).kind = kind := hk
    rw [firstOf_append] at hk
    exact hother _ hG hk

theorem Takes.expect {f : Token → Parser β} (hkind : IsMark kind) (ht : t.kind = kind)
    (hf : Takes (f t) ts G b) : Takes (expect kind >>= f) (t :: ts) G b := by
  refine Takes.step (by rw [ht]; exact hkind.ne_eof) (fun c hc => ?_) hf
  rw [Parser.expect, if_pos (hkind.check_iff.2 (by rw [Cursor.kind, hc, ht])), Parser.advance, hc]

theorem Takes.expectIdent {f : String × Span → Parser β} {name : String} (ht : t.kind = .ident name)
    (hf : Takes (f (name, t.span)) ts G b) : Takes (expectIdent >>= f) (t :: ts) G b := by
  refine Takes.step (by rw [ht]; simp) (fun c hc => ?_) hf
  have hk : c.kind = .ident name := by rw [Cursor.kind, hc, ht]
  rw [Parser.expectIdent, hk, Cursor.span, hc]

theorem Takes.expectClosing {f : Span → Parser β} {opener : Span} (hkind : IsMark kind)
    (ht : t.kind = kind) (hf : Takes (f t.span) ts G b) :
    Takes (expectClosing kind opener >>= f) (t :: ts) G b := by
  refine Takes.step (by rw [ht]; exact hkind.ne_eof) (fun c hc => ?_) hf
  rw [Parser.expectClosing, if_pos (hkind.check_iff.2 (by rw [Cursor.kind, hc, ht])), Cursor.span, hc]

end Rules

/-! ## Lists -/

section Lists

variable {α : Type} {item : Parser α} {close : Symbol} {parts : List (List Token × α)}
  {ts : List Token}

/-- A list is as long as each of its parts at least. -/
theorem length_le_listed (h : Listed parts ts) : ∀ p ∈ parts, p.1.length ≤ ts.length := by
  induction h with
  | nil => exact nofun
  | last part =>
    intro p hp
    cases List.mem_singleton.1 hp
    exact Nat.le_refl _
  | cons part _ _ ih =>
    intro p hp
    rw [List.length_append, List.length_cons]
    rcases List.mem_cons.1 hp with rfl | hp
    · omega
    · have := ih p hp
      omega

/-- Tokens that the items of a list before a closing delimiter do not begin with. -/
def BeginsItem (close : Symbol) (t : Token) : Prop := t.kind ≠ .symbol close ∧ t.kind ≠ .eof

/-- What follows an item of a list. -/
def EndsItem (close : Symbol) (t : Token) : Prop := t.kind = .symbol .comma ∨ t.kind = .symbol close

theorem BeginsItem.check {c : Cursor} {t : Token} (ht : BeginsItem close t) (hc : c.current = t) :
    c.check (.symbol close) = false := by
  rw [check_symbol, Cursor.kind, hc]
  exact decide_eq_false ht.1

theorem takes_items (hclose : close ≠ .comma)
    (hitem : ∀ p ∈ parts, Takes item p.1 (EndsItem close) p.2)
    (hbegins : ∀ p ∈ parts, ∃ t ts, p.1 = t :: ts ∧ BeginsItem close t) (hlist : Listed parts ts) :
    ∀ rounds : List Token, ts.length ≤ rounds.length →
      Takes (items (.symbol close) item rounds) ts (·.kind = .symbol close) (parts.map (·.2)) := by
  have ends : ∀ c : Cursor, c.current.kind = .symbol close →
      (c.check (.symbol close) || c.atEnd) = true := by
    intro c hc
    rw [(IsMark.symbol close).check_iff.2 hc, Bool.true_or]
  have goesOn : ∀ {c : Cursor} {t : Token}, c.current = t → BeginsItem close t →
      (c.check (.symbol close) || c.atEnd) = false := by
    intro c t hc ht
    rw [ht.check hc, Bool.false_or]
    exact decide_eq_false (by rw [Cursor.kind, hc]; exact ht.2)
  induction hlist with
  | nil =>
    intro rounds _
    cases rounds with
    | nil => exact Takes.pure []
    | cons r rounds =>
      refine Takes.get_nil fun c hc => ?_
      rw [ends c hc]
      exact Takes.pure []
  | last part =>
    intro rounds hrounds
    obtain ⟨t, ts, hts, ht⟩ := hbegins part (List.mem_singleton_self part)
    have hpart := hitem part (List.mem_singleton_self part)
    rw [hts] at hrounds hpart ⊢
    cases rounds with
    | nil => exact absurd hrounds (Nat.not_succ_le_zero _)
    | cons r rounds =>
      refine Takes.get_cons fun c hc _ => ?_
      rw [goesOn hc ht]
      refine hpart.bind_last (fun _ hk => .inr hk) ?_
      refine Takes.eat_other (.symbol _) (fun t hk => ?_) (Takes.get_nil fun c hc => ?_)
      · show t.kind ≠ _
        rw [hk]
        simpa using hclose
      · rw [ends c hc]
        exact Takes.pure _
  | @cons parts ts comma part hcomma _ ih =>
    intro rounds hrounds
    rw [List.forall_mem_cons] at hitem hbegins
    obtain ⟨t, ts', hts, ht⟩ := hbegins.1
    have hpart := hitem.1
    rw [List.length_append, List.length_cons] at hrounds
    cases rounds with
    | nil => exact absurd hrounds (by simp)
    | cons r rounds =>
      rw [List.length_cons] at hrounds
      have hmore := ih hitem.2 hbegins.2 rounds (by omega)
      rw [hts] at hpart ⊢
      rw [List.cons_append]
      refine Takes.get_cons fun c hc _ => ?_
      rw [goesOn hc ht, ← List.cons_append]
      refine hpart.bind (fun _ _ => .inl hcomma) (Takes.eat (.symbol _) hcomma ?_)
      exact hmore.bind_last (fun _ hk => hk) (Takes.pure _)

/-- A list of items with the closing delimiter behind it. -/
theorem takes_commaSeparated {opener : Span} {closing : Token} (hclose : close ≠ .comma)
    (hclosing : closing.kind = .symbol close)
    (hitem : ∀ p ∈ parts, Takes item p.1 (EndsItem close) p.2)
    (hbegins : ∀ p ∈ parts, ∃ t ts, p.1 = t :: ts ∧ BeginsItem close t) (hlist : Listed parts ts) :
    Takes (commaSeparated opener (.symbol close) item) (ts ++ [closing]) (fun _ => True)
      (parts.map (·.2), closing.span) := by
  refine Takes.get_rest fun c hlen => ?_
  rw [List.length_append] at hlen
  refine (takes_items hclose hitem hbegins hlist c.rest (by omega)).bind (fun _ _ => hclosing) ?_
  exact Takes.expectClosing (.symbol _) hclosing (Takes.pure _)

end Lists

end Nikl.Parser
