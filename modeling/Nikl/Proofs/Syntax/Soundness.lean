import Nikl.Proofs.Syntax.Grammar

/-
What is read is in the grammar. A reader that succeeds has taken some tokens off the front of the
text, and they make the tree that it gives. What the loops for operators, calls and statements give is
more than that: they stop only where what they have read does not go on.
-/

set_option autoImplicit false

namespace Nikl.Parser

/-! ## One step -/

section Steps

variable {α β : Type} {c c' : Cursor}

theorem bind_eq_ok {p : Parser α} {f : α → Parser β} {b : β} (h : (p >>= f) c = .ok (b, c')) :
    ∃ a c₁, p c = .ok (a, c₁) ∧ f a c₁ = .ok (b, c') := by
  cases hp : p c with
  | error e =>
    replace h : (p c >>= fun r => f r.1 r.2) = .ok (b, c') := h
    rw [hp] at h
    cases h
  | ok r =>
    replace h : (p c >>= fun r => f r.1 r.2) = .ok (b, c') := h
    rw [hp] at h
    exact ⟨r.1, r.2, rfl, h⟩

theorem within_eq_ok {context : Context} {p : Parser α} {a : α} (h : within context p c = .ok (a, c')) :
    p c = .ok (a, c') := by
  rw [within] at h
  cases hp : p c with
  | error e =>
    rw [hp] at h
    cases h
  | ok r =>
    rw [hp] at h
    exact h

theorem kind_of_rest {t : Token} {ts : List Token} (hrest : c.rest = t :: ts) : c.kind = t.kind := by
  rw [Cursor.kind, Cursor.current, hrest]
  rfl

theorem advance_eq_ok {t : Token} (hk : c.kind ≠ .eof) (h : advance c = .ok (t, c')) :
    c.rest = t :: c'.rest ∧ t = c.current := by
  obtain ⟨rest, previous⟩ := c
  cases rest with
  | nil => exact absurd rfl hk
  | cons t' rest =>
    rw [advance, Cursor.next, if_neg (by simpa [Cursor.atEnd] using hk)] at h
    cases h
    exact ⟨rfl, rfl⟩

/-- Kinds of tokens that carry nothing. -/
inductive IsMark : TokenKind → Prop where
  | symbol (s : Symbol) : IsMark (.symbol s)
  | keyword (w : Keyword) : IsMark (.keyword w)

theorem IsMark.check_iff {kind : TokenKind} (hkind : IsMark kind) : c.check kind = true ↔ c.kind = kind := by
  cases hkind with
  | symbol s => rw [check_symbol, decide_eq_true_eq]
  | keyword w => rw [check_keyword, decide_eq_true_eq]

theorem IsMark.ne_eof {kind : TokenKind} (hkind : IsMark kind) : kind ≠ .eof := by
  rintro rfl
  cases hkind

theorem eat_eq_ok {kind : TokenKind} {b : Bool} (hkind : IsMark kind) (h : eat kind c = .ok (b, c')) :
    (b = true ∧ ∃ t, c.rest = t :: c'.rest ∧ t.kind = kind) ∨ b = false ∧ c = c' ∧ c.kind ≠ kind := by
  rw [eat] at h
  split at h
  · next hcheck =>
    have hc := hkind.check_iff.1 hcheck
    cases h
    obtain ⟨hrest, -⟩ := advance_eq_ok (c := c) (by rw [hc]; exact hkind.ne_eof) rfl
    exact .inl ⟨rfl, _, hrest, hc⟩
  · next hcheck =>
    cases h
    exact .inr ⟨rfl, rfl, fun hc => hcheck (hkind.check_iff.2 hc)⟩

theorem expect_eq_ok {kind : TokenKind} {t : Token} (hkind : IsMark kind)
    (h : expect kind c = .ok (t, c')) : c.rest = t :: c'.rest ∧ t.kind = kind := by
  rw [expect] at h
  split at h
  · next hcheck =>
    have hc := hkind.check_iff.1 hcheck
    obtain ⟨hrest, rfl⟩ := advance_eq_ok (by rw [hc]; exact hkind.ne_eof) h
    exact ⟨hrest, hc⟩
  · cases h

theorem expectIdent_eq_ok {name : String} {s : Span} (h : expectIdent c = .ok ((name, s), c')) :
    ∃ t, c.rest = t :: c'.rest ∧ t.kind = .ident name ∧ t.span = s := by
  rw [expectIdent] at h
  split at h
  · next hc =>
    cases h
    obtain ⟨hrest, -⟩ := advance_eq_ok (c := c) (by rw [hc]; simp) rfl
    exact ⟨_, hrest, hc, rfl⟩
  · cases h

theorem expectClosing_eq_ok {kind : TokenKind} {opener s : Span} (hkind : IsMark kind)
    (h : expectClosing kind opener c = .ok (s, c')) :
    ∃ t, c.rest = t :: c'.rest ∧ t.kind = kind ∧ t.span = s := by
  rw [expectClosing] at h
  split at h
  · next hcheck =>
    have hc := hkind.check_iff.1 hcheck
    cases h
    obtain ⟨hrest, -⟩ := advance_eq_ok (c := c) (by rw [hc]; exact hkind.ne_eof) rfl
    exact ⟨_, hrest, hc, rfl⟩
  · split at h <;> cases h

end Steps

/-! ## Lists -/

section Lists

variable {α : Type} {item : Parser α} {R : List Token → α → Prop}

theorem items_listed (hitem : ∀ {c a c'}, item c = .ok (a, c') → ∃ ts, c.rest = ts ++ c'.rest ∧ R ts a)
    {close : TokenKind} (rounds : List Token) {c c' : Cursor} {as : List α}
    (h : items close item rounds c = .ok (as, c')) :
    ∃ parts ts, c.rest = ts ++ c'.rest ∧ as = parts.map (·.2) ∧ (∀ p ∈ parts, R p.1 p.2) ∧
      Listed parts ts := by
  induction rounds generalizing c as with
  | nil =>
    cases h
    exact ⟨[], [], rfl, rfl, nofun, .nil⟩
  | cons t rounds ih =>
    rw [items] at h
    obtain ⟨c₀, _, ⟨⟩, h⟩ := bind_eq_ok h
    split at h
    · cases h
      exact ⟨[], [], rfl, rfl, nofun, .nil⟩
    obtain ⟨first, c₁, hfirst, h⟩ := bind_eq_ok h
    obtain ⟨ts, hts, hR⟩ := hitem hfirst
    obtain ⟨b, c₂, hcomma, h⟩ := bind_eq_ok h
    rcases eat_eq_ok (.symbol _) hcomma with ⟨rfl, comma, hrest, hkind⟩ | ⟨rfl, rfl, -⟩
    · rw [if_pos rfl] at h
      obtain ⟨more, c₃, hmore, h⟩ := bind_eq_ok h
      cases h
      obtain ⟨parts, ts', hts', rfl, hparts, hlist⟩ := ih hmore
      refine ⟨(ts, first) :: parts, ts ++ comma :: ts', ?_, rfl, ?_, hlist.cons _ hkind⟩
      · rw [hts, hrest, hts', List.append_assoc, List.cons_append]
      · exact List.forall_mem_cons.2 ⟨hR, hparts⟩
    · rw [if_neg Bool.false_ne_true] at h
      obtain ⟨c₃, _, ⟨⟩, h⟩ := bind_eq_ok h
      split at h
      · cases h
        exact ⟨[(ts, first)], ts, hts, rfl, by simpa using hR, .last _⟩
      · cases h

/-- A list of items and the delimiter that closes it. -/
theorem commaSeparated_listed
    (hitem : ∀ {c a c'}, item c = .ok (a, c') → ∃ ts, c.rest = ts ++ c'.rest ∧ R ts a)
    {close : Symbol} {opener : Span} {c c' : Cursor} {as : List α} {s : Span}
    (h : commaSeparated opener (.symbol close) item c = .ok ((as, s), c')) :
    ∃ parts ts closing, c.rest = ts ++ closing :: c'.rest ∧ closing.kind = .symbol close ∧
      closing.span = s ∧ as = parts.map (·.2) ∧ (∀ p ∈ parts, R p.1 p.2) ∧ Listed parts ts := by
  rw [commaSeparated] at h
  obtain ⟨c₀, _, ⟨⟩, h⟩ := bind_eq_ok h
  obtain ⟨items, c₁, hitems, h⟩ := bind_eq_ok h
  obtain ⟨parts, ts, hts, rfl, hparts, hlist⟩ := items_listed hitem _ hitems
  obtain ⟨_, c₂, hclosing, h⟩ := bind_eq_ok h
  obtain ⟨closing, hrest, hkind, rfl⟩ := expectClosing_eq_ok (.symbol _) hclosing
  cases h
  exact ⟨parts, ts, closing, by rw [hts, hrest], hkind, rfl, rfl, hparts, hlist⟩

end Lists

/-! ## Expressions -/

section Expressions

variable {inner : Parser Expr} {c c' : Cursor} {e : Expr}

/-- `inner` gives expressions, and reads them to their ends. -/
def GivesExpr (inner : Parser Expr) (L : Nat) : Prop :=
  ∀ ⦃c e c'⦄, inner c = .ok (e, c') →
    ∃ ts, c.rest = ts ++ c'.rest ∧ IsExpr L ts e ∧ EndsExpr L c'.current

theorem GivesExpr.parts (hinner : GivesExpr inner 0) {c e c'} (h : inner c = .ok (e, c')) :
    ∃ ts, c.rest = ts ++ c'.rest ∧ IsExpr 0 ts e := by
  obtain ⟨ts, hts, he, -⟩ := hinner h
  exact ⟨ts, hts, he⟩

theorem parenOrTuple_isExpr (hinner : GivesExpr inner 0) (hc : c.kind = .symbol .leftParen)
    (h : parenOrTuple inner c = .ok (e, c')) : ∃ ts, c.rest = ts ++ c'.rest ∧ IsExpr 5 ts e := by
  rw [parenOrTuple] at h
  obtain ⟨opening, c₁, hopening, h⟩ := bind_eq_ok h
  obtain ⟨hrest, rfl⟩ := advance_eq_ok (by rw [hc]; simp) hopening
  obtain ⟨_, _, ⟨⟩, h⟩ := bind_eq_ok h
  split at h
  · next hcheck =>
    have hkind := (IsMark.symbol .rightParen).check_iff.1 hcheck
    obtain ⟨closing, c₂, hclosing, h⟩ := bind_eq_ok h
    obtain ⟨hrest', rfl⟩ := advance_eq_ok (by rw [hkind]; simp) hclosing
    cases h
    exact ⟨[c.current, c₁.current], by rw [hrest, hrest']; rfl, .unit hc hkind⟩
  obtain ⟨first, c₂, hfirst, h⟩ := bind_eq_ok h
  obtain ⟨ts, hts, hfirst⟩ := hinner.parts hfirst
  obtain ⟨b, c₃, hcomma, h⟩ := bind_eq_ok h
  rcases eat_eq_ok (.symbol _) hcomma with ⟨rfl, comma, hrest', hkind⟩ | ⟨rfl, rfl, -⟩
  · rw [if_pos rfl] at h
    obtain ⟨⟨more, s⟩, c₄, hmore, h⟩ := bind_eq_ok (within_eq_ok h)
    obtain ⟨parts, ts', closing, hts', hclosing, rfl, rfl, hparts, hlist⟩ :=
      commaSeparated_listed hinner.parts hmore
    cases h
    refine ⟨_, ?_, .tuple hc hkind hclosing hfirst hparts hlist⟩
    rw [hrest, hts, hrest', hts']
    simp
  · rw [if_neg Bool.false_ne_true] at h
    obtain ⟨s, c₄, hclosing, h⟩ := bind_eq_ok h
    obtain ⟨closing, hrest', hkind, rfl⟩ := expectClosing_eq_ok (.symbol _) hclosing
    cases h
    exact ⟨_, by rw [hrest, hts, hrest']; simp, .group hc hkind hfirst⟩

theorem array_isExpr (hinner : GivesExpr inner 0) (hc : c.kind = .symbol .leftBracket)
    (h : array inner c = .ok (e, c')) : ∃ ts, c.rest = ts ++ c'.rest ∧ IsExpr 5 ts e := by
  rw [array] at h
  obtain ⟨opening, c₁, hopening, h⟩ := bind_eq_ok h
  obtain ⟨hrest, rfl⟩ := advance_eq_ok (by rw [hc]; simp) hopening
  obtain ⟨⟨items, s⟩, c₂, hitems, h⟩ := bind_eq_ok h
  obtain ⟨parts, ts, closing, hts, hclosing, rfl, rfl, hparts, hlist⟩ :=
    commaSeparated_listed hinner.parts hitems
  cases h
  exact ⟨_, by rw [hrest, hts]; simp, .array hc hclosing hparts hlist⟩

/-- A key, a colon and a value, from one reader. -/
theorem entry_isEntry (hinner : GivesExpr inner 0) {c c' : Cursor} {kv : Expr × Expr}
    (h : entry inner c = .ok (kv, c')) :
    ∃ ts, c.rest = ts ++ c'.rest ∧ ∃ p : EntryPart, p.whole = (ts, kv) ∧ IsExpr 0 p.key.1 p.key.2 ∧
      p.colon.kind = .symbol .colon ∧ IsExpr 0 p.value.1 p.value.2 := by
  rw [entry] at h
  obtain ⟨key, c₁, hkey, h⟩ := bind_eq_ok h
  obtain ⟨ts, hts, hk⟩ := hinner.parts hkey
  obtain ⟨colon, c₂, hcolon, h⟩ := bind_eq_ok h
  obtain ⟨hrest, hcolon'⟩ := expect_eq_ok (.symbol _) hcolon
  obtain ⟨value, c₃, hvalue, h⟩ := bind_eq_ok h
  obtain ⟨ts', hts', hv⟩ := hinner.parts hvalue
  cases h
  exact ⟨ts ++ colon :: ts', by rw [hts, hrest, hts']; simp,
    ⟨(ts, key), colon, (ts', value)⟩, rfl, hk, hcolon', hv⟩

/-- Parts that each have a property with a witness, and the witnesses. -/
theorem exists_map_eq {α β : Type} {f : α → β} {P : α → Prop} {parts : List β}
    (h : ∀ p ∈ parts, ∃ a, f a = p ∧ P a) : ∃ as : List α, as.map f = parts ∧ ∀ a ∈ as, P a := by
  induction parts with
  | nil => exact ⟨[], rfl, nofun⟩
  | cons p parts ih =>
    rw [List.forall_mem_cons] at h
    obtain ⟨a, rfl, ha⟩ := h.1
    obtain ⟨as, rfl, has⟩ := ih h.2
    exact ⟨a :: as, rfl, List.forall_mem_cons.2 ⟨ha, has⟩⟩

theorem map_isExpr (hinner : GivesExpr inner 0) (hc : c.kind = .symbol .leftBrace)
    (h : map inner c = .ok (e, c')) : ∃ ts, c.rest = ts ++ c'.rest ∧ IsExpr 5 ts e := by
  rw [map] at h
  obtain ⟨opening, c₁, hopening, h⟩ := bind_eq_ok h
  obtain ⟨hrest, rfl⟩ := advance_eq_ok (by rw [hc]; simp) hopening
  obtain ⟨⟨items, s⟩, c₂, hitems, h⟩ := bind_eq_ok h
  obtain ⟨parts, ts, closing, hts, hclosing, rfl, rfl, hparts, hlist⟩ :=
    commaSeparated_listed (entry_isEntry hinner) hitems
  cases h
  obtain ⟨entries, rfl, hentries⟩ := exists_map_eq hparts
  refine ⟨c.current :: (ts ++ [closing]), by rw [hrest, hts]; simp, ?_⟩
  rw [List.map_map]
  exact .map hc hclosing (fun p hp => (hentries p hp).1) (fun p hp => (hentries p hp).2.1)
    (fun p hp => (hentries p hp).2.2) hlist

theorem primary_isExpr (hinner : GivesExpr inner 0) (h : primary inner c = .ok (e, c')) :
    ∃ ts, c.rest = ts ++ c'.rest ∧ IsExpr 5 ts e := by
  rw [primary] at h
  obtain ⟨_, _, ⟨⟩, h⟩ := bind_eq_ok h
  cases hatom : atom? c.kind c.span with
  | some e' =>
    rw [hatom] at h
    obtain ⟨t, c₁, ht, h⟩ := bind_eq_ok h
    have hc : c.kind ≠ .eof := by
      intro hc
      rw [hc] at hatom
      cases hatom
    obtain ⟨hrest, rfl⟩ := advance_eq_ok hc ht
    cases h
    exact ⟨[c.current], hrest, .atom hatom⟩
  | none =>
    rw [hatom] at h
    cases hc : c.kind with
    | symbol s =>
      rw [hc] at h
      cases s with
      | leftParen => exact parenOrTuple_isExpr hinner hc h
      | leftBracket => exact array_isExpr hinner hc (within_eq_ok h)
      | leftBrace => exact map_isExpr hinner hc (within_eq_ok h)
      | _ => cases h
    | _ =>
      rw [hc] at h
      cases h

/-! ## Loops -/

/-- Where there are no more tokens, no expression goes on. -/
theorem endsExpr_of_rest_nil {L : Nat} (h : c.rest = []) : EndsExpr L c.current := by
  rw [Cursor.current, h]
  refine ⟨fun _ => by simp [Token.endAt], fun _ => by simp [Token.endAt], fun M _ hM => ?_⟩
  obtain rfl | rfl | rfl : M = 0 ∨ M = 1 ∨ M = 2 := by omega
  all_goals rfl

theorem call_isExpr (hinner : GivesExpr inner 0) {callee : Expr} (hc : c.kind = .symbol .leftParen)
    (hline : c.atLineStart = false) {front : List Token} (hcallee : IsExpr 4 front callee)
    (h : call inner callee c = .ok (e, c')) :
    ∃ ts, ts ≠ [] ∧ c.rest = ts ++ c'.rest ∧ IsExpr 4 (front ++ ts) e := by
  rw [call] at h
  obtain ⟨opening, c₁, hopening, h⟩ := bind_eq_ok h
  obtain ⟨hrest, rfl⟩ := advance_eq_ok (by rw [hc]; simp) hopening
  obtain ⟨⟨args, s⟩, c₂, hargs, h⟩ := bind_eq_ok h
  obtain ⟨parts, ts, closing, hts, hclosing, rfl, rfl, hparts, hlist⟩ :=
    commaSeparated_listed hinner.parts hargs
  cases h
  exact ⟨c.current :: (ts ++ [closing]), List.cons_ne_nil _ _, by rw [hrest, hts]; simp,
    .call hcallee hc hline hclosing hparts hlist⟩

theorem index_isExpr (hinner : GivesExpr inner 0) {target : Expr} (hc : c.kind = .symbol .leftBracket)
    (hline : c.atLineStart = false) {front : List Token} (htarget : IsExpr 4 front target)
    (h : index inner target c = .ok (e, c')) :
    ∃ ts, ts ≠ [] ∧ c.rest = ts ++ c'.rest ∧ IsExpr 4 (front ++ ts) e := by
  rw [index] at h
  obtain ⟨opening, c₁, hopening, h⟩ := bind_eq_ok h
  obtain ⟨hrest, rfl⟩ := advance_eq_ok (by rw [hc]; simp) hopening
  obtain ⟨place, c₂, hplace, h⟩ := bind_eq_ok h
  obtain ⟨ts, hts, hp⟩ := hinner.parts hplace
  obtain ⟨s, c₃, hclosing, h⟩ := bind_eq_ok h
  obtain ⟨closing, hrest', hkind, rfl⟩ := expectClosing_eq_ok (.symbol _) hclosing
  cases h
  exact ⟨c.current :: (ts ++ [closing]), List.cons_ne_nil _ _, by rw [hrest, hts, hrest']; simp,
    .index htarget hc hline hkind hp⟩

/-- The loop for calls and indices goes on with what stands on its left, and stops where that does not
go on. It has a round for every token that is left. -/
theorem suffixesFrom_isExpr (hinner : GivesExpr inner 0) (rounds : List Token) {left : Expr}
    {front : List Token} (hrounds : c.rest.length ≤ rounds.length) (hleft : IsExpr 4 front left)
    (h : suffixesFrom inner rounds left c = .ok (e, c')) :
    ∃ ts, c.rest = ts ++ c'.rest ∧ IsExpr 4 (front ++ ts) e ∧ EndsExpr 4 c'.current := by
  induction rounds generalizing c left front with
  | nil =>
    cases h
    exact ⟨[], rfl, by rwa [List.append_nil],
      endsExpr_of_rest_nil (List.eq_nil_of_length_eq_zero (Nat.le_zero.1 hrounds))⟩
  | cons t rounds ih =>
    have step : ∀ {c₁ e₁}, (∃ ts, ts ≠ [] ∧ c.rest = ts ++ c₁.rest ∧ IsExpr 4 (front ++ ts) e₁) →
        suffixesFrom inner rounds e₁ c₁ = .ok (e, c') →
        ∃ ts, c.rest = ts ++ c'.rest ∧ IsExpr 4 (front ++ ts) e ∧ EndsExpr 4 c'.current := by
      rintro c₁ e₁ ⟨ts, hne, hts, he₁⟩ hgo
      have hpos := List.length_pos_iff.2 hne
      rw [hts, List.length_append, List.length_cons] at hrounds
      obtain ⟨ts', hts', he, hends⟩ := ih (by omega) he₁ hgo
      exact ⟨ts ++ ts', by rw [hts, hts', List.append_assoc], by rwa [← List.append_assoc], hends⟩
    rw [suffixesFrom] at h
    obtain ⟨_, _, ⟨⟩, h⟩ := bind_eq_ok h
    split at h
    · next hline =>
      cases h
      refine ⟨[], rfl, by rwa [List.append_nil], fun hno => ?_, fun hno => ?_, fun M hM hlt => ?_⟩
      · exact absurd (hno.symm.trans hline) Bool.false_ne_true
      · exact absurd (hno.symm.trans hline) Bool.false_ne_true
      · omega
    next hline =>
    rw [Bool.not_eq_true] at hline
    split at h
    · next hcheck =>
      obtain ⟨e₁, c₁, hcall, h⟩ := bind_eq_ok h
      exact step (call_isExpr hinner ((IsMark.symbol _).check_iff.1 hcheck) hline hleft
        (within_eq_ok hcall)) h
    next hparen =>
    split at h
    · next hcheck =>
      obtain ⟨e₁, c₁, hindex, h⟩ := bind_eq_ok h
      exact step (index_isExpr hinner ((IsMark.symbol _).check_iff.1 hcheck) hline hleft
        (within_eq_ok hindex)) h
    next hbracket =>
    cases h
    refine ⟨[], rfl, by rwa [List.append_nil], fun _ hk => ?_, fun _ hk => ?_, fun M hM hlt => ?_⟩
    · exact hparen ((IsMark.symbol _).check_iff.2 hk)
    · exact hbracket ((IsMark.symbol _).check_iff.2 hk)
    · omega

theorem suffixed_gives (hinner : GivesExpr inner 0) : GivesExpr (suffixed inner) 4 := by
  intro c e c' h
  rw [suffixed] at h
  obtain ⟨left, c₁, hleft, h⟩ := bind_eq_ok h
  obtain ⟨ts, hts, hl⟩ := primary_isExpr hinner hleft
  obtain ⟨_, _, ⟨⟩, h⟩ := bind_eq_ok h
  obtain ⟨ts', hts', he, hends⟩ :=
    suffixesFrom_isExpr hinner _ (Nat.le_refl _) (.looser (by decide) hl) h
  exact ⟨ts ++ ts', by rw [hts, hts', List.append_assoc], he, hends⟩

/-- Signs before an operand. There may be one for every token that is left. -/
theorem unaryFrom_gives (hinner : GivesExpr inner 0) (rounds : List Token) :
    GivesExpr (unaryFrom inner rounds) 3 := by
  have operand : GivesExpr (suffixed inner) 3 := by
    intro c e c' h
    obtain ⟨ts, hts, he, hends⟩ := suffixed_gives hinner h
    exact ⟨ts, hts, .looser (by decide) he, hends.call, hends.index, fun M hM hlt => by omega⟩
  induction rounds with
  | nil => exact operand
  | cons t rounds ih =>
    intro c e c' h
    rw [unaryFrom] at h
    obtain ⟨_, _, ⟨⟩, h⟩ := bind_eq_ok h
    cases hop : unaryOp? c.kind with
    | none =>
      rw [hop] at h
      exact operand h
    | some op =>
      rw [hop] at h
      obtain ⟨start, c₁, hstart, h⟩ := bind_eq_ok h
      have hc : c.kind ≠ .eof := by
        intro hc
        rw [hc] at hop
        cases hop
      obtain ⟨hrest, rfl⟩ := advance_eq_ok hc hstart
      obtain ⟨e₁, c₂, he₁, h⟩ := bind_eq_ok h
      obtain ⟨ts, hts, hoperand, hends⟩ := ih he₁
      cases h
      exact ⟨c.current :: ts, by rw [hrest, hts]; rfl, .unary hop hoperand, hends⟩

/-- The loop of a level of operators goes on with what stands on its left, and stops where no operator
of the level follows. -/
theorem chainFrom_isExpr {L : Nat} (hL : L < 3) {operand : Parser Expr}
    (hoperand : GivesExpr operand (L + 1)) (rounds : List Token) {left : Expr} {front : List Token}
    (hrounds : c.rest.length ≤ rounds.length) (hleft : IsExpr L front left)
    (hends : EndsExpr (L + 1) c.current) (h : chainFrom (opAt L) operand rounds left c = .ok (e, c')) :
    ∃ ts, c.rest = ts ++ c'.rest ∧ IsExpr L (front ++ ts) e ∧ EndsExpr L c'.current := by
  induction rounds generalizing c left front with
  | nil =>
    cases h
    exact ⟨[], rfl, by rwa [List.append_nil],
      endsExpr_of_rest_nil (List.eq_nil_of_length_eq_zero (Nat.le_zero.1 hrounds))⟩
  | cons t rounds ih =>
    rw [chainFrom] at h
    obtain ⟨_, _, ⟨⟩, h⟩ := bind_eq_ok h
    cases hop : opAt L c.kind with
    | none =>
      rw [hop] at h
      cases h
      refine ⟨[], rfl, by rwa [List.append_nil], hends.call, hends.index, fun M hM hlt => ?_⟩
      by_cases heq : M = L
      · exact heq ▸ hop
      · exact hends.operator M (by omega) hlt
    | some op =>
      rw [hop] at h
      obtain ⟨t', c₁, ht', h⟩ := bind_eq_ok h
      have hc : c.kind ≠ .eof := by
        intro hc
        obtain rfl | rfl | rfl : L = 0 ∨ L = 1 ∨ L = 2 := by omega
        all_goals
          rw [hc] at hop
          cases hop
      obtain ⟨hrest, rfl⟩ := advance_eq_ok hc ht'
      obtain ⟨right, c₂, hright, h⟩ := bind_eq_ok h
      obtain ⟨ts, hts, hr, hends'⟩ := hoperand hright
      rw [hrest, hts, List.length_cons, List.length_cons, List.length_append] at hrounds
      obtain ⟨ts', hts', he, hends''⟩ :=
        ih (by omega) (.binary hL hop hleft hr) hends' h
      refine ⟨c.current :: (ts ++ ts'), by rw [hrest, hts, hts']; simp, ?_, hends''⟩
      simpa using he

theorem chain_gives {L : Nat} (hL : L < 3) {operand : Parser Expr}
    (hoperand : GivesExpr operand (L + 1)) : GivesExpr (chain (opAt L) operand) L := by
  intro c e c' h
  rw [chain] at h
  obtain ⟨left, c₁, hleft, h⟩ := bind_eq_ok h
  obtain ⟨ts, hts, hl, hends⟩ := hoperand hleft
  obtain ⟨_, _, ⟨⟩, h⟩ := bind_eq_ok h
  obtain ⟨ts', hts', he, hends'⟩ :=
    chainFrom_isExpr hL hoperand _ (Nat.le_refl _) (.looser (by omega) hl) hends h
  exact ⟨ts ++ ts', by rw [hts, hts', List.append_assoc], he, hends'⟩

/-- **The reader of expressions gives expressions**, and reads them to their ends. -/
theorem expressionWithin_gives (depth : List Token) : GivesExpr (expressionWithin depth) 0 := by
  induction depth with
  | nil =>
    intro c e c' h
    cases h
  | cons t depth ih =>
    have hunary : GivesExpr (unary (expressionWithin depth)) 3 := by
      intro c e c' h
      obtain ⟨_, _, ⟨⟩, h⟩ := bind_eq_ok h
      exact unaryFrom_gives ih _ h
    exact chain_gives (by decide) (chain_gives (by decide) (chain_gives (by decide) hunary))

theorem expression_gives : GivesExpr expression 0 := by
  intro c e c' h
  obtain ⟨_, _, ⟨⟩, h⟩ := bind_eq_ok h
  exact expressionWithin_gives _ h

end Expressions

/-! ## Parts of statements -/

section Parts

variable {c c' : Cursor}

theorem typeTag_eq_ok {tag : TypeTag} (h : typeTag c = .ok (tag, c')) :
    ∃ t, c.rest = t :: c'.rest ∧ typeTag? t.kind = some tag := by
  rw [typeTag] at h
  obtain ⟨_, _, ⟨⟩, h⟩ := bind_eq_ok h
  cases htag : typeTag? c.kind with
  | none =>
    rw [htag] at h
    cases h
  | some tag' =>
    rw [htag] at h
    obtain ⟨t, c₁, ht, h⟩ := bind_eq_ok h
    have hc : c.kind ≠ .eof := by
      intro hc
      rw [hc] at htag
      cases htag
    obtain ⟨hrest, rfl⟩ := advance_eq_ok hc ht
    cases h
    exact ⟨c.current, hrest, htag⟩

theorem typeAfter_isType {mark : Symbol} {type : Option TypeTag}
    (h : typeAfter mark c = .ok (type, c')) : ∃ ts, c.rest = ts ++ c'.rest ∧ IsType mark ts type := by
  rw [typeAfter] at h
  obtain ⟨b, c₁, hmark, h⟩ := bind_eq_ok h
  rcases eat_eq_ok (.symbol _) hmark with ⟨rfl, m, hrest, hkind⟩ | ⟨rfl, rfl, -⟩
  · rw [if_pos rfl] at h
    obtain ⟨tag, c₂, htag, h⟩ := bind_eq_ok h
    obtain ⟨t, hrest', ht⟩ := typeTag_eq_ok htag
    cases h
    exact ⟨[m, t], by rw [hrest, hrest']; rfl, .given hkind ht⟩
  · rw [if_neg Bool.false_ne_true] at h
    cases h
    exact ⟨[], rfl, .absent⟩

theorem param_isParam {c c' : Cursor} {p : Param} (h : param c = .ok (p, c')) :
    ∃ ts, c.rest = ts ++ c'.rest ∧ IsParam ts p := by
  rw [param] at h
  obtain ⟨⟨name, s⟩, c₁, hname, h⟩ := bind_eq_ok h
  obtain ⟨t, hrest, ht, rfl⟩ := expectIdent_eq_ok hname
  obtain ⟨type, c₂, htype, h⟩ := bind_eq_ok h
  obtain ⟨ts, hts, hisType⟩ := typeAfter_isType htype
  cases h
  exact ⟨t :: ts, by rw [hrest, hts]; rfl, .mk ht hisType⟩

theorem params_isParams {ps : List Param} (h : params c = .ok (ps, c')) :
    ∃ ts, c.rest = ts ++ c'.rest ∧ IsParams ts ps := by
  rw [params] at h
  obtain ⟨opening, c₁, hopening, h⟩ := bind_eq_ok h
  obtain ⟨hrest, hkind⟩ := expect_eq_ok (.symbol _) hopening
  obtain ⟨⟨ps', s⟩, c₂, hps, h⟩ := bind_eq_ok h
  obtain ⟨parts, ts, closing, hts, hclosing, rfl, rfl, hparts, hlist⟩ :=
    commaSeparated_listed param_isParam hps
  cases hrepeated : repeatedParam? [] (parts.map (·.2)) with
  | some p =>
    simp only [hrepeated] at h
    cases h
  | none =>
    simp only [hrepeated] at h
    cases h
    exact ⟨_, by rw [hrest, hts]; simp, .mk hkind hclosing hparts hlist hrepeated⟩

end Parts

/-! ## Blocks -/

section Blocks

variable {inner : Parser Stmt} {c c' : Cursor}

/-- `inner` gives statements. -/
def GivesStmt (inner : Parser Stmt) : Prop :=
  ∀ ⦃c s c'⦄, inner c = .ok (s, c') →
    ∃ ts, c.rest = ts ++ c'.rest ∧ IsConstruct ts c'.current (.stmt s)

theorem current_eq_headD {ts : List Token} (h : c.rest = ts ++ c'.rest) :
    c.current = ts.headD c'.current := by
  rw [Cursor.current, Cursor.current, h]
  cases ts <;> rfl

/-- Statements in sequence. The loop has a round for every token that is left, so it ends where it has
come to something that ends it. -/
theorem stmtsUntil_inSequence (hinner : GivesStmt inner) {ends : Cursor → Bool}
    (hends : ∀ c : Cursor, c.rest = [] → ends c = true) (rounds : List Token) {ss : List Stmt}
    (hrounds : c.rest.length ≤ rounds.length) (h : stmtsUntil ends inner rounds c = .ok (ss, c')) :
    ∃ parts ts, c.rest = ts ++ c'.rest ∧ ends c' = true ∧ ss = parts.map (·.stmt) ∧
      (∀ p ∈ parts, IsConstruct p.tokens p.next (.stmt p.stmt)) ∧
      InSequence c'.current parts ts := by
  induction rounds generalizing c ss with
  | nil =>
    have hrest := List.eq_nil_of_length_eq_zero (Nat.le_zero.1 hrounds)
    cases h
    exact ⟨[], [], rfl, hends _ hrest, rfl, nofun, .nil⟩
  | cons t rounds ih =>
    rw [stmtsUntil] at h
    obtain ⟨b, c₁, hmark, h⟩ := bind_eq_ok h
    rcases eat_eq_ok (.symbol _) hmark with ⟨rfl, semicolon, hrest, hkind⟩ | ⟨rfl, rfl, -⟩
    · rw [if_pos rfl] at h
      rw [hrest, List.length_cons, List.length_cons] at hrounds
      obtain ⟨parts, ts, hts, hend, hss, hparts, hseq⟩ := ih (by omega) h
      exact ⟨parts, semicolon :: ts, by rw [hrest, hts]; rfl, hend, hss, hparts,
        .semicolon hkind hseq⟩
    rw [if_neg Bool.false_ne_true] at h
    obtain ⟨_, _, ⟨⟩, h⟩ := bind_eq_ok h
    split at h
    · next hend =>
      cases h
      exact ⟨[], [], rfl, hend, rfl, nofun, .nil⟩
    obtain ⟨s, c₂, hs, h⟩ := bind_eq_ok h
    obtain ⟨more, c₃, hmore, h⟩ := bind_eq_ok h
    cases h
    rw [terminated] at hs
    obtain ⟨s', c₄, hs', hs⟩ := bind_eq_ok hs
    obtain ⟨ts, hts, hisStmt⟩ := hinner hs'
    have hpos := List.length_pos_iff.2 hisStmt.ne_nil
    rw [hts, List.length_append, List.length_cons] at hrounds
    obtain ⟨b, c₅, hsemicolon, hs⟩ := bind_eq_ok hs
    cases hs
    -- a semicolon behind the statement is one of the sequence
    have hafter : ∃ parts ts', c₄.rest = ts' ++ c'.rest ∧ ends c' = true ∧
        more = parts.map (·.stmt) ∧
        (∀ p ∈ parts, IsConstruct p.tokens p.next (.stmt p.stmt)) ∧
        InSequence c'.current parts ts' := by
      rcases eat_eq_ok (.symbol _) hsemicolon with ⟨-, semicolon, hrest, hkind⟩ | ⟨-, rfl, -⟩
      · rw [hrest, List.length_cons] at hrounds
        obtain ⟨parts, ts', hts', hend, hmore, hparts, hseq⟩ := ih (by omega) hmore
        exact ⟨parts, semicolon :: ts', by rw [hrest, hts']; rfl, hend, hmore, hparts,
          .semicolon hkind hseq⟩
      · exact ih (by omega) hmore
    obtain ⟨parts, ts', hts', hend, rfl, hparts, hseq⟩ := hafter
    refine ⟨⟨ts, c₄.current, s⟩ :: parts, ts ++ ts', by rw [hts, hts', List.append_assoc], hend, rfl,
      List.forall_mem_cons.2 ⟨hisStmt, hparts⟩, .cons _ (current_eq_headD hts') hseq⟩

theorem block_isBlock (hinner : GivesStmt inner) {b : Block} (h : block inner c = .ok (b, c')) :
    ∃ ts, c.rest = ts ++ c'.rest ∧ ∀ next, IsConstruct ts next (.block b) := by
  replace h := within_eq_ok h
  obtain ⟨opening, c₁, hopening, h⟩ := bind_eq_ok h
  obtain ⟨hrest, hkind⟩ := expect_eq_ok (.symbol _) hopening
  obtain ⟨_, _, ⟨⟩, h⟩ := bind_eq_ok h
  obtain ⟨ss, c₂, hss, h⟩ := bind_eq_ok h
  have hends : ∀ c : Cursor, c.rest = [] → (c.check (.symbol .rightBrace) || c.atEnd) = true := by
    intro c hc
    simp [Cursor.atEnd, Cursor.kind, Cursor.current, hc, Token.endAt]
  obtain ⟨parts, ts, hts, -, rfl, hparts, hseq⟩ :=
    stmtsUntil_inSequence hinner hends _ (Nat.le_refl _) hss
  obtain ⟨s, c₃, hclosing, h⟩ := bind_eq_ok h
  obtain ⟨closing, hrest', hclose, rfl⟩ := expectClosing_eq_ok (.symbol _) hclosing
  cases h
  have hlast : c₂.current = closing := by
    rw [Cursor.current, hrest']
    rfl
  rw [hlast] at hseq
  exact ⟨opening :: (ts ++ [closing]), by rw [hrest, hts, hrest']; simp, fun next =>
    .block hkind hclose hparts hseq⟩

end Blocks

/-! ## The forms of statements -/

section Forms

variable {inner : Parser Stmt} {c c' : Cursor} {s : Stmt}

theorem letBinding_isStmt (hc : c.kind = .keyword .letWord) (h : letBinding c = .ok (s, c')) :
    ∃ ts, c.rest = ts ++ c'.rest ∧ IsConstruct ts c'.current (.stmt s) := by
  rw [letBinding] at h
  obtain ⟨start, c₁, hstart, h⟩ := bind_eq_ok h
  obtain ⟨hrest, rfl⟩ := advance_eq_ok (by rw [hc]; simp) hstart
  obtain ⟨⟨name, place⟩, c₂, hname, h⟩ := bind_eq_ok h
  obtain ⟨t, hrest₁, ht, -⟩ := expectIdent_eq_ok hname
  obtain ⟨type, c₃, htype, h⟩ := bind_eq_ok h
  obtain ⟨ts, hts, hisType⟩ := typeAfter_isType htype
  obtain ⟨equals, c₄, hequals, h⟩ := bind_eq_ok h
  obtain ⟨hrest₃, hkind⟩ := expect_eq_ok (.symbol _) hequals
  obtain ⟨value, c₅, hvalue, h⟩ := bind_eq_ok h
  obtain ⟨ts', hts', hisValue, hends⟩ := expression_gives hvalue
  cases h
  exact ⟨_, by rw [hrest, hrest₁, hts, hrest₃, hts']; simp,
    .define hc ht hisType hkind hisValue hends⟩

theorem functionDefinition_isStmt (hinner : GivesStmt inner) (hc : c.kind = .keyword .fnWord)
    (h : functionDefinition inner c = .ok (s, c')) :
    ∃ ts, c.rest = ts ++ c'.rest ∧ IsConstruct ts c'.current (.stmt s) := by
  rw [functionDefinition] at h
  obtain ⟨start, c₁, hstart, h⟩ := bind_eq_ok h
  obtain ⟨hrest, rfl⟩ := advance_eq_ok (by rw [hc]; simp) hstart
  obtain ⟨⟨name, place⟩, c₂, hname, h⟩ := bind_eq_ok h
  obtain ⟨t, hrest₁, ht, -⟩ := expectIdent_eq_ok hname
  obtain ⟨ps, c₃, hps, h⟩ := bind_eq_ok h
  obtain ⟨ts, hts, hparams⟩ := params_isParams (within_eq_ok hps)
  obtain ⟨type, c₄, htype, h⟩ := bind_eq_ok h
  obtain ⟨ts₁, hts₁, hisType⟩ := typeAfter_isType htype
  obtain ⟨body, c₅, hbody, h⟩ := bind_eq_ok h
  obtain ⟨ts₂, hts₂, hisBlock⟩ := block_isBlock hinner hbody
  cases h
  exact ⟨_, by rw [hrest, hrest₁, hts, hts₁, hts₂]; simp,
    .function hc ht hparams hisType (hisBlock _)⟩

theorem ifStatement_isStmt (hinner : GivesStmt inner) (hc : c.kind = .keyword .ifWord)
    (h : ifStatement inner c = .ok (s, c')) :
    ∃ ts, c.rest = ts ++ c'.rest ∧ IsConstruct ts c'.current (.stmt s) := by
  rw [ifStatement] at h
  obtain ⟨start, c₁, hstart, h⟩ := bind_eq_ok h
  obtain ⟨hrest, rfl⟩ := advance_eq_ok (by rw [hc]; simp) hstart
  obtain ⟨condition, c₂, hcondition, h⟩ := bind_eq_ok h
  obtain ⟨cs, hcs, hisCondition, -⟩ := expression_gives hcondition
  obtain ⟨thenBranch, c₃, hthen, h⟩ := bind_eq_ok h
  obtain ⟨bs, hbs, hisThen⟩ := block_isBlock hinner hthen
  obtain ⟨b, c₄, hother, h⟩ := bind_eq_ok h
  rcases eat_eq_ok (.keyword _) hother with ⟨rfl, other, hrest', hkind⟩ | ⟨rfl, rfl, hno⟩
  · rw [if_pos rfl] at h
    obtain ⟨_, _, ⟨⟩, h⟩ := bind_eq_ok h
    split at h
    · next hif =>
      obtain ⟨nested, c₅, hnested, h⟩ := bind_eq_ok h
      cases h
      obtain ⟨ts, hts, hisNested⟩ := hinner hnested
      obtain ⟨t, ts, rfl⟩ := List.exists_cons_of_ne_nil hisNested.ne_nil
      have ht : t.kind = .keyword .ifWord := by
        have hkind := (IsMark.keyword .ifWord).check_iff.1 hif
        rw [kind_of_rest hts] at hkind
        exact hkind
      exact ⟨_, by rw [hrest, hcs, hbs, hrest', hts]; simp,
        .elseIf hc hisCondition (hisThen _) hkind ht hisNested⟩
    · obtain ⟨elseBranch, c₅, helse, h⟩ := bind_eq_ok h
      cases h
      obtain ⟨bs', hbs', hisElse⟩ := block_isBlock hinner helse
      exact ⟨_, by rw [hrest, hcs, hbs, hrest', hbs']; simp,
        .ifElse hc hisCondition (hisThen _) hkind (hisElse _)⟩
  · rw [if_neg Bool.false_ne_true] at h
    cases h
    exact ⟨_, by rw [hrest, hcs, hbs]; simp, .ifThen hc hisCondition (hisThen _) hno⟩

theorem forLoop_isStmt (hinner : GivesStmt inner) (hc : c.kind = .keyword .forWord)
    (h : forLoop inner c = .ok (s, c')) :
    ∃ ts, c.rest = ts ++ c'.rest ∧ IsConstruct ts c'.current (.stmt s) := by
  rw [forLoop] at h
  obtain ⟨start, c₁, hstart, h⟩ := bind_eq_ok h
  obtain ⟨hrest, rfl⟩ := advance_eq_ok (by rw [hc]; simp) hstart
  obtain ⟨⟨first, place⟩, c₂, hfirst, h⟩ := bind_eq_ok h
  obtain ⟨t, hrest₁, ht, -⟩ := expectIdent_eq_ok hfirst
  -- whether one name is read or two, the rest is the same
  have rest : ∀ {second : Option String} {c₃ : Cursor} {ns : List Token}, c₁.rest = ns ++ c₃.rest →
      IsNames ns first second →
      (do
        let _ ← expect (.keyword .inWord)
        let iterable ← expression
        let body ← block inner
        return Stmt.forEach first second iterable body (c.current.span.merge body.span)) c₃ =
        .ok (s, c') →
      ∃ ts, c.rest = ts ++ c'.rest ∧ IsConstruct ts c'.current (.stmt s) := by
    intro second c₃ ns hns hnames h
    obtain ⟨word, c₄, hword, h⟩ := bind_eq_ok h
    obtain ⟨hrest₃, hkind⟩ := expect_eq_ok (.keyword _) hword
    obtain ⟨iterable, c₅, hiterable, h⟩ := bind_eq_ok h
    obtain ⟨cs, hcs, hisIterable, -⟩ := expression_gives hiterable
    obtain ⟨body, c₆, hbody, h⟩ := bind_eq_ok h
    obtain ⟨bs, hbs, hisBody⟩ := block_isBlock hinner hbody
    cases h
    exact ⟨_, by rw [hrest, hns, hrest₃, hcs, hbs]; simp,
      .forEach hc hnames hkind hisIterable (hisBody _)⟩
  obtain ⟨b, c₃, hcomma, h⟩ := bind_eq_ok h
  rcases eat_eq_ok (.symbol _) hcomma with ⟨rfl, comma, hrest', hkind⟩ | ⟨rfl, rfl, -⟩
  · rw [if_pos rfl] at h
    obtain ⟨⟨second, place'⟩, c₄, hsecond, h⟩ := bind_eq_ok h
    obtain ⟨t', hrest₂, ht', -⟩ := expectIdent_eq_ok hsecond
    have hnames : IsNames [t, comma, t'] first (some second) := .two ht hkind ht'
    exact rest (by rw [hrest₁, hrest', hrest₂]; rfl) hnames h
  · rw [if_neg Bool.false_ne_true] at h
    have hnames : IsNames [t] first none := .one ht
    exact rest hrest₁ hnames h

theorem returnStatement_isStmt (hc : c.kind = .keyword .returnWord)
    (h : returnStatement c = .ok (s, c')) :
    ∃ ts, c.rest = ts ++ c'.rest ∧ IsConstruct ts c'.current (.stmt s) := by
  rw [returnStatement] at h
  obtain ⟨start, c₁, hstart, h⟩ := bind_eq_ok h
  obtain ⟨hrest, rfl⟩ := advance_eq_ok (by rw [hc]; simp) hstart
  obtain ⟨_, _, ⟨⟩, h⟩ := bind_eq_ok h
  split at h
  · next hends =>
    cases h
    simp only [Bool.or_eq_true, check_symbol, decide_eq_true_eq, Cursor.atEnd] at hends
    refine ⟨[c.current], hrest, .returnNothing hc ?_⟩
    rcases hends with ((hend | hline) | hbrace) | hsemicolon
    · exact .inl hend
    · exact .inr (.inl hline)
    · exact .inr (.inr (.inl hbrace))
    · exact .inr (.inr (.inr hsemicolon))
  · next hgoes =>
    obtain ⟨value, c₂, hvalue, h⟩ := bind_eq_ok h
    obtain ⟨ts, hts, hisValue, hends⟩ := expression_gives hvalue
    cases h
    obtain ⟨t, ts, rfl⟩ := List.exists_cons_of_ne_nil hisValue.ne_nil
    have hline : t.newlineBefore = false := by
      simp only [Bool.or_eq_true, not_or, Bool.not_eq_true] at hgoes
      have hstart := hgoes.1.1.2
      rw [Cursor.atLineStart, Cursor.current, hts] at hstart
      exact hstart
    exact ⟨_, by rw [hrest, hts]; rfl, .returnValue hc hline hisValue hends⟩

theorem delStatement_isStmt (hc : c.kind = .keyword .delWord) (h : delStatement c = .ok (s, c')) :
    ∃ ts, c.rest = ts ++ c'.rest ∧ IsConstruct ts c'.current (.stmt s) := by
  rw [delStatement] at h
  obtain ⟨start, c₁, hstart, h⟩ := bind_eq_ok h
  obtain ⟨hrest, rfl⟩ := advance_eq_ok (by rw [hc]; simp) hstart
  obtain ⟨⟨name, place⟩, c₂, hname, h⟩ := bind_eq_ok h
  obtain ⟨t, hrest₁, ht, rfl⟩ := expectIdent_eq_ok hname
  cases h
  exact ⟨[c.current, t], by rw [hrest, hrest₁]; rfl, .delete hc ht⟩

theorem expressionOrAssignment_isStmt (h : expressionOrAssignment c = .ok (s, c')) :
    ∃ ts, c.rest = ts ++ c'.rest ∧ IsConstruct ts c'.current (.stmt s) := by
  rw [expressionOrAssignment] at h
  obtain ⟨target, c₁, htarget, h⟩ := bind_eq_ok h
  obtain ⟨ts, hts, hisTarget, hends⟩ := expression_gives htarget
  obtain ⟨_, _, ⟨⟩, h⟩ := bind_eq_ok h
  split at h
  · next hcheck =>
    have hkind := (IsMark.symbol .assign).check_iff.1 hcheck
    replace h := within_eq_ok h
    split at h
    · next hassignable =>
      obtain ⟨equals, c₂, hequals, h⟩ := bind_eq_ok h
      obtain ⟨hrest, rfl⟩ := advance_eq_ok (by rw [hkind]; simp) hequals
      obtain ⟨value, c₃, hvalue, h⟩ := bind_eq_ok h
      obtain ⟨ts', hts', hisValue, hends'⟩ := expression_gives hvalue
      cases h
      refine ⟨_, ?_, .assign hisTarget hkind hisValue hends' ?_⟩
      · rw [hts, hrest, hts']
        simp
      · cases target <;> first | rfl | cases hassignable
    · cases h
  · next hcheck =>
    cases h
    refine ⟨ts, hts, .expr hisTarget hends fun hkind => hcheck ?_⟩
    exact (IsMark.symbol .assign).check_iff.2 hkind

theorem statementForm_gives (hinner : GivesStmt inner) : GivesStmt (statementForm inner) := by
  intro c s c' h
  rw [statementForm] at h
  obtain ⟨_, _, ⟨⟩, h⟩ := bind_eq_ok h
  cases hc : c.kind with
  | keyword w =>
    rw [hc] at h
    cases w with
    | letWord => exact letBinding_isStmt hc (within_eq_ok h)
    | fnWord => exact functionDefinition_isStmt hinner hc (within_eq_ok h)
    | ifWord => exact ifStatement_isStmt hinner hc (within_eq_ok h)
    | forWord => exact forLoop_isStmt hinner hc (within_eq_ok h)
    | returnWord => exact returnStatement_isStmt hc (within_eq_ok h)
    | delWord => exact delStatement_isStmt hc (within_eq_ok h)
    | _ => exact expressionOrAssignment_isStmt h
  | _ =>
    rw [hc] at h
    exact expressionOrAssignment_isStmt h

/-- **The reader of statements gives statements.** -/
theorem statementWithin_gives (depth : List Token) : GivesStmt (statementWithin depth) := by
  induction depth with
  | nil =>
    intro c s c' h
    cases h
  | cons t depth ih =>
    intro c s c' h
    exact statementForm_gives ih h

end Forms

/-! ## Programs -/

/-- The reader of programs stops at the end of the text, and what it has passed are statements in
sequence. -/
theorem program_splits {c c' : Cursor} {b : Block} (h : program c = .ok (b, c')) :
    ∃ ts parts, c.rest = ts ++ c'.rest ∧ c'.atEnd = true ∧
      (∀ p ∈ parts, IsConstruct p.tokens p.next (.stmt p.stmt)) ∧ InSequence c'.current parts ts ∧
      b = .mk (parts.map (·.stmt)) (c.current.span.merge c'.current.span) := by
  rw [program] at h
  obtain ⟨_, _, ⟨⟩, h⟩ := bind_eq_ok h
  obtain ⟨ss, c₁, hss, h⟩ := bind_eq_ok h
  have hends : ∀ c : Cursor, c.rest = [] → c.atEnd = true := by
    intro c hc
    simp [Cursor.atEnd, Cursor.kind, Cursor.current, hc, Token.endAt]
  obtain ⟨parts, ts, hts, hend, rfl, hparts, hseq⟩ :=
    stmtsUntil_inSequence (statementWithin_gives _) hends _ (Nat.le_refl _) hss
  obtain ⟨_, _, ⟨⟩, h⟩ := bind_eq_ok h
  cases h
  exact ⟨ts, parts, hts, hend, hparts, hseq, rfl⟩

/-- **The reader of programs gives programs**, and reads them to the end of the text. -/
theorem program_gives {c c' : Cursor} {b : Block} (h : program c = .ok (b, c')) :
    c'.atEnd = true ∧ IsProgram c.rest b := by
  obtain ⟨ts, parts, hts, hend, hparts, hseq, rfl⟩ := program_splits h
  have hlast : (firstOf c'.rest).kind = .eof := of_decide_eq_true hend
  have hprogram := IsProgram.mk hlast hparts hseq
  rw [← hts] at hprogram
  exact ⟨hend, hprogram⟩

/-- What reading some tokens comes down to. -/
theorem parse_eq_ok_iff {tokens : List Token} {b : Block} :
    parse tokens = .ok b ↔ ∃ c', program (Cursor.ofTokens tokens) = .ok (b, c') := by
  have hrun : parse tokens = (program (Cursor.ofTokens tokens)).map (·.1) := rfl
  rw [hrun]
  cases program (Cursor.ofTokens tokens) with
  | error e => simp [Except.map]
  | ok r =>
    obtain ⟨b', c'⟩ := r
    simp [Except.map]

theorem parse_eq_error_iff {tokens : List Token} {e : ParseError} :
    parse tokens = .error e ↔ program (Cursor.ofTokens tokens) = .error e := by
  have hrun : parse tokens = (program (Cursor.ofTokens tokens)).map (·.1) := rfl
  rw [hrun]
  cases program (Cursor.ofTokens tokens) <;> simp [Except.map]

end Nikl.Parser

namespace Nikl

open Nikl.Parser

/-- **What is read as a program is one.** -/
theorem isProgram_of_parse {tokens : List Token} {b : Block} (h : parse tokens = .ok b) :
    IsProgram tokens b := by
  obtain ⟨c', hrun⟩ := parse_eq_ok_iff.1 h
  exact (program_gives hrun).2

end Nikl
