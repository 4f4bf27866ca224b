import Nikl.Proofs.Syntax.Taking

/-
Every expression of the grammar is read. The loops of a level of operators and of calls are followed to
the point where the whole expression stands on their left, as they are for trees that are written out.

Readers nest as deep as they are allowed to, and what stands between delimiters has fewer tokens than the
whole. So the induction is on the number of levels, and at each level on the grammar (`TakesShort`).
-/

set_option autoImplicit false

namespace Nikl.Parser

/-! ## Levels -/

/-- The reader of a level of operators comes to the point where `e` stands on the left. -/
def ChainTakes (inner : Parser Expr) (L : Nat) (ts : List Token) (e : Expr) : Prop :=
  ∀ (rest : List Token) (previous : Span), EndsExpr (L + 1) (firstOf rest) →
    ∃ rounds previous', rest.length ≤ rounds.length ∧
      readerAt inner L ⟨ts ++ rest, previous⟩ =
        chainFrom (opAt L) (readerAt inner (L + 1)) rounds e ⟨rest, previous'⟩

/-- The reader of signs reads `e`. -/
def SignTakes (inner : Parser Expr) (ts : List Token) (e : Expr) : Prop :=
  ∀ rounds : List Token, ts.length ≤ rounds.length →
    Takes (unaryFrom inner rounds) ts (EndsExpr 3) e

/-- The reader of calls and indices comes to the point where the next one applies to `e`. -/
def SuffixTakes (inner : Parser Expr) (ts : List Token) (e : Expr) : Prop :=
  ∀ (rest : List Token) (previous : Span), ∃ rounds previous', rest.length ≤ rounds.length ∧
    suffixed inner ⟨ts ++ rest, previous⟩ = suffixesFrom inner rounds e ⟨rest, previous'⟩

/-- The reader of a level comes to `e`. -/
def LevelTakes (inner : Parser Expr) (L : Nat) (ts : List Token) (e : Expr) : Prop :=
  if L < 3 then ChainTakes inner L ts e
  else if L = 3 then SignTakes inner ts e
  else if L = 4 then SuffixTakes inner ts e
  else Takes (primary inner) ts (fun _ => True) e

section Levels

variable {inner : Parser Expr} {L : Nat} {ts : List Token} {e : Expr}

theorem levelTakes_chain (hL : L < 3) : LevelTakes inner L ts e ↔ ChainTakes inner L ts e := by
  rw [LevelTakes, if_pos hL]

theorem levelTakes_three : LevelTakes inner 3 ts e ↔ SignTakes inner ts e := Iff.rfl

theorem levelTakes_four : LevelTakes inner 4 ts e ↔ SuffixTakes inner ts e := Iff.rfl

theorem levelTakes_five :
    LevelTakes inner 5 ts e ↔ Takes (primary inner) ts (fun _ => True) e := Iff.rfl

/-- Behind the last operator of a level, the expression is read. -/
theorem ChainTakes.takes (hL : L < 3) (h : ChainTakes inner L ts e) :
    Takes (readerAt inner L) ts (EndsExpr L) e := by
  intro rest previous hends
  obtain ⟨rounds, previous₁, -, hrun⟩ := h rest previous (hends.mono (Nat.le_succ L))
  have hstop : Takes (chainFrom (opAt L) (readerAt inner (L + 1)) rounds e) [] (EndsExpr L) e := by
    cases rounds with
    | nil => exact Takes.pure e
    | cons r rounds =>
      refine Takes.get_nil fun c hc => ?_
      have hop : opAt L c.kind = none := hc.operator L (Nat.le_refl L) hL
      rw [hop]
      exact Takes.pure e
  rw [hrun]
  exact hstop rest previous₁ hends

/-- Behind the last call or index, the expression is read. -/
theorem SuffixTakes.takes (h : SuffixTakes inner ts e) :
    Takes (suffixed inner) ts (EndsExpr 4) e := by
  intro rest previous hends
  obtain ⟨rounds, previous₁, -, hrun⟩ := h rest previous
  have hstop : Takes (suffixesFrom inner rounds e) [] (EndsExpr 4) e := by
    cases rounds with
    | nil => exact Takes.pure e
    | cons r rounds =>
      refine Takes.get_nil fun c hc => ?_
      split
      · exact Takes.pure e
      next hline =>
      rw [Bool.not_eq_true] at hline
      rw [if_neg fun hcheck => hc.call hline ((IsMark.symbol _).check_iff.1 hcheck),
        if_neg fun hcheck => hc.index hline ((IsMark.symbol _).check_iff.1 hcheck)]
      exact Takes.pure e
  rw [hrun]
  exact hstop rest previous₁ hends

/-- What a level comes to is read at that level. -/
theorem LevelTakes.takes (hL : L ≤ 4) (h : LevelTakes inner L ts e) :
    Takes (readerAt inner L) ts (EndsExpr L) e := by
  obtain hlt | rfl | rfl : L < 3 ∨ L = 3 ∨ L = 4 := by omega
  · exact ((levelTakes_chain hlt).1 h).takes hlt
  · exact Takes.get_rest fun c hlen => (levelTakes_three.1 h) c.rest hlen
  · exact (levelTakes_four.1 h).takes

/-- The first operand of a chain. -/
theorem chainTakes_of_takes (hL : L < 3) (h : Takes (readerAt inner (L + 1)) ts (EndsExpr (L + 1)) e) :
    ChainTakes inner L ts e := by
  intro rest previous hends
  obtain ⟨previous', hrun⟩ := h rest previous hends
  refine ⟨rest, previous', Nat.le_refl _, ?_⟩
  rw [readerAt_eq_chain inner hL]
  exact run_bind hrun

/-- No sign comes before what hangs together more strongly. -/
theorem SuffixTakes.signTakes (hbegins : ∃ t ts', ts = t :: ts' ∧ unaryOp? t.kind = none)
    (h : SuffixTakes inner ts e) : SignTakes inner ts e := by
  have hread : Takes (suffixed inner) ts (EndsExpr 3) e :=
    h.takes.weaken fun t ht => ht.mono (by decide)
  intro rounds _
  cases rounds with
  | nil => exact hread
  | cons r rounds =>
    obtain ⟨t, ts', rfl, ht⟩ := hbegins
    refine Takes.get_cons fun c hc _ => ?_
    have hsign : unaryOp? c.kind = none := by rw [Cursor.kind, hc, ht]
    rw [hsign]
    exact hread

/-- A primary form stands on the left of the calls and indices behind it. -/
theorem suffixTakes_of_primary (h : Takes (primary inner) ts (fun _ => True) e) :
    SuffixTakes inner ts e := by
  intro rest previous
  obtain ⟨previous', hrun⟩ := h rest previous trivial
  exact ⟨rest, previous', Nat.le_refl _, run_bind hrun⟩

/-- What a level comes to, the next looser one does too. -/
theorem LevelTakes.looser (hL : L < 5) (he : IsExpr (L + 1) ts e) (h : LevelTakes inner (L + 1) ts e) :
    LevelTakes inner L ts e := by
  obtain hlt | rfl | rfl : L < 3 ∨ L = 3 ∨ L = 4 := by omega
  · exact (levelTakes_chain hlt).2 (chainTakes_of_takes hlt (h.takes (by omega)))
  · obtain ⟨t, ts', hts, -, hsign⟩ := he.begins
    exact levelTakes_three.2 ((levelTakes_four.1 h).signTakes ⟨t, ts', hts, hsign (Nat.le_refl 4)⟩)
  · exact levelTakes_four.2 (suffixTakes_of_primary (levelTakes_five.1 h))

end Levels

/-! ## Where parts of an expression end -/

/-- A token of a kind at which every expression ends, ends one. -/
theorem Stops.endsExpr {L : Nat} {t : Token} (h : Stops L t.kind) : EndsExpr L t :=
  ⟨fun _ => h.paren, fun _ => h.bracket, h.operator⟩

theorem endsExpr_mark {L : Nat} {t : Token} {s : Symbol} (ht : t.kind = .symbol s)
    (hs : s ∈ [Symbol.comma, .colon, .semicolon, .assign, .rightParen, .rightBracket, .rightBrace,
      .leftBrace]) : EndsExpr L t := by
  have hstops : Stops 0 t.kind := ht ▸ stops_mark hs
  exact (hstops.mono (Nat.zero_le L)).endsExpr

theorem opAt_eq_some {L : Nat} {k : TokenKind} {op : BinaryOp} (h : opAt L k = some op) :
    k = op.token := by
  unfold opAt at h
  split at h
  · unfold comparisonOp? at h
    split at h <;> cases h <;> rfl
  · unfold additiveOp? at h
    split at h <;> cases h <;> rfl
  · unfold multiplicativeOp? at h
    split at h <;> cases h <;> rfl

theorem opAt_level {L : Nat} {k : TokenKind} {op : BinaryOp} (hL : L < 3) (h : opAt L k = some op) :
    op.level = L := by
  obtain rfl | rfl | rfl : L = 0 ∨ L = 1 ∨ L = 2 := by omega
  all_goals
    cases opAt_eq_some h
    cases op <;> first | rfl | cases h

/-- An operator ends its left operand. -/
theorem endsExpr_operator {L : Nat} {t : Token} {op : BinaryOp} (hL : L < 3)
    (h : opAt L t.kind = some op) : EndsExpr (L + 1) t := by
  have hstops := stops_operator op
  rw [opAt_level hL h, ← opAt_eq_some h] at hstops
  exact hstops.endsExpr

/-! ## Forms between delimiters -/

/-- `inner` takes every expression of fewer than `n` tokens. -/
def TakesShort (inner : Parser Expr) (n : Nat) : Prop :=
  ∀ ⦃ts e⦄, IsExpr 0 ts e → ts.length < n → Takes inner ts (EndsExpr 0) e

section Delimited

variable {inner : Parser Expr} {n : Nat} {ts ts' : List Token} {opening comma closing t : Token}
  {parts : List (List Token × Expr)} {e : Expr}

theorem endsExpr_item {close : Symbol} (hclose : close ∈ [Symbol.rightParen, .rightBracket, .rightBrace])
    (ht : EndsItem close t) : EndsExpr 0 t := by
  rcases ht with ht | ht
  · exact endsExpr_mark ht (by decide)
  · refine endsExpr_mark ht ?_
    simp only [List.mem_cons, List.not_mem_nil, or_false] at hclose
    rcases hclose with rfl | rfl | rfl <;> decide

/-- No expression begins with a closing delimiter. -/
theorem beginsItem_of_isExpr {L : Nat} (close : Symbol)
    (hclose : close ∈ [Symbol.rightParen, .rightBracket, .rightBrace]) (h : IsExpr L ts e) :
    ∃ t ts', ts = t :: ts' ∧ BeginsItem close t := by
  obtain ⟨t, ts', hts, ht, -⟩ := h.begins
  refine ⟨t, ts', hts, beginsExpr_ne ht ?_, beginsExpr_ne_eof ht⟩
  simp only [List.mem_cons, List.not_mem_nil, or_false] at hclose
  rcases hclose with rfl | rfl | rfl <;> rfl

/-- A list of short expressions with the delimiter that closes it. -/
theorem TakesShort.commaSeparated (short : TakesShort inner n) {opener : Span} {close : Symbol}
    (hclose : close ∈ [Symbol.rightParen, .rightBracket, .rightBrace])
    (hclosing : closing.kind = .symbol close) (hparts : ∀ p ∈ parts, IsExpr 0 p.1 p.2)
    (hlist : Listed parts ts) (hlen : ts.length < n) :
    Takes (commaSeparated opener (.symbol close) inner) (ts ++ [closing]) (fun _ => True)
      (parts.map (·.2), closing.span) := by
  refine takes_commaSeparated (by rintro rfl; simp at hclose) hclosing (fun p hp => ?_)
    (fun p hp => beginsItem_of_isExpr close hclose (hparts p hp)) hlist
  have hle := length_le_listed hlist p hp
  exact (short (hparts p hp) (by omega)).weaken fun _ => endsExpr_item hclose

theorem takes_atom (h : atom? t.kind t.span = some e) : Takes (primary inner) [t] (fun _ => True) e := by
  refine Takes.get_cons fun c hc _ => ?_
  have hatom : atom? c.kind c.span = some e := by rw [Cursor.kind, Cursor.span, hc, h]
  rw [hatom]
  exact Takes.advance (beginsExpr_ne_eof (atom?_begins h).1) (Takes.pure e)

/-- What begins with a parenthesis. -/
theorem takes_parenOrTuple (hopening : opening.kind = .symbol .leftParen)
    (h : Takes (parenOrTuple inner) (opening :: ts) (fun _ => True) e) :
    Takes (primary inner) (opening :: ts) (fun _ => True) e := by
  refine Takes.get_cons fun c hc _ => ?_
  have hkind : c.kind = .symbol .leftParen := by rw [Cursor.kind, hc, hopening]
  rw [hkind]
  exact h

theorem takes_unit (hopening : opening.kind = .symbol .leftParen)
    (hclosing : closing.kind = .symbol .rightParen) :
    Takes (primary inner) [opening, closing] (fun _ => True)
      (.tuple [] (opening.span.merge closing.span)) := by
  refine takes_parenOrTuple hopening (Takes.advance (by rw [hopening]; simp) ?_)
  refine Takes.get_cons fun c hc _ => ?_
  have hcheck : c.check (.symbol .rightParen) = true := by
    rw [check_symbol, Cursor.kind, hc, hclosing]
    rfl
  rw [hcheck]
  exact Takes.advance (by rw [hclosing]; simp) (Takes.pure _)

theorem TakesShort.group (short : TakesShort inner n) (hopening : opening.kind = .symbol .leftParen)
    (hclosing : closing.kind = .symbol .rightParen) (h : IsExpr 0 ts e) (hlen : ts.length < n) :
    Takes (primary inner) (opening :: (ts ++ [closing])) (fun _ => True)
      (e.withSpan (opening.span.merge closing.span)) := by
  obtain ⟨t, ts', hts, ht⟩ := beginsItem_of_isExpr .rightParen (by decide) h
  have hread := short h hlen
  refine takes_parenOrTuple hopening (Takes.advance (by rw [hopening]; simp) ?_)
  rw [hts] at hread ⊢
  refine Takes.get_cons fun c hc _ => ?_
  -- something stands between the parentheses, so they are not an empty tuple
  rw [ht.check hc]
  refine hread.bind (fun _ _ => endsExpr_mark hclosing (by decide)) ?_
  refine Takes.eat_other (.symbol _) (fun _ _ => ?_) ?_
  · rw [List.headD_cons, hclosing]
    simp
  · exact Takes.expectClosing (.symbol _) hclosing (Takes.pure _)

theorem TakesShort.tuple (short : TakesShort inner n) (hopening : opening.kind = .symbol .leftParen)
    (hcomma : comma.kind = .symbol .comma) (hclosing : closing.kind = .symbol .rightParen)
    (hfirst : IsExpr 0 ts e) (hlen : ts.length < n) (hparts : ∀ p ∈ parts, IsExpr 0 p.1 p.2)
    (hlist : Listed parts ts') (hlen' : ts'.length < n) :
    Takes (primary inner) (opening :: (ts ++ comma :: (ts' ++ [closing]))) (fun _ => True)
      (.tuple (e :: parts.map (·.2)) (opening.span.merge closing.span)) := by
  obtain ⟨t, ts₁, hts, ht⟩ := beginsItem_of_isExpr .rightParen (by decide) hfirst
  have hread := short hfirst hlen
  refine takes_parenOrTuple hopening (Takes.advance (by rw [hopening]; simp) ?_)
  rw [hts] at hread ⊢
  refine Takes.get_cons fun c hc _ => ?_
  rw [ht.check hc]
  refine hread.bind (fun _ _ => endsExpr_mark hcomma (by decide)) ?_
  refine Takes.eat (.symbol _) hcomma (Takes.within ?_)
  exact (short.commaSeparated (by decide) hclosing hparts hlist hlen').bind_last
    (fun _ _ => trivial) (Takes.pure _)

theorem TakesShort.array (short : TakesShort inner n) (hopening : opening.kind = .symbol .leftBracket)
    (hclosing : closing.kind = .symbol .rightBracket) (hparts : ∀ p ∈ parts, IsExpr 0 p.1 p.2)
    (hlist : Listed parts ts) (hlen : ts.length < n) :
    Takes (primary inner) (opening :: (ts ++ [closing])) (fun _ => True)
      (.array (parts.map (·.2)) (opening.span.merge closing.span)) := by
  refine Takes.get_cons fun c hc _ => ?_
  have hkind : c.kind = .symbol .leftBracket := by rw [Cursor.kind, hc, hopening]
  rw [hkind]
  refine Takes.within (Takes.advance (by rw [hopening]; simp) ?_)
  exact (short.commaSeparated (by decide) hclosing hparts hlist hlen).bind_last
    (fun _ _ => trivial) (Takes.pure _)

/-- A key and its value. -/
theorem TakesShort.entry (short : TakesShort inner n) {p : EntryPart} (hkey : IsExpr 0 p.key.1 p.key.2)
    (hcolon : p.colon.kind = .symbol .colon) (hvalue : IsExpr 0 p.value.1 p.value.2)
    (hlen : p.whole.1.length < n) : Takes (entry inner) p.whole.1 (EndsExpr 0) p.whole.2 := by
  rw [EntryPart.whole, List.length_append, List.length_cons] at hlen
  refine (short hkey (by omega)).bind (fun _ _ => endsExpr_mark hcolon (by decide)) ?_
  refine Takes.expect (.symbol _) hcolon ?_
  exact (short hvalue (by omega)).bind_last (fun _ ht => ht) (Takes.pure _)

theorem TakesShort.map (short : TakesShort inner n) {entries : List EntryPart}
    (hopening : opening.kind = .symbol .leftBrace) (hclosing : closing.kind = .symbol .rightBrace)
    (hkeys : ∀ p ∈ entries, IsExpr 0 p.key.1 p.key.2)
    (hcolons : ∀ p ∈ entries, p.colon.kind = .symbol .colon)
    (hvalues : ∀ p ∈ entries, IsExpr 0 p.value.1 p.value.2)
    (hlist : Listed (entries.map EntryPart.whole) ts) (hlen : ts.length < n) :
    Takes (primary inner) (opening :: (ts ++ [closing])) (fun _ => True)
      (.map (entries.map (·.whole.2)) (opening.span.merge closing.span)) := by
  refine Takes.get_cons fun c hc _ => ?_
  have hkind : c.kind = .symbol .leftBrace := by rw [Cursor.kind, hc, hopening]
  rw [hkind]
  have hentry : ∀ p ∈ entries.map EntryPart.whole,
      Takes (Parser.entry inner) p.1 (EndsItem .rightBrace) p.2 := by
    intro p hp
    have hle := length_le_listed hlist p hp
    obtain ⟨part, hpart, rfl⟩ := List.mem_map.1 hp
    exact (short.entry (hkeys _ hpart) (hcolons _ hpart) (hvalues _ hpart) (by omega)).weaken
      fun _ => endsExpr_item (by decide)
  have hbegins : ∀ p ∈ entries.map EntryPart.whole,
      ∃ t ts, p.1 = t :: ts ∧ BeginsItem .rightBrace t := by
    intro p hp
    obtain ⟨part, hpart, rfl⟩ := List.mem_map.1 hp
    obtain ⟨t, ts', hts, ht⟩ := beginsItem_of_isExpr .rightBrace (by decide) (hkeys _ hpart)
    exact ⟨t, _, by rw [EntryPart.whole, hts]; rfl, ht⟩
  have hitems : Takes (Parser.commaSeparated opening.span (.symbol .rightBrace) (Parser.entry inner))
      _ _ _ := takes_commaSeparated (by decide) hclosing hentry hbegins hlist
  rw [List.map_map] at hitems
  refine Takes.within (Takes.advance (by rw [hopening]; simp) ?_)
  exact hitems.bind_last (fun _ _ => trivial) (Takes.pure _)

end Delimited

/-! ## Every form of expression -/

section Forms

variable {inner : Parser Expr} {n L : Nat} {ts ts' : List Token} {opening closing t : Token}
  {parts : List (List Token × Expr)} {e left right : Expr}

/-- The operators of a level go on to join their right operands. -/
theorem chainTakes_binary (hL : L < 3) {op : BinaryOp} (ht : opAt L t.kind = some op)
    (hleft : ChainTakes inner L ts left)
    (hright : Takes (readerAt inner (L + 1)) ts' (EndsExpr (L + 1)) right) :
    ChainTakes inner L (ts ++ t :: ts') (Parser.binary op left right) := by
  intro rest previous hends
  obtain ⟨rounds, previous₁, hrounds, hrun⟩ :=
    hleft (t :: ts' ++ rest) previous (endsExpr_operator hL ht)
  rw [List.append_assoc, hrun]
  cases rounds with
  | nil => exact absurd hrounds (by simp)
  | cons r rounds =>
    rw [List.cons_append, List.length_cons, List.length_cons, List.length_append] at hrounds
    obtain ⟨previous₂, hrun'⟩ := hright rest t.span hends
    refine ⟨rounds, previous₂, by omega, ?_⟩
    have hop : opAt L (Cursor.mk (t :: (ts' ++ rest)) previous₁).kind = some op := ht
    have hkind : t.kind ≠ .eof := by
      rw [opAt_eq_some ht]
      exact token_ne_eof op
    have hnext : Parser.advance ⟨t :: (ts' ++ rest), previous₁⟩ = _ := advance_cons hkind
    rw [List.cons_append, chainFrom, run_get, hop]
    show (advance >>= fun _ => readerAt inner (L + 1) >>= _) _ = _
    rw [run_bind hnext, run_bind hrun']

/-- A sign before an operand. -/
theorem signTakes_unary {op : UnaryOp} (ht : unaryOp? t.kind = some op) (h : SignTakes inner ts e) :
    SignTakes inner (t :: ts) (.unary op e (t.span.merge e.span)) := by
  intro rounds hrounds
  cases rounds with
  | nil => exact absurd hrounds (by simp)
  | cons r rounds =>
    refine Takes.get_cons fun c hc _ => ?_
    have hop : unaryOp? c.kind = some op := by rw [Cursor.kind, hc, ht]
    rw [hop]
    refine Takes.advance (by rintro hend; rw [hend] at ht; cases ht) ?_
    exact (h rounds (Nat.le_of_succ_le_succ hrounds)).bind_last (fun _ hk => hk) (Takes.pure _)

/-- From what a call or an index makes of what stands on the left, the loop goes on. -/
theorem suffixTakes_step {p : Parser Expr} {e' : Expr} (h : SuffixTakes inner ts e)
    (hstep : ∀ r rounds c, c.current = t →
      suffixesFrom inner (r :: rounds) e c = (p >>= suffixesFrom inner rounds) c)
    (hp : Takes p (t :: ts') (fun _ => True) e') : SuffixTakes inner (ts ++ t :: ts') e' := by
  intro rest previous
  obtain ⟨rounds, previous₁, hrounds, hrun⟩ := h (t :: ts' ++ rest) previous
  rw [List.append_assoc, hrun]
  cases rounds with
  | nil => exact absurd hrounds (by simp)
  | cons r rounds =>
    rw [List.cons_append, List.length_cons, List.length_cons, List.length_append] at hrounds
    obtain ⟨previous₂, hrun'⟩ := hp rest previous₁ trivial
    refine ⟨rounds, previous₂, by omega, ?_⟩
    rw [hstep r rounds _ rfl, run_bind hrun']

/-- One more call behind what is called. -/
theorem TakesShort.suffixTakes_call (short : TakesShort inner n) (he : SuffixTakes inner ts e)
    (hopening : opening.kind = .symbol .leftParen) (hline : opening.newlineBefore = false)
    (hclosing : closing.kind = .symbol .rightParen) (hparts : ∀ p ∈ parts, IsExpr 0 p.1 p.2)
    (hlist : Listed parts ts') (hlen : ts'.length < n) :
    SuffixTakes inner (ts ++ opening :: (ts' ++ [closing]))
      (.call e (parts.map (·.2)) (e.span.merge closing.span)) := by
  refine suffixTakes_step (p := within .functionCall (call inner e)) he (fun r rounds c hc => ?_) ?_
  · have hstart : c.atLineStart = false := by rw [Cursor.atLineStart, hc, hline]
    have hparen : c.check (.symbol .leftParen) = true := by
      rw [check_symbol, Cursor.kind, hc, hopening]
      rfl
    rw [suffixesFrom, run_get, hstart, hparen]
    rfl
  · refine Takes.within (Takes.advance (by rw [hopening]; simp) ?_)
    exact (short.commaSeparated (by decide) hclosing hparts hlist hlen).bind_last
      (fun _ _ => trivial) (Takes.pure _)

/-- One more index behind what is indexed. -/
theorem TakesShort.suffixTakes_index (short : TakesShort inner n) {place : Expr}
    (he : SuffixTakes inner ts e) (hopening : opening.kind = .symbol .leftBracket)
    (hline : opening.newlineBefore = false) (hclosing : closing.kind = .symbol .rightBracket)
    (hplace : IsExpr 0 ts' place) (hlen : ts'.length < n) :
    SuffixTakes inner (ts ++ opening :: (ts' ++ [closing]))
      (.index e place (e.span.merge closing.span)) := by
  refine suffixTakes_step (p := within .indexExpression (index inner e)) he
    (fun r rounds c hc => ?_) ?_
  · have hstart : c.atLineStart = false := by rw [Cursor.atLineStart, hc, hline]
    have hkind : c.kind = .symbol .leftBracket := by rw [Cursor.kind, hc, hopening]
    rw [suffixesFrom, run_get, hstart, check_symbol, check_symbol, hkind]
    rfl
  · refine Takes.within (Takes.advance (by rw [hopening]; simp) ?_)
    refine (short hplace hlen).bind (fun _ _ => endsExpr_mark hclosing (by decide)) ?_
    exact Takes.expectClosing (.symbol _) hclosing (Takes.pure _)

/-- The readers of all levels come to an expression, where what stands between delimiters is read. -/
theorem TakesShort.levelTakes (short : TakesShort inner n) (h : IsExpr L ts e) (hlen : ts.length ≤ n) :
    LevelTakes inner L ts e := by
  induction h with
  | atom h => exact levelTakes_five.2 (takes_atom h)
  | group hopening hclosing h =>
    simp only [List.length_cons, List.length_append, List.length_nil] at hlen
    exact levelTakes_five.2 (short.group hopening hclosing h (by omega))
  | unit hopening hclosing => exact levelTakes_five.2 (takes_unit hopening hclosing)
  | tuple hopening hcomma hclosing hfirst hparts hlist =>
    simp only [List.length_cons, List.length_append, List.length_nil] at hlen
    exact levelTakes_five.2
      (short.tuple hopening hcomma hclosing hfirst (by omega) hparts hlist (by omega))
  | array hopening hclosing hparts hlist =>
    simp only [List.length_cons, List.length_append, List.length_nil] at hlen
    exact levelTakes_five.2 (short.array hopening hclosing hparts hlist (by omega))
  | map hopening hclosing hkeys hcolons hvalues hlist =>
    simp only [List.length_cons, List.length_append, List.length_nil] at hlen
    exact levelTakes_five.2 (short.map hopening hclosing hkeys hcolons hvalues hlist (by omega))
  -- operands outside delimiters are part of the same text, so the induction goes into them
  | call _ hopening hline hclosing hparts hlist ih =>
    simp only [List.length_cons, List.length_append, List.length_nil] at hlen
    exact levelTakes_four.2 (short.suffixTakes_call (levelTakes_four.1 (ih (by omega))) hopening hline
      hclosing hparts hlist (by omega))
  | index _ hopening hline hclosing hplace ih =>
    simp only [List.length_cons, List.length_append, List.length_nil] at hlen
    exact levelTakes_four.2 (short.suffixTakes_index (levelTakes_four.1 (ih (by omega))) hopening hline
      hclosing hplace (by omega))
  | unary ht _ ih => exact levelTakes_three.2 (signTakes_unary ht (ih (Nat.le_of_succ_le hlen)))
  | binary hL ht _ _ ihleft ihright =>
    rw [List.length_append, List.length_cons] at hlen
    have hleft := (levelTakes_chain hL).1 (ihleft (by omega))
    exact (levelTakes_chain hL).2
      (chainTakes_binary hL ht hleft ((ihright (by omega)).takes (by omega)))
  | looser hL h ih => exact (ih hlen).looser hL h

end Forms

/-! ## Expressions -/

/-- **The reader of expressions reads what is in the grammar**, with as many levels of nesting as there
are tokens. -/
theorem takes_expressionWithin (depth : List Token) :
    TakesShort (expressionWithin depth) (depth.length + 1) := by
  induction depth with
  | nil =>
    intro ts e h hlen
    exact absurd (List.eq_nil_of_length_eq_zero (by simpa using hlen)) h.ne_nil
  | cons t depth ih =>
    intro ts e h hlen
    exact (ih.levelTakes h (Nat.le_of_lt_succ hlen)).takes (Nat.zero_le 4)

theorem takes_expression {ts : List Token} {e : Expr} (h : IsExpr 0 ts e) :
    Takes expression ts (EndsExpr 0) e :=
  Takes.get_rest fun c hlen => takes_expressionWithin c.rest h (Nat.lt_succ_of_le hlen)

end Nikl.Parser
