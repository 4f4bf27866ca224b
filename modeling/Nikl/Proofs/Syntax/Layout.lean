import Nikl.Proofs.Syntax.Locality

/-
Layout. A reader looks at line breaks in two places: before an opening parenthesis or bracket, which is
no suffix of an expression on the line before, and behind `return`, whose value begins on its line. So
two lists of tokens of the same kinds, with the same line breaks in those places, are read alike.

`Agree view p p'` says that of two readers: from cursors that stand alike they come to results that are
the same to `view` and to cursors that stand alike again, or fail with the same error up to spans. The
readers are those of the grammar, which have taken up spans of different places on their way.
-/

set_option autoImplicit false

namespace Nikl

/-! ## Tokens in different places -/

/-- Whether a line break before a token is looked at: the token opens something, or follows `return`. -/
def LineCounts (ts : List Token) (i : Nat) : Prop :=
  ts[i]?.map (·.kind) = some (.symbol .leftParen) ∨ ts[i]?.map (·.kind) = some (.symbol .leftBracket) ∨
    (0 < i ∧ ts[i - 1]?.map (·.kind) = some (.keyword .returnWord))

instance (ts : List Token) (i : Nat) : Decidable (LineCounts ts i) :=
  inferInstanceAs (Decidable (_ ∨ _ ∨ _))

/-- Tokens of the same kinds, in the same order, with the same line breaks where these are looked at. -/
structure SameLayout (ts ts' : List Token) : Prop where
  kinds : ts.map (·.kind) = ts'.map (·.kind)
  lines : ∀ i < ts.length, LineCounts ts i →
    ts[i]?.map (·.newlineBefore) = ts'[i]?.map (·.newlineBefore)

namespace SameLayout

variable {t t' : Token} {ts ts' : List Token}

theorem length_eq (h : SameLayout ts ts') : ts.length = ts'.length := by
  simpa using congrArg List.length h.kinds

theorem head (h : SameLayout (t :: ts) (t' :: ts')) : t.kind = t'.kind := (List.cons.inj h.kinds).1

theorem tail (h : SameLayout (t :: ts) (t' :: ts')) : SameLayout ts ts' := by
  refine ⟨(List.cons.inj h.kinds).2, fun i hi hcounts => ?_⟩
  refine h.lines (i + 1) (Nat.succ_lt_succ hi) ?_
  rcases hcounts with hparen | hbracket | ⟨hpos, hreturn⟩
  · exact .inl hparen
  · exact .inr (.inl hbracket)
  · refine .inr (.inr ⟨Nat.succ_pos i, ?_⟩)
    obtain ⟨j, rfl⟩ : ∃ j, i = j + 1 := ⟨i - 1, by omega⟩
    exact hreturn

theorem line_of_opening (h : SameLayout (t :: ts) (t' :: ts'))
    (ht : t.kind = .symbol .leftParen ∨ t.kind = .symbol .leftBracket) :
    t.newlineBefore = t'.newlineBefore := by
  have hcounts : LineCounts (t :: ts) 0 := by
    rcases ht with ht | ht
    · exact .inl (congrArg some ht)
    · exact .inr (.inl (congrArg some ht))
  exact Option.some.inj (h.lines 0 (Nat.succ_pos _) hcounts)

end SameLayout

/-- Two cursors with the same tokens ahead, up to places. -/
def Cursor.Alike (c c' : Cursor) : Prop := SameLayout c.rest c'.rest

namespace Cursor.Alike

variable {c c' : Cursor}

theorem kind_eq (h : c.Alike c') : c.kind = c'.kind := by
  rcases c with ⟨_ | ⟨t, ts⟩, place⟩ <;> rcases c' with ⟨_ | ⟨t', ts'⟩, place'⟩
  · rfl
  · cases h.length_eq
  · cases h.length_eq
  · exact SameLayout.head h

theorem check_eq (h : c.Alike c') (kind : TokenKind) : c.check kind = c'.check kind := by
  rw [check, check, h.kind_eq]

theorem atEnd_eq (h : c.Alike c') : c.atEnd = c'.atEnd := by
  rw [atEnd, atEnd, h.kind_eq]

theorem next (h : c.Alike c') : c.next.Alike c'.next := by
  rw [Cursor.next, Cursor.next, ← h.atEnd_eq]
  split
  · exact h
  rcases c with ⟨_ | ⟨t, ts⟩, place⟩ <;> rcases c' with ⟨_ | ⟨t', ts'⟩, place'⟩
  · exact h
  · cases h.length_eq
  · cases h.length_eq
  · exact SameLayout.tail h

/-- What opens something begins a line in both places or in none. -/
theorem atLineStart_eq (h : c.Alike c')
    (hc : c.kind = .symbol .leftParen ∨ c.kind = .symbol .leftBracket) :
    c.atLineStart = c'.atLineStart := by
  rcases c with ⟨_ | ⟨t, ts⟩, place⟩ <;> rcases c' with ⟨_ | ⟨t', ts'⟩, place'⟩
  · rfl
  · cases h.length_eq
  · cases h.length_eq
  · exact SameLayout.line_of_opening h hc

/-- What follows `return` begins a line in both places or in none. -/
theorem atLineStart_next (h : c.Alike c') (hc : c.kind = .keyword .returnWord) :
    c.next.atLineStart = c'.next.atLineStart := by
  have hend : c.atEnd = false := decide_eq_false (by rw [hc]; nofun)
  have hend' : c'.atEnd = false := h.atEnd_eq ▸ hend
  rw [Cursor.next, Cursor.next, hend, hend']
  rcases c with ⟨_ | ⟨t, ts⟩, place⟩ <;> rcases c' with ⟨_ | ⟨t', ts'⟩, place'⟩
  · cases hc
  · cases hc
  · cases h.length_eq
  rcases ts with _ | ⟨u, us⟩ <;> rcases ts' with _ | ⟨u', us'⟩
  · rfl
  · cases (SameLayout.tail h).length_eq
  · cases (SameLayout.tail h).length_eq
  · have hcounts : LineCounts (t :: u :: us) 1 := .inr (.inr ⟨Nat.one_pos, congrArg some hc⟩)
    have hlines := SameLayout.lines h 1 (Nat.succ_lt_succ (Nat.succ_pos _)) hcounts
    exact Option.some.inj hlines

end Cursor.Alike

/-! ## Errors without their spans -/

/-- The fault without its spans. -/
def ParseFault.bare : ParseFault → ParseFault
  | unclosed close _ => unclosed close Span.nowhere
  | fault => fault

/-- The error without its spans. -/
def ParseError.bare (e : ParseError) : ParseError := ⟨e.fault.bare, Span.nowhere, e.context⟩

theorem ParseError.bare_orContext (context : Context) (e : ParseError) :
    (e.orContext context).bare = e.bare.orContext context := rfl

namespace Parser

/-! ## Readers that agree -/

/-- The same result to `view`, before tokens that stand alike, or the same error up to spans. -/
inductive SameOutcome {α β : Type} (view : α → β) :
    Except ParseError (α × Cursor) → Except ParseError (α × Cursor) → Prop where
  | ok {a a' : α} {c c' : Cursor} (hview : view a = view a') (hc : c.Alike c') :
      SameOutcome view (.ok (a, c)) (.ok (a', c'))
  | error {e e' : ParseError} (h : e.bare = e'.bare) : SameOutcome view (.error e) (.error e')

/-- Two readers come to the same outcome from cursors that stand alike. -/
def Agree {α β : Type} (view : α → β) (p p' : Parser α) : Prop :=
  ∀ c c', c.Alike c' → SameOutcome view (p c) (p' c')

/-- Sees nothing: for results that are spans only. -/
abbrev unseen {α : Type} : α → Unit := fun _ => ()

section Rules

variable {α β γ δ : Type} {view : α → γ} {look : β → δ} {p p' : Parser α} {f f' : α → Parser β}

theorem Agree.pure {a a' : α} (h : view a = view a') : Agree view (pure a) (pure a') :=
  fun _ _ hc => .ok h hc

theorem SameOutcome.bind {c c' : Cursor} (hp : SameOutcome view (p c) (p' c'))
    (hf : ∀ a a', view a = view a' → Agree look (f a) (f' a')) :
    SameOutcome look ((p >>= f) c) ((p' >>= f') c') := by
  show SameOutcome look (p c >>= fun r => f r.1 r.2) (p' c' >>= fun r => f' r.1 r.2)
  generalize p c = r at hp ⊢
  generalize p' c' = r' at hp ⊢
  cases hp with
  | ok hview hc => exact hf _ _ hview _ _ hc
  | error h => exact .error h

theorem Agree.bind (hp : Agree view p p') (hf : ∀ a a', view a = view a' → Agree look (f a) (f' a')) :
    Agree look (p >>= f) (p' >>= f') :=
  fun c c' hc => (hp c c' hc).bind hf

theorem Agree.get {f f' : Cursor → Parser β} (h : ∀ c c', c.Alike c' → Agree look (f c) (f' c')) :
    Agree look (get >>= f) (get >>= f') :=
  fun c c' hc => h c c' hc c c' hc

theorem Agree.advance : Agree unseen advance advance := fun _ _ hc => .ok rfl hc.next

theorem Agree.fail {fault fault' : TokenKind → ParseFault}
    (h : ∀ kind, (fault kind).bare = (fault' kind).bare) :
    Agree view (failHere fault) (failHere fault') := by
  intro c c' hc
  refine .error ?_
  rw [ParseError.bare, ParseError.bare, h, hc.kind_eq]

theorem Agree.throw {e e' : ParseError} (h : e.bare = e'.bare) :
    Agree view (throw e) (throw e') := fun _ _ _ => .error h

theorem Agree.eat (kind : TokenKind) : Agree id (eat kind) (eat kind) := by
  intro c c' hc
  rw [Parser.eat, Parser.eat, hc.check_eq kind]
  split
  · exact .ok rfl hc.next
  · exact .ok rfl hc

theorem Agree.expect (kind : TokenKind) : Agree unseen (expect kind) (expect kind) := by
  intro c c' hc
  rw [Parser.expect, Parser.expect, hc.check_eq kind]
  split
  · exact Agree.advance c c' hc
  · exact Agree.fail (fun _ => rfl) c c' hc

theorem Agree.expectIdent : Agree Prod.fst expectIdent expectIdent := by
  intro c c' hc
  rw [Parser.expectIdent, Parser.expectIdent, hc.kind_eq]
  split
  · exact .ok rfl hc.next
  · exact Agree.fail (fun _ => rfl) c c' hc

theorem Agree.expectClosing (close : TokenKind) (opener opener' : Span) :
    Agree unseen (expectClosing close opener) (expectClosing close opener') := by
  intro c c' hc
  rw [Parser.expectClosing, Parser.expectClosing, hc.check_eq close, hc.atEnd_eq]
  split
  · exact .ok rfl hc.next
  split
  · exact .error rfl
  · exact Agree.fail (fun _ => rfl) c c' hc

theorem SameOutcome.within {context : Context} {c c' : Cursor} (hp : SameOutcome view (p c) (p' c')) :
    SameOutcome view (within context p c) (within context p' c') := by
  rw [Parser.within, Parser.within]
  generalize p c = r at hp ⊢
  generalize p' c' = r' at hp ⊢
  cases hp with
  | ok hview hc => exact .ok hview hc
  | error h =>
    refine .error ?_
    rw [ParseError.bare_orContext, ParseError.bare_orContext, h]

theorem Agree.within {context : Context} (h : Agree view p p') :
    Agree view (within context p) (within context p') :=
  fun c c' hc => (h c c' hc).within

/-! ### Lists -/

variable {item item' : Parser α} {rounds rounds' : List Token}

/-- Items are read alike in equally many rounds. -/
theorem Agree.items (hitem : Agree view item item') (close : TokenKind)
    (hrounds : rounds.length = rounds'.length) :
    Agree (List.map view) (items close item rounds) (items close item' rounds') := by
  induction rounds generalizing rounds' with
  | nil =>
    rw [List.length_eq_zero_iff.1 hrounds.symm]
    exact .pure rfl
  | cons t rounds ih =>
    obtain ⟨t', rounds', rfl⟩ := List.exists_cons_of_length_eq_add_one hrounds.symm
    refine .get fun c c' hc => ?_
    rw [hc.check_eq, hc.atEnd_eq]
    split
    · exact .pure rfl
    refine hitem.bind fun first first' hfirst => (Agree.eat _).bind fun comma _ hcomma => ?_
    obtain rfl : comma = _ := hcomma
    split
    · refine (ih (Nat.succ.inj hrounds)).bind fun more more' hmore => .pure ?_
      rw [List.map_cons, List.map_cons, hfirst, hmore]
    refine .get fun c c' hc => ?_
    rw [hc.check_eq, hc.atEnd_eq]
    split
    · exact .pure (by rw [List.map_singleton, List.map_singleton, hfirst])
    · exact .fail fun _ => rfl

theorem Agree.commaSeparated (hitem : Agree view item item') (close : TokenKind)
    (opener opener' : Span) :
    Agree (fun r => r.1.map view) (commaSeparated opener close item)
      (commaSeparated opener' close item') := by
  refine .get fun c c' hc => (hitem.items close hc.length_eq).bind fun parts parts' hparts => ?_
  exact (Agree.expectClosing close opener opener').bind fun closing closing' _ => .pure hparts

end Rules

/-! ## Expressions -/

section Expressions

variable {inner inner' : Parser Expr} (hinner : Agree Expr.bare inner inner')

include hinner

theorem agree_parenOrTuple : Agree Expr.bare (parenOrTuple inner) (parenOrTuple inner') := by
  refine Agree.advance.bind fun opener opener' _ => .get fun c c' hc => ?_
  rw [hc.check_eq]
  split
  · exact Agree.advance.bind fun close close' _ => .pure rfl
  refine hinner.bind fun first first' hfirst => (Agree.eat _).bind fun comma _ hcomma => ?_
  obtain rfl : comma = _ := hcomma
  split
  · refine ((hinner.commaSeparated _ _ _).bind fun r r' hrest => .pure ?_).within
    replace hrest : r.1.map Expr.bare = r'.1.map Expr.bare := hrest
    rw [Expr.bare_tuple, Expr.bare_tuple, List.map_cons, List.map_cons, hfirst, hrest]
  · refine (Agree.expectClosing _ _ _).bind fun close close' _ => .pure ?_
    rw [Expr.bare_withSpan, Expr.bare_withSpan, hfirst]

theorem agree_array : Agree Expr.bare (array inner) (array inner') := by
  refine Agree.advance.bind fun opener opener' _ => ?_
  refine (hinner.commaSeparated _ _ _).bind fun r r' hitems => .pure ?_
  rw [Expr.bare_array, Expr.bare_array, hitems]

theorem agree_entry : Agree Expr.bareEntry (entry inner) (entry inner') := by
  refine hinner.bind fun key key' hkey => (Agree.expect _).bind fun colon colon' _ => ?_
  refine hinner.bind fun value value' hvalue => .pure ?_
  rw [Expr.bareEntry, Expr.bareEntry, hkey, hvalue]

theorem agree_map : Agree Expr.bare (map inner) (map inner') := by
  refine Agree.advance.bind fun opener opener' _ => ?_
  refine ((agree_entry hinner).commaSeparated _ _ _).bind fun r r' hentries => .pure ?_
  rw [Expr.bare_map, Expr.bare_map, hentries]

omit hinner in
/-- What a token makes on its own is the same in another place. -/
theorem atom?_elsewhere {kind : TokenKind} {place : Span} {e : Expr} (h : atom? kind place = some e)
    (place' : Span) : ∃ e', atom? kind place' = some e' ∧ e.bare = e'.bare := by
  have h' := atom?_mapSpans (f := fun _ => place') h
  refine ⟨_, h', Option.some.inj ?_⟩
  -- both are the expression that the token makes nowhere
  have hnowhere := atom?_mapSpans (f := fun _ => Span.nowhere) h
  have hnowhere' := atom?_mapSpans (f := fun _ => Span.nowhere) h'
  exact hnowhere.symm.trans hnowhere'

theorem agree_primary : Agree Expr.bare (primary inner) (primary inner') := by
  refine .get fun c c' hc => ?_
  rw [← hc.kind_eq]
  cases hatom : atom? c.kind c.span with
  | some e =>
    obtain ⟨e', hatom', he⟩ := atom?_elsewhere hatom c'.span
    rw [hatom']
    exact Agree.advance.bind fun t t' _ => .pure he
  | none =>
    have hatom' : atom? c.kind c'.span = none := by
      by_contra hsome
      obtain ⟨e', he'⟩ := Option.ne_none_iff_exists'.1 hsome
      obtain ⟨e, he, -⟩ := atom?_elsewhere he' c.span
      rw [hatom] at he
      cases he
    rw [hatom']
    dsimp only
    split
    · exact agree_parenOrTuple hinner
    · exact (agree_array hinner).within
    · exact (agree_map hinner).within
    · exact .fail fun _ => rfl

theorem agree_call {callee callee' : Expr} (h : callee.bare = callee'.bare) :
    Agree Expr.bare (call inner callee) (call inner' callee') := by
  refine Agree.advance.bind fun opener opener' _ => ?_
  refine (hinner.commaSeparated _ _ _).bind fun r r' hargs => .pure ?_
  rw [Expr.bare_call, Expr.bare_call, h, hargs]

theorem agree_index {target target' : Expr} (h : target.bare = target'.bare) :
    Agree Expr.bare (index inner target) (index inner' target') := by
  refine Agree.advance.bind fun opener opener' _ => hinner.bind fun place place' hplace => ?_
  refine (Agree.expectClosing _ _ _).bind fun close close' _ => .pure ?_
  rw [Expr.bare_index, Expr.bare_index, h, hplace]

/-- **Only before what opens something does a line break end an expression.** Before any other token
the expression ends with a line break and without one. -/
theorem agree_suffixesFrom {rounds rounds' : List Token} (hrounds : rounds.length = rounds'.length)
    {e e' : Expr} (h : e.bare = e'.bare) :
    Agree Expr.bare (suffixesFrom inner rounds e) (suffixesFrom inner' rounds' e') := by
  induction rounds generalizing rounds' e e' with
  | nil =>
    rw [List.length_eq_zero_iff.1 hrounds.symm]
    exact .pure h
  | cons t rounds ih =>
    obtain ⟨t', rounds', rfl⟩ := List.exists_cons_of_length_eq_add_one hrounds.symm
    refine .get fun c c' hc => ?_
    rw [← hc.check_eq, ← hc.check_eq]
    by_cases hparen : c.check (.symbol .leftParen) = true
    · rw [← hc.atLineStart_eq (.inl ((IsMark.symbol _).check_iff.1 hparen)), if_pos hparen, if_pos hparen]
      split
      · exact .pure h
      · exact (agree_call hinner h).within.bind fun e e' he => ih (Nat.succ.inj hrounds) he
    by_cases hbracket : c.check (.symbol .leftBracket) = true
    · rw [← hc.atLineStart_eq (.inr ((IsMark.symbol _).check_iff.1 hbracket)), if_neg hparen,
        if_neg hparen, if_pos hbracket, if_pos hbracket]
      split
      · exact .pure h
      · exact (agree_index hinner h).within.bind fun e e' he => ih (Nat.succ.inj hrounds) he
    rw [if_neg hparen, if_neg hparen, if_neg hbracket, if_neg hbracket, ite_self, ite_self]
    exact .pure h

theorem agree_suffixed : Agree Expr.bare (suffixed inner) (suffixed inner') := by
  refine (agree_primary hinner).bind fun e e' he => .get fun c c' hc => ?_
  exact agree_suffixesFrom hinner hc.length_eq he

theorem agree_unaryFrom {rounds rounds' : List Token} (hrounds : rounds.length = rounds'.length) :
    Agree Expr.bare (unaryFrom inner rounds) (unaryFrom inner' rounds') := by
  induction rounds generalizing rounds' with
  | nil =>
    rw [List.length_eq_zero_iff.1 hrounds.symm]
    exact agree_suffixed hinner
  | cons t rounds ih =>
    obtain ⟨t', rounds', rfl⟩ := List.exists_cons_of_length_eq_add_one hrounds.symm
    refine .get fun c c' hc => ?_
    rw [← hc.kind_eq]
    cases unaryOp? c.kind with
    | none => exact agree_suffixed hinner
    | some op =>
      refine Agree.advance.bind fun start start' _ => ?_
      refine (ih (Nat.succ.inj hrounds)).bind fun operand operand' hoperand => .pure ?_
      rw [Expr.bare_unary, Expr.bare_unary, hoperand]

theorem agree_unary : Agree Expr.bare (unary inner) (unary inner') :=
  .get fun _ _ hc => agree_unaryFrom hinner hc.length_eq

omit hinner

variable {operand operand' : Parser Expr}

theorem agree_chainFrom (op? : TokenKind → Option BinaryOp) (hoperand : Agree Expr.bare operand operand')
    {rounds rounds' : List Token} (hrounds : rounds.length = rounds'.length) {left left' : Expr}
    (hleft : left.bare = left'.bare) :
    Agree Expr.bare (chainFrom op? operand rounds left) (chainFrom op? operand' rounds' left') := by
  induction rounds generalizing rounds' left left' with
  | nil =>
    rw [List.length_eq_zero_iff.1 hrounds.symm]
    exact .pure hleft
  | cons t rounds ih =>
    obtain ⟨t', rounds', rfl⟩ := List.exists_cons_of_length_eq_add_one hrounds.symm
    refine .get fun c c' hc => ?_
    rw [← hc.kind_eq]
    cases op? c.kind with
    | none => exact .pure hleft
    | some op =>
      refine Agree.advance.bind fun t t' _ => hoperand.bind fun right right' hright => ?_
      refine ih (Nat.succ.inj hrounds) ?_
      rw [binary, binary, Expr.bare_binary, Expr.bare_binary, hleft, hright]

theorem agree_chain (op? : TokenKind → Option BinaryOp) (hoperand : Agree Expr.bare operand operand') :
    Agree Expr.bare (chain op? operand) (chain op? operand') :=
  hoperand.bind fun _ _ hleft => .get fun _ _ hc => agree_chainFrom op? hoperand hc.length_eq hleft

theorem agree_expressionWithin {depth depth' : List Token} (hdepth : depth.length = depth'.length) :
    Agree Expr.bare (expressionWithin depth) (expressionWithin depth') := by
  induction depth generalizing depth' with
  | nil =>
    rw [List.length_eq_zero_iff.1 hdepth.symm]
    exact .fail fun _ => rfl
  | cons t depth ih =>
    obtain ⟨t', depth', rfl⟩ := List.exists_cons_of_length_eq_add_one hdepth.symm
    have hunary := agree_unary (ih (Nat.succ.inj hdepth))
    exact agree_chain _ (agree_chain _ (agree_chain _ hunary))

theorem agree_expression : Agree Expr.bare expression expression :=
  .get fun _ _ hc => agree_expressionWithin hc.length_eq

end Expressions

/-! ## Statements -/

section Statements

theorem agree_typeTag : Agree id typeTag typeTag := by
  refine .get fun c c' hc => ?_
  rw [← hc.kind_eq]
  cases typeTag? c.kind with
  | some tag => exact Agree.advance.bind fun t t' _ => .pure rfl
  | none => exact (Agree.fail fun _ => rfl).within

theorem agree_typeAfter (mark : Symbol) : Agree id (typeAfter mark) (typeAfter mark) := by
  refine (Agree.eat _).bind fun marked _ hmarked => ?_
  obtain rfl : marked = _ := hmarked
  split
  · exact agree_typeTag.bind fun tag tag' htag => .pure (congrArg some htag)
  · exact .pure rfl

theorem agree_param : Agree Param.bare param param := by
  refine Agree.expectIdent.bind fun name name' hname => ?_
  refine (agree_typeAfter .colon).bind fun type type' htype => .pure ?_
  obtain rfl : type = type' := htype
  show Param.mk name.1 type Span.nowhere = Param.mk name'.1 type Span.nowhere
  rw [hname]

/-- Whether a name is there twice is the same in another place. -/
theorem bare_repeatedParam? {ps ps' : List Param} (h : ps.map Param.bare = ps'.map Param.bare) :
    (repeatedParam? [] ps).map Param.bare = (repeatedParam? [] ps').map Param.bare := by
  have hps := repeatedParam?_mapSpans (f := fun _ => Span.nowhere) [] ps
  have hps' := repeatedParam?_mapSpans (f := fun _ => Span.nowhere) [] ps'
  exact hps.symm.trans ((congrArg (repeatedParam? []) h).trans hps')

theorem agree_params : Agree (List.map Param.bare) params params := by
  refine (Agree.expect _).bind fun opener opener' _ => ?_
  refine (agree_param.commaSeparated _ _ _).bind fun r r' hps => ?_
  have hrepeated := bare_repeatedParam? hps
  rcases r with ⟨ps, close⟩
  rcases r' with ⟨ps', close'⟩
  dsimp only at hps hrepeated ⊢
  cases h : repeatedParam? [] ps with
  | none =>
    cases h' : repeatedParam? [] ps' with
    | none => exact .pure hps
    | some p' =>
      rw [h, h'] at hrepeated
      cases hrepeated
  | some p =>
    cases h' : repeatedParam? [] ps' with
    | none =>
      rw [h, h'] at hrepeated
      cases hrepeated
    | some p' =>
      rw [h, h'] at hrepeated
      have hbare : p.bare = p'.bare := Option.some.inj hrepeated
      have hname : p.bare.name = p'.bare.name := congrArg Param.name hbare
      replace hname : p.name = p'.name := hname
      refine .throw ?_
      rw [ParseError.bare, ParseError.bare, hname]

/-- An assignment without its spans. -/
theorem bare_assignment? (target value : Expr) (span : Span) :
    ((assignment? target value span).getD (.expr target span)).bare =
      (assignment? target.bare value.bare Span.nowhere).getD (.expr target.bare Span.nowhere) := by
  cases target <;> rfl

theorem agree_expressionOrAssignment :
    Agree Stmt.bare expressionOrAssignment expressionOrAssignment := by
  refine agree_expression.bind fun target target' htarget => .get fun c c' hc => ?_
  rw [← hc.check_eq]
  split
  · refine Agree.within ?_
    rw [← isAssignable_bare target, ← isAssignable_bare target', htarget]
    split
    · refine Agree.advance.bind fun t t' _ => agree_expression.bind fun value value' hvalue => .pure ?_
      rw [bare_assignment?, bare_assignment?, htarget, hvalue]
    · exact .throw rfl
  · exact .pure (congrArg (Stmt.expr · Span.nowhere) htarget)

theorem agree_letBinding : Agree Stmt.bare letBinding letBinding := by
  refine Agree.advance.bind fun start start' _ => Agree.expectIdent.bind fun name name' hname => ?_
  refine (agree_typeAfter _).bind fun type type' htype => (Agree.expect _).bind fun equals equals' _ => ?_
  refine agree_expression.bind fun value value' hvalue => .pure ?_
  obtain rfl : type = type' := htype
  show Stmt.define name.1 type value.bare _ = Stmt.define name'.1 type value'.bare _
  rw [hname, hvalue]

theorem agree_delStatement : Agree Stmt.bare delStatement delStatement := by
  refine Agree.advance.bind fun start start' _ => Agree.expectIdent.bind fun name name' hname => ?_
  exact .pure (congrArg (Stmt.delete · Span.nowhere) hname)

/-- **Behind `return` a line break ends the statement**, in both places or in none. -/
theorem sameOutcome_returnStatement {c c' : Cursor} (hc : c.Alike c')
    (hreturn : c.kind = .keyword .returnWord) :
    SameOutcome Stmt.bare (returnStatement c) (returnStatement c') := by
  have hline := hc.atLineStart_next hreturn
  have hnext := hc.next
  -- the word itself is read by both, and what they do next they decide by the cursor behind it
  show SameOutcome Stmt.bare
    ((if c.next.atEnd || c.next.atLineStart || c.next.check (.symbol .rightBrace) ||
        c.next.check (.symbol .semicolon) then pure (.giveBack none c.current.span)
      else do
        let value ← expression
        return .giveBack (some value) (c.current.span.merge value.span) : Parser Stmt) c.next)
    ((if c'.next.atEnd || c'.next.atLineStart || c'.next.check (.symbol .rightBrace) ||
        c'.next.check (.symbol .semicolon) then pure (.giveBack none c'.current.span)
      else do
        let value ← expression
        return .giveBack (some value) (c'.current.span.merge value.span) : Parser Stmt) c'.next)
  rw [← hline, ← hnext.atEnd_eq, ← hnext.check_eq, ← hnext.check_eq]
  split
  · exact .ok rfl hnext
  · refine (agree_expression.bind fun value value' hvalue => .pure ?_) _ _ hnext
    exact congrArg (fun e => Stmt.giveBack (some e) Span.nowhere) hvalue

variable {inner inner' : Parser Stmt} (hinner : Agree Stmt.bare inner inner')

include hinner

theorem agree_stmtsUntil {ends : Cursor → Bool} (hends : ∀ c c' : Cursor, c.Alike c' → ends c = ends c')
    {rounds rounds' : List Token} (hrounds : rounds.length = rounds'.length) :
    Agree (List.map Stmt.bare) (stmtsUntil ends inner rounds) (stmtsUntil ends inner' rounds') := by
  have hterminated : Agree Stmt.bare (terminated inner) (terminated inner') := by
    refine hinner.bind fun s s' hs => (Agree.eat _).bind fun _ _ _ => .pure hs
  induction rounds generalizing rounds' with
  | nil =>
    rw [List.length_eq_zero_iff.1 hrounds.symm]
    exact .pure rfl
  | cons t rounds ih =>
    obtain ⟨t', rounds', rfl⟩ := List.exists_cons_of_length_eq_add_one hrounds.symm
    refine (Agree.eat _).bind fun skipped _ hskipped => ?_
    obtain rfl : skipped = _ := hskipped
    split
    · exact ih (Nat.succ.inj hrounds)
    refine .get fun c c' hc => ?_
    rw [hends c c' hc]
    split
    · exact .pure rfl
    refine hterminated.bind fun s s' hs => (ih (Nat.succ.inj hrounds)).bind fun more more' hmore => ?_
    exact .pure (by rw [List.map_cons, List.map_cons, hs, hmore])

theorem agree_block : Agree Block.bare (block inner) (block inner') := by
  have hends : ∀ c c' : Cursor, c.Alike c' →
      (c.check (.symbol .rightBrace) || c.atEnd) = (c'.check (.symbol .rightBrace) || c'.atEnd) := by
    intro c c' hc
    rw [hc.check_eq, hc.atEnd_eq]
  refine Agree.within ((Agree.expect _).bind fun opener opener' _ => .get fun c c' hc => ?_)
  refine (agree_stmtsUntil hinner hends hc.length_eq).bind fun ss ss' hss => ?_
  refine (Agree.expectClosing _ _ _).bind fun close close' _ => .pure ?_
  rw [Block.bare_mk, Block.bare_mk, hss]

theorem agree_functionDefinition :
    Agree Stmt.bare (functionDefinition inner) (functionDefinition inner') := by
  refine Agree.advance.bind fun start start' _ => Agree.expectIdent.bind fun name name' hname => ?_
  refine agree_params.within.bind fun ps ps' hps => (agree_typeAfter _).bind fun type type' htype => ?_
  refine (agree_block hinner).bind fun body body' hbody => .pure ?_
  obtain rfl : type = type' := htype
  show Stmt.function (.mk name.1 (ps.map Param.bare) type body.bare _) _ =
    Stmt.function (.mk name'.1 (ps'.map Param.bare) type body'.bare _) _
  rw [hname, hps, hbody]

theorem agree_ifStatement : Agree Stmt.bare (ifStatement inner) (ifStatement inner') := by
  refine Agree.advance.bind fun start start' _ => agree_expression.bind fun condition condition' hcond => ?_
  refine (agree_block hinner).bind fun thenBranch thenBranch' hthen => ?_
  refine (Agree.eat _).bind fun otherwise _ hotherwise => ?_
  obtain rfl : otherwise = _ := hotherwise
  split
  · have hjoined : ∀ elseBranch elseBranch' : Block, elseBranch.bare = elseBranch'.bare →
        Agree Stmt.bare
          (pure (.ifElse condition thenBranch elseBranch (start.span.merge elseBranch.span)))
          (pure (.ifElse condition' thenBranch' elseBranch' (start'.span.merge elseBranch'.span))) := by
      intro elseBranch elseBranch' helse
      refine .pure ?_
      show Stmt.ifElse condition.bare thenBranch.bare elseBranch.bare _ =
        Stmt.ifElse condition'.bare thenBranch'.bare elseBranch'.bare _
      rw [hcond, hthen, helse]
    refine .get fun c c' hc => ?_
    rw [hc.check_eq]
    split
    · refine hinner.bind fun nested nested' hnested => hjoined _ _ ?_
      rw [Block.bare_mk, Block.bare_mk, List.map_singleton, List.map_singleton, hnested]
    · exact (agree_block hinner).bind hjoined
  · refine .pure ?_
    show Stmt.ifThen condition.bare thenBranch.bare _ = Stmt.ifThen condition'.bare thenBranch'.bare _
    rw [hcond, hthen]

theorem agree_forLoop : Agree Stmt.bare (forLoop inner) (forLoop inner') := by
  refine Agree.advance.bind fun start start' _ => Agree.expectIdent.bind fun first first' hfirst => ?_
  have hrest : ∀ second : Option String, Agree Stmt.bare
      (do
        let _ ← expect (.keyword .inWord)
        let iterable ← expression
        let body ← block inner
        return .forEach first.1 second iterable body (start.span.merge body.span))
      (do
        let _ ← expect (.keyword .inWord)
        let iterable ← expression
        let body ← block inner'
        return .forEach first'.1 second iterable body (start'.span.merge body.span)) := by
    intro second
    refine (Agree.expect _).bind fun word word' _ => agree_expression.bind fun iterable iterable' hit => ?_
    refine (agree_block hinner).bind fun body body' hbody => .pure ?_
    show Stmt.forEach first.1 second iterable.bare body.bare _ =
      Stmt.forEach first'.1 second iterable'.bare body'.bare _
    rw [hfirst, hit, hbody]
  refine (Agree.eat _).bind fun comma _ hcomma => ?_
  obtain rfl : comma = _ := hcomma
  split
  · refine Agree.expectIdent.bind fun name name' hname => ?_
    rw [hname]
    exact hrest _
  · exact hrest _

theorem agree_statementForm : Agree Stmt.bare (statementForm inner) (statementForm inner') := by
  intro c c' hc
  show SameOutcome Stmt.bare ((get >>= _ : Parser Stmt) c) ((get >>= _ : Parser Stmt) c')
  rw [run_get, run_get, ← hc.kind_eq]
  cases hkind : c.kind with
  | keyword w =>
    cases w with
    | letWord => exact agree_letBinding.within c c' hc
    | fnWord => exact (agree_functionDefinition hinner).within c c' hc
    | ifWord => exact (agree_ifStatement hinner).within c c' hc
    | forWord => exact (agree_forLoop hinner).within c c' hc
    | returnWord => exact (sameOutcome_returnStatement hc hkind).within
    | delWord => exact agree_delStatement.within c c' hc
    | _ => exact agree_expressionOrAssignment c c' hc
  | _ => exact agree_expressionOrAssignment c c' hc

omit hinner

theorem agree_statementWithin {depth depth' : List Token} (hdepth : depth.length = depth'.length) :
    Agree Stmt.bare (statementWithin depth) (statementWithin depth') := by
  induction depth generalizing depth' with
  | nil =>
    rw [List.length_eq_zero_iff.1 hdepth.symm]
    exact .fail fun _ => rfl
  | cons t depth ih =>
    obtain ⟨t', depth', rfl⟩ := List.exists_cons_of_length_eq_add_one hdepth.symm
    exact agree_statementForm (ih (Nat.succ.inj hdepth))

end Statements

/-! ## Programs -/

theorem agree_program : Agree Block.bare program program := by
  refine .get fun c c' hc => ?_
  have hstmt := agree_statementWithin hc.length_eq
  refine (agree_stmtsUntil hstmt (fun _ _ h => h.atEnd_eq) hc.length_eq).bind fun ss ss' hss => ?_
  refine .get fun d d' _ => .pure ?_
  rw [Block.bare_mk, Block.bare_mk, hss]

end Parser

/-- **Layout does not change what is read**: the trees are the same up to spans, or the errors are. -/
theorem bare_parse_of_sameLayout {ts ts' : List Token} (h : SameLayout ts ts') :
    ((parse ts).map Block.bare).mapError ParseError.bare =
      ((parse ts').map Block.bare).mapError ParseError.bare := by
  have houtcome := Parser.agree_program (Cursor.ofTokens ts) (Cursor.ofTokens ts') h
  rw [parse, parse, StateT.run, StateT.run]
  generalize Parser.program (Cursor.ofTokens ts) = r at houtcome ⊢
  generalize Parser.program (Cursor.ofTokens ts') = r' at houtcome ⊢
  cases houtcome with
  | ok hview hc => exact congrArg Except.ok hview
  | error h => exact congrArg Except.error h

end Nikl
