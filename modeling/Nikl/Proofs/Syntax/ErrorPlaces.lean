import Nikl.Proofs.Syntax.Nodes
import Nikl.Proofs.Token.ErrorPlaces

/-
Where tokens cannot be read into a tree. A reader makes up no places: each span that it has is one of a
token, or goes from the beginning of one token to the end of another. So if all tokens lie in a text, the
place of what could not be read lies in it as well.

`Stays size mine p` says that of a reader, and that what it comes to has some property of its own, which
is that it has a place in the text wherever that place is looked at later on.
-/

set_option autoImplicit false

namespace Nikl

/-- All tokens that are still to be read lie in a text of so many bytes. -/
def Cursor.Within (size : Nat) (c : Cursor) : Prop := ∀ t ∈ c.rest, t.span.Within size

namespace Cursor.Within

variable {size : Nat} {c : Cursor}

theorem current (h : c.Within size) : c.current.span.Within size := by
  obtain ⟨_ | ⟨t, rest⟩, previous⟩ := c
  · exact ⟨Nat.le_refl _, Nat.zero_le _⟩
  · exact h t List.mem_cons_self

theorem next (h : c.Within size) : c.next.Within size := by
  unfold Cursor.next
  split
  · exact h
  · exact fun t ht => h t (List.mem_of_mem_tail ht)

end Cursor.Within

namespace Parser

variable {α β : Type} {size : Nat} {mine : α → Prop} {yours : β → Prop} {p : Parser α}
  {f : α → Parser β}

/-- What has been read, before tokens of a text, or an error in the text. -/
inductive Outcome (size : Nat) (mine : α → Prop) : Except ParseError (α × Cursor) → Prop where
  | ok {a : α} {c : Cursor} (ha : mine a) (hc : c.Within size) : Outcome size mine (.ok (a, c))
  | error {e : ParseError} (he : e.span.Within size) : Outcome size mine (.error e)

/-- A reader tells of places in a text only, if all tokens lie in it. -/
def Stays (size : Nat) (mine : α → Prop) (p : Parser α) : Prop :=
  ∀ c, c.Within size → Outcome size mine (p c)

/-- Something has a place in a text. -/
abbrev Spanned (size : Nat) (spanOf : α → Span) (a : α) : Prop := (spanOf a).Within size

/-- Nothing is asked of a result. -/
abbrev Free (_ : α) : Prop := True

namespace Stays

theorem pure {a : α} (ha : mine a) : Stays size mine (pure a) := fun _ hc => .ok ha hc

theorem throw {e : ParseError} (he : e.span.Within size) : Stays size mine (throw e) :=
  fun _ _ => .error he

theorem bind (hp : Stays size mine p) (hf : ∀ a, mine a → Stays size yours (f a)) :
    Stays size yours (p >>= f) := by
  intro c hc
  have hread := hp c hc
  show Outcome size yours (p c >>= fun r => f r.1 r.2)
  generalize p c = r at hread ⊢
  cases hread with
  | ok ha hc' => exact hf _ ha _ hc'
  | error he => exact .error he

theorem get {f : Cursor → Parser β} (hf : ∀ c, c.Within size → Stays size yours (f c)) :
    Stays size yours (get >>= f) := fun c hc => hf c hc c hc

theorem within (context : Context) (hp : Stays size mine p) :
    Stays size mine (within context p) := by
  intro c hc
  have hread := hp c hc
  unfold Parser.within
  generalize p c = r at hread ⊢
  cases hread with
  | ok ha hc' => exact .ok ha hc'
  | error he => exact .error he

end Stays

/-! ## Reading tokens -/

theorem stays_failHere (fault : TokenKind → ParseFault) : Stays size mine (failHere fault) :=
  fun _ hc => .error hc.current

theorem stays_advance : Stays size (Spanned size Token.span) advance := fun _ hc => .ok hc.current hc.next

theorem stays_eat (kind : TokenKind) : Stays size Free (eat kind) := by
  intro c hc
  unfold eat
  split
  · exact .ok trivial hc.next
  · exact .ok trivial hc

theorem stays_expect (kind : TokenKind) : Stays size (Spanned size Token.span) (expect kind) := by
  intro c hc
  unfold expect
  split
  · exact stays_advance c hc
  · exact stays_failHere _ c hc

theorem stays_expectIdent : Stays size (Spanned size Prod.snd) expectIdent := by
  intro c hc
  unfold expectIdent
  split
  · exact .ok hc.current hc.next
  · exact stays_failHere _ c hc

theorem stays_expectClosing (close : TokenKind) (opener : Span) :
    Stays size (Spanned size id) (expectClosing close opener) := by
  intro c hc
  unfold expectClosing
  split
  · exact .ok hc.current hc.next
  split
  · exact .error hc.current
  · exact stays_failHere _ c hc

/-! ## Lists -/

theorem Stays.items {item : Parser α} (hitem : Stays size mine item) (close : TokenKind) (rounds : List Token) :
    Stays size (fun as => ∀ a ∈ as, mine a) (items close item rounds) := by
  induction rounds with
  | nil => exact .pure nofun
  | cons t rounds ih =>
    refine .get fun c _ => ?_
    split
    · exact .pure nofun
    refine hitem.bind fun first hfirst => (stays_eat _).bind fun comma _ => ?_
    split
    · exact ih.bind fun rest hrest => .pure (List.forall_mem_cons.2 ⟨hfirst, hrest⟩)
    refine .get fun c _ => ?_
    split
    · exact .pure (List.forall_mem_singleton.2 hfirst)
    · exact stays_failHere _

theorem Stays.commaSeparated {item : Parser α} (hitem : Stays size mine item) (opener : Span)
    (close : TokenKind) :
    Stays size (fun r => (∀ a ∈ r.1, mine a) ∧ r.2.Within size) (commaSeparated opener close item) :=
  .get fun _ _ => (hitem.items close _).bind fun _ hparts => (stays_expectClosing close opener).bind
    fun _ hclosing => .pure ⟨hparts, hclosing⟩

/-! ## Expressions -/

section Expressions

/-- A reader of expressions tells of places in a text only. -/
abbrev ReadsExpr (size : Nat) (p : Parser Expr) : Prop := Stays size (Spanned size Expr.span) p

variable {inner operand : Parser Expr} {op? : TokenKind → Option BinaryOp} {e : Expr}

theorem readsExpr_chainFrom (hoperand : ReadsExpr size operand) (rounds : List Token)
    (he : e.span.Within size) : ReadsExpr size (chainFrom op? operand rounds e) := by
  induction rounds generalizing e with
  | nil => exact .pure he
  | cons t rounds ih =>
    refine .get fun c _ => ?_
    split
    · exact .pure he
    · exact stays_advance.bind fun _ _ => hoperand.bind fun right hright => ih (he.merge hright)

theorem readsExpr_chain (hoperand : ReadsExpr size operand) : ReadsExpr size (chain op? operand) :=
  hoperand.bind fun _ hleft => .get fun _ _ => readsExpr_chainFrom hoperand _ hleft

theorem readsExpr_parenOrTuple (hinner : ReadsExpr size inner) :
    ReadsExpr size (parenOrTuple inner) := by
  refine stays_advance.bind fun opener hopener => .get fun c _ => ?_
  split
  · exact stays_advance.bind fun close hclose => .pure (hopener.merge hclose)
  refine hinner.bind fun first _ => (stays_eat _).bind fun comma _ => ?_
  split
  · exact .within _ <| (hinner.commaSeparated _ _).bind fun _ hrest => .pure (hopener.merge hrest.2)
  · refine (stays_expectClosing _ _).bind fun close hclose => .pure ?_
    rw [Spanned, Expr.span_withSpan]
    exact hopener.merge hclose

theorem readsExpr_array (hinner : ReadsExpr size inner) : ReadsExpr size (array inner) :=
  stays_advance.bind fun _ hopener => (hinner.commaSeparated _ _).bind fun _ hrest =>
    .pure (hopener.merge hrest.2)

theorem stays_entry (hinner : ReadsExpr size inner) : Stays size Free (entry inner) :=
  hinner.bind fun _ _ => (stays_expect _).bind fun _ _ => hinner.bind fun _ _ => .pure trivial

theorem readsExpr_map (hinner : ReadsExpr size inner) : ReadsExpr size (map inner) :=
  stays_advance.bind fun _ hopener => ((stays_entry hinner).commaSeparated _ _).bind fun _ hrest =>
    .pure (hopener.merge hrest.2)

theorem readsExpr_primary (hinner : ReadsExpr size inner) : ReadsExpr size (primary inner) := by
  refine .get fun c hc => ?_
  split
  · next hatom =>
    refine stays_advance.bind fun _ _ => .pure ?_
    rw [Spanned, atom?_span hatom]
    exact hc.current
  · split
    · exact readsExpr_parenOrTuple hinner
    · exact .within _ (readsExpr_array hinner)
    · exact .within _ (readsExpr_map hinner)
    · exact stays_failHere _

theorem readsExpr_call (hinner : ReadsExpr size inner) (he : e.span.Within size) :
    ReadsExpr size (call inner e) :=
  stays_advance.bind fun _ _ => (hinner.commaSeparated _ _).bind fun _ hrest => .pure (he.merge hrest.2)

theorem readsExpr_index (hinner : ReadsExpr size inner) (he : e.span.Within size) :
    ReadsExpr size (index inner e) :=
  stays_advance.bind fun _ _ => hinner.bind fun _ _ => (stays_expectClosing _ _).bind fun _ hclose =>
    .pure (he.merge hclose)

theorem readsExpr_suffixesFrom (hinner : ReadsExpr size inner) (rounds : List Token)
    (he : e.span.Within size) : ReadsExpr size (suffixesFrom inner rounds e) := by
  induction rounds generalizing e with
  | nil => exact .pure he
  | cons t rounds ih =>
    refine .get fun c _ => ?_
    split
    · exact .pure he
    split
    · exact (Stays.within _ (readsExpr_call hinner he)).bind fun _ hcall => ih hcall
    split
    · exact (Stays.within _ (readsExpr_index hinner he)).bind fun _ hindex => ih hindex
    · exact .pure he

theorem readsExpr_suffixed (hinner : ReadsExpr size inner) : ReadsExpr size (suffixed inner) :=
  (readsExpr_primary hinner).bind fun _ he => .get fun _ _ => readsExpr_suffixesFrom hinner _ he

theorem readsExpr_unaryFrom (hinner : ReadsExpr size inner) (rounds : List Token) :
    ReadsExpr size (unaryFrom inner rounds) := by
  induction rounds with
  | nil => exact readsExpr_suffixed hinner
  | cons t rounds ih =>
    refine .get fun c _ => ?_
    split
    · exact readsExpr_suffixed hinner
    · exact stays_advance.bind fun _ hstart => ih.bind fun _ hoperand => .pure (hstart.merge hoperand)

theorem readsExpr_comparison (hinner : ReadsExpr size inner) : ReadsExpr size (comparison inner) :=
  readsExpr_chain <| readsExpr_chain <| readsExpr_chain <| .get fun _ _ => readsExpr_unaryFrom hinner _

theorem readsExpr_expression : ReadsExpr size expression := by
  -- expressions are read inside one another no deeper than there are tokens left
  have nested : ∀ depth : List Token, ReadsExpr size (expressionWithin depth) := by
    intro depth
    induction depth with
    | nil => exact stays_failHere _
    | cons t depth ih => exact readsExpr_comparison ih
  exact .get fun c _ => nested c.rest

end Expressions

/-! ## Statements -/

section Statements

/-- A reader of statements tells of places in a text only. -/
abbrev ReadsStmt (size : Nat) (p : Parser Stmt) : Prop := Stays size (Spanned size Stmt.span) p

variable {inner : Parser Stmt}

theorem stays_typeTag : Stays size Free typeTag := by
  refine .get fun c _ => ?_
  split
  · exact stays_advance.bind fun _ _ => .pure trivial
  · exact .within _ (stays_failHere _)

theorem stays_typeAfter (mark : Symbol) : Stays size Free (typeAfter mark) := by
  refine (stays_eat _).bind fun marked _ => ?_
  split
  · exact stays_typeTag.bind fun _ _ => .pure trivial
  · exact .pure trivial

theorem stays_param : Stays size (Spanned size Param.span) param :=
  stays_expectIdent.bind fun _ hname => (stays_typeAfter _).bind fun _ _ => .pure hname

theorem mem_of_repeatedParam? {earlier : List String} {ps : List Param} {p : Param}
    (h : repeatedParam? earlier ps = some p) : p ∈ ps := by
  induction ps generalizing earlier with
  | nil => cases h
  | cons q rest ih =>
    unfold repeatedParam? at h
    split at h
    · cases h
      exact List.mem_cons_self
    · exact List.mem_cons_of_mem _ (ih h)

theorem stays_params : Stays size Free params := by
  refine (stays_expect _).bind fun opener _ => (stays_param.commaSeparated _ _).bind fun read hread => ?_
  dsimp only
  split
  · next hrepeated => exact .throw (hread.1 _ (mem_of_repeatedParam? hrepeated))
  · exact .pure trivial

theorem stays_stmtsUntil (ends : Cursor → Bool) (hinner : ReadsStmt size inner) (rounds : List Token) :
    Stays size Free (stmtsUntil ends inner rounds) := by
  induction rounds with
  | nil => exact .pure trivial
  | cons t rounds ih =>
    refine (stays_eat _).bind fun skipped _ => ?_
    split
    · exact ih
    refine .get fun c _ => ?_
    split
    · exact .pure trivial
    have hterminated : Stays size Free (terminated inner) :=
      hinner.bind fun _ _ => (stays_eat _).bind fun _ _ => .pure trivial
    exact hterminated.bind fun _ _ => ih.bind fun _ _ => .pure trivial

theorem stays_block (hinner : ReadsStmt size inner) :
    Stays size (Spanned size Block.span) (block inner) :=
  .within _ <| (stays_expect _).bind fun _ hopener => .get fun _ _ =>
    (stays_stmtsUntil _ hinner _).bind fun _ _ => (stays_expectClosing _ _).bind fun _ hclose =>
      .pure (hopener.merge hclose)

theorem readsStmt_letBinding : ReadsStmt size letBinding :=
  stays_advance.bind fun _ hstart => stays_expectIdent.bind fun _ _ => (stays_typeAfter _).bind fun _ _ =>
    (stays_expect _).bind fun _ _ => readsExpr_expression.bind fun _ hvalue => .pure (hstart.merge hvalue)

theorem readsStmt_functionDefinition (hinner : ReadsStmt size inner) :
    ReadsStmt size (functionDefinition inner) :=
  stays_advance.bind fun _ hstart => stays_expectIdent.bind fun _ _ => (stays_params.within _).bind fun _ _ =>
    (stays_typeAfter _).bind fun _ _ => (stays_block hinner).bind fun _ hbody =>
      .pure (hstart.merge hbody)

theorem readsStmt_ifStatement (hinner : ReadsStmt size inner) :
    ReadsStmt size (ifStatement inner) := by
  refine stays_advance.bind fun start hstart => readsExpr_expression.bind fun condition _ =>
    (stays_block hinner).bind fun thenBranch hthen => (stays_eat _).bind fun more _ => ?_
  split
  · refine .get fun c _ => ?_
    dsimp only
    split
    · exact hinner.bind fun _ hnested => .pure (hstart.merge hnested)
    · exact (stays_block hinner).bind fun _ helse => .pure (hstart.merge helse)
  · exact .pure (hstart.merge hthen)

theorem readsStmt_forLoop (hinner : ReadsStmt size inner) : ReadsStmt size (forLoop inner) := by
  refine stays_advance.bind fun start hstart => stays_expectIdent.bind fun first _ =>
    (stays_eat _).bind fun more _ => ?_
  have rest : ∀ second, ReadsStmt size (do
      let _ ← expect (.keyword .inWord)
      let iterable ← expression
      let body ← block inner
      return .forEach first.1 second iterable body (start.span.merge body.span)) := fun second =>
    (stays_expect _).bind fun _ _ => readsExpr_expression.bind fun _ _ =>
      (stays_block hinner).bind fun _ hbody => .pure (hstart.merge hbody)
  dsimp only
  split
  · exact stays_expectIdent.bind fun second _ => rest (some second.1)
  · exact rest none

theorem readsStmt_returnStatement : ReadsStmt size returnStatement := by
  refine stays_advance.bind fun start hstart => .get fun c _ => ?_
  split
  · exact .pure hstart
  · exact readsExpr_expression.bind fun _ hvalue => .pure (hstart.merge hvalue)

theorem readsStmt_delStatement : ReadsStmt size delStatement :=
  stays_advance.bind fun _ hstart => stays_expectIdent.bind fun _ hname => .pure (hstart.merge hname)

/-- An assignment covers its target and its value. -/
theorem span_assignment {target value : Expr} {span : Span} (h : isAssignable target) :
    ((assignment? target value span).getD (.expr target span)).span = span := by
  cases target <;> rfl

theorem readsStmt_expressionOrAssignment : ReadsStmt size expressionOrAssignment := by
  refine readsExpr_expression.bind fun target htarget => .get fun c _ => ?_
  split
  · refine .within _ ?_
    split
    · next hassignable =>
      refine stays_advance.bind fun _ _ => readsExpr_expression.bind fun value hvalue => .pure ?_
      rw [Spanned, span_assignment hassignable]
      exact htarget.merge hvalue
    · exact .throw htarget
  · exact .pure htarget

theorem readsStmt_statementForm (hinner : ReadsStmt size inner) :
    ReadsStmt size (statementForm inner) := by
  refine .get fun c _ => ?_
  split
  · exact .within _ readsStmt_letBinding
  · exact .within _ (readsStmt_functionDefinition hinner)
  · exact .within _ (readsStmt_ifStatement hinner)
  · exact .within _ (readsStmt_forLoop hinner)
  · exact .within _ readsStmt_returnStatement
  · exact .within _ readsStmt_delStatement
  · exact readsStmt_expressionOrAssignment

theorem readsStmt_statementWithin (depth : List Token) : ReadsStmt size (statementWithin depth) := by
  induction depth with
  | nil => exact stays_failHere _
  | cons t depth ih => exact readsStmt_statementForm ih

end Statements

end Parser

/-- **What cannot be read lies in the text of the tokens.** -/
theorem within_of_parse {size : Nat} {tokens : List Token} {e : ParseError}
    (htokens : ∀ t ∈ tokens, t.span.Within size) (h : parse tokens = .error e) : e.span.Within size := by
  have hprogram : Parser.Stays size Parser.Free Parser.program :=
    .get fun _ _ => (Parser.stays_stmtsUntil _ (Parser.readsStmt_statementWithin _) _).bind fun _ _ =>
      .get fun _ _ => .pure trivial
  have hread := hprogram (Cursor.ofTokens tokens) htokens
  have hrun := map_eq_error h
  rw [show Parser.program (Cursor.ofTokens tokens) = .error e from hrun] at hread
  cases hread with
  | error he => exact he

end Nikl
