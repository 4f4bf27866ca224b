import Nikl.Proofs.Syntax.Relabeling
import Nikl.Syntax.Statement

/-
Reading under other names. A reader looks at what kinds of tokens there are and where, and it asks of two
names only whether they are the same, where a parameter is named again. So tokens with other names are
read as the same tree with these names, or with the same error (`parse_rename`).

`Renames g view p p'` says that of two readers: from a cursor with other names the second comes to the
result of the first, as `view` renames it, and to the cursor behind it with other names, or to the error of
the first with other names.
-/

set_option autoImplicit false

namespace Nikl

/-! ## Tokens with other names -/

/-- The token with another name. -/
def Token.rename {ν μ : Type} (g : ν → μ) (t : Token ν) : Token μ :=
  ⟨t.kind.rename g, t.span, t.newlineBefore⟩

/-- The same place in tokens with other names. -/
def Cursor.rename {ν μ : Type} (g : ν → μ) (c : Cursor ν) : Cursor μ :=
  ⟨c.rest.map (·.rename g), c.previous⟩

namespace Cursor

variable {ν μ : Type} (g : ν → μ) (c : Cursor ν)

theorem current_rename : (c.rename g).current = c.current.rename g := by
  rcases c with ⟨_ | ⟨t, rest⟩, previous⟩ <;> rfl

theorem kind_rename : (c.rename g).kind = c.kind.rename g := congrArg Token.kind (c.current_rename g)

theorem span_rename : (c.rename g).span = c.span := congrArg Token.span (c.current_rename g)

theorem atLineStart_rename : (c.rename g).atLineStart = c.atLineStart :=
  congrArg Token.newlineBefore (c.current_rename g)

variable [DecidableEq ν] [DecidableEq μ]

theorem atEnd_rename : (c.rename g).atEnd = c.atEnd := by
  rw [atEnd, atEnd, kind_rename]
  cases c.kind <;> rfl

theorem next_rename : (c.rename g).next = c.next.rename g := by
  rw [next, next, atEnd_rename, span_rename]
  split
  · rfl
  · exact congrArg (Cursor.mk · _) List.map_tail.symm

end Cursor

/-! ## Readers -/

namespace Parser

variable {ν μ : Type} {g : Renaming ν μ}

/-- What comes of reading, with other names. -/
def renamedOutcome {α β : Type} (g : ν → μ) (view : α → β) :
    Except (ParseError ν) (α × Cursor ν) → Except (ParseError μ) (β × Cursor μ)
  | .ok (a, c) => .ok (view a, c.rename g)
  | .error e => .error (e.rename g)

/-- One reader is another one under other names. -/
def Renames {α β : Type} (g : Renaming ν μ) (view : α → β) (p : ParserOf ν α) (p' : ParserOf μ β) : Prop :=
  ∀ c : Cursor ν, p' (c.rename g.name) = renamedOutcome g.name view (p c)

namespace Renames

section Rules

variable {α β α' β' : Type} {view : α → α'} {look : β → β'} {p : ParserOf ν α} {p' : ParserOf μ α'}

theorem pure {a : α} {a' : α'} (h : view a = a') : Renames g view (pure a) (pure a') :=
  fun _ => h ▸ rfl

theorem bind {f : α → ParserOf ν β} {f' : α' → ParserOf μ β'} (hp : Renames g view p p')
    (hf : ∀ a, Renames g look (f a) (f' (view a))) : Renames g look (p >>= f) (p' >>= f') := by
  intro c
  have hc := hp c
  show (p' (c.rename g.name) >>= fun r => f' r.1 r.2) =
    renamedOutcome g.name look (p c >>= fun r => f r.1 r.2)
  rw [hc]
  rcases p c with e | ⟨a, d⟩
  · rfl
  · exact hf a d

theorem get {f : Cursor ν → ParserOf ν β} {f' : Cursor μ → ParserOf μ β'}
    (h : ∀ c, Renames g look (f c) (f' (c.rename g.name))) : Renames g look (get >>= f) (get >>= f') :=
  fun c => h c c

theorem fail {fault : TokenKind ν → ParseFault ν} {fault' : TokenKind μ → ParseFault μ}
    (h : ∀ kind, (fault kind).rename g.name = fault' (kind.rename g.name)) :
    Renames g view (failHere fault) (failHere fault') := by
  intro c
  rw [failHere, failHere, c.kind_rename, c.span_rename, ← h]
  rfl

theorem throw (e : ParseError ν) : Renames g view (throw e) (throw (e.rename g.name)) := fun _ => rfl

theorem within {context : Context} (h : Renames g view p p') :
    Renames g view (within context p) (within context p') := by
  intro c
  rw [Parser.within, Parser.within, h c]
  rcases p c with e | ⟨a, d⟩ <;> rfl

variable [DecidableEq ν] [DecidableEq μ]

/-- A kind is the same as another under other names too. -/
theorem check_rename (c : Cursor ν) (kind : TokenKind ν) :
    (c.rename g.name).check (kind.rename g.name) = c.check kind := by
  have hsame : ∀ k k' : TokenKind ν, (k.rename g.name).sameKind (k'.rename g.name) = k.sameKind k' := by
    intro k k'
    cases k <;> cases k' <;> first | rfl | simp [TokenKind.sameKind, TokenKind.rename]
  rw [Cursor.check, Cursor.check, c.kind_rename, hsame]

theorem check_symbol (c : Cursor ν) (s : Symbol) :
    (c.rename g.name).check (.symbol s) = c.check (.symbol s) := check_rename c (.symbol s)

theorem advance : Renames g (Token.rename g.name) advance advance := by
  intro c
  rw [Parser.advance, Parser.advance, c.current_rename, c.next_rename]
  rfl

theorem eat (kind : TokenKind ν) : Renames g id (eat kind) (eat (kind.rename g.name)) := by
  intro c
  rw [Parser.eat, Parser.eat, check_rename, c.next_rename]
  split <;> rfl

theorem expect (kind : TokenKind ν) :
    Renames g (Token.rename g.name) (expect kind) (expect (kind.rename g.name)) := by
  intro c
  rw [Parser.expect, Parser.expect, check_rename]
  split
  · exact advance c
  · exact fail (fun _ => rfl) c

theorem expectIdent : Renames g (Prod.map g.name id) expectIdent expectIdent := by
  intro c
  rw [Parser.expectIdent, Parser.expectIdent, c.kind_rename, c.span_rename, c.next_rename]
  cases c.kind with
  | ident name => rfl
  | _ => exact fail (fun _ => rfl) c

theorem expectClosing (close : TokenKind ν) (opener : Span) :
    Renames g id (expectClosing close opener) (expectClosing (close.rename g.name) opener) := by
  intro c
  rw [Parser.expectClosing, Parser.expectClosing, check_rename, c.atEnd_rename, c.span_rename,
    c.next_rename]
  split
  · rfl
  split
  · rfl
  · exact fail (fun _ => rfl) c

/-! ### Lists -/

variable {item : ParserOf ν α} {item' : ParserOf μ α'}

theorem items (hitem : Renames g view item item') (close : TokenKind ν) (rounds : List (Token ν)) :
    Renames g (List.map view) (items close item rounds)
      (items (close.rename g.name) item' (rounds.map (·.rename g.name))) := by
  induction rounds with
  | nil => exact pure rfl
  | cons t rounds ih =>
    refine get fun c => ?_
    rw [check_rename, c.atEnd_rename]
    split
    · exact pure rfl
    refine hitem.bind fun first => (eat (.symbol .comma)).bind fun comma => ?_
    cases comma with
    | true => exact ih.bind fun more => pure rfl
    | false =>
      refine get fun c => ?_
      rw [check_rename, c.atEnd_rename]
      split
      · exact pure rfl
      · exact fail fun _ => rfl

theorem commaSeparated (hitem : Renames g view item item') (opener : Span) (close : TokenKind ν) :
    Renames g (Prod.map (List.map view) id) (commaSeparated opener close item)
      (commaSeparated opener (close.rename g.name) item') :=
  get fun c => (hitem.items close c.rest).bind fun _ => (expectClosing close opener).bind fun _ =>
    pure rfl

end Rules

/-! ## Expressions -/

variable [DecidableEq ν] [DecidableEq μ]

section Expressions

variable {inner : ParserOf ν (Expr ν)} {inner' : ParserOf μ (Expr μ)}
  (hinner : Renames g (Expr.relabel (.ofNames g)) inner inner')

include hinner

theorem parenOrTuple : Renames g (Expr.relabel (.ofNames g)) (parenOrTuple inner) (parenOrTuple inner') := by
  refine advance.bind fun opener => get fun c => ?_
  rw [check_symbol]
  split
  · exact advance.bind fun _ => pure rfl
  refine hinner.bind fun first => (eat (.symbol .comma)).bind fun comma => ?_
  cases comma with
  | true =>
    refine ((hinner.commaSeparated opener.span (.symbol .rightParen)).bind fun r => ?_).within
    exact pure (Expr.relabel_tuple _ (first :: r.1) _)
  | false =>
    exact (expectClosing (.symbol .rightParen) opener.span).bind fun close =>
      pure (first.relabel_withSpan _ _)

theorem array : Renames g (Expr.relabel (.ofNames g)) (array inner) (array inner') := by
  exact advance.bind fun opener => (hinner.commaSeparated opener.span (.symbol .rightBracket)).bind fun r =>
    pure (Expr.relabel_array _ r.1 _)

theorem entry : Renames g (Prod.map (Expr.relabel (.ofNames g)) (Expr.relabel (.ofNames g))) (entry inner)
    (entry inner') :=
  hinner.bind fun _ => (expect (.symbol .colon)).bind fun _ => hinner.bind fun _ => pure rfl

theorem map : Renames g (Expr.relabel (.ofNames g)) (map inner) (map inner') := by
  exact advance.bind fun opener =>
    ((entry hinner).commaSeparated opener.span (.symbol .rightBrace)).bind fun r =>
      pure (Expr.relabel_map _ r.1 _)

omit hinner [DecidableEq ν] [DecidableEq μ] in
/-- What a token makes on its own is the same with another name. -/
theorem atom?_rename (kind : TokenKind ν) (place : Span) :
    atom? (kind.rename g.name) place = (atom? kind place).map (Expr.relabel (.ofNames g)) := by
  cases kind with
  | keyword w => cases w <;> rfl
  | _ => rfl

theorem primary : Renames g (Expr.relabel (.ofNames g)) (primary inner) (primary inner') := by
  refine get fun c => ?_
  rw [c.kind_rename, c.span_rename, atom?_rename]
  cases atom? c.kind c.span with
  | some e => exact advance.bind fun _ => pure rfl
  | none =>
    have hnone : Renames g (Expr.relabel (.ofNames g)) (failHere .expectedExpression)
      (failHere .expectedExpression) := fail fun _ => rfl
    cases c.kind with
    | symbol s =>
      cases s with
      | leftParen => exact parenOrTuple hinner
      | leftBracket => exact (array hinner).within
      | leftBrace => exact (map hinner).within
      | _ => exact hnone
    | _ => exact hnone

theorem call (callee : Expr ν) : Renames g (Expr.relabel (.ofNames g)) (call inner callee)
    (call inner' (callee.relabel (.ofNames g))) := by
  refine advance.bind fun opener => (hinner.commaSeparated opener.span (.symbol .rightParen)).bind fun r => ?_
  rw [Expr.span_relabel]
  exact pure (Expr.relabel_call _ callee r.1 _)

theorem index (target : Expr ν) : Renames g (Expr.relabel (.ofNames g)) (index inner target)
    (index inner' (target.relabel (.ofNames g))) := by
  refine advance.bind fun opener => hinner.bind fun place =>
    (expectClosing (.symbol .rightBracket) opener.span).bind fun close => ?_
  rw [Expr.span_relabel]
  exact pure rfl

theorem suffixesFrom (rounds : List (Token ν)) (e : Expr ν) :
    Renames g (Expr.relabel (.ofNames g)) (suffixesFrom inner rounds e)
      (suffixesFrom inner' (rounds.map (·.rename g.name)) (e.relabel (.ofNames g))) := by
  induction rounds generalizing e with
  | nil => exact pure rfl
  | cons t rounds ih =>
    refine get fun c => ?_
    rw [c.atLineStart_rename, check_symbol, check_symbol]
    split
    · exact pure rfl
    split
    · exact (call hinner e).within.bind ih
    split
    · exact (index hinner e).within.bind ih
    · exact pure rfl

theorem suffixed : Renames g (Expr.relabel (.ofNames g)) (suffixed inner) (suffixed inner') :=
  (primary hinner).bind fun e => get fun c => suffixesFrom hinner c.rest e

omit hinner [DecidableEq ν] [DecidableEq μ] in
theorem unaryOp?_rename (kind : TokenKind ν) : unaryOp? (kind.rename g.name) = unaryOp? kind := by
  cases kind with
  | symbol s => cases s <;> rfl
  | _ => rfl

theorem unaryFrom (rounds : List (Token ν)) : Renames g (Expr.relabel (.ofNames g)) (unaryFrom inner rounds)
    (unaryFrom inner' (rounds.map (·.rename g.name))) := by
  induction rounds with
  | nil => exact suffixed hinner
  | cons t rounds ih =>
    refine get fun c => ?_
    rw [c.kind_rename, unaryOp?_rename]
    cases unaryOp? c.kind with
    | none => exact suffixed hinner
    | some op =>
      refine advance.bind fun start => ih.bind fun operand => ?_
      rw [Expr.span_relabel]
      exact pure rfl

theorem unary : Renames g (Expr.relabel (.ofNames g)) (unary inner) (unary inner') :=
  get fun c => unaryFrom hinner c.rest

omit hinner

/-! ### Levels of operators -/

variable {operand : ParserOf ν (Expr ν)} {operand' : ParserOf μ (Expr μ)}
  {op? : TokenKind ν → Option BinaryOp} {op?' : TokenKind μ → Option BinaryOp}

theorem chainFrom (hop : ∀ kind, op?' (kind.rename g.name) = op? kind)
    (hoperand : Renames g (Expr.relabel (.ofNames g)) operand operand') (rounds : List (Token ν))
    (left : Expr ν) :
    Renames g (Expr.relabel (.ofNames g)) (chainFrom op? operand rounds left)
      (chainFrom op?' operand' (rounds.map (·.rename g.name)) (left.relabel (.ofNames g))) := by
  induction rounds generalizing left with
  | nil => exact pure rfl
  | cons t rounds ih =>
    refine get fun c => ?_
    rw [c.kind_rename, hop]
    cases op? c.kind with
    | none => exact pure rfl
    | some op =>
      refine advance.bind fun _ => hoperand.bind fun right => ?_
      have hbinary : binary op (left.relabel (.ofNames g)) (right.relabel (.ofNames g)) =
          (binary op left right).relabel (.ofNames g) := by
        rw [binary, Expr.span_relabel, Expr.span_relabel]
        rfl
      rw [hbinary]
      exact ih (binary op left right)

theorem chain (hop : ∀ kind, op?' (kind.rename g.name) = op? kind)
    (hoperand : Renames g (Expr.relabel (.ofNames g)) operand operand') :
    Renames g (Expr.relabel (.ofNames g)) (chain op? operand) (chain op?' operand') :=
  hoperand.bind fun left => get fun c => chainFrom hop hoperand c.rest left

theorem comparison (hinner : Renames g (Expr.relabel (.ofNames g)) operand operand') :
    Renames g (Expr.relabel (.ofNames g)) (comparison operand) (comparison operand') := by
  refine chain (fun kind => ?_) (chain (fun kind => ?_) (chain (fun kind => ?_) (unary hinner)))
  all_goals
    cases kind with
    | symbol s => cases s <;> rfl
    | _ => rfl

theorem expressionWithin (depth : List (Token ν)) : Renames g (Expr.relabel (.ofNames g))
    (expressionWithin depth) (expressionWithin (depth.map (·.rename g.name))) := by
  induction depth with
  | nil => exact fail fun _ => rfl
  | cons t depth ih => exact comparison ih

theorem expression : Renames g (Expr.relabel (.ofNames g)) expression expression :=
  get fun c => expressionWithin c.rest

end Expressions

/-! ## Statements -/

section Statements

omit [DecidableEq ν] [DecidableEq μ] in
theorem typeTag?_rename (kind : TokenKind ν) : typeTag? (kind.rename g.name) = typeTag? kind := by
  cases kind with
  | typeName t => cases t <;> rfl
  | keyword w => cases w <;> rfl
  | _ => rfl

theorem typeTag : Renames g id typeTag typeTag := by
  refine get fun c => ?_
  rw [c.kind_rename, typeTag?_rename]
  cases typeTag? c.kind with
  | some tag => exact advance.bind fun _ => pure rfl
  | none => exact (fail fun _ => rfl).within

theorem typeAfter (mark : Symbol) : Renames g id (typeAfter mark) (typeAfter mark) := by
  refine (eat (.symbol mark)).bind fun marked => ?_
  cases marked with
  | true => exact typeTag.bind fun _ => pure rfl
  | false => exact pure rfl

theorem param : Renames g (Param.relabel (.ofNames g)) param param :=
  expectIdent.bind fun _ => (typeAfter .colon).bind fun _ => pure rfl

/-- The same parameter is the first that is there twice. -/
theorem repeatedParam?_rename (earlier : List ν) (ps : List (Param ν)) :
    repeatedParam? (earlier.map g.name) (ps.map (·.relabel (.ofNames g))) =
      (repeatedParam? earlier ps).map (Param.relabel (.ofNames g)) := by
  induction ps generalizing earlier with
  | nil => rfl
  | cons p rest ih =>
    have hname : (p.relabel (.ofNames g)).name = g.name p.name := rfl
    -- names are compared here and nowhere else, so no two of them may become one
    rw [List.map_cons, repeatedParam?, repeatedParam?, hname, g.contains_map]
    split
    · rfl
    · exact ih (p.name :: earlier)

theorem params : Renames g (List.map (Param.relabel (.ofNames g))) params params := by
  refine (expect (.symbol .leftParen)).bind fun opener =>
    (param.commaSeparated opener.span (.symbol .rightParen)).bind fun r => ?_
  have hrepeated : repeatedParam? [] (r.1.map (Param.relabel (.ofNames g))) = _ :=
    repeatedParam?_rename [] r.1
  rcases r with ⟨ps, close⟩
  dsimp only [Prod.map] at hrepeated ⊢
  rw [hrepeated]
  cases repeatedParam? [] ps with
  | none => exact pure rfl
  | some p => exact throw ⟨.duplicateParameter p.name, p.span, none⟩

omit [DecidableEq ν] [DecidableEq μ] in
theorem isAssignable_relabel (target : Expr ν) :
    isAssignable (target.relabel (.ofNames g)) = isAssignable target := by
  cases target <;> rfl

omit [DecidableEq ν] [DecidableEq μ] in
theorem assignment?_relabel (target value : Expr ν) (span : Span) :
    ((assignment? target value span).getD (.expr target span)).relabel (.ofNames g) =
      (assignment? (target.relabel (.ofNames g)) (value.relabel (.ofNames g)) span).getD
        (.expr (target.relabel (.ofNames g)) span) := by
  cases target <;> rfl

theorem expressionOrAssignment : Renames g (Stmt.relabel (.ofNames g)) expressionOrAssignment
    expressionOrAssignment := by
  refine expression.bind fun target => get fun c => ?_
  rw [check_symbol, isAssignable_relabel, Expr.span_relabel]
  split
  · refine within ?_
    split
    · refine advance.bind fun _ => expression.bind fun value => ?_
      rw [Expr.span_relabel]
      exact pure (assignment?_relabel target value _)
    · exact throw ⟨.invalidAssignmentTarget, target.span, none⟩
  · exact pure rfl

theorem letBinding : Renames g (Stmt.relabel (.ofNames g)) letBinding letBinding := by
  refine advance.bind fun start => expectIdent.bind fun name => (typeAfter .colon).bind fun type =>
    (expect (.symbol .assign)).bind fun _ => expression.bind fun value => ?_
  rw [Expr.span_relabel]
  exact pure rfl

theorem delStatement : Renames g (Stmt.relabel (.ofNames g)) delStatement delStatement :=
  advance.bind fun _ => expectIdent.bind fun _ => pure rfl

theorem returnStatement : Renames g (Stmt.relabel (.ofNames g)) returnStatement returnStatement := by
  refine advance.bind fun start => get fun c => ?_
  rw [c.atEnd_rename, c.atLineStart_rename, check_symbol, check_symbol]
  split
  · exact pure rfl
  · refine expression.bind fun value => ?_
    rw [Expr.span_relabel]
    exact pure rfl

variable {inner : ParserOf ν (Stmt ν)} {inner' : ParserOf μ (Stmt μ)}
  (hinner : Renames g (Stmt.relabel (.ofNames g)) inner inner')

include hinner

theorem stmtsUntil {ends : Cursor ν → Bool} {ends' : Cursor μ → Bool}
    (hends : ∀ c, ends' (c.rename g.name) = ends c) (rounds : List (Token ν)) :
    Renames g (List.map (Stmt.relabel (.ofNames g))) (stmtsUntil ends inner rounds)
      (stmtsUntil ends' inner' (rounds.map (·.rename g.name))) := by
  have hterminated : Renames g (Stmt.relabel (.ofNames g)) (terminated inner) (terminated inner') :=
    hinner.bind fun _ => (eat (.symbol .semicolon)).bind fun _ => pure rfl
  induction rounds with
  | nil => exact pure rfl
  | cons t rounds ih =>
    refine (eat (.symbol .semicolon)).bind fun skipped => ?_
    cases skipped with
    | true => exact ih
    | false =>
      refine get fun c => ?_
      rw [hends]
      split
      · exact pure rfl
      · exact hterminated.bind fun _ => ih.bind fun _ => pure rfl

theorem block : Renames g (Block.relabel (.ofNames g)) (block inner) (block inner') := by
  have hends : ∀ c : Cursor ν,
      ((c.rename g.name).check (.symbol .rightBrace) || (c.rename g.name).atEnd) =
        (c.check (.symbol .rightBrace) || c.atEnd) := by
    intro c
    rw [check_symbol, c.atEnd_rename]
  refine within ((expect (.symbol .leftBrace)).bind fun opener => get fun c => ?_)
  refine (stmtsUntil hinner hends c.rest).bind fun ss =>
    (expectClosing (.symbol .rightBrace) opener.span).bind fun close => ?_
  exact pure (Block.relabel_mk _ ss _)

theorem functionDefinition : Renames g (Stmt.relabel (.ofNames g)) (functionDefinition inner)
    (functionDefinition inner') := by
  refine advance.bind fun start => expectIdent.bind fun name => params.within.bind fun ps =>
    (typeAfter .arrow).bind fun type => (block hinner).bind fun body => ?_
  rw [Block.span_relabel]
  exact pure rfl

theorem ifStatement : Renames g (Stmt.relabel (.ofNames g)) (ifStatement inner) (ifStatement inner') := by
  refine advance.bind fun start => expression.bind fun condition => (block hinner).bind fun thenBranch =>
    (eat (.keyword .elseWord)).bind fun otherwise => ?_
  have hjoined : ∀ elseBranch : Block ν, Renames g (Stmt.relabel (.ofNames g))
      (Pure.pure (.ifElse condition thenBranch elseBranch (start.span.merge elseBranch.span)))
      (Pure.pure (.ifElse (condition.relabel (.ofNames g)) (thenBranch.relabel (.ofNames g))
        (elseBranch.relabel (.ofNames g))
        (start.span.merge (elseBranch.relabel (.ofNames g)).span))) := by
    intro elseBranch
    rw [Block.span_relabel]
    exact pure rfl
  cases otherwise with
  | true =>
    refine get fun c => ?_
    rw [show (c.rename g.name).check (.keyword .ifWord) = c.check (.keyword .ifWord) from
      check_rename c (.keyword .ifWord)]
    split
    · refine hinner.bind fun nested => ?_
      have hblock := Block.relabel_mk (.ofNames g) [nested] nested.span
      have hnested := hjoined (.mk [nested] nested.span)
      rw [hblock] at hnested
      rw [Stmt.span_relabel]
      exact hnested
    · exact (block hinner).bind hjoined
  | false =>
    rw [Block.span_relabel]
    exact pure rfl

theorem forLoop : Renames g (Stmt.relabel (.ofNames g)) (forLoop inner) (forLoop inner') := by
  refine advance.bind fun start => expectIdent.bind fun first => (eat (.symbol .comma)).bind fun comma => ?_
  have hrest : ∀ second : Option ν, Renames g (Stmt.relabel (.ofNames g))
      (do
        let _ ← Parser.expect (.keyword .inWord)
        let iterable ← Parser.expression
        let body ← Parser.block inner
        return .forEach first.1 second iterable body (start.span.merge body.span))
      (do
        let _ ← Parser.expect (.keyword .inWord)
        let iterable ← Parser.expression
        let body ← Parser.block inner'
        return .forEach (g.name first.1) (second.map g.name) iterable body (start.span.merge body.span)) := by
    intro second
    refine (expect (.keyword .inWord)).bind fun _ => expression.bind fun iterable =>
      (block hinner).bind fun body => ?_
    rw [Block.span_relabel]
    exact pure rfl
  cases comma with
  | true => exact expectIdent.bind fun name => hrest (some name.1)
  | false => exact hrest none

theorem statementForm : Renames g (Stmt.relabel (.ofNames g)) (statementForm inner)
    (statementForm inner') := by
  refine get fun c => ?_
  rw [c.kind_rename]
  cases c.kind with
  | keyword w =>
    cases w with
    | letWord => exact letBinding.within
    | fnWord => exact (functionDefinition hinner).within
    | ifWord => exact (ifStatement hinner).within
    | forWord => exact (forLoop hinner).within
    | returnWord => exact returnStatement.within
    | delWord => exact delStatement.within
    | _ => exact expressionOrAssignment
  | _ => exact expressionOrAssignment

omit hinner

theorem statementWithin (depth : List (Token ν)) : Renames g (Stmt.relabel (.ofNames g))
    (statementWithin depth) (statementWithin (depth.map (·.rename g.name))) := by
  induction depth with
  | nil => exact fail fun _ => rfl
  | cons t depth ih => exact statementForm ih

theorem program : Renames g (Block.relabel (.ofNames g)) program program := by
  refine get fun c => ?_
  refine (stmtsUntil (statementWithin c.rest) (fun c => c.atEnd_rename g.name) c.rest).bind fun ss =>
    get fun d => ?_
  rw [c.span_rename, d.span_rename]
  exact pure (Block.relabel_mk _ ss _)

end Statements

end Renames

end Parser

/-- **Tokens with other names are read as the same tree with these names**, or with the same error. -/
theorem parse_rename {ν μ : Type} [DecidableEq ν] [DecidableEq μ] (g : Renaming ν μ)
    (tokens : List (Token ν)) :
    parse (tokens.map (·.rename g.name)) =
      ((parse tokens).map (Block.relabel (.ofNames g))).mapError (ParseError.rename g.name) := by
  have hprogram := Parser.Renames.program (g := g) (Cursor.ofTokens tokens)
  rw [parse, parse, StateT.run, StateT.run]
  replace hprogram : Parser.program (Cursor.ofTokens (tokens.map (·.rename g.name))) = _ := hprogram
  rw [hprogram]
  rcases Parser.program (Cursor.ofTokens tokens) with e | ⟨program, c⟩ <;> rfl

end Nikl
