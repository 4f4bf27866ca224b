import Nikl.Proofs.Syntax.ExpressionReading
import Nikl.Syntax.Statement

/-
The reader of programs gives back every program that is written. A block asks its reader for nothing
but shorter statements, so the readers of all forms of statements follow from what the reader with one
level of nesting less does on those, and the number of levels is what the induction is on.

The names of a function's parameters must differ: no other tree is one that a text can mean.
-/

set_option autoImplicit false

namespace Nikl

open Written

/-! ## Trees that a text can mean -/

mutual

/-- No two parameters of a function in the statement have the same name. -/
def Stmt.ParamsDiffer : Stmt → Prop
  | .function d _ => d.ParamsDiffer
  | .ifThen _ thenBranch _ => thenBranch.ParamsDiffer
  | .ifElse _ thenBranch elseBranch _ => thenBranch.ParamsDiffer ∧ elseBranch.ParamsDiffer
  | .forEach _ _ _ body _ => body.ParamsDiffer
  | _ => True
termination_by structural s => s

def Stmt.ParamsDifferAll : List Stmt → Prop
  | [] => True
  | s :: rest => s.ParamsDiffer ∧ Stmt.ParamsDifferAll rest
termination_by structural ss => ss

def Block.ParamsDiffer : Block → Prop
  | .mk stmts _ => Stmt.ParamsDifferAll stmts
termination_by structural b => b

def FunctionDef.ParamsDiffer : FunctionDef → Prop
  | .mk _ params _ body _ => (params.map (·.name)).Nodup ∧ body.ParamsDiffer
termination_by structural d => d

end

@[simp] theorem Stmt.paramsDifferAll_iff (ss : List Stmt) :
    Stmt.ParamsDifferAll ss ↔ ∀ s ∈ ss, s.ParamsDiffer := by
  induction ss with
  | nil => simp [Stmt.ParamsDifferAll]
  | cons s rest ih => simp [Stmt.ParamsDifferAll, ih]

/-! ## How a statement begins -/

/-- Tokens that a statement may begin with. -/
def TokenKind.beginsStmt : TokenKind → Bool
  | keyword .letWord | keyword .fnWord | keyword .ifWord | keyword .forWord | keyword .returnWord
  | keyword .delWord => true
  | k => k.beginsExpr

theorem beginsStmt_of_beginsExpr {k : TokenKind} (hk : k.beginsExpr = true) :
    k.beginsStmt = true := by
  rw [TokenKind.beginsStmt.eq_def]
  split <;> first | rfl | exact hk

theorem beginsStmt_of_expr (e : Expr) (behind : List TokenKind) :
    ∃ k ks, e.tokens ++ behind = k :: ks ∧ k.beginsStmt = true := by
  obtain ⟨k, ks, hks, hk⟩ := e.tokens_begin
  exact ⟨k, _, by rw [hks, List.cons_append], beginsStmt_of_beginsExpr hk⟩

theorem Stmt.tokens_begin (chained : Style) (s : Stmt) :
    ∃ k ks, s.tokens chained = k :: ks ∧ k.beginsStmt = true := by
  cases s with
  | expr e _ =>
    have he := beginsStmt_of_expr e []
    rwa [List.append_nil] at he
  | assignIndex target place value span =>
    exact beginsStmt_of_expr (.index target place span) _
  | function d _ =>
    cases d
    exact ⟨_, _, rfl, rfl⟩
  | giveBack value _ => cases value <;> exact ⟨_, _, rfl, rfl⟩
  | _ => exact ⟨_, _, rfl, rfl⟩

/-- No statement begins with a token that none may begin with. -/
theorem beginsStmt_ne {k k' : TokenKind} (hk : k.beginsStmt = true) (hk' : k'.beginsStmt = false) :
    k ≠ k' := by
  rintro rfl
  rw [hk] at hk'
  cases hk'

namespace Parser

/-! ## Parts of statements -/

section Parts

variable {F : TokenKind → Prop}

theorem reads_typeTag (type : TypeTag) : Reads typeTag [type.token] F (· = type) := by
  refine Reads.get_cons rfl fun c hc _ _ => ?_
  have htag : typeTag? c.kind = some type := by
    rw [hc]
    cases type <;> rfl
  rw [htag]
  exact Reads.advance (by cases type <;> simp [TypeTag.token]) fun _ _ => Reads.pure rfl

/-- A type behind its mark, or none where something else follows. -/
theorem reads_typeAfter {mark : Symbol} (type : Option TypeTag)
    (hF : ∀ k, F k → k ≠ .symbol mark) :
    Reads (typeAfter mark) (typed mark type) F (· = type) := by
  cases type with
  | none =>
    refine Reads.eat_other (fun k hk => ?_) (Reads.pure rfl)
    rw [sameKind_symbol]
    exact decide_eq_false (hF k hk)
  | some type =>
    refine Reads.eat (by simp) (by simp) ?_
    refine (reads_typeTag (F := fun _ => True) type).bind_last (fun _ _ => trivial) fun t ht => ?_
    exact Reads.pure (congrArg some ht)

theorem reads_param (p : Param) (hF : ∀ k, F k → k ≠ .symbol .colon) :
    Reads param p.tokens F (fun p' => p'.bare = p.bare) := by
  refine Reads.expectIdent fun span => ?_
  refine (reads_typeAfter p.type hF).bind_last (fun _ hk => hk) fun type htype => Reads.pure ?_
  rw [htype]
  rfl

/-- No name is found to be there twice where there is none twice. -/
theorem repeatedParam?_eq_none (earlier : List String) (ps : List Param)
    (hearlier : ∀ p ∈ ps, p.name ∉ earlier) (hps : (ps.map (·.name)).Nodup) :
    repeatedParam? earlier ps = none := by
  induction ps generalizing earlier with
  | nil => rfl
  | cons p rest ih =>
    rw [List.map_cons, List.nodup_cons] at hps
    have hp : earlier.contains p.name = false := by
      simpa using hearlier p List.mem_cons_self
    rw [repeatedParam?, hp]
    refine ih (p.name :: earlier) (fun q hq => ?_) hps.2
    rw [List.mem_cons, not_or]
    refine ⟨fun heq => hps.1 ?_, hearlier q (List.mem_cons_of_mem _ hq)⟩
    rw [← heq]
    exact List.mem_map_of_mem hq

/-- Parameters have the same names if they are the same without their spans. -/
theorem names_of_bare {ps qs : List Param} (h : ps.map Param.bare = qs.map Param.bare) :
    ps.map (·.name) = qs.map (·.name) := by
  have hnames := congrArg (List.map Param.name) h
  rw [List.map_map, List.map_map] at hnames
  exact hnames

theorem reads_params (ps : List Param) (hps : (ps.map (·.name)).Nodup) :
    Reads params (enclosed .leftParen .rightParen (separated (ps.map Param.tokens))) F
      (fun ps' => ps'.map Param.bare = ps.map Param.bare) := by
  have hcolon : ∀ k : TokenKind, k = .symbol .comma ∨ k = .symbol .rightParen → k ≠ .symbol .colon := by
    rintro k (rfl | rfl) <;> simp
  refine Reads.expect (by simp) (by simp) fun t _ => ?_
  have hlist : Reads (commaSeparated t.span (.symbol .rightParen) param)
      (separated (ps.map Param.tokens) ++ [TokenKind.symbol .rightParen]) (fun _ => True)
      (fun r => r.1.map Param.bare = ps.map Param.bare) :=
    reads_commaSeparated (by decide) ps (fun p _ => reads_param p hcolon)
      (fun p _ => ⟨.ident p.name, _, rfl, by simp, by simp⟩)
  refine hlist.bind_last (fun _ _ => trivial) ?_
  rintro ⟨ps', close⟩ hps'
  -- the names that were read are those that were written
  have hnone : repeatedParam? [] ps' = none := by
    refine repeatedParam?_eq_none [] ps' (fun _ _ => List.not_mem_nil) ?_
    rw [names_of_bare hps']
    exact hps
  simp only [hnone]
  exact Reads.pure hps'

end Parts

/-! ## Blocks -/

/-- What follows every statement. -/
def Ended (k : TokenKind) : Prop := k = .symbol .semicolon

/-- `inner` reads every statement of fewer than `n` tokens. -/
def ReadsShortStmt (chained : Style) (inner : Parser Stmt) (n : Nat) : Prop :=
  ∀ s : Stmt, s.ParamsDiffer → (s.tokens chained).length < n →
    Reads inner (s.tokens chained) Ended (fun s' => s'.bare = s.bare)

section Blocks

variable {chained : Style} {inner : Parser Stmt} {n : Nat}

/-- No statements before what ends them. -/
theorem reads_noStmts {F : TokenKind → Prop} (ends : Cursor → Bool)
    (hends : ∀ c : Cursor, F c.kind → ends c = true) (hF : ∀ k, F k → k ≠ .symbol .semicolon)
    (rounds : List Token) : Reads (Parser.stmtsUntil ends inner rounds) [] F (· = []) := by
  cases rounds with
  | nil => exact Reads.pure rfl
  | cons t rounds =>
    refine Reads.eat_other (fun k hk => ?_) ?_
    · rw [sameKind_symbol]
      exact decide_eq_false (hF k hk)
    · refine Reads.get_nil fun c hc => ?_
      rw [hends c hc]
      exact Reads.pure rfl

/-- Statements up to what ends them: each takes its semicolon with it. -/
theorem ReadsShortStmt.stmtsUntil (short : ReadsShortStmt chained inner n) {F : TokenKind → Prop}
    (ends : Cursor → Bool) (hends : ∀ c : Cursor, F c.kind → ends c = true)
    (hgoes : ∀ c : Cursor, c.kind.beginsStmt = true → ends c = false)
    (hF : ∀ k, F k → k ≠ .symbol .semicolon) (ss : List Stmt)
    (hparams : ∀ s ∈ ss, s.ParamsDiffer) (hlen : (Stmt.tokensAll chained ss).length ≤ n) :
    ∀ rounds, (Stmt.tokensAll chained ss).length ≤ rounds.length →
      Reads (stmtsUntil ends inner rounds) (Stmt.tokensAll chained ss) F
        (fun ss' => ss'.map Stmt.bare = ss.map Stmt.bare) := by
  induction ss with
  | nil =>
    intro rounds _
    refine (reads_noStmts ends hends hF rounds).weaken (fun _ hk => hk) ?_
    rintro ss rfl
    rfl
  | cons s rest ih =>
    intro rounds hrounds
    rw [Stmt.tokensAll, List.length_append, List.length_cons] at hlen hrounds
    cases rounds with
    | nil =>
      rw [List.length_nil] at hrounds
      omega
    | cons t rounds =>
      obtain ⟨k, ks, hks, hk⟩ := s.tokens_begin chained
      have hwhole : Stmt.tokensAll chained (s :: rest) =
          k :: (ks ++ .symbol .semicolon :: Stmt.tokensAll chained rest) := by
        rw [Stmt.tokensAll, hks, List.cons_append]
      have hstmt := short s (hparams s List.mem_cons_self) (by omega)
      rw [List.length_cons] at hrounds
      have hrest := ih (fun s hs => hparams s (List.mem_cons_of_mem _ hs)) (by omega) rounds
        (by omega)
      refine Reads.eat_other (fun k' _ => ?_) (Reads.get_cons hwhole fun c hc _ _ => ?_)
      · rw [hwhole, sameKind_symbol]
        exact decide_eq_false (beginsStmt_ne hk rfl)
      · rw [hgoes c (by rw [hc]; exact hk), Stmt.tokensAll]
        -- the reader of one statement takes it and its semicolon
        have hone : Reads (terminated inner) (s.tokens chained ++ [TokenKind.symbol .semicolon])
            (fun _ => True) (fun s' => s'.bare = s.bare) :=
          hstmt.bind (fun _ _ => rfl) fun s' hs' =>
            Reads.eat (by simp) (by simp) (Reads.pure hs')
        rw [← List.singleton_append, ← List.append_assoc]
        refine hone.bind (fun _ _ => trivial) fun s' hs' => ?_
        refine hrest.bind_last (fun _ hk => hk) fun rest' hrest' => Reads.pure ?_
        rw [List.map_cons, List.map_cons, hs', hrest']

/-- Statements in braces. -/
theorem ReadsShortStmt.block (short : ReadsShortStmt chained inner n) {F : TokenKind → Prop}
    (b : Block) (hparams : b.ParamsDiffer) (hlen : (b.tokens chained).length ≤ n) :
    Reads (block inner) (b.tokens chained) F (fun b' => b'.bare = b.bare) := by
  obtain ⟨ss, s⟩ := b
  rw [Block.ParamsDiffer, Stmt.paramsDifferAll_iff] at hparams
  rw [Block.tokens, enclosed] at hlen ⊢
  rw [List.length_cons, List.length_append] at hlen
  refine Reads.within (Reads.expect (by simp) (by simp) fun t _ => ?_)
  refine Reads.get_rest fun c hrounds => ?_
  rw [List.length_append] at hrounds
  have hgoes : ∀ c : Cursor, c.kind.beginsStmt = true →
      (c.check (.symbol .rightBrace) || c.atEnd) = false := by
    intro c hc
    have hbrace : c.kind ≠ .symbol .rightBrace := beginsStmt_ne hc rfl
    have hend : c.kind ≠ .eof := beginsStmt_ne hc rfl
    simp [Cursor.atEnd, hbrace, hend]
  have hstmts := short.stmtsUntil (F := (· = .symbol .rightBrace))
    (fun c => c.check (.symbol .rightBrace) || c.atEnd) (fun c hc => by simp [hc]) hgoes
    (by rintro k rfl; simp) ss hparams (by omega) c.rest (by omega)
  refine hstmts.bind (fun _ _ => rfl) fun ss' hss' => ?_
  refine Reads.expectClosing (by simp) (by simp) fun span => Reads.pure ?_
  rw [Block.bare_mk, Block.bare_mk, hss']

/-- A block in its braces begins with one. -/
theorem blockTokens_begin (chained : Style) (b : Block) :
    ∃ ks, b.tokens chained = .symbol .leftBrace :: ks := by
  cases b
  exact ⟨_, rfl⟩

/-- A condition or a collection ends where a block begins. -/
theorem stops_block (chained : Style) (b : Block) (behind : List TokenKind) (k : TokenKind) :
    Stops 0 ((b.tokens chained ++ behind).headD k) := by
  obtain ⟨ks, hks⟩ := blockTokens_begin chained b
  rw [hks]
  exact stops_mark (by decide)

theorem stops_lastBlock (chained : Style) (b : Block) (k : TokenKind) :
    Stops 0 ((b.tokens chained).headD k) := by
  have hstops := stops_block chained b [] k
  rwa [List.append_nil] at hstops

end Blocks

/-! ## The forms of statements -/

theorem Ended.stops {k : TokenKind} (h : Ended k) : Stops 0 k := by
  cases h
  exact stops_mark (by decide)

/-- The expression a statement ends with. -/
theorem reads_lastExpression (e : Expr) {f : Expr → Parser Stmt} {P : Stmt → Prop}
    (hf : ∀ e' : Expr, e'.bare = e.bare → Reads (f e') [] Ended P) :
    Reads (expression >>= f) e.tokens Ended P := by
  exact (reads_expression e).bind_last (fun _ hk => hk.stops) hf

section Forms

variable {chained : Style} {inner : Parser Stmt} {n : Nat}

theorem reads_letBinding (name : String) (type : Option TypeTag) (value : Expr) (s : Span) :
    Reads letBinding ((Stmt.define name type value s).tokens chained) Ended
      (fun s' => s'.bare = (Stmt.define name type value s).bare) := by
  refine Reads.advance (by simp) fun _ _ => Reads.expectIdent fun _ => ?_
  refine (reads_typeAfter (F := (· = .symbol .assign)) type (by rintro _ rfl; simp)).bind
    (fun _ _ => rfl) fun type' htype => ?_
  refine Reads.expect (by simp) (by simp) fun _ _ => ?_
  refine reads_lastExpression value fun value' hvalue => Reads.pure ?_
  show Stmt.define name type' value'.bare _ = Stmt.define name type value.bare _
  rw [htype, hvalue]

theorem reads_delStatement (name : String) (s : Span) :
    Reads delStatement ((Stmt.delete name s).tokens chained) Ended
      (fun s' => s'.bare = (Stmt.delete name s).bare) :=
  Reads.advance (by simp) fun _ _ => Reads.expectIdent fun _ => Reads.pure rfl

theorem reads_returnStatement (value : Option Expr) (s : Span) :
    Reads returnStatement ((Stmt.giveBack value s).tokens chained) Ended
      (fun s' => s'.bare = (Stmt.giveBack value s).bare) := by
  cases value with
  | none =>
    refine Reads.advance (by simp) fun _ _ => Reads.get_nil fun c hc => ?_
    have hmark : c.check (.symbol .semicolon) = true := by
      rw [check_symbol]
      exact decide_eq_true hc
    rw [hmark, Bool.or_true]
    exact Reads.pure rfl
  | some e =>
    obtain ⟨k, ks, hks, hk⟩ := e.tokens_begin
    refine Reads.advance (by simp) fun _ _ => Reads.get_cons hks fun c hc hline _ => ?_
    -- the value stands on the same line, and begins like none of what a bare return is ended by
    have hbrace : k ≠ .symbol .rightBrace := beginsExpr_ne hk rfl
    have hmark : k ≠ .symbol .semicolon := beginsExpr_ne hk rfl
    have hvalue : (c.atEnd || c.atLineStart || c.check (.symbol .rightBrace) ||
        c.check (.symbol .semicolon)) = false := by
      rw [Cursor.atEnd, hline, check_symbol, check_symbol, hc]
      simp [beginsExpr_ne_eof hk, hbrace, hmark]
    rw [hvalue]
    refine reads_lastExpression e fun e' he' => Reads.pure ?_
    show Stmt.giveBack (some e'.bare) _ = Stmt.giveBack (some e.bare) _
    rw [he']

/-- Whether an expression may be assigned to does not depend on where it stands. -/
theorem isAssignable_bare (e : Expr) : isAssignable e.bare = isAssignable e := by cases e <;> rfl

theorem assignment?_bare (target value : Expr) (s : Span) :
    (assignment? target value s).map Stmt.bare = assignment? target.bare value.bare Span.nowhere := by
  cases target <;> rfl

/-- An expression that no equals sign follows. -/
theorem reads_plainExpression {F : TokenKind → Prop} (hF : ∀ k, F k → Stops 0 k)
    (hassign : ∀ k, F k → k ≠ .symbol .assign) (e : Expr) :
    Reads expressionOrAssignment e.tokens F
      (fun s => ∃ e' span, s = .expr e' span ∧ e'.bare = e.bare) := by
  refine (reads_expression e).bind_last (fun k hk => hF k hk) fun e' he' => Reads.get_nil fun c hc => ?_
  have hmark : c.check (.symbol .assign) = false := by
    rw [check_symbol]
    exact decide_eq_false (hassign _ hc)
  rw [hmark]
  exact Reads.pure ⟨e', e'.span, rfl, he'⟩

/-- An expression with an equals sign and a value behind it. -/
theorem reads_assignment {target value : Expr} {s : Stmt} {span : Span}
    (h : assignment? target value span = some s) :
    Reads expressionOrAssignment (target.tokens ++ .symbol .assign :: value.tokens) Ended
      (fun s' => s'.bare = s.bare) := by
  have hassignable : isAssignable target = true := by
    cases target <;> first | rfl | cases h
  refine (reads_expression target).bind (fun _ _ => stops_mark (by decide)) fun target' ht => ?_
  refine Reads.get_cons rfl fun c hc _ _ => ?_
  rw [check_symbol, hc]
  have hassignable' : isAssignable target' = true := by
    rw [← isAssignable_bare, ht, isAssignable_bare, hassignable]
  refine Reads.within ?_
  rw [if_pos hassignable']
  refine Reads.advance (by simp) fun _ _ => reads_lastExpression value fun value' hv => Reads.pure ?_
  -- up to spans, what is read is assigned to as what is written is
  have hsame : (assignment? target' value' (target'.span.merge value'.span)).map Stmt.bare =
      some s.bare := by
    rw [assignment?_bare, ht, hv, ← assignment?_bare target value span, h, Option.map_some]
  obtain ⟨s', hs', hbare⟩ := Option.map_eq_some_iff.1 hsame
  rw [hs', Option.getD_some, hbare]

/-- The block of a statement. -/
theorem ReadsShortStmt.lastBlock (short : ReadsShortStmt chained inner n) (b : Block)
    (hparams : b.ParamsDiffer) (hlen : (b.tokens chained).length ≤ n) {f : Block → Parser Stmt}
    {F : TokenKind → Prop} {P : Stmt → Prop}
    (hf : ∀ b' : Block, b'.bare = b.bare → Reads (f b') [] F P) :
    Reads (Parser.block inner >>= f) (b.tokens chained) F P := by
  exact (short.block (F := fun _ => True) b hparams hlen).bind_last (fun _ _ => trivial) hf

theorem ReadsShortStmt.functionDefinition (short : ReadsShortStmt chained inner n) (d : FunctionDef)
    (s : Span) (hparams : d.ParamsDiffer) (hlen : (d.tokens chained).length ≤ n) :
    Reads (functionDefinition inner) (d.tokens chained) Ended
      (fun s' => s'.bare = (Stmt.function d s).bare) := by
  obtain ⟨name, ps, returnType, body, span⟩ := d
  obtain ⟨hps, hbody⟩ := hparams
  rw [FunctionDef.tokens] at hlen ⊢
  simp only [List.length_cons, List.length_append] at hlen
  refine Reads.advance (by simp) fun _ _ => Reads.expectIdent fun _ => ?_
  refine (reads_params (F := fun _ => True) ps hps).within.bind (fun _ _ => trivial)
    fun ps' hps' => ?_
  refine (reads_typeAfter (F := (· = .symbol .leftBrace)) returnType
    (by rintro _ rfl; simp)).bind (fun k _ => ?_) fun type htype => ?_
  · obtain ⟨ks, hks⟩ := blockTokens_begin chained body
    rw [hks]
    rfl
  · refine short.lastBlock body hbody (by omega) fun body' hbody' => Reads.pure ?_
    show Stmt.function (.mk name (ps'.map Param.bare) type body'.bare _) _ =
      Stmt.function (.mk name (ps.map Param.bare) returnType body.bare _) _
    rw [hps', htype, hbody']

theorem ReadsShortStmt.forLoop (short : ReadsShortStmt chained inner n) (first : String)
    (second : Option String) (iterable : Expr) (body : Block) (s : Span) (hparams : body.ParamsDiffer)
    (hlen : ((Stmt.forEach first second iterable body s).tokens chained).length ≤ n) :
    Reads (forLoop inner) ((Stmt.forEach first second iterable body s).tokens chained) Ended
      (fun s' => s'.bare = (Stmt.forEach first second iterable body s).bare) := by
  rw [Stmt.tokens] at hlen ⊢
  simp only [List.length_cons, List.length_append] at hlen
  refine Reads.advance (by simp) fun t _ => Reads.expectIdent fun _ => ?_
  -- what follows the names, whether there is one or two
  have hrest (second' : Option String) (hsecond : second' = second) :
      Reads (do
          let _ ← expect (.keyword .inWord)
          let iterable ← expression
          let body ← Parser.block inner
          return Stmt.forEach first second' iterable body (t.span.merge body.span) : Parser Stmt)
        (.keyword .inWord :: (iterable.tokens ++ body.tokens chained)) Ended
        (fun s' => s'.bare = (Stmt.forEach first second iterable body s).bare) := by
    refine Reads.expect (by simp) (by simp) fun _ _ => ?_
    refine (reads_expression iterable).bind (fun k _ => stops_lastBlock chained body k)
      fun iterable' hi => ?_
    refine short.lastBlock body hparams (by omega) fun body' hbody => Reads.pure ?_
    show Stmt.forEach first second' iterable'.bare body'.bare _ =
      Stmt.forEach first second iterable.bare body.bare _
    rw [hsecond, hi, hbody]
  cases second with
  | none => exact Reads.eat_other (fun _ _ => rfl) (hrest none rfl)
  | some name => exact Reads.eat (by simp) (by simp) (Reads.expectIdent fun _ => hrest (some name) rfl)

/-- What stands behind `else` is a block, or one `if` that stands for a block of its own. -/
theorem elseTokens_cases (chained : Style) (b : Block) :
    b.elseTokens chained = b.tokens chained ∨
      ∃ s span ks, b = .mk [s] span ∧ b.elseTokens chained = s.tokens chained ∧
        s.tokens chained = .keyword .ifWord :: ks := by
  obtain ⟨ss, span⟩ := b
  match ss with
  | [] => exact .inl rfl
  | s :: s' :: rest => exact .inl rfl
  | [s] =>
    cases hs : s.isIf && chained s with
    | false => exact .inl (by simp [Block.elseTokens, Block.tokens, Stmt.tokensAll, hs])
    | true =>
      refine .inr ⟨s, span, ?_⟩
      have hif : s.isIf = true := (Bool.and_eq_true_iff.1 hs).1
      have helse : (Block.mk [s] span).elseTokens chained = s.tokens chained := by
        simp [Block.elseTokens, hs]
      cases s <;> first | exact ⟨_, rfl, helse, rfl⟩ | cases hif

/-- What stands behind `else`. -/
theorem ReadsShortStmt.elseBranch (short : ReadsShortStmt chained inner n) (b : Block)
    (hparams : b.ParamsDiffer) (hlen : (b.elseTokens chained).length < n) {f : Block → Parser Stmt}
    {P : Stmt → Prop} (hf : ∀ b' : Block, b'.bare = b.bare → Reads (f b') [] Ended P) :
    Reads (do
        if (← get).check (.keyword .ifWord) then
          let nested ← inner
          f (Block.mk [nested] nested.span)
        else
          let b ← Parser.block inner
          f b : Parser Stmt) (b.elseTokens chained) Ended P := by
  -- a block begins with a brace and an `if` with its word, so the reader knows which one to read
  rcases elseTokens_cases chained b with hblock | ⟨s, span, ks, rfl, helse, hif⟩
  · obtain ⟨ks, hks⟩ := blockTokens_begin chained b
    rw [hblock] at hlen ⊢
    refine Reads.get_cons hks fun c hc _ _ => ?_
    rw [check_keyword, hc]
    exact short.lastBlock b hparams (by omega) hf
  · rw [helse] at hlen ⊢
    refine Reads.get_cons hif fun c hc _ _ => ?_
    rw [check_keyword, hc]
    rw [Block.ParamsDiffer, Stmt.paramsDifferAll_iff] at hparams
    refine (short s (hparams s List.mem_cons_self) hlen).bind_last (fun _ hk => hk) fun s' hs' => hf _ ?_
    rw [Block.bare_mk, Block.bare_mk, List.map_singleton, List.map_singleton, hs']

theorem ReadsShortStmt.ifThen (short : ReadsShortStmt chained inner n) (condition : Expr)
    (thenBranch : Block) (s : Span) (hthen : thenBranch.ParamsDiffer)
    (hlen : ((Stmt.ifThen condition thenBranch s).tokens chained).length ≤ n) :
    Reads (ifStatement inner) ((Stmt.ifThen condition thenBranch s).tokens chained) Ended
      (fun s' => s'.bare = (Stmt.ifThen condition thenBranch s).bare) := by
  rw [Stmt.tokens] at hlen ⊢
  rw [List.length_cons, List.length_append] at hlen
  refine Reads.advance (by simp) fun t _ => ?_
  refine (reads_expression condition).bind (fun k _ => stops_lastBlock chained thenBranch k)
    fun condition' hcondition => ?_
  refine short.lastBlock thenBranch hthen (by omega) fun thenBranch' ht => ?_
  refine Reads.eat_other (by rintro _ rfl; rfl) (Reads.pure ?_)
  show Stmt.ifThen condition'.bare thenBranch'.bare _ = Stmt.ifThen condition.bare thenBranch.bare _
  rw [hcondition, ht]

theorem ReadsShortStmt.ifElse (short : ReadsShortStmt chained inner n) (condition : Expr)
    (thenBranch elseBranch : Block) (s : Span) (hthen : thenBranch.ParamsDiffer)
    (helse : elseBranch.ParamsDiffer)
    (hlen : ((Stmt.ifElse condition thenBranch elseBranch s).tokens chained).length ≤ n) :
    Reads (ifStatement inner) ((Stmt.ifElse condition thenBranch elseBranch s).tokens chained) Ended
      (fun s' => s'.bare = (Stmt.ifElse condition thenBranch elseBranch s).bare) := by
  rw [Stmt.tokens, List.append_assoc] at hlen ⊢
  simp only [List.length_cons, List.length_append] at hlen
  refine Reads.advance (by simp) fun t _ => ?_
  refine (reads_expression condition).bind (fun k _ => stops_block chained thenBranch _ k)
    fun condition' hcondition => ?_
  refine (short.block (F := fun _ => True) thenBranch hthen (by omega)).bind (fun _ _ => trivial)
    fun thenBranch' ht => ?_
  refine Reads.eat (by simp) (by simp) ?_
  refine short.elseBranch elseBranch helse (by omega) fun elseBranch' he => Reads.pure ?_
  show Stmt.ifElse condition'.bare thenBranch'.bare elseBranch'.bare _ =
    Stmt.ifElse condition.bare thenBranch.bare elseBranch.bare _
  rw [hcondition, ht, he]

/-- What begins like an expression is read as one, or as an assignment. -/
theorem reads_expressionForm {ks ks' : List TokenKind} {e : Expr} {F : TokenKind → Prop}
    {P : Stmt → Prop} (hks : ks = e.tokens ++ ks') (h : Reads expressionOrAssignment ks F P) :
    Reads (statementForm inner) ks F P := by
  obtain ⟨k, ks₁, he, hk⟩ := e.tokens_begin
  refine Reads.get_cons (by rw [hks, he, List.cons_append]) fun c hc _ _ => ?_
  rw [hc]
  -- the first token is none of the words that begin the other forms
  split
  all_goals first | exact h | cases hk

/-- The readers of all forms of statements, where blocks and branches hold shorter ones. -/
theorem ReadsShortStmt.statementForm (short : ReadsShortStmt chained inner n) (s : Stmt)
    (hparams : s.ParamsDiffer) (hlen : (s.tokens chained).length ≤ n) :
    Reads (statementForm inner) (s.tokens chained) Ended (fun s' => s'.bare = s.bare) := by
  cases s with
  | expr e span =>
    have hplain := reads_plainExpression (F := Ended) (fun _ hk => hk.stops)
      (by rintro _ rfl; simp) e
    refine reads_expressionForm (List.append_nil _).symm (hplain.weaken (fun _ hk => hk) ?_)
    rintro s ⟨e', span', rfl, he'⟩
    show Stmt.expr e'.bare _ = Stmt.expr e.bare _
    rw [he']
  | define name type value span =>
    refine Reads.get_cons rfl fun c hc _ _ => ?_
    rw [hc]
    exact (reads_letBinding name type value span).within
  | assign name value span =>
    have hassign : assignment? (.ident name span) value span = some (.assign name value span) := rfl
    exact reads_expressionForm (e := .ident name span) rfl (reads_assignment hassign)
  | assignIndex target place value span =>
    have hassign : assignment? (.index target place span) value span =
        some (.assignIndex target place value span) := rfl
    exact reads_expressionForm (e := .index target place span) rfl (reads_assignment hassign)
  | delete name span =>
    refine Reads.get_cons rfl fun c hc _ _ => ?_
    rw [hc]
    exact (reads_delStatement name span).within
  | function d span =>
    obtain ⟨name, ps, returnType, body, s⟩ := d
    refine Reads.get_cons rfl fun c hc _ _ => ?_
    rw [hc]
    exact (short.functionDefinition (.mk name ps returnType body s) span hparams hlen).within
  | ifThen condition thenBranch span =>
    refine Reads.get_cons rfl fun c hc _ _ => ?_
    rw [hc]
    exact (short.ifThen condition thenBranch span hparams hlen).within
  | ifElse condition thenBranch elseBranch span =>
    refine Reads.get_cons rfl fun c hc _ _ => ?_
    rw [hc]
    exact (short.ifElse condition thenBranch elseBranch span hparams.1 hparams.2 hlen).within
  | forEach first second iterable body span =>
    refine Reads.get_cons rfl fun c hc _ _ => ?_
    rw [hc]
    exact (short.forLoop first second iterable body span hparams hlen).within
  | giveBack value span =>
    have hbegin : ∃ ks, (Stmt.giveBack value span).tokens chained = .keyword .returnWord :: ks := by
      cases value <;> exact ⟨_, rfl⟩
    obtain ⟨ks, hks⟩ := hbegin
    refine Reads.get_cons hks fun c hc _ _ => ?_
    rw [hc]
    exact (reads_returnStatement value span).within

end Forms

/-! ## Programs -/

/-- With as many levels of nesting as there are tokens, the reader of statements gives back every
statement. -/
theorem reads_statementWithin (chained : Style) (depth : List Token) :
    ReadsShortStmt chained (statementWithin depth) (depth.length + 1) := by
  induction depth with
  | nil =>
    intro s _ hlen
    obtain ⟨k, ks, hks, -⟩ := s.tokens_begin chained
    rw [hks, List.length_cons, List.length_nil] at hlen
    omega
  | cons t depth ih =>
    intro s hparams hlen
    exact ih.statementForm s hparams (Nat.le_of_lt_succ hlen)

theorem reads_program (chained : Style) (b : Block) (hparams : b.ParamsDiffer) :
    Reads program (Stmt.tokensAll chained b.stmts) (· = .eof) (fun b' => b'.bare = b.bare) := by
  obtain ⟨ss, span⟩ := b
  rw [Block.ParamsDiffer, Stmt.paramsDifferAll_iff] at hparams
  refine Reads.get_rest fun c hlen => ?_
  have hstmts := (reads_statementWithin chained c.rest).stmtsUntil (F := (· = .eof))
    Cursor.atEnd (fun c hc => decide_eq_true hc)
    (fun c hc => decide_eq_false (beginsStmt_ne hc rfl)) (by rintro _ rfl; simp) ss hparams
    (Nat.le_succ_of_le hlen) c.rest hlen
  show Reads (Parser.stmtsUntil _ _ _ >>= _) (Stmt.tokensAll chained ss) _ _
  refine hstmts.bind_last (fun _ hk => hk) fun ss' hss' => Reads.get_rest fun _ _ => Reads.pure ?_
  rw [Block.bare_mk, Block.bare_mk, hss']

theorem stops_eof : Stops 0 .eof := by
  refine ⟨by simp, by simp, fun L _ hlt => ?_⟩
  obtain rfl | rfl | rfl : L = 0 ∨ L = 1 ∨ L = 2 := by omega
  all_goals rfl

/-- A text that is one expression, with nothing behind it, is a program of one statement. -/
theorem reads_expressionProgram (e : Expr) :
    Reads program e.tokens (· = .eof)
      (fun b => ∃ e' span, b.stmts = [.expr e' span] ∧ e'.bare = e.bare) := by
  obtain ⟨k, ks, hks, hk⟩ := e.tokens_begin
  refine Reads.get_rest fun c hlen => ?_
  obtain ⟨t, depth, hrest⟩ : ∃ t depth, c.rest = t :: depth := by
    rw [hks, List.length_cons] at hlen
    exact List.exists_cons_of_length_pos (by omega)
  have hone : Reads (terminated (statementWithin c.rest)) e.tokens (· = .eof)
      (fun s => ∃ e' span, s = .expr e' span ∧ e'.bare = e.bare) := by
    have hplain := reads_plainExpression (F := (· = .eof)) (by rintro _ rfl; exact stops_eof)
      (by rintro _ rfl; simp) e
    have hstmt : Reads (statementForm (statementWithin depth)) e.tokens (· = .eof)
        (fun s => ∃ e' span, s = .expr e' span ∧ e'.bare = e.bare) :=
      reads_expressionForm (List.append_nil _).symm hplain
    rw [hrest]
    exact Reads.bind_last (p := statementWithin (t :: depth)) hstmt (fun _ hk => hk) fun s hs =>
      Reads.eat_other (by rintro _ rfl; rfl) (Reads.pure hs)
  have hstmts : Reads (stmtsUntil Cursor.atEnd (statementWithin c.rest) c.rest) e.tokens (· = .eof)
      (fun ss => ∃ e' span, ss = [.expr e' span] ∧ e'.bare = e.bare) := by
    -- what the reader of one statement does is known, and only the loop around it is opened here
    generalize statementWithin c.rest = inner at hone ⊢
    rw [hrest]
    refine Reads.eat_other (fun k' _ => ?_) (Reads.get_cons hks fun c hc _ _ => ?_)
    · rw [hks, sameKind_symbol]
      exact decide_eq_false (beginsExpr_ne hk rfl)
    · have hgoes : c.atEnd = false := by
        rw [Cursor.atEnd, hc]
        exact decide_eq_false (beginsExpr_ne_eof hk)
      rw [hgoes]
      refine hone.bind_last (fun _ hk => hk) ?_
      rintro _ ⟨e', span, rfl, he'⟩
      have hnone : Reads (stmtsUntil Cursor.atEnd inner depth) [] (· = .eof) (· = []) :=
        reads_noStmts Cursor.atEnd (fun c hc => decide_eq_true hc) (by rintro _ rfl; simp) depth
      refine hnone.bind (fun _ hk => hk) ?_
      rintro _ rfl
      exact Reads.pure ⟨e', span, rfl, he'⟩
  show Reads (Parser.stmtsUntil _ _ _ >>= _) _ _ _
  refine hstmts.bind_last (fun _ hk => hk) ?_
  rintro _ ⟨e', span, rfl, he'⟩
  exact Reads.get_rest fun _ _ => Reads.pure ⟨e', span, rfl, he'⟩

end Parser

/-- Tokens that the reader of programs reads to the end of the text. -/
theorem parse_of_reads {ks : List TokenKind} {P : Block → Prop} {tokens : List Token}
    (h : Parser.Reads Parser.program ks (· = .eof) P) (hkinds : tokens.map (·.kind) = ks ++ [.eof])
    (hline : ∀ t ∈ tokens, t.newlineBefore = false) : ∃ b, parse tokens = .ok b ∧ P b := by
  obtain ⟨ts, ends, rfl, hts, hends⟩ := List.map_eq_append_iff.1 hkinds
  obtain ⟨t, rfl, ht⟩ : ∃ t, ends = [t] ∧ t.kind = .eof := by simpa using hends
  obtain ⟨b, previous, hrun, hb⟩ := h ts [t] Span.nowhere hts
    (fun t ht => hline t (List.mem_append_left _ ht)) ht
  refine ⟨b, ?_, hb⟩
  show (Parser.program ⟨ts ++ [t], Span.nowhere⟩).map (·.1) = .ok b
  rw [hrun]
  rfl

/-- The tokens of an expression, with nothing behind them, are a program of that one expression. -/
theorem parse_expressionTokens (e : Expr) (tokens : List Token)
    (hkinds : tokens.map (·.kind) = e.tokens ++ [.eof])
    (hline : ∀ t ∈ tokens, t.newlineBefore = false) :
    ∃ b, parse tokens = .ok b ∧ ∃ e' span, b.stmts = [.expr e' span] ∧ e'.bare = e.bare :=
  parse_of_reads (Parser.reads_expressionProgram e) hkinds hline

/-- **The parser inverts the grammar.** However a program is written that a text can mean, reading its
tokens succeeds and gives the program up to spans: they are on one line, each statement has a semicolon
behind it, and the end of the text comes last. -/
theorem parse_programTokens (chained : Style) (b : Block) (hparams : b.ParamsDiffer)
    (tokens : List Token) (hkinds : tokens.map (·.kind) = b.programTokens chained)
    (hline : ∀ t ∈ tokens, t.newlineBefore = false) :
    ∃ b', parse tokens = .ok b' ∧ b'.bare = b.bare :=
  parse_of_reads (Parser.reads_program chained b hparams) hkinds hline

/-- Tokens of some kinds, on one line. -/
def oneLine (kinds : List TokenKind) : List Token := kinds.map fun k => ⟨k, Span.nowhere, false⟩

/-- `fn pick(a: Int, b) { if a < b - (1 - 2) { return (a,); } else if -(a + b) * 2 == 0 {
xs[a](b)[0] = {"k": [b]}; }; };` -/
def pickProgram : Block :=
  let name (x : String) : Expr := .ident x Span.nowhere
  let number (n : Int64) : Expr := .literal (.int n) Span.nowhere
  let bin (op : BinaryOp) (l r : Expr) : Expr := .binary op l r Span.nowhere
  let stores : Stmt :=
    .assignIndex
      (.call (.index (name "xs") (name "a") Span.nowhere) [name "b"] Span.nowhere) (number 0)
      (.map [(.literal (.string "k") Span.nowhere, .array [name "b"] Span.nowhere)] Span.nowhere)
      Span.nowhere
  let otherwise : Stmt :=
    .ifThen
      (bin .equal
        (bin .mul (.unary .neg (bin .add (name "a") (name "b")) Span.nowhere) (number 2)) (number 0))
      (.mk [stores] Span.nowhere) Span.nowhere
  let picks : Stmt :=
    .ifElse (bin .less (name "a") (bin .sub (name "b") (bin .sub (number 1) (number 2))))
      (.mk [.giveBack (some (.tuple [name "a"] Span.nowhere)) Span.nowhere] Span.nowhere)
      (.mk [otherwise] Span.nowhere) Span.nowhere
  .mk
    [.function
      (.mk "pick" [⟨"a", some .int, Span.nowhere⟩, ⟨"b", none, Span.nowhere⟩] none
        (.mk [picks] Span.nowhere) Span.nowhere)
      Span.nowhere]
    Span.nowhere

theorem parse_programTokens_pick :
    pickProgram.ParamsDiffer ∧
      ∃ b', parse (oneLine (pickProgram.programTokens fun _ => true)) = .ok b' ∧
        b'.bare = pickProgram.bare := by
  have hparams : pickProgram.ParamsDiffer := by
    simp [pickProgram, Block.ParamsDiffer, Stmt.ParamsDiffer, FunctionDef.ParamsDiffer]
  refine ⟨hparams, parse_programTokens (fun _ => true) pickProgram hparams _ ?_ ?_⟩
  · rw [oneLine, List.map_map]
    exact List.map_id _
  · simp [oneLine]

end Nikl
