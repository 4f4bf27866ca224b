import Nikl.Proofs.Syntax.ExpressionCompleteness
import Nikl.Proofs.Syntax.StatementReading

/-
Every statement and every program of the grammar is read. A statement is read before the very token that
the grammar says stands behind it. In a sequence that token is the first of the rest, so what is proved
of the loop for statements is proved along the sequence, from its end.

The reader of one statement of a sequence takes a semicolon behind it, which the grammar counts as one
between statements. The loop is therefore followed twice: to where it begins a round, and to where it may
still take that semicolon.
-/

set_option autoImplicit false

namespace Nikl.Parser

/-! ## Parts of statements -/

section Parts

variable {t : Token} {ts : List Token} {mark : Symbol} {type : Option TypeTag} {F : Token → Prop}

theorem takes_typeAfter (h : IsType mark ts type) :
    Takes (typeAfter mark) ts (fun t => t.kind ≠ .symbol mark) type := by
  cases h with
  | absent => exact Takes.eat_other (.symbol _) (fun _ ht => ht) (Takes.pure none)
  | @given m t tag hm ht =>
    refine Takes.eat (.symbol _) hm ?_
    have htag : Takes typeTag [t] (fun _ => True) tag := by
      refine Takes.get_cons fun c hc _ => ?_
      have hsome : typeTag? c.kind = some tag := by rw [Cursor.kind, hc, ht]
      rw [hsome]
      exact Takes.advance (by rintro hend; rw [hend] at ht; cases ht) (Takes.pure tag)
    exact htag.bind_last (fun _ _ => trivial) (Takes.pure (some tag))

theorem takes_param {p : Param} (h : IsParam ts p) :
    Takes param ts (fun t => t.kind ≠ .symbol .colon) p := by
  obtain ⟨ht, htype⟩ := h
  exact Takes.expectIdent ht ((takes_typeAfter htype).bind_last (fun _ ht => ht) (Takes.pure _))

theorem takes_params {ps : List Param} (h : IsParams ts ps) : Takes params ts (fun _ => True) ps := by
  obtain ⟨hopening, hclosing, hparts, hlist, hdiffer⟩ := h
  refine Takes.expect (.symbol _) hopening ?_
  refine (takes_commaSeparated (by decide) hclosing ?_ ?_ hlist).bind_last (fun _ _ => trivial) ?_
  · intro p hp
    refine (takes_param (hparts p hp)).weaken ?_
    rintro t (ht | ht) <;> simp [ht]
  · intro p hp
    obtain ⟨ts', type, span⟩ := p
    obtain ⟨ht, -⟩ := hparts _ hp
    exact ⟨_, _, rfl, by simp [ht], by simp [ht]⟩
  · simp only [hdiffer]
    exact Takes.pure _

end Parts

/-! ## How statements begin -/

section Begins

variable {ts : List Token} {next : Token}

theorem stmt_begins {s : Stmt} (h : IsConstruct ts next (.stmt s)) :
    ∃ t ts', ts = t :: ts' ∧ t.kind.beginsStmt = true := by
  cases h with
  | expr h =>
    obtain ⟨t, ts', rfl, ht, -⟩ := h.begins
    exact ⟨t, ts', rfl, beginsStmt_of_beginsExpr ht⟩
  | assign h =>
    obtain ⟨t, ts', rfl, ht, -⟩ := h.begins
    exact ⟨t, _, rfl, beginsStmt_of_beginsExpr ht⟩
  | define hstart | delete hstart | function hstart | ifThen hstart | ifElse hstart | elseIf hstart
  | forEach hstart | returnNothing hstart | returnValue hstart =>
    refine ⟨_, _, rfl, ?_⟩
    rw [hstart]
    rfl

theorem block_begins {b : Block} (h : IsConstruct ts next (.block b)) :
    ∃ t ts', ts = t :: ts' ∧ t.kind = .symbol .leftBrace := by
  cases h with
  | block hopening => exact ⟨_, _, rfl, hopening⟩

/-- A condition or a collection ends where a block begins. -/
theorem endsExpr_block {b : Block} (h : IsConstruct ts next (.block b)) (behind : List Token)
    (t : Token) : EndsExpr 0 ((ts ++ behind).headD t) := by
  obtain ⟨t', ts', rfl, ht⟩ := block_begins h
  exact endsExpr_mark ht (by decide)

end Begins

/-! ## Blocks -/

/-- `inner` takes every statement of fewer than `n` tokens. -/
def TakesShortStmt (inner : Parser Stmt) (n : Nat) : Prop :=
  ∀ ⦃ts next s⦄, IsConstruct ts next (.stmt s) → ts.length < n → Takes inner ts (· = next) s

section Blocks

variable {inner : Parser Stmt} {n : Nat} {ts : List Token} {next last : Token}
  {parts : List StmtPart} {b : Block}

/-- The loop for statements takes a sequence from the beginning of a round on, and also from where a
semicolon may be taken first. -/
theorem TakesShortStmt.sequence (short : TakesShortStmt inner n) {ends : Cursor → Bool}
    (hends : ∀ c : Cursor, c.current = last → ends c = true)
    (hgoes : ∀ c : Cursor, c.kind.beginsStmt = true → ends c = false)
    (hlast : last.kind ≠ .symbol .semicolon)
    (hparts : ∀ p ∈ parts, IsConstruct p.tokens p.next (.stmt p.stmt))
    (hseq : InSequence last parts ts) (hlen : ts.length < n) (rounds : List Token)
    (hrounds : ts.length ≤ rounds.length) :
    Takes (stmtsUntil ends inner rounds) ts (· = last) (parts.map (·.stmt)) ∧
      Takes (eat (.symbol .semicolon) >>= fun _ => stmtsUntil ends inner rounds) ts (· = last)
        (parts.map (·.stmt)) := by
  induction hseq generalizing rounds with
  | nil =>
    have hstop : Takes (stmtsUntil ends inner rounds) [] (· = last) [] := by
      cases rounds with
      | nil => exact Takes.pure []
      | cons r rounds =>
        refine Takes.eat_other (.symbol _) (by rintro _ rfl; exact hlast) ?_
        refine Takes.get_nil fun c hc => ?_
        rw [hends c hc]
        exact Takes.pure []
    exact ⟨hstop, Takes.eat_other (.symbol _) (by rintro _ rfl; exact hlast) hstop⟩
  | semicolon ht _ ih =>
    rw [List.length_cons] at hlen hrounds
    refine ⟨?_, Takes.eat (.symbol _) ht (ih hparts (by omega) rounds (by omega)).1⟩
    cases rounds with
    | nil => exact absurd hrounds (by simp)
    | cons r rounds =>
      rw [List.length_cons] at hrounds
      exact Takes.eat (.symbol _) ht (ih hparts (by omega) rounds (by omega)).1
  | @cons parts ts part hnext _ ih =>
    rw [List.forall_mem_cons] at hparts
    obtain ⟨t, ts', hts, ht⟩ := stmt_begins hparts.1
    have hmark : t.kind ≠ .symbol .semicolon := beginsStmt_ne ht rfl
    rw [List.length_append] at hlen hrounds
    have hpart := short hparts.1 (by omega)
    rw [hts] at hpart hrounds ⊢
    rw [List.length_cons] at hrounds
    have hround : Takes (stmtsUntil ends inner rounds) (t :: ts' ++ ts) (· = last)
        ((part :: parts).map (·.stmt)) := by
      cases rounds with
      | nil => exact absurd hrounds (by simp)
      | cons r rounds =>
        rw [List.length_cons] at hrounds
        refine Takes.eat_other (.symbol _) (fun _ _ => hmark) ?_
        refine Takes.get_cons fun c hc _ => ?_
        rw [hgoes c (by rw [Cursor.kind, hc, ht])]
        -- the semicolon that the reader of one statement takes belongs to what comes behind it
        have hone : (do
              let s ← terminated inner
              return s :: (← stmtsUntil ends inner rounds) : Parser (List Stmt)) =
            inner >>= fun s => (eat (.symbol .semicolon) >>= fun _ => stmtsUntil ends inner rounds) >>=
              fun more => pure (s :: more) := by
          simp only [terminated, bind_assoc, pure_bind]
        show Takes (do
              let s ← terminated inner
              return s :: (← stmtsUntil ends inner rounds) : Parser (List Stmt)) _ _ _
        rw [hone]
        refine hpart.bind (by rintro _ rfl; exact hnext.symm) ?_
        exact (ih hparts.2 (by omega) rounds (by omega)).2.bind_last (fun _ ht => ht) (Takes.pure _)
    exact ⟨hround, Takes.eat_other (.symbol _) (fun _ _ => hmark) hround⟩

/-- Statements in braces. -/
theorem TakesShortStmt.block (short : TakesShortStmt inner n) (h : IsConstruct ts next (.block b))
    (hlen : ts.length ≤ n) : Takes (block inner) ts (fun _ => True) b := by
  cases h with
  | @block opening closing _ ts parts hopening hclosing hparts hseq =>
    simp only [List.length_cons, List.length_append, List.length_nil] at hlen
    refine Takes.within (Takes.expect (.symbol _) hopening (Takes.get_rest fun c hrounds => ?_))
    rw [List.length_append] at hrounds
    have hgoes : ∀ c : Cursor, c.kind.beginsStmt = true →
        (c.check (.symbol .rightBrace) || c.atEnd) = false := by
      intro c hc
      have hbrace : c.kind ≠ .symbol .rightBrace := beginsStmt_ne hc rfl
      have hend : c.kind ≠ .eof := beginsStmt_ne hc rfl
      simp [Cursor.atEnd, hbrace, hend]
    have hends : ∀ c : Cursor, c.current = closing →
        (c.check (.symbol .rightBrace) || c.atEnd) = true := by
      intro c hc
      rw [(IsMark.symbol _).check_iff.2 (by rw [Cursor.kind, hc, hclosing]), Bool.true_or]
    have hstmts := (short.sequence hends hgoes (by rw [hclosing]; simp) hparts hseq (by omega) c.rest
      (by omega)).1
    refine hstmts.bind (fun _ _ => rfl) ?_
    exact Takes.expectClosing (.symbol _) hclosing (Takes.pure _)

end Blocks

/-! ## The forms of statements -/

section Forms

variable {inner : Parser Stmt} {n : Nat} {ts : List Token} {start next : Token} {s : Stmt}

/-- A word that tells the form of a statement. -/
theorem takes_wordForm {p : Parser Stmt} {context : Context} {word : Keyword}
    (hstart : start.kind = .keyword word)
    (hform : ∀ c : Cursor, c.kind = .keyword word → statementForm inner c = within context p c)
    (h : Takes p (start :: ts) (· = next) s) :
    Takes (statementForm inner) (start :: ts) (· = next) s := by
  intro rest previous hrest
  have hkind : (Cursor.mk (start :: ts ++ rest) previous).kind = .keyword word := hstart
  rw [hform _ hkind]
  exact h.within rest previous hrest

/-- What begins like an expression is read as one, or as an assignment. -/
theorem takes_expressionForm (hbegins : ∃ t ts', ts = t :: ts' ∧ t.kind.beginsExpr = true)
    (h : Takes expressionOrAssignment ts (· = next) s) :
    Takes (statementForm inner) ts (· = next) s := by
  obtain ⟨t, ts', rfl, ht⟩ := hbegins
  refine Takes.get_cons fun c hc _ => ?_
  replace ht : c.kind.beginsExpr = true := by rw [Cursor.kind, hc, ht]
  -- the first token is none of the words that begin the other forms
  cases hk : c.kind with
  | keyword w =>
    rw [hk] at ht
    cases w <;> first | exact h | cases ht
  | _ => exact h

theorem takes_plainExpression {e : Expr} (h : IsExpr 0 ts e) (hends : EndsExpr 0 next)
    (hassign : next.kind ≠ .symbol .assign) :
    Takes expressionOrAssignment ts (· = next) (.expr e e.span) := by
  refine (takes_expression h).bind_last (by rintro _ rfl; exact hends) (Takes.get_nil fun c hc => ?_)
  have hmark : c.check (.symbol .assign) = false := by
    rw [check_symbol, Cursor.kind, hc]
    exact decide_eq_false hassign
  rw [hmark]
  exact Takes.pure _

theorem takes_assignment {ts' : List Token} {equals : Token} {target value : Expr}
    (htarget : IsExpr 0 ts target) (hequals : equals.kind = .symbol .assign)
    (hvalue : IsExpr 0 ts' value) (hends : EndsExpr 0 next)
    (hs : assignment? target value (target.span.merge value.span) = some s) :
    Takes expressionOrAssignment (ts ++ equals :: ts') (· = next) s := by
  have hassignable : isAssignable target = true := by
    cases target <;> first | rfl | cases hs
  refine (takes_expression htarget).bind (fun _ _ => endsExpr_mark hequals (by decide)) ?_
  refine Takes.get_cons fun c hc _ => ?_
  have hcheck : c.check (.symbol .assign) = true :=
    (IsMark.symbol _).check_iff.2 (by rw [Cursor.kind, hc, hequals])
  rw [hcheck, hassignable]
  refine Takes.within (Takes.advance (by rw [hequals]; simp) ?_)
  refine (takes_expression hvalue).bind_last (by rintro _ rfl; exact hends) ?_
  show Takes (pure ((assignment? target value _).getD _)) _ _ _
  rw [hs]
  exact Takes.pure s

theorem takes_letBinding {t equals : Token} {ts' : List Token} {name : String} {type : Option TypeTag}
    {value : Expr} (hstart : start.kind = .keyword .letWord) (ht : t.kind = .ident name)
    (htype : IsType .colon ts type) (hequals : equals.kind = .symbol .assign)
    (hvalue : IsExpr 0 ts' value) (hends : EndsExpr 0 next) :
    Takes letBinding (start :: t :: (ts ++ equals :: ts')) (· = next)
      (.define name type value (start.span.merge value.span)) := by
  refine Takes.advance (by rw [hstart]; simp) (Takes.expectIdent ht ?_)
  refine (takes_typeAfter htype).bind (fun _ _ => by rw [List.headD_cons, hequals]; simp) ?_
  refine Takes.expect (.symbol _) hequals ?_
  exact (takes_expression hvalue).bind_last (by rintro _ rfl; exact hends) (Takes.pure _)

theorem takes_delStatement {t : Token} {name : String} (hstart : start.kind = .keyword .delWord)
    (ht : t.kind = .ident name) :
    Takes delStatement [start, t] (· = next) (.delete name (start.span.merge t.span)) :=
  Takes.advance (by rw [hstart]; simp) (Takes.expectIdent ht (Takes.pure _))

theorem TakesShortStmt.function (short : TakesShortStmt inner n) {t : Token} {ps ts bs : List Token}
    {name : String} {params : List Param} {type : Option TypeTag} {body : Block}
    (hstart : start.kind = .keyword .fnWord) (ht : t.kind = .ident name) (hparams : IsParams ps params)
    (htype : IsType .arrow ts type) (hbody : IsConstruct bs next (.block body)) (hlen : bs.length ≤ n) :
    Takes (functionDefinition inner) (start :: t :: (ps ++ (ts ++ bs))) (· = next)
      (.function (.mk name params type body (start.span.merge body.span))
        (start.span.merge body.span)) := by
  refine Takes.advance (by rw [hstart]; simp) (Takes.expectIdent ht ?_)
  refine (takes_params hparams).within.bind (fun _ _ => trivial) ?_
  obtain ⟨t', bs', hbs, hbrace⟩ := block_begins hbody
  refine (takes_typeAfter htype).bind (fun _ _ => by rw [hbs, List.headD_cons, hbrace]; simp) ?_
  exact (short.block hbody hlen).bind_last (fun _ _ => trivial) (Takes.pure _)

theorem TakesShortStmt.forLoop (short : TakesShortStmt inner n) {word : Token} {ns cs bs : List Token}
    {first : String} {second : Option String} {iterable : Expr} {body : Block}
    (hstart : start.kind = .keyword .forWord) (hnames : IsNames ns first second)
    (hword : word.kind = .keyword .inWord) (hiterable : IsExpr 0 cs iterable)
    (hbody : IsConstruct bs next (.block body)) (hlen : bs.length ≤ n) :
    Takes (forLoop inner) (start :: (ns ++ word :: (cs ++ bs))) (· = next)
      (.forEach first second iterable body (start.span.merge body.span)) := by
  -- what follows the names, whether there is one or two
  have hrest : Takes (do
        let _ ← expect (.keyword .inWord)
        let iterable ← expression
        let body ← Parser.block inner
        return Stmt.forEach first second iterable body (start.span.merge body.span) : Parser Stmt)
      (word :: (cs ++ bs)) (· = next)
      (.forEach first second iterable body (start.span.merge body.span)) := by
    refine Takes.expect (.keyword _) hword ?_
    refine (takes_expression hiterable).bind (fun t _ => ?_) ?_
    · simpa using endsExpr_block hbody [] t
    · exact (short.block hbody hlen).bind_last (fun _ _ => trivial) (Takes.pure _)
  refine Takes.advance (by rw [hstart]; simp) ?_
  cases hnames with
  | one ht =>
    refine Takes.expectIdent ht (Takes.eat_other (.symbol _) (fun _ _ => ?_) hrest)
    show word.kind ≠ _
    rw [hword]
    simp
  | two ht hcomma ht' =>
    exact Takes.expectIdent ht (Takes.eat (.symbol _) hcomma (Takes.expectIdent ht' hrest))

theorem takes_returnNothing (hstart : start.kind = .keyword .returnWord) (hends : EndsReturn next) :
    Takes returnStatement [start] (· = next) (.giveBack none start.span) := by
  refine Takes.advance (by rw [hstart]; simp) (Takes.get_nil fun c hc => ?_)
  have hnone : (c.atEnd || c.atLineStart || c.check (.symbol .rightBrace) ||
      c.check (.symbol .semicolon)) = true := by
    rw [Cursor.atEnd, Cursor.atLineStart, check_symbol, check_symbol, Cursor.kind, hc]
    rcases hends with h | h | h | h <;> simp [h]
  rw [hnone]
  exact Takes.pure _

theorem takes_returnValue {t : Token} {value : Expr} (hstart : start.kind = .keyword .returnWord)
    (hline : t.newlineBefore = false) (hvalue : IsExpr 0 (t :: ts) value) (hends : EndsExpr 0 next) :
    Takes returnStatement (start :: t :: ts) (· = next)
      (.giveBack (some value) (start.span.merge value.span)) := by
  obtain ⟨t', ts', hts, ht, -⟩ := hvalue.begins
  obtain ⟨rfl, rfl⟩ := List.cons.inj hts
  refine Takes.advance (by rw [hstart]; simp) (Takes.get_cons fun c hc _ => ?_)
  -- the value stands on the same line, and begins like none of what a bare return is ended by
  have hsome : (c.atEnd || c.atLineStart || c.check (.symbol .rightBrace) ||
      c.check (.symbol .semicolon)) = false := by
    have hbrace : t.kind ≠ .symbol .rightBrace := beginsExpr_ne ht rfl
    have hmark : t.kind ≠ .symbol .semicolon := beginsExpr_ne ht rfl
    rw [Cursor.atEnd, Cursor.atLineStart, check_symbol, check_symbol, Cursor.kind, hc]
    simp [beginsExpr_ne_eof ht, hline, hbrace, hmark]
  rw [hsome]
  exact (takes_expression hvalue).bind_last (by rintro _ rfl; exact hends) (Takes.pure _)

/-- What stands behind `else` is a block, or one `if` that stands for a block of its own. -/
theorem TakesShortStmt.elseBranch (short : TakesShortStmt inner n) {b : Block} {t : Token}
    {bs : List Token} {f : Block → Parser Stmt}
    (h : IsConstruct (t :: bs) next (.block b) ∨
      t.kind = .keyword .ifWord ∧ ∃ nested, IsConstruct (t :: bs) next (.stmt nested) ∧
        b = .mk [nested] nested.span)
    (hlen : (t :: bs).length < n) (hf : Takes (f b) [] (· = next) s) :
    Takes (do
        if (← get).check (.keyword .ifWord) then
          let nested ← inner
          f (Block.mk [nested] nested.span)
        else
          let b ← Parser.block inner
          f b : Parser Stmt) (t :: bs) (· = next) s := by
  -- a block begins with a brace and an `if` with its word, so the reader knows which one to read
  refine Takes.get_cons fun c hc _ => ?_
  rcases h with hblock | ⟨ht, nested, hnested, rfl⟩
  · obtain ⟨t', ts', hts, hbrace⟩ := block_begins hblock
    obtain ⟨rfl, rfl⟩ := List.cons.inj hts
    have hcheck : c.check (.keyword .ifWord) = false := by
      rw [check_keyword, Cursor.kind, hc, hbrace]
      rfl
    rw [hcheck]
    exact (short.block hblock (Nat.le_of_lt hlen)).bind_last (fun _ _ => trivial) hf
  · have hcheck : c.check (.keyword .ifWord) = true :=
      (IsMark.keyword _).check_iff.2 (by rw [Cursor.kind, hc, ht])
    rw [hcheck]
    exact (short hnested hlen).bind_last (fun _ ht => ht) hf

theorem TakesShortStmt.ifThen (short : TakesShortStmt inner n) {cs bs : List Token} {condition : Expr}
    {thenBranch : Block} (hstart : start.kind = .keyword .ifWord) (hcondition : IsExpr 0 cs condition)
    (hthen : IsConstruct bs next (.block thenBranch)) (hlen : bs.length ≤ n)
    (helse : next.kind ≠ .keyword .elseWord) :
    Takes (ifStatement inner) (start :: (cs ++ bs)) (· = next)
      (.ifThen condition thenBranch (start.span.merge thenBranch.span)) := by
  refine Takes.advance (by rw [hstart]; simp) ?_
  refine (takes_expression hcondition).bind (fun t _ => ?_) ?_
  · simpa using endsExpr_block hthen [] t
  · refine (short.block hthen hlen).bind_last (fun _ _ => trivial) ?_
    exact Takes.eat_other (.keyword _) (by rintro _ rfl; exact helse) (Takes.pure _)

theorem TakesShortStmt.ifElse (short : TakesShortStmt inner n) {other t : Token}
    {cs bs bs' : List Token} {condition : Expr} {thenBranch elseBranch : Block}
    (hstart : start.kind = .keyword .ifWord) (hcondition : IsExpr 0 cs condition)
    (hthen : IsConstruct bs other (.block thenBranch)) (hlen : bs.length ≤ n)
    (hother : other.kind = .keyword .elseWord)
    (helse : IsConstruct (t :: bs') next (.block elseBranch) ∨
      t.kind = .keyword .ifWord ∧ ∃ nested, IsConstruct (t :: bs') next (.stmt nested) ∧
        elseBranch = .mk [nested] nested.span)
    (hlen' : (t :: bs').length < n) :
    Takes (ifStatement inner) (start :: (cs ++ (bs ++ other :: t :: bs'))) (· = next)
      (.ifElse condition thenBranch elseBranch (start.span.merge elseBranch.span)) := by
  refine Takes.advance (by rw [hstart]; simp) ?_
  refine (takes_expression hcondition).bind (fun t _ => endsExpr_block hthen _ t) ?_
  refine (short.block hthen hlen).bind (fun _ _ => trivial) ?_
  exact Takes.eat (.keyword _) hother (short.elseBranch helse hlen' (Takes.pure _))

/-- The readers of all forms of statements, where blocks and branches hold shorter ones. -/
theorem TakesShortStmt.statementForm (short : TakesShortStmt inner n)
    (h : IsConstruct ts next (.stmt s)) (hlen : ts.length ≤ n) :
    Takes (statementForm inner) ts (· = next) s := by
  cases h with
  | expr h hends hassign =>
    obtain ⟨t, ts', hts, ht, -⟩ := h.begins
    exact takes_expressionForm ⟨t, ts', hts, ht⟩ (takes_plainExpression h hends hassign)
  | assign htarget hequals hvalue hends hs =>
    obtain ⟨t, ts', hts, ht, -⟩ := htarget.begins
    exact takes_expressionForm ⟨t, _, by rw [hts]; rfl, ht⟩
      (takes_assignment htarget hequals hvalue hends hs)
  | define hstart ht htype hequals hvalue hends =>
    exact takes_wordForm hstart (fun c hc => by rw [Parser.statementForm, run_get, hc])
      (takes_letBinding hstart ht htype hequals hvalue hends)
  | delete hstart ht =>
    exact takes_wordForm hstart (fun c hc => by rw [Parser.statementForm, run_get, hc])
      (takes_delStatement hstart ht)
  | function hstart ht hparams htype hbody =>
    simp only [List.length_cons, List.length_append] at hlen
    exact takes_wordForm hstart (fun c hc => by rw [Parser.statementForm, run_get, hc])
      (short.function hstart ht hparams htype hbody (by omega))
  | ifThen hstart hcondition hthen helse =>
    simp only [List.length_cons, List.length_append] at hlen
    exact takes_wordForm hstart (fun c hc => by rw [Parser.statementForm, run_get, hc])
      (short.ifThen hstart hcondition hthen (by omega) helse)
  | ifElse hstart hcondition hthen hother helse =>
    simp only [List.length_cons, List.length_append] at hlen
    obtain ⟨t, bs', rfl, -⟩ := block_begins helse
    exact takes_wordForm hstart (fun c hc => by rw [Parser.statementForm, run_get, hc])
      (short.ifElse hstart hcondition hthen (by omega) hother (.inl helse) (by omega))
  | @elseIf _ _ t next _ _ ts _ _ nested hstart hcondition hthen hother ht hnested =>
    simp only [List.length_cons, List.length_append] at hlen
    have hchain : ∃ s, IsConstruct (t :: ts) next (.stmt s) ∧
        Block.mk [nested] nested.span = .mk [s] s.span := ⟨nested, hnested, rfl⟩
    exact takes_wordForm hstart (fun c hc => by rw [Parser.statementForm, run_get, hc])
      (short.ifElse hstart hcondition hthen (by omega) hother (.inr ⟨ht, hchain⟩)
        (by rw [List.length_cons]; omega))
  | forEach hstart hnames hword hiterable hbody =>
    simp only [List.length_cons, List.length_append] at hlen
    exact takes_wordForm hstart (fun c hc => by rw [Parser.statementForm, run_get, hc])
      (short.forLoop hstart hnames hword hiterable hbody (by omega))
  | returnNothing hstart hends =>
    exact takes_wordForm hstart (fun c hc => by rw [Parser.statementForm, run_get, hc])
      (takes_returnNothing hstart hends)
  | returnValue hstart hline hvalue hends =>
    exact takes_wordForm hstart (fun c hc => by rw [Parser.statementForm, run_get, hc])
      (takes_returnValue hstart hline hvalue hends)

end Forms

/-! ## Programs -/

/-- **The reader of statements reads what is in the grammar**, with as many levels of nesting as there
are tokens. -/
theorem takes_statementWithin (depth : List Token) :
    TakesShortStmt (statementWithin depth) (depth.length + 1) := by
  induction depth with
  | nil =>
    intro ts next s h hlen
    exact absurd (List.eq_nil_of_length_eq_zero (by simpa using hlen)) h.ne_nil
  | cons t depth ih =>
    intro ts next s h hlen
    exact ih.statementForm h (Nat.le_of_lt_succ hlen)

/-- **What is in the grammar of programs is read.** -/
theorem parse_of_isProgram {tokens : List Token} {b : Block} (h : IsProgram tokens b) :
    parse tokens = .ok b := by
  obtain @⟨ts, rest, parts, hend, hparts, hseq⟩ := h
  have hends : ∀ c : Cursor, c.current = firstOf rest → c.atEnd = true := fun c hc =>
    decide_eq_true (by rw [Cursor.kind, hc, hend])
  have hgoes : ∀ c : Cursor, c.kind.beginsStmt = true → c.atEnd = false := fun c hc =>
    decide_eq_false (beginsStmt_ne hc rfl)
  have hstmts := ((takes_statementWithin (ts ++ rest)).sequence hends hgoes (by rw [hend]; simp) hparts
    hseq (by rw [List.length_append]; omega) (ts ++ rest) (by rw [List.length_append]; omega)).1
  obtain ⟨previous, hrun⟩ := hstmts rest Span.nowhere rfl
  refine parse_eq_ok_iff.2 ⟨⟨rest, previous⟩, ?_⟩
  rw [program, run_get]
  show (stmtsUntil Cursor.atEnd (statementWithin (ts ++ rest)) (ts ++ rest) >>= _) _ = _
  rw [Cursor.ofTokens, run_bind hrun]
  rfl

end Nikl.Parser

namespace Nikl

/-- **The parser reads the grammar**: just what is in it, and all of it. -/
theorem parse_eq_ok_iff_isProgram {tokens : List Token} {b : Block} :
    parse tokens = .ok b ↔ IsProgram tokens b :=
  ⟨isProgram_of_parse, Parser.parse_of_isProgram⟩

end Nikl
