import Nikl.Proofs.Syntax.Pace

/-
A parse error depends on nothing behind the token that it lies at. All readers of the grammar keep pace:
before texts that begin alike, they do the same until they are beyond what the texts share. An error lies
at the token under the cursor, so a text that goes on differently behind that token gives the same error
(`parse_error_prefix`).

Between delimiters an expression is read by a reader that is allowed one delimiter less, and it is called
for behind a token. So where `n` tokens are shared before the whole, the nested reader has to keep pace on
one token less.
-/

set_option autoImplicit false

namespace Nikl

namespace Parser

variable {m n : Nat} {t : Token}

/-! ## Lists -/

section Lists

variable {α : Type} {item item' : Parser α}

theorem keepsPace_itemsRound (hitem : KeepsPace n 1 item item') (close : TokenKind) :
    RoundsKeepPace n 0 (itemsRound close item) (itemsRound close item') := by
  intro k hk again again' ih _
  refine .look fun c c' hc => ?_
  rw [Cursor.check_congr hc, Cursor.atEnd_congr hc]
  split
  · exact KeepsPace.pure [] _
  have hone : k ≤ k - 1 + 1 := by omega
  refine ((hitem.mono hk).step hone fun first => KeepsPace.eat (.symbol _) (Nat.le_succ _) ?_ ?_).free _
  · exact (ih ()).bind fun more => .pure _
  · refine .look fun c c' hc => ?_
    rw [Cursor.check_congr hc, Cursor.atEnd_congr hc]
    split
    · exact KeepsPace.pure _ _
    · exact KeepsPace.failHere (fun _ => rfl) _

theorem keepsPace_items (hitem : KeepsPace n 1 item item') (close : TokenKind) {k : Nat} (hk : k ≤ n)
    {rounds rounds' : List Token} (h : k ≤ rounds.length) (h' : k ≤ rounds'.length) :
    KeepsPace k 0 (items close item rounds) (items close item' rounds') :=
  KeepsPace.rounds (P := fun rounds _ => items close item rounds)
    (Q := fun rounds _ => items close item' rounds) (keepsPace_itemsRound hitem close)
    (items_cons close item) (items_cons close item') (fun _ => .pure []) hk h h' ()

theorem keepsPace_commaSeparated (hitem : KeepsPace n 1 item item') (opener : Span) (close : Symbol) :
    KeepsPace n 1 (commaSeparated opener (.symbol close) item)
      (commaSeparated opener (.symbol close) item') := by
  refine .getRest fun c c' k _ hk h h' => ?_
  refine ((keepsPace_items hitem _ hk h h').bindTaking fun parts => ?_) _
  exact (KeepsPace.expectClosing (.symbol _) opener).bind fun closing => .pure _

end Lists

/-! ## Expressions -/

section Expressions

variable {inner inner' : Parser Expr} (hn : n ≤ m + 1) (hinner : KeepsPace m 1 inner inner')

include hn hinner

theorem keepsPace_parenOrTuple (ht : t.kind ≠ .eof) :
    KeepsPaceAt t n 1 (parenOrTuple inner) (parenOrTuple inner') := by
  refine (KeepsPaceAt.advance ht).bind hn fun opener => .look fun c c' hc => ?_
  rw [Cursor.check_congr hc]
  split
  · next hclose =>
    have hend : c.kind ≠ .eof := by rw [Cursor.kind_congr hc, (IsMark.symbol _).check_iff.1 hclose]; simp
    exact ((KeepsPaceAt.advance hend).bind (Nat.le_succ _) fun close => .pure _).free
  refine ((hinner.bind fun first => ?_).free) _
  refine KeepsPace.eat (.symbol _) (Nat.le_succ _) ?_ ?_
  · exact ((keepsPace_commaSeparated hinner _ _).bind fun r => .pure _).free.within
  · exact ((KeepsPace.expectClosing (.symbol _) _).bind fun close => .pure _).free

theorem keepsPace_array (ht : t.kind ≠ .eof) : KeepsPaceAt t n 1 (array inner) (array inner') := by
  refine (KeepsPaceAt.advance ht).bind hn fun opener => ?_
  exact ((keepsPace_commaSeparated hinner _ _).bind fun r => .pure _).free

omit hn in
theorem keepsPace_entry : KeepsPace m 1 (entry inner) (entry inner') := by
  refine hinner.bind fun key => ((KeepsPace.expect (.symbol _)).bind fun colon => ?_).free
  exact (hinner.bind fun value => .pure _).free

theorem keepsPace_map (ht : t.kind ≠ .eof) : KeepsPaceAt t n 1 (map inner) (map inner') := by
  refine (KeepsPaceAt.advance ht).bind hn fun opener => ?_
  exact ((keepsPace_commaSeparated (keepsPace_entry hinner) _ _).bind fun r => .pure _).free

theorem keepsPace_primary : KeepsPace n 1 (primary inner) (primary inner') := by
  refine .look fun c c' hc => ?_
  rw [Cursor.kind_congr hc, Cursor.span_congr hc, hc]
  cases hatom : atom? c'.kind c'.span with
  | some e =>
    have hend : c'.kind ≠ .eof := kind_ne_eof (f := fun k => atom? k c'.span) hatom rfl
    exact (KeepsPaceAt.advance hend).bind (Nat.le_succ_of_le (Nat.le_refl n)) fun t => .pure e
  | none =>
    dsimp only
    split
    · next hkind => exact keepsPace_parenOrTuple hn hinner (by rw [← Cursor.kind, hkind]; simp)
    · next hkind => exact (keepsPace_array hn hinner (by rw [← Cursor.kind, hkind]; simp)).within
    · next hkind => exact (keepsPace_map hn hinner (by rw [← Cursor.kind, hkind]; simp)).within
    · exact KeepsPace.failHere (fun _ => rfl) _

theorem keepsPace_call (ht : t.kind ≠ .eof) (callee : Expr) :
    KeepsPaceAt t n 1 (call inner callee) (call inner' callee) := by
  refine (KeepsPaceAt.advance ht).bind hn fun opener => ?_
  exact ((keepsPace_commaSeparated hinner _ _).bind fun r => .pure _).free

theorem keepsPace_index (ht : t.kind ≠ .eof) (target : Expr) :
    KeepsPaceAt t n 1 (index inner target) (index inner' target) := by
  refine (KeepsPaceAt.advance ht).bind hn fun opener => (hinner.bind fun place => ?_).free
  exact ((KeepsPace.expectClosing (.symbol _) _).bind fun close => .pure _).free

theorem keepsPace_suffixesRound : RoundsKeepPace n 0 (suffixesRound inner) (suffixesRound inner') := by
  intro k hk again again' ih e
  have hone : k ≤ k - 1 + 1 := by omega
  have hm : k ≤ m + 1 := Nat.le_trans hk hn
  refine .look fun c c' hc => ?_
  rw [Cursor.atLineStart_congr hc, Cursor.check_congr hc, Cursor.check_congr hc, hc]
  split
  · exact KeepsPace.pure e _
  split
  · next hparen =>
    have hend : c'.kind ≠ .eof := by rw [(IsMark.symbol _).check_iff.1 hparen]; simp
    exact ((keepsPace_call hm hinner hend e).within.bind hone ih).free
  split
  · next hbracket =>
    have hend : c'.kind ≠ .eof := by rw [(IsMark.symbol _).check_iff.1 hbracket]; simp
    exact ((keepsPace_index hm hinner hend e).within.bind hone ih).free
  · exact KeepsPace.pure e _

theorem keepsPace_suffixesFrom {k : Nat} (hk : k ≤ n) {rounds rounds' : List Token}
    (h : k ≤ rounds.length) (h' : k ≤ rounds'.length) (e : Expr) :
    KeepsPace k 0 (suffixesFrom inner rounds e) (suffixesFrom inner' rounds' e) :=
  KeepsPace.rounds (keepsPace_suffixesRound hn hinner) (suffixesFrom_cons inner)
    (suffixesFrom_cons inner') (fun e => .pure e) hk h h' e

theorem keepsPace_suffixed : KeepsPace n 1 (suffixed inner) (suffixed inner') := by
  refine (keepsPace_primary hn hinner).bind fun e => .getRest fun c c' k _ hk h h' => ?_
  exact keepsPace_suffixesFrom hn hinner hk h h' e _

theorem keepsPace_unaryRound : RoundsKeepPace n 1 (unaryRound inner) (unaryRound inner') := by
  intro k hk again again' ih _
  refine .look fun c c' hc => ?_
  rw [Cursor.kind_congr hc, hc]
  cases hop : unaryOp? c'.kind with
  | none => exact (keepsPace_suffixed hn hinner).mono hk _
  | some op =>
    have hone : k ≤ k - 1 + 1 := by omega
    refine (KeepsPaceAt.advance (kind_ne_eof hop rfl)).bind hone fun start => ?_
    exact ((ih ()).bind fun operand => .pure _).free

theorem keepsPace_unaryFrom {k : Nat} (hk : k ≤ n) {rounds rounds' : List Token}
    (h : k ≤ rounds.length) (h' : k ≤ rounds'.length) :
    KeepsPace k 1 (unaryFrom inner rounds) (unaryFrom inner' rounds') :=
  KeepsPace.rounds (P := fun rounds _ => unaryFrom inner rounds)
    (Q := fun rounds _ => unaryFrom inner' rounds) (keepsPace_unaryRound hn hinner)
    (unaryFrom_cons inner) (unaryFrom_cons inner')
    (fun _ => (keepsPace_suffixed hn hinner).mono (Nat.zero_le n)) hk h h' ()

theorem keepsPace_unary : KeepsPace n 1 (unary inner) (unary inner') :=
  .getRest fun _ _ _ _ hk h h' => keepsPace_unaryFrom hn hinner hk h h' _

omit hn hinner

variable {operand operand' : Parser Expr}

theorem keepsPace_chainRound {op? : TokenKind → Option BinaryOp} (hop? : op? .eof = none)
    (hoperand : KeepsPace n 1 operand operand') :
    RoundsKeepPace n 0 (chainRound op? operand) (chainRound op? operand') := by
  intro k hk again again' ih left
  refine .look fun c c' hc => ?_
  rw [Cursor.kind_congr hc, hc]
  cases hop : op? c'.kind with
  | none => exact KeepsPace.pure left _
  | some op =>
    have hone : k ≤ k - 1 + 1 := by omega
    refine ((KeepsPaceAt.advance (kind_ne_eof hop hop?)).bind hone fun t => ?_).free
    exact ((hoperand.mono (by omega)).bind fun right => ih _).free

theorem keepsPace_chainFrom {op? : TokenKind → Option BinaryOp} (hop? : op? .eof = none)
    (hoperand : KeepsPace n 1 operand operand') {k : Nat} (hk : k ≤ n) {rounds rounds' : List Token}
    (h : k ≤ rounds.length) (h' : k ≤ rounds'.length) (left : Expr) :
    KeepsPace k 0 (chainFrom op? operand rounds left) (chainFrom op? operand' rounds' left) :=
  KeepsPace.rounds (keepsPace_chainRound hop? hoperand) (chainFrom_cons op? operand)
    (chainFrom_cons op? operand') (fun left => .pure left) hk h h' left

theorem keepsPace_chain {op? : TokenKind → Option BinaryOp} (hop? : op? .eof = none)
    (hoperand : KeepsPace n 1 operand operand') :
    KeepsPace n 1 (chain op? operand) (chain op? operand') := by
  refine hoperand.bind fun left => .getRest fun c c' k _ hk h h' => ?_
  exact keepsPace_chainFrom hop? hoperand hk h h' left _

/-- A delimiter less is enough for the reader inside, since the delimiter is a token of those shared. -/
theorem keepsPace_expressionRound : RoundsKeepPace n 1 expressionRound expressionRound := by
  intro k _ again again' ih _
  have hunary := keepsPace_unary (n := k) (by omega) (ih ())
  exact keepsPace_chain rfl (keepsPace_chain rfl (keepsPace_chain rfl hunary))

theorem keepsPace_expressionWithin {depth depth' : List Token} (h : n ≤ depth.length)
    (h' : n ≤ depth'.length) :
    KeepsPace n 1 (expressionWithin depth) (expressionWithin depth') :=
  KeepsPace.rounds (P := fun depth _ => expressionWithin depth)
    (Q := fun depth _ => expressionWithin depth) keepsPace_expressionRound expressionWithin_cons
    expressionWithin_cons (fun _ => .failHere fun _ => rfl) (Nat.le_refl n) h h' ()

theorem keepsPace_expression : KeepsPace n 1 expression expression :=
  .getRest fun _ _ _ _ _ h h' => keepsPace_expressionWithin h h' _

end Expressions

/-! ## Statements -/

section Statements

theorem keepsPace_typeTag : KeepsPace n 1 typeTag typeTag := by
  refine .look fun c c' hc => ?_
  rw [Cursor.kind_congr hc, hc]
  cases htag : typeTag? c'.kind with
  | some tag =>
    have hend : c'.kind ≠ .eof := kind_ne_eof htag rfl
    exact (KeepsPaceAt.advance hend).bind (Nat.le_add_right n 1) fun t => .pure tag
  | none => exact (KeepsPace.failHere fun _ => rfl).within _

theorem keepsPace_typeAfter (mark : Symbol) : KeepsPace n 0 (typeAfter mark) (typeAfter mark) := by
  refine KeepsPace.eat (.symbol _) (Nat.le_succ n) ?_ (.pure none)
  exact (keepsPace_typeTag.bind fun tag => .pure _).free

theorem keepsPace_param : KeepsPace n 1 param param :=
  KeepsPace.expectIdent.bind fun _ => (keepsPace_typeAfter _).bind fun _ => .pure _

theorem keepsPace_params : KeepsPace n 1 params params := by
  refine (KeepsPace.expect (.symbol _)).bind fun opener => ?_
  refine ((keepsPace_commaSeparated keepsPace_param _ _).bind fun r => ?_).free
  dsimp only
  cases repeatedParam? [] r.1 with
  | none => exact .pure _
  | some p => exact .throw rfl

theorem keepsPace_expressionOrAssignment :
    KeepsPace n 1 expressionOrAssignment expressionOrAssignment := by
  refine keepsPace_expression.bind fun target => .look fun c c' hc => ?_
  rw [Cursor.check_congr hc, hc]
  split
  · next hassign =>
    have hend : c'.kind ≠ .eof := by rw [(IsMark.symbol _).check_iff.1 hassign]; simp
    refine KeepsPaceAt.within ?_
    split
    · refine ((KeepsPaceAt.advance hend).bind (Nat.le_add_right n 1) fun t => ?_).free
      exact (keepsPace_expression.bind fun value => .pure _).free
    · exact KeepsPace.throw rfl _
  · exact KeepsPace.pure _ _

theorem keepsPace_letBinding (ht : t.kind ≠ .eof) : KeepsPaceAt t n 1 letBinding letBinding := by
  refine (KeepsPaceAt.advance ht).bind (Nat.le_add_right n 1) fun start => ?_
  refine (KeepsPace.expectIdent.bind fun name => (keepsPace_typeAfter _).bind fun type => ?_).free
  refine ((KeepsPace.expect (.symbol _)).bind fun equals => ?_).free
  exact (keepsPace_expression.bind fun value => .pure _).free

theorem keepsPace_delStatement (ht : t.kind ≠ .eof) : KeepsPaceAt t n 1 delStatement delStatement := by
  refine (KeepsPaceAt.advance ht).bind (Nat.le_add_right n 1) fun start => ?_
  exact (KeepsPace.expectIdent.bind fun name => .pure _).free

theorem keepsPace_returnStatement (ht : t.kind ≠ .eof) :
    KeepsPaceAt t n 1 returnStatement returnStatement := by
  refine (KeepsPaceAt.advance ht).bind (Nat.le_add_right n 1) fun start => .look fun c c' hc => ?_
  rw [Cursor.atEnd_congr hc, Cursor.atLineStart_congr hc, Cursor.check_congr hc, Cursor.check_congr hc]
  split
  · exact KeepsPace.pure _ _
  · exact (keepsPace_expression.bind fun value => .pure _).free _

variable {inner inner' : Parser Stmt}

theorem keepsPace_terminated (hinner : KeepsPace n 1 inner inner') :
    KeepsPace n 1 (terminated inner) (terminated inner') :=
  hinner.bind fun s => KeepsPace.eat (.symbol _) (Nat.le_succ n) (.pure s) (.pure s)

theorem keepsPace_stmtsRound {ends : Cursor → Bool}
    (hends : ∀ c c' : Cursor, c.current = c'.current → ends c = ends c')
    (hinner : KeepsPace n 1 inner inner') :
    RoundsKeepPace n 0 (stmtsRound ends inner) (stmtsRound ends inner') := by
  intro k hk again again' ih _
  have hone : k ≤ k - 1 + 1 := by omega
  refine KeepsPace.eat (.symbol _) hone (ih ()) (.look fun c c' hc => ?_)
  rw [hends c c' hc]
  split
  · exact KeepsPace.pure [] _
  have hterminated := keepsPace_terminated (hinner.mono hk)
  exact (hterminated.step hone fun s => (ih ()).bind fun more => .pure _).free _

theorem keepsPace_stmtsUntil {ends : Cursor → Bool}
    (hends : ∀ c c' : Cursor, c.current = c'.current → ends c = ends c')
    (hinner : KeepsPace n 1 inner inner') {k : Nat} (hk : k ≤ n) {rounds rounds' : List Token}
    (h : k ≤ rounds.length) (h' : k ≤ rounds'.length) :
    KeepsPace k 0 (stmtsUntil ends inner rounds) (stmtsUntil ends inner' rounds') :=
  KeepsPace.rounds (P := fun rounds _ => stmtsUntil ends inner rounds)
    (Q := fun rounds _ => stmtsUntil ends inner' rounds) (keepsPace_stmtsRound hends hinner)
    (stmtsUntil_cons ends inner) (stmtsUntil_cons ends inner') (fun _ => .pure []) hk h h' ()

/-- The statements of a block end where the token under the cursor says so. -/
theorem blockEnds_congr {c c' : Cursor} (hc : c.current = c'.current) :
    (c.check (.symbol .rightBrace) || c.atEnd) = (c'.check (.symbol .rightBrace) || c'.atEnd) := by
  rw [Cursor.check_congr hc, Cursor.atEnd_congr hc]

theorem keepsPace_block (hinner : KeepsPace n 1 inner inner') :
    KeepsPace n 1 (block inner) (block inner') := by
  refine KeepsPace.within ((KeepsPace.expect (.symbol _)).bind fun opener => ?_)
  refine .getRest fun c c' k _ hk h h' => ?_
  refine ((keepsPace_stmtsUntil (fun _ _ => blockEnds_congr) hinner hk h h').bind fun ss => ?_) _
  exact ((KeepsPace.expectClosing (.symbol _) _).bind fun close => .pure _).free

section Forms

variable (hn : n ≤ m + 1) (hinner : KeepsPace m 1 inner inner')

include hn hinner

theorem keepsPace_functionDefinition (ht : t.kind ≠ .eof) :
    KeepsPaceAt t n 1 (functionDefinition inner) (functionDefinition inner') := by
  refine (KeepsPaceAt.advance ht).bind hn fun start => ?_
  refine (KeepsPace.expectIdent.bind fun name => (keepsPace_params.within.bind fun ps => ?_).free).free
  refine (keepsPace_typeAfter _).bind fun type => ?_
  exact ((keepsPace_block hinner).bind fun body => .pure _).free

theorem keepsPace_ifStatement (ht : t.kind ≠ .eof) :
    KeepsPaceAt t n 1 (ifStatement inner) (ifStatement inner') := by
  refine (KeepsPaceAt.advance ht).bind hn fun start => ?_
  refine (keepsPace_expression.bind fun condition => ?_).free
  refine ((keepsPace_block hinner).bind fun thenBranch => ?_).free
  refine KeepsPace.eat (.keyword _) (Nat.le_succ m) (.look fun c c' hc => ?_) (.pure _)
  rw [Cursor.check_congr hc]
  split
  · exact (hinner.bind fun nested => .pure _).free _
  · exact ((keepsPace_block hinner).bind fun elseBranch => .pure _).free _

theorem keepsPace_forLoop (ht : t.kind ≠ .eof) :
    KeepsPaceAt t n 1 (forLoop inner) (forLoop inner') := by
  refine (KeepsPaceAt.advance ht).bind hn fun start => (KeepsPace.expectIdent.bind fun first => ?_).free
  have hrest : ∀ second : Option String, KeepsPace m 0
      (do
        let _ ← expect (.keyword .inWord)
        let iterable ← expression
        let body ← block inner
        return Stmt.forEach first.1 second iterable body (start.span.merge body.span))
      (do
        let _ ← expect (.keyword .inWord)
        let iterable ← expression
        let body ← block inner'
        return Stmt.forEach first.1 second iterable body (start.span.merge body.span)) := by
    intro second
    refine ((KeepsPace.expect (.keyword _)).bind fun word => ?_).free
    refine (keepsPace_expression.bind fun iterable => ?_).free
    exact ((keepsPace_block hinner).bind fun body => .pure _).free
  refine KeepsPace.eat (.symbol _) (Nat.le_succ m) ?_ (hrest none)
  exact (KeepsPace.expectIdent.bind fun name => hrest _).free

theorem keepsPace_statementForm : KeepsPace n 1 (statementForm inner) (statementForm inner') := by
  refine .look fun c c' hc => ?_
  rw [Cursor.kind_congr hc, hc]
  have hother : KeepsPaceAt c'.current n 1 expressionOrAssignment expressionOrAssignment :=
    keepsPace_expressionOrAssignment _
  cases hkind : c'.kind with
  | keyword w =>
    have hend : c'.current.kind ≠ .eof := by rw [← Cursor.kind, hkind]; simp
    cases w with
    | letWord => exact (keepsPace_letBinding hend).within
    | fnWord => exact (keepsPace_functionDefinition hn hinner hend).within
    | ifWord => exact (keepsPace_ifStatement hn hinner hend).within
    | forWord => exact (keepsPace_forLoop hn hinner hend).within
    | returnWord => exact (keepsPace_returnStatement hend).within
    | delWord => exact (keepsPace_delStatement hend).within
    | _ => exact hother
  | _ => exact hother

end Forms

theorem keepsPace_statementRound : RoundsKeepPace n 1 statementRound statementRound := by
  intro k _ again again' ih _
  exact keepsPace_statementForm (n := k) (by omega) (ih ())

theorem keepsPace_statementWithin {depth depth' : List Token} (h : n ≤ depth.length)
    (h' : n ≤ depth'.length) :
    KeepsPace n 1 (statementWithin depth) (statementWithin depth') :=
  KeepsPace.rounds (P := fun depth _ => statementWithin depth)
    (Q := fun depth _ => statementWithin depth) keepsPace_statementRound statementWithin_cons
    statementWithin_cons (fun _ => .failHere fun _ => rfl) (Nat.le_refl n) h h' ()

theorem keepsPace_statement : KeepsPace n 1 statement statement :=
  .getRest fun _ _ _ _ _ h h' => keepsPace_statementWithin h h' _

end Statements

/-! ## Programs -/

/-- **All of a program is read at the same pace** before texts that begin alike. -/
theorem keepsPace_program : KeepsPace n 0 program program := by
  refine .getRest fun c c' k hc hk h h' => ?_
  have hstmts := keepsPace_stmtsUntil (fun _ _ => Cursor.atEnd_congr) (keepsPace_statementWithin h h')
    (Nat.le_refl k) h h'
  refine (hstmts.bind fun ss => .look fun d d' hd => ?_) _
  rw [Cursor.span_congr hc, Cursor.span_congr hd]
  exact KeepsPace.pure _ _

end Parser

open Nikl.Parser

section Errors

variable {ts : List Token} {last : Token} {e : ParseError}

/-- Tokens that hold the end of the text are not all passed. -/
theorem exists_cons_of_endFree (seen : List Token) {passed rest : List Token} (hlast : last.kind = .eof)
    (htokens : ts ++ [last] = seen ++ (passed ++ rest)) (hfree : EndFree (seen ++ passed)) :
    ∃ t back, rest = t :: back := by
  cases rest with
  | cons t back => exact ⟨t, back, rfl⟩
  | nil =>
    rw [List.append_nil] at htokens
    have hmem : last ∈ seen ++ passed := htokens ▸ List.mem_append_right _ (List.mem_singleton_self last)
    exact absurd hlast (hfree last hmem)

/-- **An error lies at a token**, up to which there is no end of the text, and says what it found there. -/
theorem parse_error_at (hlast : last.kind = .eof) (h : parse (ts ++ [last]) = .error e)
    (hfound : e.fault.found? ≠ none) :
    ∃ front t back, ts ++ [last] = front ++ t :: back ∧ EndFree front ∧ e.At t := by
  have hgoing := (keepsPace_program (n := 0) (firstOf (ts ++ [last]))).going rfl Span.nowhere
  replace h : program ⟨ts ++ [last], Span.nowhere⟩ = .error e := parse_eq_error_iff.1 h
  rw [h] at hgoing
  cases hgoing with
  | whole hnone => exact absurd hnone hfound
  | @error _ passed rest hback hfree hat =>
    obtain ⟨t, back, rfl⟩ := exists_cons_of_endFree [] hlast hback hfree
    exact ⟨passed, t, back, hback, hfree, hat⟩

/-- A fault is at no token in two cases only. -/
theorem ParseFault.found?_ne_none {fault : ParseFault} (htarget : fault ≠ .invalidAssignmentTarget)
    (hparameter : ∀ name, fault ≠ .duplicateParameter name) : fault.found? ≠ none := by
  cases fault with
  | invalidAssignmentTarget => exact absurd rfl htarget
  | duplicateParameter name => exact absurd rfl (hparameter name)
  | _ => exact Option.some_ne_none _

/-- **A parse error depends on nothing behind the token that it lies at.** Whatever stands behind that
token instead, the error is the same. Two faults are excepted, which lie at a part that was read as a
whole: an assignment to what cannot be assigned to, and a parameter whose name is there twice. -/
theorem parse_error_prefix (hlast : last.kind = .eof)
    (hspans : ((ts ++ [last]).map (·.span)).Nodup) (h : parse (ts ++ [last]) = .error e)
    (htarget : e.fault ≠ .invalidAssignmentTarget)
    (hparameter : ∀ name, e.fault ≠ .duplicateParameter name) :
    ∃ front t back, ts ++ [last] = front ++ t :: back ∧ e.span = t.span ∧
      ∀ back', parse (front ++ t :: back') = .error e := by
  have hfound := ParseFault.found?_ne_none htarget hparameter
  obtain ⟨front, t, back, htokens, -, hat⟩ := parse_error_at hlast h hfound
  refine ⟨front, t, back, htokens, hat.span, fun back' => ?_⟩
  have hfirst : ∀ more more' : List Token,
      firstOf (front ++ [t] ++ more) = firstOf (front ++ [t] ++ more') := by
    intro more more'
    cases front <;> rfl
  have hpaced := keepsPace_program _ (front ++ [t]) back back' Span.nowhere (Nat.le_refl _)
    (hfirst back back') rfl
  have hrun : program ⟨front ++ [t] ++ back, Span.nowhere⟩ = .error e := by
    rw [List.append_assoc, List.singleton_append, ← htokens]
    exact parse_eq_error_iff.1 h
  rw [hrun] at hpaced
  rw [← List.singleton_append, ← List.append_assoc]
  generalize hrun' : program ⟨front ++ [t] ++ back', Span.nowhere⟩ = r at hpaced
  cases hpaced with
  | error => exact parse_eq_error_iff.2 hrun'
  | beyond hbeyond =>
    cases hbeyond with
    | whole hnone => exact absurd hnone hfound
    | @error _ passed rest hback hfree hat' =>
      have hall : ts ++ [last] = front ++ [t] ++ (passed ++ rest) := by
        rw [← hback, List.append_assoc, List.singleton_append, htokens]
      obtain ⟨u, more, rfl⟩ := exists_cons_of_endFree _ hlast hall hfree
      -- the error would lie at two tokens, and no two are in the same place
      have hsame : t.span = u.span := hat.span.symm.trans hat'.span
      have hagain : t.span ∈ (passed ++ u :: more).map (·.span) := by
        rw [hsame]
        exact List.mem_map_of_mem (List.mem_append_right _ List.mem_cons_self)
      rw [htokens, hback, List.map_append, List.map_cons] at hspans
      exact absurd hagain (List.nodup_cons.1 (List.nodup_append.1 hspans).2.1).1

end Errors

/-- `f(1 2)` -/
def missingComma : List Token :=
  [⟨.ident "f", ⟨0, 1⟩, false⟩, ⟨.symbol .leftParen, ⟨1, 2⟩, false⟩, ⟨.int 1, ⟨2, 3⟩, false⟩,
   ⟨.int 2, ⟨4, 5⟩, false⟩, ⟨.symbol .rightParen, ⟨5, 6⟩, false⟩]

theorem parse_error_prefix_missingComma :
    let last : Token := ⟨.eof, ⟨6, 6⟩, false⟩
    let e : ParseError :=
      ⟨.expectedSeparator (.symbol .rightParen) (.int 2), ⟨4, 5⟩, some .functionCall⟩
    ((missingComma ++ [last]).map (·.span)).Nodup ∧ parse (missingComma ++ [last]) = .error e ∧
      ∃ front t back, missingComma ++ [last] = front ++ t :: back ∧ e.span = t.span ∧
        ∀ back', parse (front ++ t :: back') = .error e := by
  intro last e
  have hspans : ((missingComma ++ [last]).map (·.span)).Nodup := by decide
  have herror : parse (missingComma ++ [last]) = .error e := rfl
  exact ⟨hspans, herror, parse_error_prefix rfl hspans herror (by simp [e]) (by simp [e])⟩

end Nikl
