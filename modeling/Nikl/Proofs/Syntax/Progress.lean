import Mathlib.Logic.Function.Iterate
import Nikl.Proofs.Syntax.OffendingToken

/-
Reading always goes forward, and comes to an end. At a place in tokens that hold the end of the text,
every reader of the grammar takes a token at least or fails, and never passes the end of the text
(`GoesForward`).

The readers that go on in rounds are allowed as many rounds as there are tokens to be read, and those for
what nests as many levels. They never come to where that ends: after as many rounds the answer is the same
whatever would be done in a further one (`Settles`). So each of them is its round with itself behind,
without any allowance. Both follow from how readers keep pace, for two readers that share all their
tokens: the end of the text is among them, and neither goes beyond it.
-/

set_option autoImplicit false

namespace Nikl

namespace Parser

/-! ## Going forward -/

/-- What a reader may come to from a cursor. If it succeeds it has passed a token at least, none of them
the end of the text, and there are tokens left. If it fails the tokens passed by then are such too, and the
fault lies at the token behind them, but for the two faults of a part that was read as a whole. -/
inductive GoesForward {α : Type} (c : Cursor) : Except ParseError (α × Cursor) → Prop where
  | ok {a : α} {c' : Cursor} (passed : List Token) (hpassed : passed ≠ [])
    (hrest : c.rest = passed ++ c'.rest) (hfree : EndFree passed) (hleft : c'.rest ≠ []) :
    GoesForward c (.ok (a, c'))
  | error {e : ParseError} (passed : List Token) (t : Token) (rest : List Token)
    (hrest : c.rest = passed ++ t :: rest) (hfree : EndFree passed)
    (hat : e.At t ∨ e.fault.found? = none) : GoesForward c (.error e)

section Shared

variable {α : Type} {p p' : Parser α} {c : Cursor} {s : Nat}

/-- A run is not beyond tokens among which is the end of the text. -/
theorem Beyond.endFree {seen back : List Token} {r : Except ParseError (α × Cursor)}
    (h : Beyond seen back r) : EndFree seen := by
  cases h with
  | ok passed _ hfree => exact (endFree_append.1 hfree).1
  | error passed rest _ hfree => exact (endFree_append.1 hfree).1
  | whole _ passed rest _ hfree => exact (endFree_append.1 hfree).1

/-- Two runs before the same tokens, all of which are shared. -/
theorem KeepsPaceAt.paced (h : KeepsPaceAt c.current c.rest.length s p p') :
    Paced s c.rest [] [] (p c) (p' c) := by
  have hpaced := h c.rest [] [] c.previous (Nat.le_refl _)
  rw [List.append_nil] at hpaced
  exact hpaced rfl rfl

/-- **Readers that keep pace come to the same**, if the end of the text is among what they read. -/
theorem KeepsPaceAt.agree (h : KeepsPaceAt c.current c.rest.length s p p') (hend : ¬ EndFree c.rest) :
    p c = p' c := by
  have hpaced := h.paced
  generalize p c = r at hpaced ⊢
  generalize p' c = r' at hpaced ⊢
  cases hpaced with
  | ok => rfl
  | error => rfl
  | beyond hbeyond => exact absurd hbeyond.endFree hend

/-- **Readers that take a token go forward.** -/
theorem KeepsPaceAt.goesForward (h : KeepsPaceAt c.current c.rest.length 1 p p)
    (hend : ¬ EndFree c.rest) : GoesForward c (p c) := by
  have hpaced := h.paced
  -- how far a failing run has come is told by the run that shares nothing
  have hgoing : Beyond [] c.rest (p c) := h.going rfl c.previous
  have hmore : ∀ passed rest : List Token, c.rest = passed ++ rest → EndFree passed →
      ∃ t back, rest = t :: back := by
    intro passed rest hrest hfree
    cases rest with
    | cons t back => exact ⟨t, back, rfl⟩
    | nil =>
      rw [hrest, List.append_nil] at hend
      exact absurd hfree hend
  generalize p c = r at hpaced hgoing
  cases hpaced with
  | beyond hbeyond => exact absurd hbeyond.endFree hend
  | @ok a gone left previous hseen hfree hleft htaken =>
    refine .ok gone (List.ne_nil_of_length_pos htaken) ?_ hfree ?_
    · rw [List.append_nil]
      exact hseen
    · rw [List.append_nil]
      exact hleft
  | error =>
    cases hgoing with
    | error passed rest hback hfree hat =>
      obtain ⟨t, back, rfl⟩ := hmore passed rest hback hfree
      exact .error passed t back hback hfree (.inl hat)
    | whole hnone passed rest hback hfree =>
      obtain ⟨t, back, rfl⟩ := hmore passed rest hback hfree
      exact .error passed t back hback hfree (.inr hnone)

end Shared

/-! ## Coming to an end -/

/-- A reader that goes on in rounds comes to an end at a cursor. It is its round with itself behind; and
it has ended after as many rounds as there are tokens to be read, so that what would be done in a
`further` one does not count. -/
structure Settles {γ α : Type} (round : Round γ α) (loop : γ → Parser α) (c : Cursor) : Prop where
  unfolds (b : γ) : loop b c = round loop b c
  ends (b : γ) (n : Nat) (further : γ → Parser α) : c.rest.length ≤ n → round^[n] further b c = loop b c

section Rounds

variable {γ α : Type} {P : List Token → γ → Parser α} {round : Round γ α} {s : Nat}
  (hround : ∀ n, RoundsKeepPace n s round round) (hP : ∀ r rs, P (r :: rs) = round (P rs))
  (hnil : ∀ b, KeepsPace 0 s (P [] b) (P [] b))

include hround hP hnil

/-- Rounds enough for what is shared keep pace with as many rounds as there are tokens. -/
theorem keepsPace_own {n : Nat} {rounds : List Token} (h : n ≤ rounds.length) (b : γ) :
    KeepsPace n s (P rounds b) (do P (← get).rest b) := by
  intro t seen back back' previous hlen ht ht'
  have hshared : seen.length ≤ (seen ++ back').length := by
    rw [List.length_append]
    omega
  exact KeepsPace.rounds (hround seen.length) hP hP hnil (Nat.le_refl _) (Nat.le_trans hlen h) hshared b
    t seen back back' previous (Nat.le_refl _) ht ht'

/-- Rounds enough for what is shared keep pace with as many rounds and anything behind. -/
theorem keepsPace_iterate {n m : Nat} {rounds : List Token} (h : n ≤ rounds.length) (hm : n ≤ m)
    (further : γ → Parser α) (b : γ) : KeepsPace n s (P rounds b) (round^[m] further b) := by
  intro t
  have hQ : ∀ (r : Token) (rs : List Token), round^[(r :: rs).length] further =
      round (round^[rs.length] further) := fun _ rs => Function.iterate_succ_apply' round rs.length further
  -- only the number of rounds counts, so they may be any tokens
  obtain ⟨rs, rfl⟩ : ∃ rs : List Token, rs.length = m := ⟨_, List.length_replicate (a := t)⟩
  exact KeepsPace.rounds (Q := fun rs => round^[rs.length] further) (hround n) hP hQ
    (fun b => (hnil b).zero _) (Nat.le_refl n) h hm b t

/-- **Rounds that keep pace come to an end.** -/
theorem settles_of_rounds {c : Cursor} (hend : ¬ EndFree c.rest) :
    Settles round (fun b => do P (← get).rest b) c where
  unfolds b := by
    show P c.rest b c = _
    cases hrest : c.rest with
    | nil =>
      -- the end of the text is ahead, so there is a round at least
      rw [hrest] at hend
      exact absurd endFree_nil hend
    | cons r rs =>
      have hlen : c.rest.length = rs.length + 1 := by rw [hrest, List.length_cons]
      have hbehind : ∀ b, KeepsPace (c.rest.length - 1) s (P rs b) (do P (← get).rest b) := fun b =>
        keepsPace_own hround hP hnil (by omega) b
      rw [hP]
      exact (hround _ _ (Nat.le_refl _) _ _ hbehind b _).agree hend
  ends b n further h := (keepsPace_iterate hround hP hnil (Nat.le_refl _) h further b _).agree hend |>.symm

end Rounds

/-! ## The readers of the grammar -/

/-- The readers of the grammar that may be called anywhere. Statements and expressions inside others are
read by `statement` and `expression`. -/
inductive IsReader : {α : Type} → Parser α → Prop where
  | statement : IsReader statement
  | statementForm : IsReader (statementForm statement)
  | terminated : IsReader (terminated statement)
  | expressionOrAssignment : IsReader expressionOrAssignment
  | block : IsReader (block statement)
  | typeTag : IsReader typeTag
  | param : IsReader param
  | params : IsReader params
  | expression : IsReader expression
  | comparison : IsReader (comparison expression)
  | additive : IsReader (additive expression)
  | multiplicative : IsReader (multiplicative expression)
  | unary : IsReader (unary expression)
  | suffixed : IsReader (suffixed expression)
  | primary : IsReader (primary expression)
  | entry : IsReader (entry expression)
  | commaSeparated {α : Type} {item : Parser α} (h : IsReader item) (opener : Span) (close : Symbol) :
    IsReader (commaSeparated opener (.symbol close) item)

/-- The readers of the forms that are known by their first token, which they take whatever it is. They are
called where it stands. -/
inductive IsForm : {α : Type} → Parser α → Prop where
  | letBinding : IsForm letBinding
  | functionDefinition : IsForm (functionDefinition statement)
  | ifStatement : IsForm (ifStatement statement)
  | forLoop : IsForm (forLoop statement)
  | returnStatement : IsForm returnStatement
  | delStatement : IsForm delStatement
  | parenOrTuple : IsForm (parenOrTuple expression)
  | array : IsForm (array expression)
  | map : IsForm (map expression)
  | call (callee : Expr) : IsForm (call expression callee)
  | index (target : Expr) : IsForm (index expression target)

/-- Whatever goes on in rounds: one round of it, and all of them. Statements and expressions are such for
the levels in which they nest. -/
inductive IsLoop : {γ α : Type} → Round γ α → (γ → Parser α) → Prop where
  | statement : IsLoop statementRound fun _ => statement
  | expression : IsLoop expressionRound fun _ => expression
  | comparisons : IsLoop (chainRound comparisonOp? (additive expression)) fun left => do
      chainFrom comparisonOp? (additive expression) (← get).rest left
  | sums : IsLoop (chainRound additiveOp? (multiplicative expression)) fun left => do
      chainFrom additiveOp? (multiplicative expression) (← get).rest left
  | products : IsLoop (chainRound multiplicativeOp? (unary expression)) fun left => do
      chainFrom multiplicativeOp? (unary expression) (← get).rest left
  | signs : IsLoop (unaryRound expression) fun _ => unary expression
  | suffixes : IsLoop (suffixesRound expression) fun e => do suffixesFrom expression (← get).rest e
  | items {α : Type} {item : Parser α} (h : IsReader item) (close : TokenKind) :
    IsLoop (itemsRound close item) fun _ => do items close item (← get).rest
  | blockStmts :
    IsLoop (stmtsRound (fun c => c.check (.symbol .rightBrace) || c.atEnd) statement) fun _ => do
      stmtsUntil (fun c => c.check (.symbol .rightBrace) || c.atEnd) statement (← get).rest
  | programStmts : IsLoop (stmtsRound Cursor.atEnd statement) fun _ => do
      stmtsUntil Cursor.atEnd statement (← get).rest

section Grammar

variable {n : Nat}

theorem keepsPace_unaryOfExpression : KeepsPace n 1 (unary expression) (unary expression) :=
  keepsPace_unary (Nat.le_succ n) keepsPace_expression

theorem keepsPace_multiplicative :
    KeepsPace n 1 (multiplicative expression) (multiplicative expression) :=
  keepsPace_chain rfl keepsPace_unaryOfExpression

theorem keepsPace_additive : KeepsPace n 1 (additive expression) (additive expression) :=
  keepsPace_chain rfl keepsPace_multiplicative

theorem keepsPace_of_isReader {α : Type} {p : Parser α} (h : IsReader p) : KeepsPace n 1 p p := by
  induction h with
  | statement => exact keepsPace_statement
  | statementForm => exact keepsPace_statementForm (Nat.le_succ n) keepsPace_statement
  | terminated => exact keepsPace_terminated keepsPace_statement
  | expressionOrAssignment => exact keepsPace_expressionOrAssignment
  | block => exact keepsPace_block keepsPace_statement
  | typeTag => exact keepsPace_typeTag
  | param => exact keepsPace_param
  | params => exact keepsPace_params
  | expression => exact keepsPace_expression
  | comparison => exact keepsPace_chain rfl keepsPace_additive
  | additive => exact keepsPace_additive
  | multiplicative => exact keepsPace_multiplicative
  | unary => exact keepsPace_unaryOfExpression
  | suffixed => exact keepsPace_suffixed (Nat.le_succ n) keepsPace_expression
  | primary => exact keepsPace_primary (Nat.le_succ n) keepsPace_expression
  | entry => exact keepsPace_entry keepsPace_expression
  | commaSeparated _ opener close ih => exact keepsPace_commaSeparated ih opener close

theorem keepsPaceAt_of_isForm {α : Type} {p : Parser α} (h : IsForm p) {t : Token} (ht : t.kind ≠ .eof) :
    KeepsPaceAt t n 1 p p := by
  have hn := Nat.le_succ n
  cases h with
  | letBinding => exact keepsPace_letBinding ht
  | functionDefinition => exact keepsPace_functionDefinition hn keepsPace_statement ht
  | ifStatement => exact keepsPace_ifStatement hn keepsPace_statement ht
  | forLoop => exact keepsPace_forLoop hn keepsPace_statement ht
  | returnStatement => exact keepsPace_returnStatement ht
  | delStatement => exact keepsPace_delStatement ht
  | parenOrTuple => exact keepsPace_parenOrTuple hn keepsPace_expression ht
  | array => exact keepsPace_array hn keepsPace_expression ht
  | map => exact keepsPace_map hn keepsPace_expression ht
  | call callee => exact keepsPace_call hn keepsPace_expression ht callee
  | index target => exact keepsPace_index hn keepsPace_expression ht target

/-- **All that goes on in rounds comes to an end** where the end of the text is ahead. -/
theorem settles_of_isLoop {γ α : Type} {round : Round γ α} {loop : γ → Parser α} (h : IsLoop round loop)
    {c : Cursor} (hend : ¬ EndFree c.rest) : Settles round loop c := by
  cases h with
  | statement =>
    exact settles_of_rounds (P := fun depth _ => statementWithin depth)
      (fun _ => keepsPace_statementRound) statementWithin_cons (fun _ => .failHere fun _ => rfl) hend
  | expression =>
    exact settles_of_rounds (P := fun depth _ => expressionWithin depth)
      (fun _ => keepsPace_expressionRound) expressionWithin_cons (fun _ => .failHere fun _ => rfl) hend
  | comparisons =>
    exact settles_of_rounds (fun _ => keepsPace_chainRound rfl keepsPace_additive)
      (chainFrom_cons _ _) (fun left => .pure left) hend
  | sums =>
    exact settles_of_rounds (fun _ => keepsPace_chainRound rfl keepsPace_multiplicative)
      (chainFrom_cons _ _) (fun left => .pure left) hend
  | products =>
    exact settles_of_rounds (fun _ => keepsPace_chainRound rfl keepsPace_unaryOfExpression)
      (chainFrom_cons _ _) (fun left => .pure left) hend
  | signs =>
    exact settles_of_rounds (P := fun rounds _ => unaryFrom expression rounds)
      (fun n => keepsPace_unaryRound (Nat.le_succ n) keepsPace_expression) (unaryFrom_cons expression)
      (fun _ => keepsPace_suffixed (Nat.le_succ 0) keepsPace_expression) hend
  | suffixes =>
    exact settles_of_rounds (fun n => keepsPace_suffixesRound (Nat.le_succ n) keepsPace_expression)
      (suffixesFrom_cons expression) (fun e => .pure e) hend
  | items h close =>
    exact settles_of_rounds (P := fun rounds _ => Parser.items close _ rounds)
      (fun _ => keepsPace_itemsRound (keepsPace_of_isReader h) close) (items_cons close _) (fun _ => .pure []) hend
  | blockStmts =>
    exact settles_of_rounds (P := fun rounds _ => stmtsUntil _ statement rounds)
      (fun _ => keepsPace_stmtsRound (fun _ _ => blockEnds_congr) keepsPace_statement)
      (stmtsUntil_cons _ statement) (fun _ => .pure []) hend
  | programStmts =>
    exact settles_of_rounds (P := fun rounds _ => stmtsUntil _ statement rounds)
      (fun _ => keepsPace_stmtsRound (fun _ _ => Cursor.atEnd_congr) keepsPace_statement)
      (stmtsUntil_cons _ statement) (fun _ => .pure []) hend

/-- **The statements of a program are read by `statement`**, as those of a block are. -/
theorem program_eq {c : Cursor} (hend : ¬ EndFree c.rest) :
    program c = (do
      let start ← get
      let ss ← stmtsUntil Cursor.atEnd statement start.rest
      return Block.mk ss (start.span.merge (← get).span) : Parser Block) c := by
  have hstatement : KeepsPace c.rest.length 1 (statementWithin c.rest) statement :=
    keepsPace_own (P := fun depth _ => statementWithin depth) (fun _ => keepsPace_statementRound)
      statementWithin_cons (fun _ => .failHere fun _ => rfl) (Nat.le_refl _) ()
  have hstmts : stmtsUntil Cursor.atEnd (statementWithin c.rest) c.rest c =
      stmtsUntil Cursor.atEnd statement c.rest c :=
    (keepsPace_stmtsUntil (fun _ _ => Cursor.atEnd_congr) hstatement (Nat.le_refl _) (Nat.le_refl _)
      (Nat.le_refl _) _).agree hend
  show (stmtsUntil Cursor.atEnd (statementWithin c.rest) c.rest c >>= _) =
    (stmtsUntil Cursor.atEnd statement c.rest c >>= _)
  rw [hstmts]

end Grammar

end Parser

open Nikl.Parser

/-! ## The main statement -/

/-- Whatever is read from a cursor, reading goes forward and comes to an end. -/
structure ProgressesAt (c : Cursor) : Prop where
  readers {α : Type} {p : Parser α} (h : IsReader p) : GoesForward c (p c)
  forms {α : Type} {p : Parser α} (h : IsForm p) (hc : c.atEnd = false) : GoesForward c (p c)
  loops {γ α : Type} {round : Round γ α} {loop : γ → Parser α} (h : IsLoop round loop) :
    Settles round loop c
  program : program c = (do
    let start ← get
    let ss ← stmtsUntil Cursor.atEnd statement start.rest
    return Block.mk ss (start.span.merge (← get).span) : Parser Block) c

/-- Where the end of the text is ahead, reading goes forward and comes to an end. -/
theorem progressesAt {c : Cursor} (hend : ¬ EndFree c.rest) : ProgressesAt c where
  readers h := (keepsPace_of_isReader h _).goesForward hend
  forms h hc := (keepsPaceAt_of_isForm h (of_decide_eq_false hc)).goesForward hend
  loops h := settles_of_isLoop h hend
  program := program_eq hend

/-- **Reading always progresses and ends.** From any place in tokens of which the last and no other is the
end of the text, every reader of the grammar takes a token at least or fails, none of them passes the end
of the text, and all that goes on in rounds comes to an end within as many rounds as there are tokens to
be read. A program is read to the end of the text. -/
theorem parsing_progresses_and_ends {ts : List Token} {last : Token} (hts : EndFree ts)
    (hlast : last.kind = .eof) :
    (∀ c : Cursor, c.rest ≠ [] → c.rest <:+ ts ++ [last] → ProgressesAt c) ∧
    ∀ b, parse (ts ++ [last]) = .ok b →
      ∃ previous, program (Cursor.ofTokens (ts ++ [last])) = .ok (b, ⟨[last], previous⟩) := by
  constructor
  · intro c hne hsuffix
    refine progressesAt fun hfree => ?_
    -- the last token is ahead from every place
    have hmem : last ∈ c.rest := by
      have hsame := hsuffix.getLast hne
      rw [List.getLast_concat] at hsame
      exact hsame ▸ List.getLast_mem hne
    exact hfree last hmem hlast
  · intro b hparse
    obtain ⟨⟨rest, previous⟩, hrun⟩ := parse_eq_ok_iff.1 hparse
    have hgoing := (keepsPace_program (n := 0) (firstOf (ts ++ [last]))).going rfl Span.nowhere
    have hatEnd := (program_gives hrun).1
    replace hrun : program ⟨ts ++ [last], Span.nowhere⟩ = .ok (b, ⟨rest, previous⟩) := hrun
    rw [hrun] at hgoing
    cases hgoing with
    | ok passed hback hfree =>
      obtain ⟨-, rfl⟩ := rest_of_only_end hts hfree hlast (of_decide_eq_true hatEnd) hback
      exact ⟨previous, hrun⟩

/-- `-f(1)` -/
def signedCall : List Token :=
  [⟨.symbol .minus, ⟨0, 1⟩, false⟩, ⟨.ident "f", ⟨1, 2⟩, false⟩, ⟨.symbol .leftParen, ⟨2, 3⟩, false⟩,
   ⟨.int 1, ⟨3, 4⟩, false⟩, ⟨.symbol .rightParen, ⟨4, 5⟩, false⟩]

/-- The call is read to the end of the text; nothing can be read from its closing parenthesis on, and that
is found out. -/
theorem parsing_progresses_and_ends_signedCall :
    let last : Token := ⟨.eof, ⟨5, 5⟩, false⟩
    let c : Cursor := ⟨[⟨.symbol .rightParen, ⟨4, 5⟩, false⟩, last], ⟨3, 4⟩⟩
    EndFree signedCall ∧ last.kind = .eof ∧ c.rest ≠ [] ∧ c.rest <:+ signedCall ++ [last] ∧
      ProgressesAt c ∧
      ∃ b, parse (signedCall ++ [last]) = .ok b ∧
        ∃ previous, program (Cursor.ofTokens (signedCall ++ [last])) = .ok (b, ⟨[last], previous⟩) := by
  intro last c
  have hts : EndFree signedCall := by simp [signedCall]
  have hsuffix : c.rest <:+ signedCall ++ [last] := ⟨signedCall.take 4, rfl⟩
  obtain ⟨b, hparse⟩ : ∃ b, parse (signedCall ++ [last]) = .ok b := ⟨_, rfl⟩
  have hlast : last.kind = .eof := rfl
  obtain ⟨hprogress, hprogram⟩ := parsing_progresses_and_ends hts hlast
  exact ⟨hts, hlast, List.cons_ne_nil _ _, hsuffix, hprogress c (List.cons_ne_nil _ _) hsuffix, b, hparse,
    hprogram b hparse⟩

end Nikl
