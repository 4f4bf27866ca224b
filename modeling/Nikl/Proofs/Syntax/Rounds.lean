import Nikl.Syntax.Statement

/-
Single rounds of the readers that go on in rounds. Where such a reader goes on, its round hands over to
`again`, whatever that is; the reader itself is its round with itself behind, for one round less. So what
is shown of a round does not depend on how many more are allowed.
-/

set_option autoImplicit false

namespace Nikl.Parser

/-- One round of a reader: what it does, given what is done in the rounds behind it. Some readers take the
part that was read so far along from round to round. -/
abbrev Round (γ α : Type) := (γ → Parser α) → γ → Parser α

section Lists

variable {α : Type}

def itemsRound (close : TokenKind) (item : Parser α) : Round Unit (List α) := fun again _ => do
  let c ← get
  if c.check close || c.atEnd then return []
  let first ← item
  if ← eat (.symbol .comma) then
    return first :: (← again ())
  let c ← get
  if c.check close || c.atEnd then return [first]
  failHere (.expectedSeparator close)

theorem items_cons (close : TokenKind) (item : Parser α) (r : Token) (rounds : List Token) :
    (fun _ => items close item (r :: rounds)) =
      itemsRound close item fun _ => items close item rounds := rfl

end Lists

section Expressions

def chainRound (op? : TokenKind → Option BinaryOp) (operand : Parser Expr) : Round Expr Expr :=
  fun again left => do
    match op? (← get).kind with
    | none => return left
    | some op =>
      let _ ← advance
      let right ← operand
      again (binary op left right)

theorem chainFrom_cons (op? : TokenKind → Option BinaryOp) (operand : Parser Expr) (r : Token)
    (rounds : List Token) :
    chainFrom op? operand (r :: rounds) = chainRound op? operand (chainFrom op? operand rounds) := rfl

variable (inner : Parser Expr)

def suffixesRound : Round Expr Expr := fun again e => do
  let c ← get
  if c.atLineStart then return e
  else if c.check (.symbol .leftParen) then
    again (← within .functionCall (call inner e))
  else if c.check (.symbol .leftBracket) then
    again (← within .indexExpression (index inner e))
  else return e

theorem suffixesFrom_cons (r : Token) (rounds : List Token) :
    suffixesFrom inner (r :: rounds) = suffixesRound inner (suffixesFrom inner rounds) := rfl

def unaryRound : Round Unit Expr := fun again _ => do
  match unaryOp? (← get).kind with
  | none => suffixed inner
  | some op =>
    let start := (← advance).span
    let operand ← again ()
    return .unary op operand (start.merge operand.span)

theorem unaryFrom_cons (r : Token) (rounds : List Token) :
    (fun _ => unaryFrom inner (r :: rounds)) = unaryRound inner fun _ => unaryFrom inner rounds := rfl

/-- A level deeper between delimiters. -/
def expressionRound : Round Unit Expr := fun again _ => comparison (again ())

theorem expressionWithin_cons (d : Token) (depth : List Token) :
    (fun _ => expressionWithin (d :: depth)) = expressionRound fun _ => expressionWithin depth := rfl

end Expressions

section Statements

def stmtsRound (ends : Cursor → Bool) (inner : Parser Stmt) : Round Unit (List Stmt) := fun again _ => do
  if ← eat (.symbol .semicolon) then again ()
  else if ends (← get) then return []
  else
    let s ← terminated inner
    return s :: (← again ())

theorem stmtsUntil_cons (ends : Cursor → Bool) (inner : Parser Stmt) (r : Token)
    (rounds : List Token) :
    (fun _ => stmtsUntil ends inner (r :: rounds)) =
      stmtsRound ends inner fun _ => stmtsUntil ends inner rounds := rfl

/-- A level deeper in blocks. -/
def statementRound : Round Unit Stmt := fun again _ => statementForm (again ())

theorem statementWithin_cons (d : Token) (depth : List Token) :
    (fun _ => statementWithin (d :: depth)) = statementRound fun _ => statementWithin depth := rfl

end Statements

end Nikl.Parser
