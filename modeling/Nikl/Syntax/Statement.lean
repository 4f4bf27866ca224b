import Nikl.Syntax.Expression

/-
Reading statements, blocks and programs. Statements need no mark between them; semicolons between
statements are skipped. A block of statements is handed a reader for the statements in it, as
expressions are for those between delimiters.
-/

set_option autoImplicit false

namespace Nikl.Parser

variable {ν : Type}

/-! ## Parts of statements -/

/-- The type that a token names. -/
def typeTag? : TokenKind ν → Option TypeTag
  | .typeName .int => some .int
  | .typeName .float => some .float
  | .typeName .string => some .string
  | .typeName .bool => some .bool
  | .typeName .array => some .array
  | .typeName .hashMap => some .hashMap
  | .typeName .tuple => some .tuple
  | .keyword .noneWord => some .none
  | _ => none

variable [DecidableEq ν]

/-- A type (`Parser::parse_type`). -/
def typeTag : ParserOf ν TypeTag := do
  match typeTag? (← get).kind with
  | some tag =>
    let _ ← advance
    return tag
  | none => within .declaredType (failHere .expectedType)

/-- A type, if the mark that announces one comes first. -/
def typeAfter (mark : Symbol) : ParserOf ν (Option TypeTag) := do
  if ← eat (.symbol mark) then return some (← typeTag) else return none

/-- A parameter with or without its type. -/
def param : ParserOf ν (Param ν) := do
  let (name, span) ← expectIdent
  let type ← typeAfter .colon
  return ⟨name, type, span⟩

/-- The first parameter whose name an earlier one has. -/
def repeatedParam? : (earlier : List ν) → List (Param ν) → Option (Param ν)
  | _, [] => none
  | earlier, p :: rest =>
    if earlier.contains p.name then some p else repeatedParam? (p.name :: earlier) rest

/-- The parameters of a function, in parentheses, no two of one name (`Parser::parse_params`). -/
def params : ParserOf ν (List (Param ν)) := do
  let opener := (← expect (.symbol .leftParen)).span
  let (ps, _) ← commaSeparated opener (.symbol .rightParen) param
  match repeatedParam? [] ps with
  | some p => throw ⟨.duplicateParameter p.name, p.span, none⟩
  | none => return ps

/-! ## Blocks

`inner` reads a statement of a block. -/

/-- A statement and a semicolon that may follow it. -/
def terminated (inner : ParserOf ν (Stmt ν)) : ParserOf ν (Stmt ν) := do
  let s ← inner
  let _ ← eat (.symbol .semicolon)
  return s

/-- Statements up to a token that ends them, or to the end of the text (the loops of
`Parser::parse_block` and `Parser::parse_program`). -/
def stmtsUntil (ends : Cursor ν → Bool) (inner : ParserOf ν (Stmt ν)) :
    (rounds : List (Token ν)) → ParserOf ν (List (Stmt ν))
  | [] => pure []
  | _ :: rounds => do
    if ← eat (.symbol .semicolon) then stmtsUntil ends inner rounds
    else if ends (← get) then return []
    else
      let s ← terminated inner
      return s :: (← stmtsUntil ends inner rounds)

/-- Statements between braces (`Parser::parse_block`). -/
def block (inner : ParserOf ν (Stmt ν)) : ParserOf ν (Block ν) := within .block do
  let opener := (← expect (.symbol .leftBrace)).span
  let ss ← stmtsUntil (fun c => c.check (.symbol .rightBrace) || c.atEnd) inner (← get).rest
  let close ← expectClosing (.symbol .rightBrace) opener
  return .mk ss (opener.merge close)

/-! ## The forms of statements -/

/-- `let x: T = e` (`Parser::parse_let`) -/
def letBinding : ParserOf ν (Stmt ν) := do
  let start := (← advance).span
  let (name, _) ← expectIdent
  let type ← typeAfter .colon
  let _ ← expect (.symbol .assign)
  let value ← expression
  return .define name type value (start.merge value.span)

/-- A function with its parameters and body (`Parser::parse_function_def`). -/
def functionDefinition (inner : ParserOf ν (Stmt ν)) : ParserOf ν (Stmt ν) := do
  let start := (← advance).span
  let (name, _) ← expectIdent
  let ps ← within .functionParameters params
  let returnType ← typeAfter .arrow
  let body ← block inner
  let span := start.merge body.span
  return .function (.mk name ps returnType body span) span

/-- A condition, a block, and what `else` gives in its place: a block or another `if`
(`Parser::parse_if`). -/
def ifStatement (inner : ParserOf ν (Stmt ν)) : ParserOf ν (Stmt ν) := do
  let start := (← advance).span
  let condition ← expression
  let thenBranch ← block inner
  if ← eat (.keyword .elseWord) then
    let elseBranch ←
      -- an `if` behind `else` is a block of one statement
      if (← get).check (.keyword .ifWord) then do
        let nested ← inner
        pure (Block.mk [nested] nested.span)
      else block inner
    return .ifElse condition thenBranch elseBranch (start.merge elseBranch.span)
  else return .ifThen condition thenBranch (start.merge thenBranch.span)

/-- A loop over a collection with one name or two (`Parser::parse_for`). -/
def forLoop (inner : ParserOf ν (Stmt ν)) : ParserOf ν (Stmt ν) := do
  let start := (← advance).span
  let (first, _) ← expectIdent
  let second ← if ← eat (.symbol .comma) then do pure (some (← expectIdent).1) else pure none
  let _ ← expect (.keyword .inWord)
  let iterable ← expression
  let body ← block inner
  return .forEach first second iterable body (start.merge body.span)

/-- A `return` with or without a value (`Parser::parse_return`). There is none if the statement, the
block, the line or the text ends behind the word. -/
def returnStatement : ParserOf ν (Stmt ν) := do
  let start := (← advance).span
  let c ← get
  if c.atEnd || c.atLineStart || c.check (.symbol .rightBrace) || c.check (.symbol .semicolon) then
    return .giveBack none start
  else
    let value ← expression
    return .giveBack (some value) (start.merge value.span)

/-- `del x` (`Parser::parse_del`) -/
def delStatement : ParserOf ν (Stmt ν) := do
  let start := (← advance).span
  let (name, span) ← expectIdent
  return .delete name (start.merge span)

/-- What may stand on the left of an assignment, given the value. -/
def assignment? (target value : Expr ν) (span : Span) : Option (Stmt ν) :=
  match target with
  | .ident name _ => some (.assign name value span)
  | .index container place _ => some (.assignIndex container place value span)
  | _ => none

/-- Whether an expression may stand on the left of an assignment. -/
def isAssignable : Expr ν → Bool
  | .ident .. | .index .. => true
  | _ => false

/-- An expression, or an assignment to it if an equals sign follows (`Parser::parse_expr_or_assign`). -/
def expressionOrAssignment : ParserOf ν (Stmt ν) := do
  let target ← expression
  if (← get).check (.symbol .assign) then
    -- the target is refused before the value is read
    within .assignment do
      if isAssignable target then
        let _ ← advance
        let value ← expression
        let span := target.span.merge value.span
        return (assignment? target value span).getD (.expr target span)
      else throw ⟨.invalidAssignmentTarget, target.span, none⟩
  else return .expr target target.span

/-- A statement whose first token tells its form (`Parser::parse_stmt_inner`). -/
def statementForm (inner : ParserOf ν (Stmt ν)) : ParserOf ν (Stmt ν) := do
  match (← get).kind with
  | .keyword .letWord => within .letBinding letBinding
  | .keyword .fnWord => within .functionDefinition (functionDefinition inner)
  | .keyword .ifWord => within .ifStatement (ifStatement inner)
  | .keyword .forWord => within .forLoop (forLoop inner)
  | .keyword .returnWord => within .returnStatement returnStatement
  | .keyword .delWord => within .delStatement delStatement
  | _ => expressionOrAssignment

/-- A statement in which blocks nest less deep than there are tokens in `depth`. -/
def statementWithin : (depth : List (Token ν)) → ParserOf ν (Stmt ν)
  | [], c => failHere .expectedExpression c
  | _ :: depth, c => statementForm (statementWithin depth) c

/-- A statement (`Parser::parse_stmt`). -/
def statement : ParserOf ν (Stmt ν) := do
  statementWithin (← get).rest

/-- A whole program: statements up to the end of the text (`Parser::parse_program`). -/
def program : ParserOf ν (Block ν) := do
  let c ← get
  let ss ← stmtsUntil Cursor.atEnd (statementWithin c.rest) c.rest
  return .mk ss (c.span.merge (← get).span)

end Nikl.Parser

namespace Nikl

/-- The tree of a list of tokens that ends with the one for the end of the text (`parse`). -/
def parse {ν : Type} [DecidableEq ν] (tokens : List (Token ν)) : Except (ParseError ν) (Block ν) :=
  (Parser.program.run (Cursor.ofTokens tokens)).map (·.1)

end Nikl
