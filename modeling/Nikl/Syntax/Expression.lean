import Nikl.Syntax
import Nikl.Syntax.Cursor

/-
Reading expressions. From the loosest to the tightest binding there are comparisons, sums, products,
signs and negations, calls and indexing, and the primary forms. The three levels of binary operators
group to the left.

An opening parenthesis or bracket at the start of a line does not continue the expression before it.

Readers nest as deep as delimiters do. A reader for nested expressions is handed down from level to
level, and every delimiter takes one token, so an expression nests no deeper than there are tokens.
-/

set_option autoImplicit false

namespace Nikl.Parser

variable {ν : Type}

/-! ## Binary operators -/

/-- The operator a token stands for among the comparisons (`Parser::match_comparison_op`). -/
def comparisonOp? : TokenKind ν → Option BinaryOp
  | .symbol .equal => some .equal
  | .symbol .notEqual => some .notEqual
  | .symbol .less => some .less
  | .symbol .lessEqual => some .lessEqual
  | .symbol .greater => some .greater
  | .symbol .greaterEqual => some .greaterEqual
  | _ => none

/-- The operator a token stands for in a sum. -/
def additiveOp? : TokenKind ν → Option BinaryOp
  | .symbol .plus => some .add
  | .symbol .minus => some .sub
  | _ => none

/-- The operator a token stands for in a product. -/
def multiplicativeOp? : TokenKind ν → Option BinaryOp
  | .symbol .star => some .mul
  | .symbol .slash => some .div
  | .symbol .percent => some .mod
  | _ => none

/-- Two operands joined, covering both (`binary`). -/
def binary (op : BinaryOp) (left right : Expr ν) : Expr ν :=
  .binary op left right (left.span.merge right.span)

variable [DecidableEq ν]

/-- The operators of a level and their right operands, joined to what stands on the left (the loop of
`Parser::parse_additive` and of its siblings). -/
def chainFrom (op? : TokenKind ν → Option BinaryOp) (operand : ParserOf ν (Expr ν)) :
    (rounds : List (Token ν)) → Expr ν → ParserOf ν (Expr ν)
  | [], left => pure left
  | _ :: rounds, left => do
    match op? (← get).kind with
    | none => return left
    | some op =>
      let _ ← advance
      let right ← operand
      chainFrom op? operand rounds (binary op left right)

/-- Operands of the next tighter level, joined from the left by the operators of a level. -/
def chain (op? : TokenKind ν → Option BinaryOp) (operand : ParserOf ν (Expr ν)) : ParserOf ν (Expr ν) := do
  let left ← operand
  chainFrom op? operand (← get).rest left

/-! ## Primary forms

`inner` reads an expression between delimiters. -/

/-- A parenthesised expression, or a tuple: `()`, `(a,)`, `(a, b)` (`Parser::parse_paren_or_tuple`). -/
def parenOrTuple (inner : ParserOf ν (Expr ν)) : ParserOf ν (Expr ν) := do
  let opener := (← advance).span
  if (← get).check (.symbol .rightParen) then
    let close := (← advance).span
    return .tuple [] (opener.merge close)
  let first ← inner
  if ← eat (.symbol .comma) then
    within .tupleLiteral do
      let (rest, close) ← commaSeparated opener (.symbol .rightParen) inner
      return .tuple (first :: rest) (opener.merge close)
  else
    let close ← expectClosing (.symbol .rightParen) opener
    return first.withSpan (opener.merge close)

/-- `[a, b]` (`Parser::parse_array`) -/
def array (inner : ParserOf ν (Expr ν)) : ParserOf ν (Expr ν) := do
  let opener := (← advance).span
  let (items, close) ← commaSeparated opener (.symbol .rightBracket) inner
  return .array items (opener.merge close)

/-- A key, a colon and a value. -/
def entry (inner : ParserOf ν (Expr ν)) : ParserOf ν (Expr ν × Expr ν) := do
  let key ← inner
  let _ ← expect (.symbol .colon)
  let value ← inner
  return (key, value)

/-- Entries between braces (`Parser::parse_map`). -/
def map (inner : ParserOf ν (Expr ν)) : ParserOf ν (Expr ν) := do
  let opener := (← advance).span
  let (entries, close) ← commaSeparated opener (.symbol .rightBrace) (entry inner)
  return .map entries (opener.merge close)

/-- The expression that a token makes on its own. -/
def atom? (kind : TokenKind ν) (span : Span) : Option (Expr ν) :=
  match kind with
  | .int n => some (.literal (.int n) span)
  | .float x => some (.literal (.float x) span)
  | .string s => some (.literal (.string s) span)
  | .keyword .trueWord => some (.literal (.bool true) span)
  | .keyword .falseWord => some (.literal (.bool false) span)
  | .keyword .noneWord => some (.literal .none span)
  | .ident name => some (.ident name span)
  | _ => none

/-- An expression that is no operator, call or index (`Parser::parse_primary`). -/
def primary (inner : ParserOf ν (Expr ν)) : ParserOf ν (Expr ν) := do
  let c ← get
  match atom? c.kind c.span with
  | some e =>
    let _ ← advance
    return e
  | none =>
    match c.kind with
    | .symbol .leftParen => parenOrTuple inner
    | .symbol .leftBracket => within .arrayLiteral (array inner)
    | .symbol .leftBrace => within .mapLiteral (map inner)
    | _ => failHere .expectedExpression

/-! ## Calls and indexing -/

/-- The arguments of a call, joined to what is called (`Parser::parse_call`). -/
def call (inner : ParserOf ν (Expr ν)) (callee : Expr ν) : ParserOf ν (Expr ν) := do
  let opener := (← advance).span
  let (args, close) ← commaSeparated opener (.symbol .rightParen) inner
  return .call callee args (callee.span.merge close)

/-- An index, joined to what is indexed (`Parser::parse_index`). -/
def index (inner : ParserOf ν (Expr ν)) (target : Expr ν) : ParserOf ν (Expr ν) := do
  let opener := (← advance).span
  let place ← inner
  let close ← expectClosing (.symbol .rightBracket) opener
  return .index target place (target.span.merge close)

/-- The calls and indices on the line that apply to an expression, one after another (the loop of
`Parser::parse_postfix`). -/
def suffixesFrom (inner : ParserOf ν (Expr ν)) : (rounds : List (Token ν)) → Expr ν → ParserOf ν (Expr ν)
  | [], e => pure e
  | _ :: rounds, e => do
    let c ← get
    -- what begins a line begins a statement: a bracket there applies to nothing before it
    if c.atLineStart then return e
    else if c.check (.symbol .leftParen) then
      suffixesFrom inner rounds (← within .functionCall (call inner e))
    else if c.check (.symbol .leftBracket) then
      suffixesFrom inner rounds (← within .indexExpression (index inner e))
    else return e

/-- A primary form with the calls and indices that follow it (`Parser::parse_postfix`). -/
def suffixed (inner : ParserOf ν (Expr ν)) : ParserOf ν (Expr ν) := do
  let e ← primary inner
  suffixesFrom inner (← get).rest e

/-! ## The levels -/

/-- The operator a token stands for before its operand. -/
def unaryOp? : TokenKind ν → Option UnaryOp
  | .symbol .minus => some .neg
  | .symbol .bang => some .not
  | _ => none

/-- Signs and negations before an operand. -/
def unaryFrom (inner : ParserOf ν (Expr ν)) : (rounds : List (Token ν)) → ParserOf ν (Expr ν)
  | [] => suffixed inner
  | _ :: rounds => do
    match unaryOp? (← get).kind with
    | none => suffixed inner
    | some op =>
      let start := (← advance).span
      let operand ← unaryFrom inner rounds
      return .unary op operand (start.merge operand.span)

/-- Signs and negations, as many as there are (`Parser::parse_unary`). -/
def unary (inner : ParserOf ν (Expr ν)) : ParserOf ν (Expr ν) := do
  unaryFrom inner (← get).rest

/-- Products (`Parser::parse_multiplicative`). -/
def multiplicative (inner : ParserOf ν (Expr ν)) : ParserOf ν (Expr ν) := chain multiplicativeOp? (unary inner)

/-- Sums (`Parser::parse_additive`). -/
def additive (inner : ParserOf ν (Expr ν)) : ParserOf ν (Expr ν) := chain additiveOp? (multiplicative inner)

/-- Comparisons (`Parser::parse_comparison`). -/
def comparison (inner : ParserOf ν (Expr ν)) : ParserOf ν (Expr ν) := chain comparisonOp? (additive inner)

/-- An expression in which delimiters nest less deep than there are tokens in `depth`. -/
def expressionWithin : (depth : List (Token ν)) → ParserOf ν (Expr ν)
  | [], c => failHere .expectedExpression c
  | _ :: depth, c => comparison (expressionWithin depth) c

/-- An expression (`Parser::parse_expr`). -/
def expression : ParserOf ν (Expr ν) := do
  expressionWithin (← get).rest

end Nikl.Parser
