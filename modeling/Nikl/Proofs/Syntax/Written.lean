import Nikl.Proofs.Syntax.Spans
import Nikl.Token

/-
How a tree is written: the tokens of a text that means it. Parentheses stand only where the strength of
an operator or the grouping to the left asks for them, every statement ends in a semicolon, and a tuple
of one item has a comma behind it.

An `if` in the place of an `else` branch can be written as `else if` or in a block of its own; both
mean the same tree, and which one is meant is left open (`Style`).
-/

set_option autoImplicit false

namespace Nikl

/-! ## Strengths -/

/-- How strongly an operator binds. -/
def BinaryOp.level : BinaryOp → Nat
  | equal | notEqual | less | lessEqual | greater | greaterEqual => 0
  | add | sub => 1
  | mul | div | mod => 2

/-- How strongly the parts of an expression hang together: operators in the order of their strength,
then signs and negations, then everything that takes no parentheses. -/
def Expr.level : Expr → Nat
  | .binary op _ _ _ => op.level
  | .unary .. => 3
  | _ => 4

/-! ## Tokens of the parts of a tree -/

def Literal.token : Literal → TokenKind
  | .int n => .int n
  | .float x => .float x
  | .string s => .string s
  | .bool true => .keyword .trueWord
  | .bool false => .keyword .falseWord
  | .none => .keyword .noneWord

def BinaryOp.token : BinaryOp → TokenKind
  | add => .symbol .plus
  | sub => .symbol .minus
  | mul => .symbol .star
  | div => .symbol .slash
  | mod => .symbol .percent
  | equal => .symbol .equal
  | notEqual => .symbol .notEqual
  | less => .symbol .less
  | lessEqual => .symbol .lessEqual
  | greater => .symbol .greater
  | greaterEqual => .symbol .greaterEqual

def UnaryOp.token : UnaryOp → TokenKind
  | neg => .symbol .minus
  | not => .symbol .bang

def TypeTag.token : TypeTag → TokenKind
  | int => .typeName .int
  | float => .typeName .float
  | string => .typeName .string
  | bool => .typeName .bool
  | array => .typeName .array
  | hashMap => .typeName .hashMap
  | tuple => .typeName .tuple
  | none => .keyword .noneWord

namespace Written

/-- Texts with a comma between each two. -/
def separated (parts : List (List TokenKind)) : List TokenKind :=
  [TokenKind.symbol .comma].intercalate parts

/-- A text between two delimiters. -/
def enclosed (opener close : Symbol) (text : List TokenKind) : List TokenKind :=
  .symbol opener :: (text ++ [.symbol close])

/-- A text in parentheses, where it needs them. -/
def grouped (needed : Prop) [Decidable needed] (text : List TokenKind) : List TokenKind :=
  if needed then enclosed .leftParen .rightParen text else text

/-- A type behind the mark that announces it, if there is one. -/
def typed (mark : Symbol) : Option TypeTag → List TokenKind
  | none => []
  | some type => [.symbol mark, type.token]

/-- A further name behind a comma, if there is one. -/
def further : Option String → List TokenKind
  | none => []
  | some name => [.symbol .comma, .ident name]

end Written

open Written

/-! ## Expressions -/

mutual

/-- The tokens of an expression. -/
def Expr.tokens : Expr → List TokenKind
  | .literal v _ => [v.token]
  | .ident name _ => [.ident name]
  | .array items _ => enclosed .leftBracket .rightBracket (separated (Expr.tokensAll items))
  | .map entries _ => enclosed .leftBrace .rightBrace (separated (Expr.tokensEntries entries))
  | .tuple items _ =>
    enclosed .leftParen .rightParen
      -- without the comma, one item between parentheses would be the item itself
      (separated (Expr.tokensAll items) ++ if items.length = 1 then [.symbol .comma] else [])
  | .binary op left right _ =>
    grouped (left.level < op.level) left.tokens ++
      op.token :: grouped (right.level ≤ op.level) right.tokens
  | .unary op operand _ => op.token :: grouped (operand.level < 3) operand.tokens
  | .call callee args _ =>
    grouped (callee.level < 4) callee.tokens ++
      enclosed .leftParen .rightParen (separated (Expr.tokensAll args))
  | .index target place _ =>
    grouped (target.level < 4) target.tokens ++ enclosed .leftBracket .rightBracket place.tokens
termination_by structural e => e

def Expr.tokensAll : List Expr → List (List TokenKind)
  | [] => []
  | e :: rest => e.tokens :: Expr.tokensAll rest
termination_by structural es => es

def Expr.tokensEntries : List (Expr × Expr) → List (List TokenKind)
  | [] => []
  | (key, value) :: rest =>
    (key.tokens ++ .symbol .colon :: value.tokens) :: Expr.tokensEntries rest
termination_by structural es => es

end

/-- The tokens of an expression that hangs together at least so strongly. -/
def Expr.tokensAt (least : Nat) (e : Expr) : List TokenKind := grouped (e.level < least) e.tokens

/-- The tokens of a key and its value. -/
def Expr.entryTokens (entry : Expr × Expr) : List TokenKind :=
  entry.1.tokens ++ .symbol .colon :: entry.2.tokens

@[simp] theorem Expr.tokensAll_eq (es : List Expr) : Expr.tokensAll es = es.map Expr.tokens := by
  induction es with
  | nil => rfl
  | cons e rest ih => rw [Expr.tokensAll, ih, List.map_cons]

@[simp] theorem Expr.tokensEntries_eq (es : List (Expr × Expr)) :
    Expr.tokensEntries es = es.map Expr.entryTokens := by
  induction es with
  | nil => rfl
  | cons kv rest ih => rw [Expr.tokensEntries, ih, List.map_cons, Expr.entryTokens]

/-! ## Statements -/

/-- How each `if` in the place of an `else` branch is written: as `else if`, or else in a block of its
own. -/
abbrev Style := Stmt → Bool

def Stmt.isIf : Stmt → Bool
  | .ifThen .. | .ifElse .. => true
  | _ => false

def Param.tokens (p : Param) : List TokenKind := .ident p.name :: typed .colon p.type

mutual

/-- The tokens of a statement, without a semicolon behind it. -/
def Stmt.tokens (chained : Style) : Stmt → List TokenKind
  | .expr e _ => e.tokens
  | .define name type value _ =>
    .keyword .letWord :: .ident name :: (typed .colon type ++ .symbol .assign :: value.tokens)
  | .assign name value _ => .ident name :: .symbol .assign :: value.tokens
  | .assignIndex target place value _ =>
    (target.tokensAt 4 ++ enclosed .leftBracket .rightBracket place.tokens) ++
      .symbol .assign :: value.tokens
  | .delete name _ => [.keyword .delWord, .ident name]
  | .function d _ => d.tokens chained
  | .ifThen condition thenBranch _ =>
    .keyword .ifWord :: (condition.tokens ++ thenBranch.tokens chained)
  | .ifElse condition thenBranch elseBranch _ =>
    .keyword .ifWord :: (condition.tokens ++ thenBranch.tokens chained ++
      .keyword .elseWord :: Block.elseTokens chained elseBranch)
  | .forEach first second iterable body _ =>
    .keyword .forWord :: .ident first ::
      (further second ++ .keyword .inWord :: (iterable.tokens ++ body.tokens chained))
  | .giveBack none _ => [.keyword .returnWord]
  | .giveBack (some e) _ => .keyword .returnWord :: e.tokens
termination_by structural s => s

/-- The tokens of statements, each with a semicolon behind it. -/
def Stmt.tokensAll (chained : Style) : List Stmt → List TokenKind
  | [] => []
  | s :: rest => s.tokens chained ++ .symbol .semicolon :: Stmt.tokensAll chained rest
termination_by structural ss => ss

/-- The tokens of a block in its braces. -/
def Block.tokens (chained : Style) : Block → List TokenKind
  | .mk stmts _ => enclosed .leftBrace .rightBrace (Stmt.tokensAll chained stmts)
termination_by structural b => b

/-- The tokens of a block behind `else`. -/
def Block.elseTokens (chained : Style) : Block → List TokenKind
  | .mk [] _ => enclosed .leftBrace .rightBrace []
  | .mk (s :: rest) _ =>
    match rest, s.isIf && chained s with
    | [], true => s.tokens chained
    | _, _ =>
      enclosed .leftBrace .rightBrace
        (s.tokens chained ++ .symbol .semicolon :: Stmt.tokensAll chained rest)
termination_by structural b => b

def FunctionDef.tokens (chained : Style) : FunctionDef → List TokenKind
  | .mk name params returnType body _ =>
    .keyword .fnWord :: .ident name ::
      (enclosed .leftParen .rightParen (separated (params.map Param.tokens)) ++
        (typed .arrow returnType ++ body.tokens chained))
termination_by structural d => d

end

/-- The tokens of a whole program, the end of the text included. -/
def Block.programTokens (chained : Style) (b : Block) : List TokenKind :=
  Stmt.tokensAll chained b.stmts ++ [.eof]

end Nikl
