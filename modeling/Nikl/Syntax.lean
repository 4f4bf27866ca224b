import Nikl.Source.Span

/-
The tree of a program. Every expression, statement, block, definition and parameter knows the bytes
it was read from.

A branch of an `if` that is itself an `if`, written `else if`, is a block that holds that one
statement and covers the same bytes.
-/

set_option autoImplicit false

namespace Nikl

/-- A declared type (`TypeTag`). Declarations are kept but never checked. -/
inductive TypeTag where
  | int | float | string | bool | array | hashMap | tuple | none
  deriving DecidableEq, Repr

/-- How a declared type is written (`TypeTag::as_str`). -/
def TypeTag.text : TypeTag → String
  | int => "Int"
  | float => "Float"
  | string => "String"
  | bool => "Bool"
  | array => "Array"
  | hashMap => "HashMap"
  | tuple => "Tuple"
  | none => "None"

/-- Operators between two operands (`BinaryOp`). -/
inductive BinaryOp where
  | add | sub | mul | div | mod | equal | notEqual | less | lessEqual | greater | greaterEqual
  deriving DecidableEq, Repr

namespace BinaryOp

def all : List BinaryOp :=
  [add, sub, mul, div, mod, equal, notEqual, less, lessEqual, greater, greaterEqual]

/-- How an operator is written (`BinaryOp::as_symbol`). -/
def symbol : BinaryOp → String
  | add => "+"
  | sub => "-"
  | mul => "*"
  | div => "/"
  | mod => "%"
  | equal => "=="
  | notEqual => "!="
  | less => "<"
  | lessEqual => "<="
  | greater => ">"
  | greaterEqual => ">="

/-- How an operator is called in a listing of the tree. -/
def label : BinaryOp → String
  | add => "Add"
  | sub => "Sub"
  | mul => "Mul"
  | div => "Div"
  | mod => "Mod"
  | equal => "Eq"
  | notEqual => "NotEq"
  | less => "Lt"
  | lessEqual => "LtEq"
  | greater => "Gt"
  | greaterEqual => "GtEq"

/-- The comparisons by order (`BinaryOp::is_ordering`). -/
def isOrdering : BinaryOp → Bool
  | less | lessEqual | greater | greaterEqual => true
  | _ => false

end BinaryOp

/-- Operators before one operand (`UnaryOp`). -/
inductive UnaryOp where
  | neg | not
  deriving DecidableEq, Repr

namespace UnaryOp

/-- How an operator is written (`UnaryOp::as_symbol`). -/
def symbol : UnaryOp → String
  | neg => "-"
  | not => "!"

/-- How an operator is called in a listing of the tree. -/
def label : UnaryOp → String
  | neg => "Neg"
  | not => "Not"

end UnaryOp

/-- Values that are written as such (`Literal`). -/
inductive Literal (ν : Type := String) where
  | int (value : Int64)
  | float (value : Float)
  | string (content : ν)
  | bool (value : Bool)
  | none
  deriving DecidableEq

/-- Expressions (`Expr`, `ExprKind`). -/
inductive Expr (ν : Type := String) where
  | literal (value : Literal ν) (span : Span)
  | array (items : List (Expr ν)) (span : Span)
  /-- Keys and values in the order they are written. Any expression may be a key. -/
  | map (entries : List (Expr ν × Expr ν)) (span : Span)
  | tuple (items : List (Expr ν)) (span : Span)
  | ident (name : ν) (span : Span)
  | binary (op : BinaryOp) (left right : Expr ν) (span : Span)
  | unary (op : UnaryOp) (operand : Expr ν) (span : Span)
  | call (callee : Expr ν) (args : List (Expr ν)) (span : Span)
  | index (target index : Expr ν) (span : Span)
  deriving Inhabited

namespace Expr

variable {ν : Type}

def span : Expr ν → Span
  | literal _ s | array _ s | map _ s | tuple _ s | ident _ s | binary _ _ _ s | unary _ _ s
  | call _ _ s | index _ _ s => s

/-- The expression, said to cover other bytes: those of the parentheses around it. -/
def withSpan (s : Span) : Expr ν → Expr ν
  | literal v _ => literal v s
  | array items _ => array items s
  | map entries _ => map entries s
  | tuple items _ => tuple items s
  | ident name _ => ident name s
  | binary op l r _ => binary op l r s
  | unary op e _ => unary op e s
  | call f args _ => call f args s
  | index t i _ => index t i s

@[simp] theorem span_withSpan (s : Span) (e : Expr ν) : (e.withSpan s).span = s := by
  cases e <;> rfl

end Expr

/-- A parameter and its declared type (`Param`). -/
structure Param (ν : Type := String) where
  name : ν
  type : Option TypeTag
  span : Span
  deriving DecidableEq, Repr

mutual

/-- Statements (`Stmt`, `StmtKind`, `AssignTarget`, `ForBindings`). -/
inductive Stmt (ν : Type := String) where
  | expr (e : Expr ν) (span : Span)
  | define (name : ν) (type : Option TypeTag) (value : Expr ν) (span : Span)
  /-- `x = v` gives a name another value. -/
  | assign (name : ν) (value : Expr ν) (span : Span)
  /-- `a[i] = v` changes a shared collection in place. -/
  | assignIndex (target index value : Expr ν) (span : Span)
  | delete (name : ν) (span : Span)
  | function (definition : FunctionDef ν) (span : Span)
  | ifThen (condition : Expr ν) (thenBranch : Block ν) (span : Span)
  | ifElse (condition : Expr ν) (thenBranch elseBranch : Block ν) (span : Span)
  /-- `for x in c` or `for k, v in c`. -/
  | forEach (first : ν) (second : Option ν) (iterable : Expr ν) (body : Block ν) (span : Span)
  | giveBack (value : Option (Expr ν)) (span : Span)

/-- Statements in a scope of their own, or the whole program (`Block`). -/
inductive Block (ν : Type := String) where
  | mk (stmts : List (Stmt ν)) (span : Span)

/-- The definition of a function (`FunctionDef`). -/
inductive FunctionDef (ν : Type := String) where
  | mk (name : ν) (params : List (Param ν)) (returnType : Option TypeTag) (body : Block ν) (span : Span)

end

namespace Stmt

variable {ν : Type}

def span : Stmt ν → Span
  | expr _ s | define _ _ _ s | assign _ _ s | assignIndex _ _ _ s | delete _ s | function _ s
  | ifThen _ _ s | ifElse _ _ _ s | forEach _ _ _ _ s | giveBack _ s => s

end Stmt

namespace Block

variable {ν : Type}

def stmts : Block ν → List (Stmt ν)
  | mk ss _ => ss

def span : Block ν → Span
  | mk _ s => s

/-- Whether a block has no statements (`Block::is_empty`). -/
def isEmpty (b : Block ν) : Bool := b.stmts.isEmpty

end Block

namespace FunctionDef

variable {ν : Type}

def name : FunctionDef ν → ν
  | mk n _ _ _ _ => n

def params : FunctionDef ν → List (Param ν)
  | mk _ ps _ _ _ => ps

def returnType : FunctionDef ν → Option TypeTag
  | mk _ _ t _ _ => t

def body : FunctionDef ν → Block ν
  | mk _ _ _ b _ => b

def span : FunctionDef ν → Span
  | mk _ _ _ _ s => s

/-- How many arguments a call takes. -/
def arity (d : FunctionDef ν) : Nat := d.params.length

end FunctionDef

instance {ν : Type} : Inhabited (Block ν) := ⟨.mk [] default⟩

instance {ν : Type} : Inhabited (Stmt ν) := ⟨.giveBack none default⟩

end Nikl
