import Nikl.Decimal.Layout
import Nikl.Syntax

/-
The bracketed form of a tree: one line, every node in parentheses with its parts after a word that
says what it is, and behind every node an at sign and the bytes it covers. An absent type, second
name or return type is an underscore.
-/

set_option autoImplicit false

namespace Nikl.Bracketed

/-- Two hexadecimal digits. -/
def hexPair (n : Nat) : List Char := [Nat.digitChar (n / 16), Nat.digitChar (n % 16)]

/-- A character as it stands between the quotes of a string: quotes, backslashes and control
characters below the space are escaped. -/
def stringChar (c : Char) : List Char :=
  if c = '"' then ['\\', '"']
  else if c = '\\' then ['\\', '\\']
  else if c = '\x08' then ['\\', 'b']
  else if c = '\t' then ['\\', 't']
  else if c = '\n' then ['\\', 'n']
  else if c = '\x0c' then ['\\', 'f']
  else if c = '\r' then ['\\', 'r']
  else if c.toNat < 32 then ['\\', 'u', '0', '0'] ++ hexPair c.toNat
  else [c]

/-- A string between quotes. -/
def string (s : String) : String := String.ofList ('"' :: (s.toList.flatMap stringChar ++ ['"']))

/-- The mark for the bytes a node covers. -/
def at_ (span : Span) : String := "@" ++ span.text

/-- Words in parentheses. -/
def paren (words : List String) : String := "(" ++ String.intercalate " " words ++ ")"

def type (t : Option TypeTag) : String := (t.map TypeTag.text).getD "_"

def literal : Literal → String
  | .int n => toString n.toInt
  | .float x => Decimal.floatText x
  | .string s => string s
  | .bool true => "True"
  | .bool false => "False"
  | .none => "None"

/-- The word for an operator with one operand. -/
def unaryWord (op : UnaryOp) : String := "un" ++ op.symbol

mutual

def expr : Expr → String
  | .literal v s => literal v ++ at_ s
  | .array items s => paren ("array" :: exprs items) ++ at_ s
  | .map entries s => paren ("map" :: pairs entries) ++ at_ s
  | .tuple items s => paren ("tuple" :: exprs items) ++ at_ s
  | .ident name s => name ++ at_ s
  | .binary op l r s => paren [op.symbol, expr l, expr r] ++ at_ s
  | .unary op e s => paren [unaryWord op, expr e] ++ at_ s
  | .call f args s => paren ("call" :: expr f :: exprs args) ++ at_ s
  | .index t i s => paren ["index", expr t, expr i] ++ at_ s

def exprs : List Expr → List String
  | [] => []
  | e :: rest => expr e :: exprs rest

def pairs : List (Expr × Expr) → List String
  | [] => []
  | (k, v) :: rest => paren [expr k, expr v] :: pairs rest

end

def param (p : Param) : String := s!"{p.name}:{type p.type}" ++ at_ p.span

mutual

def stmt : Stmt → String
  | .expr e s => paren ["expr", expr e] ++ at_ s
  | .define name t value s => paren ["let", name, type t, expr value] ++ at_ s
  | .assign name value s => paren ["assign", name, expr value] ++ at_ s
  | .assignIndex target place value s => paren ["setindex", expr target, expr place, expr value] ++ at_ s
  | .delete name s => paren ["del", name] ++ at_ s
  | .function d s => function d ++ at_ s
  | .ifThen condition body s => paren ["if", expr condition, block body] ++ at_ s
  | .ifElse condition yes no s => paren ["if", expr condition, block yes, block no] ++ at_ s
  | .forEach first second iterable body s =>
    paren ["for", first, second.getD "_", expr iterable, block body] ++ at_ s
  | .giveBack none s => paren ["return"] ++ at_ s
  | .giveBack (some e) s => paren ["return", expr e] ++ at_ s

def block : Block → String
  | .mk ss s => paren ("block" :: stmts ss) ++ at_ s

def stmts : List Stmt → List String
  | [] => []
  | s :: rest => stmt s :: stmts rest

def function : FunctionDef → String
  | .mk name params returnType body _ =>
    paren ["fn", name, paren (params.map param), type returnType, block body]

end

end Nikl.Bracketed
