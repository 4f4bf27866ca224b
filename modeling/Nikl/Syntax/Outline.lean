import Nikl.Decimal.Layout
import Nikl.Interner
import Nikl.Syntax

/-
The outline of a tree: every node on lines of its own, indented by its depth, with the names of its
fields. The names and strings of the tree are numbers, and are shown as such.
-/

set_option autoImplicit false

namespace Nikl

/-- A nested listing. -/
inductive Outline where
  | word (text : String)
  /-- A name and named fields between braces. -/
  | record (name : String) (fields : List (String × Outline))
  /-- A name, or none, and parts between parentheses. -/
  | group (name : String) (parts : List Outline)
  /-- Items between brackets. -/
  | list (items : List Outline)

namespace Outline

/-- The start of a line at a depth. -/
def indent (depth : Nat) : String := String.ofList (List.replicate (4 * depth) ' ')

mutual

/-- The text of a listing whose first line has begun at a depth (as `parse_file` shows it). -/
def text (depth : Nat) : Outline → String
  | word t => t
  | record name fields => name ++ " \x7b\n" ++ fieldLines (depth + 1) fields ++ indent depth ++ "\x7d"
  | group name parts => name ++ "(\n" ++ itemLines (depth + 1) parts ++ indent depth ++ ")"
  | list [] => "[]"
  | list items => "[\n" ++ itemLines (depth + 1) items ++ indent depth ++ "]"

def itemLines (depth : Nat) : List Outline → String
  | [] => ""
  | o :: rest => indent depth ++ text depth o ++ ",\n" ++ itemLines depth rest

def fieldLines (depth : Nat) : List (String × Outline) → String
  | [] => ""
  | (name, o) :: rest => indent depth ++ name ++ ": " ++ text depth o ++ ",\n" ++ fieldLines depth rest

end

/-! ## The outline of a tree -/

/-- A name or a string, by its number. -/
def name (n : Name) : Outline := word n.text

def span (s : Span) : Outline := word s.text

/-- A part that may be absent. -/
def optional : Option Outline → Outline
  | none => word "None"
  | some o => group "Some" [o]

def type (t : Option TypeTag) : Outline := optional (t.map fun t => word t.text)

def literal : Literal Name → Outline
  | .int n => group "Int" [word (toString n.toInt)]
  | .float x => group "Float" [word (Decimal.floatText x)]
  | .string s => group "String" [name s]
  | .bool b => group "Bool" [word (toString b)]
  | .none => word "None"

/-- A node of the tree: what it is and where. -/
def node (kind : String) (content : Outline) (s : Span) : Outline :=
  record kind [("kind", content), ("span", span s)]

mutual

def expr : Expr Name → Outline
  | .literal v s => node "Expr" (group "Literal" [literal v]) s
  | .array items s => node "Expr" (group "Array" [list (exprs items)]) s
  | .map entries s => node "Expr" (group "HashMap" [list (pairs entries)]) s
  | .tuple items s => node "Expr" (group "Tuple" [list (exprs items)]) s
  | .ident x s => node "Expr" (group "Ident" [name x]) s
  | .binary op l r s =>
    node "Expr" (record "Binary" [("op", word op.label), ("left", expr l), ("right", expr r)]) s
  | .unary op e s => node "Expr" (record "Unary" [("op", word op.label), ("operand", expr e)]) s
  | .call f args s =>
    node "Expr" (record "Call" [("callee", expr f), ("args", list (exprs args))]) s
  | .index t i s => node "Expr" (record "Index" [("target", expr t), ("index", expr i)]) s

def exprs : List (Expr Name) → List Outline
  | [] => []
  | e :: rest => expr e :: exprs rest

def pairs : List (Expr Name × Expr Name) → List Outline
  | [] => []
  | (k, v) :: rest => group "" [expr k, expr v] :: pairs rest

end

def param (p : Param Name) : Outline :=
  record "Param" [("name", name p.name), ("ty", type p.type), ("span", span p.span)]

/-- A statement with named fields. -/
def stmtRecord (kind : String) (fields : List (String × Outline)) (s : Span) : Outline :=
  node "Stmt" (record kind fields) s

mutual

def stmt : Stmt Name → Outline
  | .expr e s => node "Stmt" (group "Expr" [expr e]) s
  | .define x t value s =>
    stmtRecord "Let" [("name", name x), ("ty", type t), ("value", expr value)] s
  | .assign x value s =>
    stmtRecord "Assign" [("target", group "Name" [name x]), ("value", expr value)] s
  | .assignIndex target place value s =>
    stmtRecord "Assign"
      [("target", record "Index" [("target", expr target), ("index", expr place)]),
       ("value", expr value)] s
  | .delete x s => node "Stmt" (group "Del" [name x]) s
  | .function d s => node "Stmt" (group "FunctionDef" [function d]) s
  | .ifThen condition body s =>
    stmtRecord "If"
      [("condition", expr condition), ("then_branch", block body),
       ("else_branch", word "None")] s
  | .ifElse condition yes no s =>
    stmtRecord "If"
      [("condition", expr condition), ("then_branch", block yes),
       ("else_branch", group "Some" [block no])] s
  | .forEach first second iterable body s =>
    stmtRecord "For"
      [("bindings", record "ForBindings"
        [("first", name first), ("second", optional (second.map name))]),
       ("iterable", expr iterable), ("body", block body)] s
  | .giveBack value s => node "Stmt" (group "Return" [optional (value.map expr)]) s

def block : Block Name → Outline
  | .mk ss s => record "Block" [("stmts", list (stmts ss)), ("span", span s)]

def stmts : List (Stmt Name) → List Outline
  | [] => []
  | s :: rest => stmt s :: stmts rest

def function : FunctionDef Name → Outline
  | .mk x params returnType body s =>
    record "FunctionDef"
      [("name", name x), ("params", list (params.map param)),
       ("return_type", type returnType), ("body", block body), ("span", span s)]

end

end Outline
end Nikl
