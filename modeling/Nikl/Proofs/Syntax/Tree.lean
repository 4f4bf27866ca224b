import Nikl.Syntax

/-
The nodes of a tree: its expressions and statements, and what is directly under each.
-/

set_option autoImplicit false

namespace Nikl

/-- A place in a tree that stands for something: an expression or a statement. -/
inductive Node where
  | expr (e : Expr)
  | stmt (s : Stmt)

namespace Node

def span : Node → Span
  | expr e => e.span
  | stmt s => s.span

/-- The statement that a node is, or that holds it. -/
def asStmt : Node → Stmt
  | expr e => .expr e e.span
  | stmt s => s

/-- The expressions and statements directly under a node. Those of blocks are under the statement that
has the block, and those that stand on the left of an assignment are under the assignment. -/
def children : Node → List Node
  | expr (.literal _ _) | expr (.ident _ _) => []
  | expr (.array items _) | expr (.tuple items _) => items.map expr
  | expr (.map entries _) => entries.flatMap fun kv => [expr kv.1, expr kv.2]
  | expr (.binary _ left right _) => [expr left, expr right]
  | expr (.unary _ operand _) => [expr operand]
  | expr (.call callee args _) => expr callee :: args.map expr
  | expr (.index target place _) => [expr target, expr place]
  | stmt (.expr e _) => [expr e]
  | stmt (.define _ _ value _) | stmt (.assign _ value _) => [expr value]
  | stmt (.assignIndex target place value _) => [expr target, expr place, expr value]
  | stmt (.delete _ _) => []
  | stmt (.function d _) => d.body.stmts.map stmt
  | stmt (.ifThen condition thenBranch _) => expr condition :: thenBranch.stmts.map stmt
  | stmt (.ifElse condition thenBranch elseBranch _) =>
    expr condition :: (thenBranch.stmts.map stmt ++ elseBranch.stmts.map stmt)
  | stmt (.forEach _ _ iterable body _) => expr iterable :: body.stmts.map stmt
  | stmt (.giveBack none _) => []
  | stmt (.giveBack (some e) _) => [expr e]

/-- The nodes under a node at any depth, and the node itself. -/
inductive Within (root : Node) : Node → Prop where
  | root : Within root root
  | child {n m : Node} (hm : m ∈ n.children) : Within root n → Within root m

/-- What is under a node under the root is under the root. -/
theorem Within.trans {root n m : Node} (h : Within root n) (h' : Within n m) : Within root m := by
  induction h' with
  | root => exact h
  | child hm _ ih => exact .child hm ih

/-- What is under a node is under one of its children, or is the node itself. -/
theorem within_iff {root n : Node} : Within root n ↔ n = root ∨ ∃ c ∈ root.children, Within c n := by
  constructor
  · intro h
    induction h with
    | root => exact .inl rfl
    | child hm _ ih =>
      rcases ih with rfl | ⟨c, hc, hn⟩
      · exact .inr ⟨_, hm, .root⟩
      · exact .inr ⟨c, hc, .child hm hn⟩
  · rintro (rfl | ⟨c, hc, hn⟩)
    · exact .root
    · exact (Within.child hc .root).trans hn

/-- Directly under an expression there are expressions only. -/
theorem eq_expr_of_child {e : Expr} {n : Node} (h : n ∈ (expr e).children) : ∃ e', n = .expr e' := by
  cases e <;> grind [children]

theorem Within.eq_expr {e : Expr} {n : Node} (h : Within (.expr e) n) : ∃ e', n = .expr e' := by
  induction h with
  | root => exact ⟨e, rfl⟩
  | child hm _ ih =>
    obtain ⟨e', rfl⟩ := ih
    exact eq_expr_of_child hm

end Node

/-- The nodes of a program. -/
def Block.HasNode (b : Block) (n : Node) : Prop := ∃ s ∈ b.stmts, Node.Within (.stmt s) n

end Nikl
