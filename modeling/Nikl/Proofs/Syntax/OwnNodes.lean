import Nikl.Proofs.Syntax.Tree

/-
Which code a node belongs to. A definition has a body of its own: it is carried out when the function is
called, and not where it is defined. So the nodes of a program fall into those outside of all definitions
and those of each body, outside of the definitions in it.
-/

set_option autoImplicit false

namespace Nikl

namespace Node

/-- A node defines a function. -/
def Defines (n : Node) (d : FunctionDef) : Prop := ∃ span, n = .stmt (.function d span)

/-- The nodes under a node that are carried out with it, and the node itself: what is under a definition
is not. -/
inductive Reaches (root : Node) : Node → Prop where
  | root : Reaches root root
  | child {n m : Node} (hm : m ∈ n.children) (hn : ∀ d, ¬ n.Defines d) : Reaches root n → Reaches root m

theorem Reaches.within {root n : Node} (h : Reaches root n) : Within root n := by
  induction h with
  | root => exact .root
  | child hm _ _ ih => exact .child hm ih

theorem not_defines_expr (e : Expr) (d : FunctionDef) : ¬ (expr e).Defines d := by
  rintro ⟨span, h⟩
  cases h

end Node

namespace Block

/-- The nodes of some code that are in no definition in it. -/
def HasOwnNode (b : Block) (n : Node) : Prop := ∃ s ∈ b.stmts, Node.Reaches (.stmt s) n

/-- A function is defined somewhere in some code. -/
def Defines (b : Block) (d : FunctionDef) : Prop := ∃ n, b.HasNode n ∧ n.Defines d

variable {b : Block} {n m : Node}

theorem HasOwnNode.hasNode (h : b.HasOwnNode n) : b.HasNode n := by
  obtain ⟨s, hs, hn⟩ := h
  exact ⟨s, hs, hn.within⟩

theorem hasOwnNode_of_mem {s : Stmt} (hs : s ∈ b.stmts) : b.HasOwnNode (.stmt s) := ⟨s, hs, .root⟩

theorem HasOwnNode.child (h : b.HasOwnNode n) (hn : ∀ d, ¬ n.Defines d) (hm : m ∈ n.children) :
    b.HasOwnNode m := by
  obtain ⟨s, hs, hreach⟩ := h
  exact ⟨s, hs, .child hm hn hreach⟩

/-- Under an expression there is no definition. -/
theorem HasOwnNode.ofExpr {e : Expr} (h : b.HasOwnNode (.expr e)) (hm : m ∈ (Node.expr e).children) :
    b.HasOwnNode m :=
  h.child (Node.not_defines_expr e) hm

/-- The nodes in the body of a function of some code are nodes of the code. -/
theorem Defines.hasNode {d : FunctionDef} (h : b.Defines d) (hn : d.body.HasNode n) : b.HasNode n := by
  obtain ⟨_, ⟨s, hs, hwithin⟩, span, rfl⟩ := h
  obtain ⟨t, ht, hn⟩ := hn
  exact ⟨s, hs, (Node.Within.child (List.mem_map_of_mem ht) hwithin).trans hn⟩

/-- What is defined in the body of a function of some code is defined in the code. -/
theorem Defines.inner {d d' : FunctionDef} (h : b.Defines d) (h' : d.body.Defines d') : b.Defines d' := by
  obtain ⟨n', hn', hd'⟩ := h'
  exact ⟨n', h.hasNode hn', hd'⟩

end Block

end Nikl
