import Nikl.Syntax

/-
Trees up to the bytes that they were read from. `mapSpans` does something to every span of a tree and
leaves everything else as it is; without its spans (`bare`) a tree is what its text means, wherever that
text stands. Two trees are equal up to spans when they are the same without them.
-/

set_option autoImplicit false

namespace Nikl

mutual

/-- The expression with something done to each of its spans. -/
def Expr.mapSpans (f : Span → Span) : Expr → Expr
  | .literal v s => .literal v (f s)
  | .array items s => .array (Expr.mapSpansAll f items) (f s)
  | .map entries s => .map (Expr.mapSpansEntries f entries) (f s)
  | .tuple items s => .tuple (Expr.mapSpansAll f items) (f s)
  | .ident name s => .ident name (f s)
  | .binary op left right s => .binary op (left.mapSpans f) (right.mapSpans f) (f s)
  | .unary op operand s => .unary op (operand.mapSpans f) (f s)
  | .call callee args s => .call (callee.mapSpans f) (Expr.mapSpansAll f args) (f s)
  | .index target place s => .index (target.mapSpans f) (place.mapSpans f) (f s)
termination_by structural e => e

def Expr.mapSpansAll (f : Span → Span) : List Expr → List Expr
  | [] => []
  | e :: rest => e.mapSpans f :: Expr.mapSpansAll f rest
termination_by structural es => es

def Expr.mapSpansEntries (f : Span → Span) : List (Expr × Expr) → List (Expr × Expr)
  | [] => []
  | (key, value) :: rest => (key.mapSpans f, value.mapSpans f) :: Expr.mapSpansEntries f rest
termination_by structural es => es

end

def Param.mapSpans (f : Span → Span) (p : Param) : Param := { p with span := f p.span }

mutual

/-- The statement with something done to each of its spans. -/
def Stmt.mapSpans (f : Span → Span) : Stmt → Stmt
  | .expr e s => .expr (e.mapSpans f) (f s)
  | .define name type value s => .define name type (value.mapSpans f) (f s)
  | .assign name value s => .assign name (value.mapSpans f) (f s)
  | .assignIndex target place value s =>
    .assignIndex (target.mapSpans f) (place.mapSpans f) (value.mapSpans f) (f s)
  | .delete name s => .delete name (f s)
  | .function d s => .function (d.mapSpans f) (f s)
  | .ifThen condition thenBranch s => .ifThen (condition.mapSpans f) (thenBranch.mapSpans f) (f s)
  | .ifElse condition thenBranch elseBranch s =>
    .ifElse (condition.mapSpans f) (thenBranch.mapSpans f) (elseBranch.mapSpans f) (f s)
  | .forEach first second iterable body s =>
    .forEach first second (iterable.mapSpans f) (body.mapSpans f) (f s)
  | .giveBack none s => .giveBack none (f s)
  | .giveBack (some e) s => .giveBack (some (e.mapSpans f)) (f s)
termination_by structural s => s

def Stmt.mapSpansAll (f : Span → Span) : List Stmt → List Stmt
  | [] => []
  | s :: rest => s.mapSpans f :: Stmt.mapSpansAll f rest
termination_by structural ss => ss

/-- The block with something done to each of its spans. -/
def Block.mapSpans (f : Span → Span) : Block → Block
  | .mk stmts s => .mk (Stmt.mapSpansAll f stmts) (f s)
termination_by structural b => b

/-- The definition with something done to each of its spans. -/
def FunctionDef.mapSpans (f : Span → Span) : FunctionDef → FunctionDef
  | .mk name params returnType body s =>
    .mk name (params.map (·.mapSpans f)) returnType (body.mapSpans f) (f s)
termination_by structural d => d

end

@[simp] theorem Expr.mapSpansAll_eq (f : Span → Span) (es : List Expr) :
    Expr.mapSpansAll f es = es.map (·.mapSpans f) := by
  induction es with
  | nil => rfl
  | cons e rest ih => rw [Expr.mapSpansAll, ih, List.map_cons]

@[simp] theorem Expr.mapSpansEntries_eq (f : Span → Span) (es : List (Expr × Expr)) :
    Expr.mapSpansEntries f es = es.map fun kv => (kv.1.mapSpans f, kv.2.mapSpans f) := by
  induction es with
  | nil => rfl
  | cons kv rest ih => rw [Expr.mapSpansEntries, ih, List.map_cons]

@[simp] theorem Stmt.mapSpansAll_eq (f : Span → Span) (ss : List Stmt) :
    Stmt.mapSpansAll f ss = ss.map (·.mapSpans f) := by
  induction ss with
  | nil => rfl
  | cons s rest ih => rw [Stmt.mapSpansAll, ih, List.map_cons]

/-! ## Trees without their spans -/

/-- The expression without its spans. -/
def Expr.bare (e : Expr) : Expr := e.mapSpans fun _ => Span.nowhere

/-- The parameter without its span. -/
def Param.bare (p : Param) : Param := p.mapSpans fun _ => Span.nowhere

/-- The statement without its spans. -/
def Stmt.bare (s : Stmt) : Stmt := s.mapSpans fun _ => Span.nowhere

/-- The block without its spans. -/
def Block.bare (b : Block) : Block := b.mapSpans fun _ => Span.nowhere

/-- A key and its value without their spans. -/
def Expr.bareEntry (entry : Expr × Expr) : Expr × Expr := (entry.1.bare, entry.2.bare)

/-- An expression in parentheses is the expression, up to spans. -/
@[simp] theorem Expr.bare_withSpan (span : Span) (e : Expr) : (e.withSpan span).bare = e.bare := by
  cases e <;> rfl

section Forms

variable (s : Span)

@[simp] theorem Expr.bare_array (items : List Expr) :
    (Expr.array items s).bare = .array (items.map Expr.bare) Span.nowhere :=
  congrArg (Expr.array · Span.nowhere) (Expr.mapSpansAll_eq _ items)

@[simp] theorem Expr.bare_tuple (items : List Expr) :
    (Expr.tuple items s).bare = .tuple (items.map Expr.bare) Span.nowhere :=
  congrArg (Expr.tuple · Span.nowhere) (Expr.mapSpansAll_eq _ items)

@[simp] theorem Expr.bare_map (entries : List (Expr × Expr)) :
    (Expr.map entries s).bare = .map (entries.map Expr.bareEntry) Span.nowhere :=
  congrArg (Expr.map · Span.nowhere) (Expr.mapSpansEntries_eq _ entries)

@[simp] theorem Expr.bare_binary (op : BinaryOp) (left right : Expr) :
    (Expr.binary op left right s).bare = .binary op left.bare right.bare Span.nowhere := rfl

@[simp] theorem Expr.bare_unary (op : UnaryOp) (operand : Expr) :
    (Expr.unary op operand s).bare = .unary op operand.bare Span.nowhere := rfl

@[simp] theorem Expr.bare_call (callee : Expr) (args : List Expr) :
    (Expr.call callee args s).bare = .call callee.bare (args.map Expr.bare) Span.nowhere :=
  congrArg (Expr.call callee.bare · Span.nowhere) (Expr.mapSpansAll_eq _ args)

@[simp] theorem Expr.bare_index (target place : Expr) :
    (Expr.index target place s).bare = .index target.bare place.bare Span.nowhere := rfl

variable {s} {e : Expr}

theorem Expr.bare_eq_literal {v : Literal} (h : e.bare = .literal v s) :
    ∃ span, e = .literal v span := by
  cases e with
  | literal _ span =>
    cases h
    exact ⟨span, rfl⟩
  | _ => cases h

theorem Expr.bare_eq_unary {op : UnaryOp} {operand : Expr} (h : e.bare = .unary op operand s) :
    ∃ operand' span, e = .unary op operand' span ∧ operand'.bare = operand := by
  cases e with
  | unary _ operand' span =>
    cases h
    exact ⟨operand', span, rfl, rfl⟩
  | _ => cases h

theorem Expr.bare_eq_tuple {items : List Expr} (h : e.bare = .tuple items s) :
    ∃ items' span, e = .tuple items' span ∧ items'.map Expr.bare = items := by
  cases e with
  | tuple items' span =>
    rw [Expr.bare_tuple] at h
    cases h
    exact ⟨items', span, rfl, rfl⟩
  | _ => cases h

theorem Expr.bare_eq_array {items : List Expr} (h : e.bare = .array items s) :
    ∃ items' span, e = .array items' span ∧ items'.map Expr.bare = items := by
  cases e with
  | array items' span =>
    rw [Expr.bare_array] at h
    cases h
    exact ⟨items', span, rfl, rfl⟩
  | _ => cases h

theorem Expr.bare_eq_map {entries : List (Expr × Expr)} (h : e.bare = .map entries s) :
    ∃ entries' span, e = .map entries' span ∧ entries'.map Expr.bareEntry = entries := by
  cases e with
  | map entries' span =>
    rw [Expr.bare_map] at h
    cases h
    exact ⟨entries', span, rfl, rfl⟩
  | _ => cases h

@[simp] theorem Block.bare_mk (s : Span) (stmts : List Stmt) :
    (Block.mk stmts s).bare = .mk (stmts.map Stmt.bare) Span.nowhere :=
  congrArg (Block.mk · Span.nowhere) (Stmt.mapSpansAll_eq _ stmts)

end Forms

end Nikl
