import Mathlib.Logic.Function.Basic
import Nikl.Naming
import Nikl.Proofs.Syntax.Spans
import Nikl.Syntax.Error

/-
Trees with other names and in other places. A relabeling gives every name another one, no two names the
same one, and does something to every span; all else of a tree stays as it is. Names that are numbered in
some other order are relabeled, and so are trees of which only the places are others. What a relabeled tree
does depends on whether the other names stand for the same texts (`KeepsText`).
-/

set_option autoImplicit false

namespace Nikl

/-- Other names, which are told apart as before. -/
@[ext] structure Renaming (ν μ : Type) where
  name : ν → μ
  injective : Function.Injective name

/-- Other names and other places. -/
@[ext] structure Relabeling (ν μ : Type) extends Renaming ν μ where
  span : Span → Span

namespace Renaming

variable {ν μ : Type} (g : Renaming ν μ)

/-- The other names stand for the same texts. -/
def KeepsText [Naming ν] [Naming μ] : Prop := ∀ x, Naming.text (g.name x) = Naming.text x

variable [DecidableEq ν] [DecidableEq μ]

/-- Names are told apart as before. -/
theorem beq_name (x y : ν) : (g.name x == g.name y) = (x == y) := by
  by_cases h : x = y
  · rw [h, beq_self_eq_true, beq_self_eq_true]
  · rw [beq_false_of_ne h, beq_false_of_ne (g.injective.ne h)]

theorem bne_name (x y : ν) : (g.name x != g.name y) = (x != y) := congrArg (!·) (g.beq_name x y)

theorem contains_map (names : List ν) (x : ν) :
    (names.map g.name).contains (g.name x) = names.contains x := by
  induction names with
  | nil => rfl
  | cons y rest ih => rw [List.map_cons, List.contains_cons, List.contains_cons, g.beq_name, ih]

end Renaming

namespace Relabeling

variable {ν μ κ : Type}

/-- The same names in other places. -/
def ofSpans (f : Span → Span) : Relabeling ν ν := ⟨⟨id, Function.injective_id⟩, f⟩

theorem keepsText_ofSpans [Naming ν] (f : Span → Span) : (ofSpans f : Relabeling ν ν).KeepsText :=
  fun _ => rfl

/-- Other names in the same places. -/
def ofNames (g : Renaming ν μ) : Relabeling ν μ := ⟨g, id⟩

/-- One relabeling after another. -/
def trans (q : Relabeling ν μ) (r : Relabeling μ κ) : Relabeling ν κ where
  name x := r.name (q.name x)
  span s := r.span (q.span s)
  injective := r.injective.comp q.injective

end Relabeling

/-- The same literal with another string. -/
def Literal.rename {ν μ : Type} (g : ν → μ) : Literal ν → Literal μ
  | int n => int n
  | float x => float x
  | string content => string (g content)
  | bool b => bool b
  | none => none

section

variable {ν μ κ : Type}

mutual

/-- The expression with other names and in another place. -/
def Expr.relabel (r : Relabeling ν μ) : Expr ν → Expr μ
  | .literal v s => .literal (v.rename r.name) (r.span s)
  | .array items s => .array (Expr.relabelAll r items) (r.span s)
  | .map entries s => .map (Expr.relabelEntries r entries) (r.span s)
  | .tuple items s => .tuple (Expr.relabelAll r items) (r.span s)
  | .ident x s => .ident (r.name x) (r.span s)
  | .binary op left right s => .binary op (left.relabel r) (right.relabel r) (r.span s)
  | .unary op operand s => .unary op (operand.relabel r) (r.span s)
  | .call callee args s => .call (callee.relabel r) (Expr.relabelAll r args) (r.span s)
  | .index target place s => .index (target.relabel r) (place.relabel r) (r.span s)
termination_by structural e => e

def Expr.relabelAll (r : Relabeling ν μ) : List (Expr ν) → List (Expr μ)
  | [] => []
  | e :: rest => e.relabel r :: Expr.relabelAll r rest
termination_by structural es => es

def Expr.relabelEntries (r : Relabeling ν μ) : List (Expr ν × Expr ν) → List (Expr μ × Expr μ)
  | [] => []
  | (key, value) :: rest => (key.relabel r, value.relabel r) :: Expr.relabelEntries r rest
termination_by structural es => es

end

def Param.relabel (r : Relabeling ν μ) (p : Param ν) : Param μ := ⟨r.name p.name, p.type, r.span p.span⟩

mutual

/-- The statement with other names and in another place. -/
def Stmt.relabel (r : Relabeling ν μ) : Stmt ν → Stmt μ
  | .expr e s => .expr (e.relabel r) (r.span s)
  | .define x type value s => .define (r.name x) type (value.relabel r) (r.span s)
  | .assign x value s => .assign (r.name x) (value.relabel r) (r.span s)
  | .assignIndex target place value s =>
    .assignIndex (target.relabel r) (place.relabel r) (value.relabel r) (r.span s)
  | .delete x s => .delete (r.name x) (r.span s)
  | .function d s => .function (d.relabel r) (r.span s)
  | .ifThen condition thenBranch s => .ifThen (condition.relabel r) (thenBranch.relabel r) (r.span s)
  | .ifElse condition thenBranch elseBranch s =>
    .ifElse (condition.relabel r) (thenBranch.relabel r) (elseBranch.relabel r) (r.span s)
  | .forEach first second iterable body s =>
    .forEach (r.name first) (second.map r.name) (iterable.relabel r) (body.relabel r) (r.span s)
  | .giveBack none s => .giveBack none (r.span s)
  | .giveBack (some e) s => .giveBack (some (e.relabel r)) (r.span s)
termination_by structural s => s

def Stmt.relabelAll (r : Relabeling ν μ) : List (Stmt ν) → List (Stmt μ)
  | [] => []
  | s :: rest => s.relabel r :: Stmt.relabelAll r rest
termination_by structural ss => ss

/-- The block with other names and in another place. -/
def Block.relabel (r : Relabeling ν μ) : Block ν → Block μ
  | .mk stmts s => .mk (Stmt.relabelAll r stmts) (r.span s)
termination_by structural b => b

/-- The definition with other names and in another place. -/
def FunctionDef.relabel (r : Relabeling ν μ) : FunctionDef ν → FunctionDef μ
  | .mk x params returnType body s =>
    .mk (r.name x) (params.map (·.relabel r)) returnType (body.relabel r) (r.span s)
termination_by structural d => d

end

@[simp] theorem Expr.relabelAll_eq (r : Relabeling ν μ) (es : List (Expr ν)) :
    Expr.relabelAll r es = es.map (·.relabel r) := by
  induction es with
  | nil => rfl
  | cons e rest ih => rw [Expr.relabelAll, ih, List.map_cons]

@[simp] theorem Expr.relabelEntries_eq (r : Relabeling ν μ) (es : List (Expr ν × Expr ν)) :
    Expr.relabelEntries r es = es.map fun kv => (kv.1.relabel r, kv.2.relabel r) := by
  induction es with
  | nil => rfl
  | cons kv rest ih => rw [Expr.relabelEntries, ih, List.map_cons]

@[simp] theorem Stmt.relabelAll_eq (r : Relabeling ν μ) (ss : List (Stmt ν)) :
    Stmt.relabelAll r ss = ss.map (·.relabel r) := by
  induction ss with
  | nil => rfl
  | cons s rest ih => rw [Stmt.relabelAll, ih, List.map_cons]

section

variable (r : Relabeling ν μ)

theorem Expr.relabel_array (items : List (Expr ν)) (s : Span) :
    (array items s).relabel r = array (items.map (·.relabel r)) (r.span s) :=
  congrArg (array · _) (Expr.relabelAll_eq r items)

theorem Expr.relabel_tuple (items : List (Expr ν)) (s : Span) :
    (tuple items s).relabel r = tuple (items.map (·.relabel r)) (r.span s) :=
  congrArg (tuple · _) (Expr.relabelAll_eq r items)

theorem Expr.relabel_map (entries : List (Expr ν × Expr ν)) (s : Span) :
    (map entries s).relabel r =
      map (entries.map fun kv => (kv.1.relabel r, kv.2.relabel r)) (r.span s) :=
  congrArg (map · _) (Expr.relabelEntries_eq r entries)

theorem Expr.relabel_call (callee : Expr ν) (args : List (Expr ν)) (s : Span) :
    (call callee args s).relabel r = call (callee.relabel r) (args.map (·.relabel r)) (r.span s) :=
  congrArg (call _ · _) (Expr.relabelAll_eq r args)

theorem Block.relabel_mk (ss : List (Stmt ν)) (s : Span) :
    (mk ss s).relabel r = mk (ss.map (·.relabel r)) (r.span s) :=
  congrArg (mk · _) (Stmt.relabelAll_eq r ss)

@[simp] theorem Expr.span_relabel (e : Expr ν) : (e.relabel r).span = r.span e.span := by
  cases e <;> rfl

@[simp] theorem Stmt.span_relabel (s : Stmt ν) : (s.relabel r).span = r.span s.span := by
  cases s with
  | giveBack value => cases value <;> rfl
  | _ => rfl

@[simp] theorem Block.span_relabel (b : Block ν) : (b.relabel r).span = r.span b.span := by
  cases b
  rfl

theorem Expr.relabel_withSpan (e : Expr ν) (s : Span) :
    (e.withSpan s).relabel r = (e.relabel r).withSpan (r.span s) := by
  cases e <;> rfl

end

/-! ## Two relabelings in turn -/

section Trans

variable (q : Relabeling ν μ) (r : Relabeling μ κ)

mutual

theorem Expr.relabel_trans : (e : Expr ν) → e.relabel (q.trans r) = (e.relabel q).relabel r
  | .literal v _ => by cases v <;> rfl
  | .array items _ => congrArg (Expr.array · _) (Expr.relabelAll_trans items)
  | .map entries _ => congrArg (Expr.map · _) (Expr.relabelEntries_trans entries)
  | .tuple items _ => congrArg (Expr.tuple · _) (Expr.relabelAll_trans items)
  | .ident _ _ => rfl
  | .binary op left right _ =>
    congrArg₂ (Expr.binary op · · _) (Expr.relabel_trans left) (Expr.relabel_trans right)
  | .unary op operand _ => congrArg (Expr.unary op · _) (Expr.relabel_trans operand)
  | .call callee args _ =>
    congrArg₂ (Expr.call · · _) (Expr.relabel_trans callee) (Expr.relabelAll_trans args)
  | .index target place _ =>
    congrArg₂ (Expr.index · · _) (Expr.relabel_trans target) (Expr.relabel_trans place)

theorem Expr.relabelAll_trans : (es : List (Expr ν)) →
    Expr.relabelAll (q.trans r) es = Expr.relabelAll r (Expr.relabelAll q es)
  | [] => rfl
  | e :: rest => congrArg₂ List.cons (Expr.relabel_trans e) (Expr.relabelAll_trans rest)

theorem Expr.relabelEntries_trans : (es : List (Expr ν × Expr ν)) →
    Expr.relabelEntries (q.trans r) es = Expr.relabelEntries r (Expr.relabelEntries q es)
  | [] => rfl
  | (key, value) :: rest =>
    congrArg₂ List.cons (congrArg₂ Prod.mk (Expr.relabel_trans key) (Expr.relabel_trans value))
      (Expr.relabelEntries_trans rest)

end

mutual

theorem Stmt.relabel_trans : (s : Stmt ν) → s.relabel (q.trans r) = (s.relabel q).relabel r
  | .expr e _ => congrArg (Stmt.expr · _) (e.relabel_trans q r)
  | .define _ type value _ => congrArg (Stmt.define _ type · _) (value.relabel_trans q r)
  | .assign _ value _ => congrArg (Stmt.assign _ · _) (value.relabel_trans q r)
  | .assignIndex target place value _ => by
    simp only [Stmt.relabel, Expr.relabel_trans]
    rfl
  | .delete _ _ => rfl
  | .function d _ => congrArg (Stmt.function · _) (FunctionDef.relabel_trans d)
  | .ifThen condition thenBranch _ =>
    congrArg₂ (Stmt.ifThen · · _) (condition.relabel_trans q r) (Block.relabel_trans thenBranch)
  | .ifElse condition thenBranch elseBranch _ => by
    have hthen := Block.relabel_trans thenBranch
    have helse := Block.relabel_trans elseBranch
    simp only [Stmt.relabel, Expr.relabel_trans, hthen, helse]
    rfl
  | .forEach _ second iterable body _ => by
    have hbody := Block.relabel_trans body
    simp only [Stmt.relabel, Expr.relabel_trans, hbody]
    cases second <;> rfl
  | .giveBack none _ => rfl
  | .giveBack (some e) _ => congrArg (fun e => Stmt.giveBack (some e) _) (e.relabel_trans q r)

theorem Stmt.relabelAll_trans : (ss : List (Stmt ν)) →
    Stmt.relabelAll (q.trans r) ss = Stmt.relabelAll r (Stmt.relabelAll q ss)
  | [] => rfl
  | s :: rest => congrArg₂ List.cons (Stmt.relabel_trans s) (Stmt.relabelAll_trans rest)

theorem Block.relabel_trans : (b : Block ν) → b.relabel (q.trans r) = (b.relabel q).relabel r
  | .mk stmts _ => congrArg (Block.mk · _) (Stmt.relabelAll_trans stmts)

theorem FunctionDef.relabel_trans : (d : FunctionDef ν) →
    d.relabel (q.trans r) = (d.relabel q).relabel r
  | .mk _ params returnType body _ => by
    have hbody := Block.relabel_trans body
    simp only [FunctionDef.relabel, hbody, List.map_map]
    rfl

end

end Trans

end

/-! ## Other places only -/

section Places

variable (f : Span → Span)

mutual

theorem Expr.relabel_ofSpans : (e : Expr) → e.relabel (.ofSpans f) = e.mapSpans f
  | .literal v _ => by cases v <;> rfl
  | .array items _ => congrArg (Expr.array · _) (Expr.relabelAll_ofSpans items)
  | .map entries _ => congrArg (Expr.map · _) (Expr.relabelEntries_ofSpans entries)
  | .tuple items _ => congrArg (Expr.tuple · _) (Expr.relabelAll_ofSpans items)
  | .ident _ _ => rfl
  | .binary op left right _ =>
    congrArg₂ (Expr.binary op · · _) (Expr.relabel_ofSpans left) (Expr.relabel_ofSpans right)
  | .unary op operand _ => congrArg (Expr.unary op · _) (Expr.relabel_ofSpans operand)
  | .call callee args _ =>
    congrArg₂ (Expr.call · · _) (Expr.relabel_ofSpans callee) (Expr.relabelAll_ofSpans args)
  | .index target place _ =>
    congrArg₂ (Expr.index · · _) (Expr.relabel_ofSpans target) (Expr.relabel_ofSpans place)

theorem Expr.relabelAll_ofSpans : (es : List Expr) →
    Expr.relabelAll (.ofSpans f) es = Expr.mapSpansAll f es
  | [] => rfl
  | e :: rest => congrArg₂ List.cons (Expr.relabel_ofSpans e) (Expr.relabelAll_ofSpans rest)

theorem Expr.relabelEntries_ofSpans : (es : List (Expr × Expr)) →
    Expr.relabelEntries (.ofSpans f) es = Expr.mapSpansEntries f es
  | [] => rfl
  | (key, value) :: rest =>
    congrArg₂ List.cons (congrArg₂ Prod.mk (Expr.relabel_ofSpans key) (Expr.relabel_ofSpans value))
      (Expr.relabelEntries_ofSpans rest)

end

mutual

theorem Stmt.relabel_ofSpans : (s : Stmt) → s.relabel (.ofSpans f) = s.mapSpans f
  | .expr e _ => congrArg (Stmt.expr · _) (e.relabel_ofSpans f)
  | .define x type value _ => congrArg (Stmt.define x type · _) (value.relabel_ofSpans f)
  | .assign x value _ => congrArg (Stmt.assign x · _) (value.relabel_ofSpans f)
  | .assignIndex target place value _ => by
    simp only [Stmt.relabel, Expr.relabel_ofSpans]
    rfl
  | .delete _ _ => rfl
  | .function d _ => congrArg (Stmt.function · _) (FunctionDef.relabel_ofSpans d)
  | .ifThen condition thenBranch _ =>
    congrArg₂ (Stmt.ifThen · · _) (condition.relabel_ofSpans f) (Block.relabel_ofSpans thenBranch)
  | .ifElse condition thenBranch elseBranch _ => by
    have hthen := Block.relabel_ofSpans thenBranch
    have helse := Block.relabel_ofSpans elseBranch
    simp only [Stmt.relabel, Expr.relabel_ofSpans, hthen, helse]
    rfl
  | .forEach _ second iterable body _ => by
    have hbody := Block.relabel_ofSpans body
    simp only [Stmt.relabel, Expr.relabel_ofSpans, hbody]
    cases second <;> rfl
  | .giveBack none _ => rfl
  | .giveBack (some e) _ => congrArg (fun e => Stmt.giveBack (some e) _) (e.relabel_ofSpans f)

theorem Stmt.relabelAll_ofSpans : (ss : List Stmt) →
    Stmt.relabelAll (.ofSpans f) ss = Stmt.mapSpansAll f ss
  | [] => rfl
  | s :: rest => congrArg₂ List.cons (Stmt.relabel_ofSpans s) (Stmt.relabelAll_ofSpans rest)

/-- A block of which only the places are others. -/
theorem Block.relabel_ofSpans : (b : Block) → b.relabel (.ofSpans f) = b.mapSpans f
  | .mk stmts _ => congrArg (Block.mk · _) (Stmt.relabelAll_ofSpans stmts)

theorem FunctionDef.relabel_ofSpans : (d : FunctionDef) → d.relabel (.ofSpans f) = d.mapSpans f
  | .mk _ params returnType body _ => by
    have hbody := Block.relabel_ofSpans body
    simp only [FunctionDef.relabel, hbody]
    rfl

end

end Places

end Nikl
