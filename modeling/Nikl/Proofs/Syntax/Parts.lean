import Nikl.Proofs.Syntax.Nodes

/-
All that covers bytes in a tree: besides expressions and statements also blocks, definitions and
parameters. What is directly under such a part is listed in the order of the text.

The parts under a part are made of pieces of its tokens, one behind the other (`Laid`). They share no
token, and so they share no byte. This is read off the grammar, production by production; where the
parentheses or the braces around them stand plays no role in it.
-/

set_option autoImplicit false

namespace Nikl

open Nikl.Parser

/-- A part of a tree that covers bytes. -/
inductive Part where
  | node (n : Node)
  | block (b : Block)
  | definition (d : FunctionDef)
  | param (p : Param)

namespace Part

def span : Part → Span
  | node n => n.span
  | block b => b.span
  | definition d => d.span
  | param p => p.span

/-- What is directly under a part, in the order of the text. -/
def children : Part → List Part
  | node (.stmt (.function d _)) => [definition d]
  | node (.stmt (.ifThen condition thenBranch _)) => [node (.expr condition), block thenBranch]
  | node (.stmt (.ifElse condition thenBranch elseBranch _)) =>
    [node (.expr condition), block thenBranch, block elseBranch]
  | node (.stmt (.forEach _ _ iterable body _)) => [node (.expr iterable), block body]
  | node n => n.children.map node
  | block b => b.stmts.map fun s => node (.stmt s)
  | definition d => d.params.map param ++ [block d.body]
  | param _ => []

/-- The parts under a part at any depth, and the part itself. -/
inductive Within (root : Part) : Part → Prop where
  | root : Within root root
  | child {p q : Part} (hq : q ∈ p.children) : Within root p → Within root q

/-- The tokens of a part. A branch that is an `if` itself has just the tokens of that `if`, and a
parameter covers its name and not its type. -/
def MadeOf (ts : List Token) : Part → Prop
  | node n => Nikl.MadeOf ts n
  | block b => (∃ next, IsConstruct ts next (.block b)) ∨
      ∃ s, b = .mk [s] s.span ∧ Nikl.MadeOf ts (.stmt s)
  | definition d => Nikl.MadeOf ts (.stmt (.function d d.span))
  | param p => ∃ t, ts = [t] ∧ t.kind = .ident p.name ∧ p.span = t.span

end Part

/-! ## Parts behind each other -/

/-- Parts that are made of pieces of some tokens, each piece behind the one before. -/
inductive Laid : List Token → List Part → Prop where
  | nil (ts : List Token) : Laid ts []
  | cons {before own behind : List Token} {p : Part} {ps : List Part} (h : p.MadeOf own) :
    Laid behind ps → Laid (before ++ (own ++ behind)) (p :: ps)

section Laid

variable {ts us : List Token} {ps qs : List Part} {p : Part}

theorem Laid.behind (h : Laid ts ps) (us : List Token) : Laid (us ++ ts) ps := by
  cases h with
  | nil => exact .nil _
  | cons hp hps =>
    rw [← List.append_assoc]
    exact .cons hp hps

theorem Laid.after (h : Laid ts ps) (t : Token) : Laid (t :: ts) ps := h.behind [t]

theorem Laid.append (h : Laid ts ps) (h' : Laid us qs) : Laid (ts ++ us) (ps ++ qs) := by
  induction h with
  | nil ts => exact h'.behind ts
  | cons hp _ ih =>
    simp only [List.append_assoc, List.cons_append]
    exact .cons hp ih

theorem Laid.before (h : Laid ts ps) (us : List Token) : Laid (ts ++ us) ps := by
  have hall := h.append (.nil us)
  rwa [List.append_nil] at hall

theorem laid_single (h : p.MadeOf ts) : Laid ts [p] := by
  have hone : Laid ([] ++ (ts ++ [])) [p] := .cons h (.nil [])
  rwa [List.nil_append, List.append_nil] at hone

theorem laid_expr {L : Nat} {e : Expr} (hL : L ≤ 5) (h : IsExpr L ts e) : Laid ts [.node (.expr e)] :=
  laid_single (h.mono (Nat.zero_le L) hL)

/-- What is between two tokens. -/
theorem Laid.between (h : Laid ts ps) (opening closing : Token) :
    Laid (opening :: (ts ++ [closing])) ps :=
  (h.before [closing]).after opening

/-- Each part that is laid out is made of a piece of the tokens. -/
theorem Laid.found (h : Laid ts ps) : ∀ p ∈ ps, ∃ own, own <:+: ts ∧ p.MadeOf own := by
  induction h with
  | nil => exact nofun
  | @cons before own behind p ps hp _ ih =>
    intro q hq
    rcases List.mem_cons.1 hq with rfl | hq
    · exact ⟨own, ⟨before, behind, by simp⟩, hp⟩
    · obtain ⟨piece, hpiece, hmade⟩ := ih q hq
      refine ⟨piece, hpiece.trans ?_, hmade⟩
      exact ((List.suffix_append own behind).trans (List.suffix_append before _)).isInfix

/-- The items of a list are behind each other if what each of them holds is. -/
theorem Listed.laid {α : Type} {parts : List (List Token × α)} (f : α → List Part) (h : Listed parts ts)
    (hparts : ∀ part ∈ parts, Laid part.1 (f part.2)) : Laid ts ((parts.map (·.2)).flatMap f) := by
  induction h with
  | nil => exact .nil []
  | last part => simpa using hparts part (List.mem_singleton_self part)
  | @cons parts ts comma part _ _ ih =>
    rw [List.forall_mem_cons] at hparts
    have hrest := (ih hparts.2).after comma
    exact hparts.1.append hrest

/-- The items of a list are behind each other. -/
theorem Listed.laid_items {parts : List (List Token × Expr)} (h : Listed parts ts)
    (hparts : ∀ part ∈ parts, IsExpr 0 part.1 part.2) :
    Laid ts ((parts.map (·.2)).map fun e => .node (.expr e)) := by
  rw [List.map_eq_flatMap]
  exact h.laid _ fun part hpart => laid_expr (Nat.zero_le 5) (hparts part hpart)

theorem InSequence.laid {last : Token} {parts : List StmtPart} (h : InSequence last parts ts)
    (hparts : ∀ part ∈ parts, IsConstruct part.tokens part.next (.stmt part.stmt)) :
    Laid ts ((parts.map (·.stmt)).map fun s => .node (.stmt s)) := by
  induction h with
  | nil => exact .nil []
  | @semicolon _ _ t _ _ ih => exact (ih hparts).after t
  | cons part _ _ ih =>
    rw [List.forall_mem_cons] at hparts
    have hstmt : Laid part.tokens [.node (.stmt part.stmt)] := laid_single ⟨part.next, hparts.1⟩
    exact hstmt.append (ih hparts.2)

end Laid

/-! ## What is under a part -/

section Children

variable {ts : List Token}

/-- What is directly under an expression. -/
theorem IsExpr.laid {L : Nat} {e : Expr} (h : IsExpr L ts e) :
    Laid ts ((Node.expr e).children.map Part.node) := by
  induction h with
  | @atom t e h =>
    obtain ⟨k, s, newline⟩ := t
    cases isAtom_of_atom? h
    all_goals exact .nil _
  | @group opening closing _ _ _ _ _ ih =>
    rw [children_withSpan]
    exact ih.between opening closing
  | unit => exact .nil _
  | @tuple opening comma closing ts ts' first parts _ _ _ hfirst hparts hlist =>
    have hitems := (hlist.laid_items hparts).after comma
    have hall := ((laid_expr (Nat.zero_le 5) hfirst).append hitems).between opening closing
    simpa [Node.children, Function.comp_def] using hall
  | @array opening closing ts parts _ _ hparts hlist =>
    simpa [Node.children, Function.comp_def] using (hlist.laid_items hparts).between opening closing
  | @map opening closing ts parts _ _ hkeys _ hvalues hlist =>
    have hentries := hlist.laid (fun kv => [.node (.expr kv.1), .node (.expr kv.2)]) fun part hpart => by
      obtain ⟨p, hp, rfl⟩ := List.mem_map.1 hpart
      have hvalue := (laid_expr (Nat.zero_le 5) (hvalues p hp)).after p.colon
      exact (laid_expr (Nat.zero_le 5) (hkeys p hp)).append hvalue
    simpa [Node.children, List.map_flatMap, Function.comp_def] using hentries.between opening closing
  | @call opening closing ts ts' callee parts hcallee _ _ _ hparts hlist =>
    have hargs := (hlist.laid_items hparts).between opening closing
    simpa [Node.children, Function.comp_def] using (laid_expr (by omega) hcallee).append hargs
  | @index opening closing ts ts' target place htarget _ _ _ hplace =>
    have hinner := (laid_expr (Nat.zero_le 5) hplace).between opening closing
    simpa [Node.children] using (laid_expr (by omega) htarget).append hinner
  | @unary t _ _ _ _ h => exact (laid_expr (by omega) h).after t
  | @binary L t ts ts' op left right hL _ hleft hright =>
    have hright := (laid_expr (by omega) hright).after t
    exact (laid_expr (by omega) hleft).append hright
  | looser _ _ ih => exact ih

theorem IsParams.laid {ps : List Param} (h : IsParams ts ps) : Laid ts (ps.map Part.param) := by
  cases h with
  | @mk opening closing ts parts _ _ hparts hlist =>
    have hparams := hlist.laid (fun p => [Part.param p]) fun part hpart => by
      obtain ⟨us, p⟩ := part
      cases hparts _ hpart with
      | @mk t ts name type ht =>
        have hname : Part.MadeOf [t] (.param ⟨name, type, t.span⟩) := ⟨t, rfl, ht, rfl⟩
        exact (laid_single hname).before ts
    rw [← List.map_eq_flatMap] at hparams
    exact hparams.between opening closing

theorem laid_block {next : Token} {b : Block} (h : IsConstruct ts next (.block b)) :
    Laid ts [.block b] :=
  laid_single (.inl ⟨next, h⟩)

/-- What is directly under a statement or a block. -/
def Construct.children : Construct → List Part
  | .stmt s => (Part.node (.stmt s)).children
  | .block b => (Part.block b).children

/-- What is directly under a statement. -/
theorem IsConstruct.laid {next : Token} {x : Construct} (h : IsConstruct ts next x) :
    Laid ts x.children := by
  cases h with
  | expr h => exact laid_expr (Nat.zero_le 5) h
  | @assign ts ts' equals _ target value s htarget _ hvalue _ hs =>
    have hright := (laid_expr (Nat.zero_le 5) hvalue).after equals
    cases target with
    | ident =>
      cases hs
      exact hright.behind ts
    | index container place =>
      cases hs
      -- the collection and the place are under the left side, and both stand before the value
      exact htarget.laid.append hright
    | _ => cases hs
  | @define start t equals _ ts ts' _ _ _ _ _ _ _ hvalue =>
    have hright := (laid_expr (Nat.zero_le 5) hvalue).after equals
    exact ((hright.behind ts).after t).after start
  | delete => exact .nil _
  | @function start t next ps ts bs name params type body hstart ht hparams htype hbody =>
    have hself := IsConstruct.function hstart ht hparams htype hbody
    exact laid_single ⟨next, hself⟩
  | @ifThen start _ cs bs _ _ _ hcondition hthen =>
    exact ((laid_expr (Nat.zero_le 5) hcondition).append (laid_block hthen)).after start
  | @ifElse start other _ cs bs bs' _ _ _ _ hcondition hthen _ helse =>
    have hbranches := (laid_block hthen).append ((laid_block helse).after other)
    exact ((laid_expr (Nat.zero_le 5) hcondition).append hbranches).after start
  | @elseIf start other t next cs bs ts _ _ nested _ hcondition hthen _ _ hnested =>
    have hsecond : Laid (t :: ts) [.block (.mk [nested] nested.span)] :=
      laid_single (.inr ⟨nested, rfl, next, hnested⟩)
    have hbranches := (laid_block hthen).append (hsecond.after other)
    exact ((laid_expr (Nat.zero_le 5) hcondition).append hbranches).after start
  | @forEach start word _ ns cs bs _ _ _ _ _ _ _ hiterable hbody =>
    have hparts := ((laid_expr (Nat.zero_le 5) hiterable).append (laid_block hbody)).after word
    exact (hparts.behind ns).after start
  | returnNothing => exact .nil _
  | @returnValue start _ _ _ _ _ _ hvalue => exact (laid_expr (Nat.zero_le 5) hvalue).after start
  | @block opening closing _ _ _ _ _ hparts hsequence =>
    exact (hsequence.laid hparts).between opening closing

/-- The parameters of a function stand before its body. -/
theorem IsConstruct.laid_definition {next : Token} {d : FunctionDef} {s : Span}
    (h : IsConstruct ts next (.stmt (.function d s))) : Laid ts (Part.definition d).children := by
  cases h with
  | @assign _ _ _ _ target _ _ _ _ _ _ hs =>
    cases target <;> cases hs
  | @function start t _ ps ts bs _ _ _ _ _ _ hparams _ hbody =>
    have hbody := (laid_block hbody).behind ts
    exact ((hparams.laid.append hbody).after t).after start

/-- **What is under a part stands in it**, each part behind the one before. -/
theorem Part.MadeOf.laid {p : Part} (h : p.MadeOf ts) : Laid ts p.children := by
  match p, h with
  | .node (.expr e), h => exact IsExpr.laid h
  | .node (.stmt s), ⟨next, h⟩ => exact h.laid
  | .block b, .inl ⟨next, h⟩ => exact h.laid
  | .block b, .inr ⟨s, hb, h⟩ =>
    subst hb
    exact laid_single h
  | .definition d, ⟨next, h⟩ => exact h.laid_definition
  | .param p, h => exact .nil ts

end Children

/-- **A part covers what its tokens cover.** -/
theorem Part.MadeOf.bounds {ts : List Token} {p : Part} (h : p.MadeOf ts) (horder : InOrder ts) :
    Bounds ts p.span := by
  match p, h with
  | .node n, h => exact Nikl.MadeOf.bounds h horder
  | .block b, .inl ⟨next, h⟩ => exact h.bounds horder
  | .block b, .inr ⟨s, hb, h⟩ =>
    subst hb
    exact Nikl.MadeOf.bounds h horder
  | .definition d, ⟨next, h⟩ => exact h.bounds horder
  | .param p, ⟨t, hts, ht, hspan⟩ =>
    subst hts
    show Bounds [t] p.span
    rw [hspan]
    exact bounds_token (by rw [ht]; simp)

end Nikl
