import Nikl.Proofs.Syntax.Grammar
import Nikl.Proofs.Syntax.Tree
import Nikl.Proofs.Token.Cutting

/-
The nodes of a tree and their tokens. Every expression and every statement of a program, however deep it
stands, is made of tokens that stand next to each other in the program (`MadeOf.child`, `HasNode.madeOf`).
And it covers just what they cover: it begins where the first of them begins and ends where the last of
them ends (`MadeOf.bounds`).
-/

set_option autoImplicit false

namespace Nikl

open Nikl.Parser

/-! ## The tokens of a node -/

/-- The tokens of a node. -/
def MadeOf (ts : List Token) : Node → Prop
  | .expr e => IsExpr 0 ts e
  | .stmt s => ∃ next, IsConstruct ts next (.stmt s)

section Children

variable {ts whole : List Token} {n m : Node}

/-- Some tokens of a text, next to each other, make the node. -/
def FoundIn (whole : List Token) (n : Node) : Prop := ∃ ts, ts <:+: whole ∧ MadeOf ts n

theorem FoundIn.mono (h : FoundIn ts n) (hts : ts <:+: whole) : FoundIn whole n := by
  obtain ⟨ts', hts', hn⟩ := h
  exact ⟨ts', hts'.trans hts, hn⟩

theorem foundIn_expr {e : Expr} (h : IsExpr 0 ts e) (hts : ts <:+: whole) : FoundIn whole (.expr e) :=
  ⟨ts, hts, h⟩

/-- A part of a list stands in it. -/
theorem Listed.part_within {α : Type} {parts : List (List Token × α)} (h : Listed parts ts) :
    ∀ p ∈ parts, p.1 <:+: ts := by
  induction h with
  | nil => exact nofun
  | last part =>
    intro p hp
    cases List.mem_singleton.1 hp
    exact List.infix_rfl
  | cons part _ _ ih =>
    intro p hp
    rcases List.mem_cons.1 hp with rfl | hp
    · exact (List.prefix_append _ _).isInfix
    · exact (ih p hp).trans ((List.suffix_cons _ _).trans (List.suffix_append _ _)).isInfix

theorem foundIn_listed {parts : List (List Token × Expr)} (hparts : ∀ p ∈ parts, IsExpr 0 p.1 p.2)
    (hlist : Listed parts ts) (hts : ts <:+: whole) {e : Expr} (he : e ∈ parts.map (·.2)) :
    FoundIn whole (.expr e) := by
  obtain ⟨p, hp, rfl⟩ := List.mem_map.1 he
  exact foundIn_expr (hparts p hp) ((hlist.part_within p hp).trans hts)

theorem children_withSpan (s : Span) (e : Expr) :
    (Node.expr (e.withSpan s)).children = (Node.expr e).children := by
  cases e <;> rfl

/-- What stands between two other tokens. -/
theorem infix_between (a b : Token) (ts : List Token) : ts <:+: a :: (ts ++ [b]) :=
  ⟨[a], [b], by simp⟩

/-- The expressions directly under an expression are made of some of its tokens. -/
theorem IsExpr.child {L : Nat} {e : Expr} (h : IsExpr L ts e) :
    ∀ m ∈ (Node.expr e).children, FoundIn ts m := by
  induction h with
  | @atom t e h =>
    obtain ⟨k, s, newline⟩ := t
    cases isAtom_of_atom? h
    all_goals exact nofun
  | group _ _ _ ih =>
    intro m hm
    rw [children_withSpan] at hm
    exact (ih m hm).mono (infix_between _ _ _)
  | unit => exact nofun
  | @tuple opening comma closing ts ts' first parts _ _ _ hfirst hparts hlist =>
    intro m hm
    obtain ⟨e, he, rfl⟩ := List.mem_map.1 hm
    rcases List.mem_cons.1 he with rfl | he
    · exact foundIn_expr hfirst ⟨[opening], comma :: (ts' ++ [closing]), by simp⟩
    · exact foundIn_listed hparts hlist ⟨opening :: (ts ++ [comma]), [closing], by simp⟩ he
  | array _ _ hparts hlist =>
    intro m hm
    obtain ⟨e, he, rfl⟩ := List.mem_map.1 hm
    exact foundIn_listed hparts hlist (infix_between _ _ _) he
  | @map opening closing ts parts _ _ hkeys _ hvalues hlist =>
    intro m hm
    obtain ⟨kv, hkv, hm⟩ := List.mem_flatMap.1 hm
    obtain ⟨p, hp, rfl⟩ := List.mem_map.1 hkv
    have hwhole := (hlist.part_within _ (List.mem_map_of_mem hp)).trans (infix_between opening closing ts)
    simp only [List.mem_cons, List.not_mem_nil, or_false] at hm
    rcases hm with rfl | rfl
    · exact foundIn_expr (hkeys p hp) ((List.prefix_append _ _).isInfix.trans hwhole)
    · refine foundIn_expr (hvalues p hp) (List.IsInfix.trans ?_ hwhole)
      exact ((List.suffix_cons _ _).trans (List.suffix_append _ _)).isInfix
  | @call opening closing ts ts' callee parts hcallee _ _ _ hparts hlist =>
    intro m hm
    rcases List.mem_cons.1 hm with rfl | hm
    · exact foundIn_expr (hcallee.mono (Nat.zero_le 4) (by decide)) (List.prefix_append _ _).isInfix
    · obtain ⟨e, he, rfl⟩ := List.mem_map.1 hm
      exact foundIn_listed hparts hlist ⟨ts ++ [opening], [closing], by simp⟩ he
  | @index opening closing ts ts' target place htarget _ _ _ hplace =>
    intro m hm
    simp only [Node.children, List.mem_cons, List.not_mem_nil, or_false] at hm
    rcases hm with rfl | rfl
    · exact foundIn_expr (htarget.mono (Nat.zero_le 4) (by decide)) (List.prefix_append _ _).isInfix
    · exact foundIn_expr hplace ⟨ts ++ [opening], [closing], by simp⟩
  | unary _ h =>
    intro m hm
    cases List.mem_singleton.1 hm
    exact foundIn_expr (h.mono (Nat.zero_le 3) (by decide)) (List.suffix_cons _ _).isInfix
  | @binary L t ts ts' op left right hL _ hleft hright =>
    intro m hm
    replace hm : m ∈ [Node.expr left, Node.expr right] := hm
    simp only [List.mem_cons, List.not_mem_nil, or_false] at hm
    rcases hm with rfl | rfl
    · exact foundIn_expr (hleft.mono (Nat.zero_le L) (by omega)) (List.prefix_append _ _).isInfix
    · refine foundIn_expr (hright.mono (Nat.zero_le (L + 1)) (by omega)) ?_
      exact ((List.suffix_cons _ _).trans (List.suffix_append _ _)).isInfix
  | looser _ _ ih => exact ih

theorem InSequence.part_within {last : Token} {parts : List StmtPart} (h : InSequence last parts ts) :
    ∀ p ∈ parts, p.tokens <:+: ts := by
  induction h with
  | nil => exact nofun
  | semicolon _ _ ih => exact fun p hp => (ih p hp).trans (List.suffix_cons _ _).isInfix
  | cons part _ _ ih =>
    intro p hp
    rcases List.mem_cons.1 hp with rfl | hp
    · exact (List.prefix_append _ _).isInfix
    · exact (ih p hp).trans (List.suffix_append _ _).isInfix

/-- The statements of a sequence are made of some of its tokens. -/
theorem foundIn_sequence {last : Token} {parts : List StmtPart}
    (hparts : ∀ p ∈ parts, IsConstruct p.tokens p.next (.stmt p.stmt)) (hseq : InSequence last parts ts)
    (hts : ts <:+: whole) {s : Stmt} (hs : s ∈ parts.map (·.stmt)) : FoundIn whole (.stmt s) := by
  obtain ⟨p, hp, rfl⟩ := List.mem_map.1 hs
  exact ⟨p.tokens, (hseq.part_within p hp).trans hts, p.next, hparts p hp⟩

/-- The statements of a block are made of some of its tokens. -/
theorem foundIn_block {next : Token} {b : Block} (h : IsConstruct ts next (.block b))
    (hts : ts <:+: whole) : ∀ m ∈ b.stmts.map Node.stmt, FoundIn whole m := by
  intro m hm
  cases h with
  | block _ _ hparts hseq =>
    obtain ⟨s, hs, rfl⟩ := List.mem_map.1 hm
    exact (foundIn_sequence hparts hseq (infix_between _ _ _) hs).mono hts

/-- The nodes directly under a statement are made of some of its tokens. -/
theorem IsConstruct.child {next : Token} {s : Stmt} (h : IsConstruct ts next (.stmt s)) :
    ∀ m ∈ (Node.stmt s).children, FoundIn ts m := by
  cases h with
  | expr h =>
    intro m hm
    cases List.mem_singleton.1 hm
    exact foundIn_expr h List.infix_rfl
  | @assign ts ts' equals _ target value s htarget _ hvalue _ hs =>
    have hright : FoundIn (ts ++ equals :: ts') (.expr value) :=
      foundIn_expr hvalue ((List.suffix_cons _ _).trans (List.suffix_append _ _)).isInfix
    -- what is assigned to is a name, or has a collection and a place under it
    cases target with
    | ident =>
      cases hs
      intro m hm
      cases List.mem_singleton.1 hm
      exact hright
    | index container place =>
      cases hs
      intro m hm
      replace hm : m ∈ [Node.expr container, Node.expr place] ++ [Node.expr value] := hm
      rcases List.mem_append.1 hm with hm | hm
      · exact (htarget.child m hm).mono (List.prefix_append _ _).isInfix
      · cases List.mem_singleton.1 hm
        exact hright
    | _ => cases hs
  | @define start t equals _ ts ts' _ _ _ _ _ _ _ hvalue =>
    intro m hm
    cases List.mem_singleton.1 hm
    exact foundIn_expr hvalue ⟨start :: t :: (ts ++ [equals]), [], by simp⟩
  | delete => exact nofun
  | @function start t _ ps ts bs _ _ _ _ _ _ _ _ hbody =>
    exact foundIn_block hbody ⟨start :: t :: (ps ++ ts), [], by simp⟩
  | @ifThen start _ cs bs _ _ _ hcondition hthen =>
    intro m hm
    rcases List.mem_cons.1 hm with rfl | hm
    · exact foundIn_expr hcondition ⟨[start], bs, by simp⟩
    · exact foundIn_block hthen ⟨start :: cs, [], by simp⟩ m hm
  | @ifElse start other _ cs bs bs' _ _ _ _ hcondition hthen _ helse =>
    intro m hm
    rcases List.mem_cons.1 hm with rfl | hm
    · exact foundIn_expr hcondition ⟨[start], bs ++ other :: bs', by simp⟩
    · rcases List.mem_append.1 hm with hm | hm
      · exact foundIn_block hthen ⟨start :: cs, other :: bs', by simp⟩ m hm
      · exact foundIn_block helse ⟨start :: (cs ++ (bs ++ [other])), [], by simp⟩ m hm
  | @elseIf start other t _ cs bs ts _ _ _ _ hcondition hthen _ _ hnested =>
    intro m hm
    rcases List.mem_cons.1 hm with rfl | hm
    · exact foundIn_expr hcondition ⟨[start], bs ++ other :: t :: ts, by simp⟩
    · rcases List.mem_append.1 hm with hm | hm
      · exact foundIn_block hthen ⟨start :: cs, other :: t :: ts, by simp⟩ m hm
      · cases List.mem_singleton.1 hm
        exact ⟨t :: ts, ⟨start :: (cs ++ (bs ++ [other])), [], by simp⟩, next, hnested⟩
  | @forEach start word _ ns cs bs _ _ _ _ _ _ _ hiterable hbody =>
    intro m hm
    rcases List.mem_cons.1 hm with rfl | hm
    · exact foundIn_expr hiterable ⟨start :: (ns ++ [word]), bs, by simp⟩
    · exact foundIn_block hbody ⟨start :: (ns ++ word :: cs), [], by simp⟩ m hm
  | returnNothing => exact nofun
  | returnValue _ _ hvalue =>
    intro m hm
    cases List.mem_singleton.1 hm
    exact foundIn_expr hvalue (List.suffix_cons _ _).isInfix

theorem MadeOf.child (h : MadeOf ts n) (hm : m ∈ n.children) : FoundIn ts m := by
  cases n with
  | expr e => exact IsExpr.child h m hm
  | stmt s =>
    obtain ⟨next, h⟩ := h
    exact h.child m hm

/-- **Every node of a program is made of tokens of the program**, at any depth. -/
theorem IsProgram.foundIn {tokens : List Token} {b : Block} (h : IsProgram tokens b) (hn : b.HasNode n) :
    FoundIn tokens n := by
  obtain ⟨s, hs, hn⟩ := hn
  obtain ⟨-, hparts, hseq⟩ := h
  induction hn with
  | root => exact foundIn_sequence hparts hseq (List.prefix_append _ _).isInfix hs
  | child hm _ ih =>
    obtain ⟨ts, hts, hmade⟩ := ih
    exact (hmade.child hm).mono hts

end Children

/-! ## What a node covers -/

/-- Tokens with something at their end, and the bytes from the start of the first to the stop of the
last. -/
structure Bounds (ts : List Token) (s : Span) : Prop where
  first : ∃ t ∈ ts.head?, s.start = t.span.start
  last : ∃ t ∈ ts.getLast?, s.stop = t.span.stop ∧ t.kind ≠ .eof

section Bounds

variable {ts us mid : List Token} {t : Token} {a b : Span}

theorem bounds_token (ht : t.kind ≠ .eof) : Bounds [t] t.span :=
  ⟨⟨t, rfl, rfl⟩, ⟨t, rfl, rfl, ht⟩⟩

/-- What covers the first and the last of some parts covers all of them. -/
theorem Bounds.merge (ha : Bounds ts a) (hb : Bounds us b) (horder : InOrder (ts ++ (mid ++ us))) :
    Bounds (ts ++ (mid ++ us)) (a.merge b) := by
  obtain ⟨first, hfirst, hstart⟩ := ha.first
  obtain ⟨last, hlast, hstop, -⟩ := ha.last
  obtain ⟨first', hfirst', hstart'⟩ := hb.first
  obtain ⟨last', hlast', hstop', hend⟩ := hb.last
  have hcross := (List.pairwise_append.1 horder).2.2
  have hle := (hcross first (List.mem_of_mem_head? hfirst) first'
    (List.mem_append_right _ (List.mem_of_mem_head? hfirst'))).1
  have hle' := (hcross last (List.mem_of_mem_getLast? hlast) last'
    (List.mem_append_right _ (List.mem_of_mem_getLast? hlast'))).2
  refine ⟨⟨first, ?_, ?_⟩, ⟨last', ?_, ?_, hend⟩⟩
  · rw [List.head?_append, Option.mem_def.1 hfirst]
    rfl
  · rw [Span.merge_start, hstart, hstart']
    omega
  · rw [List.getLast?_append, List.getLast?_append, Option.mem_def.1 hlast']
    rfl
  · rw [Span.merge_stop, hstop, hstop']
    omega

/-- Between two tokens. -/
theorem bounds_enclosed {opening closing : Token} {o c : TokenKind} (hopening : opening.kind = o)
    (hclosing : closing.kind = c) (ho : o ≠ .eof) (hc : c ≠ .eof)
    (horder : InOrder (opening :: (ts ++ [closing]))) :
    Bounds (opening :: (ts ++ [closing])) (opening.span.merge closing.span) := by
  have hfirst : Bounds [opening] opening.span := bounds_token (by rw [hopening]; exact ho)
  have hlast : Bounds [closing] closing.span := bounds_token (by rw [hclosing]; exact hc)
  exact hfirst.merge hlast horder

theorem atom?_span {k : TokenKind} {s : Span} {e : Expr} (h : atom? k s = some e) : e.span = s := by
  cases isAtom_of_atom? h
  all_goals rfl

theorem InOrder.left (h : InOrder (ts ++ us)) : InOrder ts :=
  h.within (List.prefix_append _ _).isInfix

theorem InOrder.right (h : InOrder (ts ++ us)) : InOrder us :=
  h.within (List.suffix_append _ _).isInfix

theorem InOrder.tail (h : InOrder (t :: ts)) : InOrder ts :=
  h.within (List.suffix_cons _ _).isInfix

/-- **An expression covers what its tokens cover.** -/
theorem IsExpr.bounds {L : Nat} {e : Expr} (h : IsExpr L ts e) (horder : InOrder ts) :
    Bounds ts e.span := by
  induction h with
  | @atom t e h =>
    rw [atom?_span h]
    refine bounds_token fun ht => ?_
    rw [ht] at h
    cases h
  | group hopening hclosing =>
    rw [Expr.span_withSpan]
    exact bounds_enclosed hopening hclosing (by simp) (by simp) horder
  | @unit opening closing hopening hclosing =>
    show Bounds (opening :: ([] ++ [closing])) _
    exact bounds_enclosed hopening hclosing (by simp) (by simp) horder
  | @tuple opening comma closing ts ts' first parts hopening _ hclosing =>
    have hsplit : opening :: (ts ++ comma :: (ts' ++ [closing])) =
        opening :: ((ts ++ comma :: ts') ++ [closing]) := by simp
    rw [hsplit] at horder ⊢
    exact bounds_enclosed hopening hclosing (by simp) (by simp) horder
  | array hopening hclosing | map hopening hclosing =>
    exact bounds_enclosed hopening hclosing (by simp) (by simp) horder
  | @call opening closing ts ts' _ _ _ _ _ hclosing _ _ ih
  | @index opening closing ts ts' _ _ _ _ _ hclosing _ ih =>
    have hlast : Bounds [closing] closing.span := bounds_token (by rw [hclosing]; simp)
    show Bounds (ts ++ (opening :: ts' ++ [closing])) _
    exact (ih horder.left).merge hlast horder
  | @unary t ts op operand ht _ ih =>
    have hsign : Bounds [t] t.span := by
      refine bounds_token fun hend => ?_
      rw [hend] at ht
      cases ht
    show Bounds ([t] ++ ([] ++ ts)) _
    exact hsign.merge (ih horder.tail) horder
  | @binary L t ts ts' op left right _ _ _ _ ihleft ihright =>
    show Bounds (ts ++ ([t] ++ ts')) _
    exact (ihleft horder.left).merge (ihright horder.right.tail) horder
  | looser _ _ ih => exact ih horder

theorem assignment?_span {target value : Expr} {s : Span} {stmt : Stmt}
    (h : assignment? target value s = some stmt) : stmt.span = s := by
  cases target <;> cases h <;> rfl

/-- The bytes of a statement or a block. -/
def Construct.span : Construct → Span
  | .stmt s => s.span
  | .block b => b.span

/-- From a word on to where some part ends. -/
theorem bounds_from {start : Token} {word : Keyword} (hstart : start.kind = .keyword word)
    (hb : InOrder us → Bounds us b) (horder : InOrder (start :: (mid ++ us))) :
    Bounds (start :: (mid ++ us)) (start.span.merge b) := by
  have hword : Bounds [start] start.span := bounds_token (by rw [hstart]; simp)
  exact hword.merge (hb horder.tail.right) horder

/-- **A statement covers what its tokens cover**, and so does a block. -/
theorem IsConstruct.bounds {next : Token} {x : Construct} (h : IsConstruct ts next x)
    (horder : InOrder ts) : Bounds ts x.span := by
  induction h with
  | expr h => exact h.bounds horder
  | @assign ts ts' equals next target value s htarget _ hvalue _ hs =>
    show Bounds (ts ++ ([equals] ++ ts')) s.span
    rw [assignment?_span hs]
    exact (htarget.bounds horder.left).merge (hvalue.bounds horder.right.tail) horder
  | @define start t equals next ts ts' name type value hstart _ _ _ hvalue =>
    have hsplit : start :: t :: (ts ++ equals :: ts') = start :: ((t :: (ts ++ [equals])) ++ ts') := by
      simp
    rw [hsplit] at horder ⊢
    exact bounds_from hstart hvalue.bounds horder
  | @delete start t _ _ hstart ht =>
    show Bounds (start :: ([] ++ [t])) _
    exact bounds_from hstart (fun _ => bounds_token (by rw [ht]; simp)) horder
  | @function start t next ps ts bs name params type body hstart _ _ _ _ ih =>
    have hsplit : start :: t :: (ps ++ (ts ++ bs)) = start :: ((t :: (ps ++ ts)) ++ bs) := by simp
    rw [hsplit] at horder ⊢
    exact bounds_from hstart ih horder
  | ifThen hstart _ _ _ ih => exact bounds_from hstart ih horder
  | @ifElse start other next cs bs bs' condition thenBranch elseBranch hstart _ _ _ _ _ ih =>
    have hsplit : start :: (cs ++ (bs ++ other :: bs')) =
        start :: ((cs ++ (bs ++ [other])) ++ bs') := by simp
    rw [hsplit] at horder ⊢
    exact bounds_from hstart ih horder
  | @elseIf start other t next cs bs ts condition thenBranch nested hstart _ _ _ _ _ _ ih =>
    have hsplit : start :: (cs ++ (bs ++ other :: t :: ts)) =
        start :: ((cs ++ (bs ++ [other])) ++ t :: ts) := by simp
    rw [hsplit] at horder ⊢
    exact bounds_from hstart ih horder
  | @forEach start word next ns cs bs first second iterable body hstart _ _ _ _ ih =>
    have hsplit : start :: (ns ++ word :: (cs ++ bs)) = start :: ((ns ++ word :: cs) ++ bs) := by simp
    rw [hsplit] at horder ⊢
    exact bounds_from hstart ih horder
  | returnNothing hstart => exact bounds_token (by rw [hstart]; simp)
  | @returnValue start t _ ts _ hstart _ hvalue =>
    show Bounds (start :: ([] ++ t :: ts)) _
    exact bounds_from hstart hvalue.bounds horder
  | block hopening hclosing => exact bounds_enclosed hopening hclosing (by simp) (by simp) horder

theorem MadeOf.bounds {n : Node} (h : MadeOf ts n) (horder : InOrder ts) : Bounds ts n.span := by
  cases n with
  | expr e => exact IsExpr.bounds h horder
  | stmt s =>
    obtain ⟨next, h⟩ := h
    exact h.bounds horder

end Bounds

end Nikl
