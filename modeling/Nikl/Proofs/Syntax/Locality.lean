import Nikl.Proofs.Syntax.StatementCompleteness
import Nikl.Proofs.Token.Cutting

/-
What a part of a program is depends on nothing but its own tokens. Moved to another place, they make the
same tree in that place (`IsConstruct.mapSpan`). Whether a line break stands before the first of them does
not matter (`IsConstruct.firstLine`), and what stands behind the last of them may be the end of the text
(`IsConstruct.atEnd`). And they make no other tree (`IsConstruct.unique`).
-/

set_option autoImplicit false

namespace Nikl

open Nikl.Parser

@[simp] theorem Expr.mapSpans_span (f : Span → Span) (e : Expr) : (e.mapSpans f).span = f e.span := by
  cases e <;> rfl

@[simp] theorem Stmt.mapSpans_span (f : Span → Span) (s : Stmt) : (s.mapSpans f).span = f s.span := by
  cases s with
  | giveBack value => cases value <;> rfl
  | _ => rfl

@[simp] theorem Block.mapSpans_span (f : Span → Span) (b : Block) : (b.mapSpans f).span = f b.span := by
  cases b
  rfl

theorem Expr.mapSpans_withSpan (f : Span → Span) (s : Span) (e : Expr) :
    (e.withSpan s).mapSpans f = (e.mapSpans f).withSpan (f s) := by
  cases e <;> rfl

/-- The entry in another place. -/
def EntryPart.mapSpans (f : Span → Span) (p : EntryPart) : EntryPart :=
  ⟨(p.key.1.map (Token.mapSpan f), p.key.2.mapSpans f), p.colon.mapSpan f,
    (p.value.1.map (Token.mapSpan f), p.value.2.mapSpans f)⟩

theorem EntryPart.whole_mapSpans (f : Span → Span) (p : EntryPart) :
    (p.mapSpans f).whole = (p.whole.1.map (Token.mapSpan f),
      (p.whole.2.1.mapSpans f, p.whole.2.2.mapSpans f)) := by
  rw [EntryPart.whole, EntryPart.whole, List.map_append, List.map_cons]
  rfl

/-- The statement or block with something done to each of its spans. -/
def Construct.mapSpans (f : Span → Span) : Construct → Construct
  | .stmt s => .stmt (s.mapSpans f)
  | .block b => .block (b.mapSpans f)

/-! ## In another place -/

/-- Something that is done to places, and to the place of a whole as to those of its parts. -/
def KeepsMerge (f : Span → Span) : Prop := ∀ a b : Span, f (a.merge b) = (f a).merge (f b)

theorem keepsMerge_back (n : Nat) : KeepsMerge (Span.back n) := by
  intro a b
  simp only [Span.back, Span.merge, Span.mk.injEq]
  omega

theorem keepsMerge_forth (n : Nat) : KeepsMerge (Span.forth n) := by
  intro a b
  simp only [Span.forth, Span.merge, Span.mk.injEq]
  omega

section Moved

variable {f : Span → Span} {L : Nat} {ts : List Token} {t : Token}

theorem Listed.mapSpan {α β : Type} {parts : List (List Token × α)} (move : α → β)
    (h : Listed parts ts) :
    Listed (parts.map fun p => (p.1.map (Token.mapSpan f), move p.2)) (ts.map (Token.mapSpan f)) := by
  induction h with
  | nil => exact .nil
  | last part => exact .last _
  | cons part hcomma _ ih =>
    rw [List.map_cons, List.map_append, List.map_cons]
    exact .cons _ hcomma ih

theorem atom?_mapSpans {k : TokenKind} {s : Span} {e : Expr} (h : atom? k s = some e) :
    atom? k (f s) = some (e.mapSpans f) := by
  cases isAtom_of_atom? h
  all_goals rfl

/-- **The tokens of an expression in another place make the expression in that place.** -/
theorem IsExpr.mapSpan (hf : KeepsMerge f) {e : Expr} (h : IsExpr L ts e) :
    IsExpr L (ts.map (Token.mapSpan f)) (e.mapSpans f) := by
  induction h with
  | atom h => exact .atom (atom?_mapSpans h)
  | group hopening hclosing _ ih =>
    have hmoved := IsExpr.group (Token.kind_mapSpan hopening f) (Token.kind_mapSpan hclosing f) ih
    simpa [Expr.mapSpans_withSpan, hf _ _] using hmoved
  | unit hopening hclosing =>
    have hmoved := IsExpr.unit (Token.kind_mapSpan hopening f) (Token.kind_mapSpan hclosing f)
    simpa [Expr.mapSpans, hf _ _] using hmoved
  | tuple hopening hcomma hclosing _ _ hlist ihfirst ihparts =>
    have hmoved := IsExpr.tuple (Token.kind_mapSpan hopening f) (Token.kind_mapSpan hcomma f)
      (Token.kind_mapSpan hclosing f) ihfirst (List.forall_mem_map.2 ihparts)
      (hlist.mapSpan (Expr.mapSpans f))
    simpa [Expr.mapSpans, hf _ _, Function.comp_def] using hmoved
  | array hopening hclosing _ hlist ih =>
    have hmoved := IsExpr.array (Token.kind_mapSpan hopening f) (Token.kind_mapSpan hclosing f)
      (List.forall_mem_map.2 ih) (hlist.mapSpan (Expr.mapSpans f))
    simpa [Expr.mapSpans, hf _ _, Function.comp_def] using hmoved
  | @map opening closing ts parts hopening hclosing _ hcolons _ hlist ihkeys ihvalues =>
    have hlist' := hlist.mapSpan (f := f) fun kv => (kv.1.mapSpans f, kv.2.mapSpans f)
    have hkeys : ∀ p ∈ parts.map (EntryPart.mapSpans f), IsExpr 0 p.key.1 p.key.2 :=
      List.forall_mem_map.2 ihkeys
    have hmoved := IsExpr.map (Token.kind_mapSpan hopening f) (Token.kind_mapSpan hclosing f) hkeys
      (List.forall_mem_map.2 hcolons) (List.forall_mem_map.2 ihvalues)
      (by simpa [Function.comp_def, EntryPart.whole_mapSpans] using hlist')
    simpa [Expr.mapSpans, hf _ _, Function.comp_def, EntryPart.whole_mapSpans] using hmoved
  | call _ hopening hline hclosing _ hlist ihcallee ihparts =>
    have hmoved := IsExpr.call ihcallee (Token.kind_mapSpan hopening f) hline
      (Token.kind_mapSpan hclosing f) (List.forall_mem_map.2 ihparts) (hlist.mapSpan (Expr.mapSpans f))
    simpa [Expr.mapSpans, hf _ _, Function.comp_def] using hmoved
  | index _ hopening hline hclosing _ ihtarget ihplace =>
    have hmoved := IsExpr.index ihtarget (Token.kind_mapSpan hopening f) hline
      (Token.kind_mapSpan hclosing f) ihplace
    simpa [Expr.mapSpans, hf _ _] using hmoved
  | unary ht _ ih =>
    have hmoved := IsExpr.unary (t := Token.mapSpan f _) ht ih
    simpa [Expr.mapSpans, hf _ _] using hmoved
  | binary hL ht _ _ ihleft ihright =>
    have hmoved := IsExpr.binary (t := Token.mapSpan f _) hL ht ihleft ihright
    simpa [Expr.mapSpans, Parser.binary, hf _ _] using hmoved
  | looser hL _ ih => exact .looser hL ih

/-! ### Statements -/

theorem IsType.mapSpan {mark : Symbol} {type : Option TypeTag} (h : IsType mark ts type) :
    IsType mark (ts.map (Token.mapSpan f)) type := by
  cases h with
  | absent => exact .absent
  | given hm ht => exact .given hm ht

theorem IsParam.mapSpan {p : Param} (h : IsParam ts p) :
    IsParam (ts.map (Token.mapSpan f)) (p.mapSpans f) := by
  obtain ⟨ht, htype⟩ := h
  exact .mk (t := Token.mapSpan f _) ht htype.mapSpan

/-- Whether a name is there twice does not depend on places. -/
theorem repeatedParam?_mapSpans (earlier : List String) (ps : List Param) :
    repeatedParam? earlier (ps.map (Param.mapSpans f)) =
      (repeatedParam? earlier ps).map (Param.mapSpans f) := by
  induction ps generalizing earlier with
  | nil => rfl
  | cons p ps ih =>
    rw [List.map_cons, repeatedParam?, repeatedParam?]
    show (if earlier.contains p.name then _ else repeatedParam? (p.name :: earlier) _) = _
    rw [ih]
    split <;> rfl

theorem IsParams.mapSpan {ps : List Param} (h : IsParams ts ps) :
    IsParams (ts.map (Token.mapSpan f)) (ps.map (Param.mapSpans f)) := by
  obtain @⟨opening, closing, ts, parts, hopening, hclosing, hparts, hlist, hdiffer⟩ := h
  have hparts' : ∀ p ∈ parts.map fun p => (p.1.map (Token.mapSpan f), p.2.mapSpans f),
      IsParam p.1 p.2 := List.forall_mem_map.2 fun p hp => (hparts p hp).mapSpan
  have hmoved := IsParams.mk (Token.kind_mapSpan hopening f) (Token.kind_mapSpan hclosing f) hparts'
    (hlist.mapSpan (Param.mapSpans f)) ?_
  · simpa [Function.comp_def] using hmoved
  · have hsame := repeatedParam?_mapSpans (f := f) [] (parts.map (·.2))
    rw [hdiffer] at hsame
    simpa [Function.comp_def] using hsame

theorem IsNames.mapSpan {first : String} {second : Option String} (h : IsNames ts first second) :
    IsNames (ts.map (Token.mapSpan f)) first second := by
  cases h with
  | one ht => exact .one ht
  | two ht hcomma ht' => exact .two ht hcomma ht'

theorem EndsExpr.mapSpan (h : EndsExpr L t) : EndsExpr L (t.mapSpan f) :=
  ⟨h.call, h.index, h.operator⟩

theorem assignment?_mapSpans {target value : Expr} {s : Span} {stmt : Stmt}
    (h : assignment? target value s = some stmt) :
    assignment? (target.mapSpans f) (value.mapSpans f) (f s) = some (stmt.mapSpans f) := by
  cases target <;> cases h <;> rfl

/-- The statement in another place, with its tokens and the one behind them. -/
def StmtPart.mapSpans (f : Span → Span) (p : StmtPart) : StmtPart :=
  ⟨p.tokens.map (Token.mapSpan f), p.next.mapSpan f, p.stmt.mapSpans f⟩

theorem InSequence.mapSpan {last : Token} {parts : List StmtPart} (h : InSequence last parts ts) :
    InSequence (last.mapSpan f) (parts.map (StmtPart.mapSpans f)) (ts.map (Token.mapSpan f)) := by
  induction h with
  | nil => exact .nil
  | semicolon ht _ ih => exact .semicolon (t := Token.mapSpan f _) ht ih
  | @cons parts ts part hnext _ ih =>
    rw [List.map_append]
    refine .cons (part.mapSpans f) ?_ ih
    show part.next.mapSpan f = _
    rw [hnext]
    cases ts <;> rfl

/-- **The tokens of a statement or a block in another place make it in that place.** -/
theorem IsConstruct.mapSpan (hf : KeepsMerge f) {next : Token} {x : Construct}
    (h : IsConstruct ts next x) :
    IsConstruct (ts.map (Token.mapSpan f)) (next.mapSpan f) (x.mapSpans f) := by
  induction h with
  | expr h hends hassign =>
    have hmoved := IsConstruct.expr (h.mapSpan hf) (hends.mapSpan (f := f)) hassign
    simpa [Construct.mapSpans, Stmt.mapSpans] using hmoved
  | assign htarget hequals hvalue hends hs =>
    have hs' := assignment?_mapSpans (f := f) hs
    rw [hf, ← Expr.mapSpans_span f, ← Expr.mapSpans_span f] at hs'
    have hmoved := IsConstruct.assign (htarget.mapSpan hf) (Token.kind_mapSpan hequals f)
      (hvalue.mapSpan hf) (hends.mapSpan (f := f)) hs'
    simpa [Construct.mapSpans] using hmoved
  | define hstart ht htype hequals hvalue hends =>
    have hmoved := IsConstruct.define (Token.kind_mapSpan hstart f) (Token.kind_mapSpan ht f)
      (htype.mapSpan (f := f)) (Token.kind_mapSpan hequals f) (hvalue.mapSpan hf)
      (hends.mapSpan (f := f))
    simpa [Construct.mapSpans, Stmt.mapSpans, hf _ _] using hmoved
  | @delete start t next name hstart ht =>
    have hmoved : IsConstruct _ (next.mapSpan f) _ :=
      IsConstruct.delete (Token.kind_mapSpan hstart f) (Token.kind_mapSpan ht f)
    simpa [Construct.mapSpans, Stmt.mapSpans, hf _ _] using hmoved
  | function hstart ht hparams htype _ ih =>
    have hmoved := IsConstruct.function (Token.kind_mapSpan hstart f) (Token.kind_mapSpan ht f)
      (hparams.mapSpan (f := f)) (htype.mapSpan (f := f)) ih
    simpa [Construct.mapSpans, Stmt.mapSpans, FunctionDef.mapSpans, hf _ _] using hmoved
  | ifThen hstart hcondition _ helse ih =>
    have hmoved := IsConstruct.ifThen (Token.kind_mapSpan hstart f) (hcondition.mapSpan hf) ih
      helse
    simpa [Construct.mapSpans, Stmt.mapSpans, hf _ _] using hmoved
  | ifElse hstart hcondition _ hother _ ihthen ihelse =>
    have hmoved := IsConstruct.ifElse (Token.kind_mapSpan hstart f) (hcondition.mapSpan hf) ihthen
      hother ihelse
    simpa [Construct.mapSpans, Stmt.mapSpans, hf _ _] using hmoved
  | elseIf hstart hcondition _ hother ht _ ihthen ihnested =>
    have hmoved := IsConstruct.elseIf (Token.kind_mapSpan hstart f) (hcondition.mapSpan hf) ihthen
      hother (Token.kind_mapSpan ht f) ihnested
    simpa [Construct.mapSpans, Stmt.mapSpans, Block.mapSpans, hf _ _] using hmoved
  | forEach hstart hnames hword hiterable _ ih =>
    have hmoved := IsConstruct.forEach (Token.kind_mapSpan hstart f) (hnames.mapSpan (f := f))
      (Token.kind_mapSpan hword f) (hiterable.mapSpan hf) ih
    simpa [Construct.mapSpans, Stmt.mapSpans, hf _ _] using hmoved
  | returnNothing hstart hends => exact .returnNothing (Token.kind_mapSpan hstart f) hends
  | returnValue hstart hline hvalue hends =>
    have hmoved := IsConstruct.returnValue (t := Token.mapSpan f _) (Token.kind_mapSpan hstart f)
      hline (hvalue.mapSpan hf) (hends.mapSpan (f := f))
    simpa [Construct.mapSpans, Stmt.mapSpans, hf _ _] using hmoved
  | @block opening closing next ts parts hopening hclosing _ hsequence ih =>
    have hmoved : IsConstruct _ (next.mapSpan f) _ :=
      IsConstruct.block (Token.kind_mapSpan hopening f) (Token.kind_mapSpan hclosing f) (List.forall_mem_map.2 ih)
      (hsequence.mapSpan (f := f))
    simpa [Construct.mapSpans, Block.mapSpans, StmtPart.mapSpans, hf _ _, Function.comp_def] using hmoved

end Moved

/-! ## At the beginning of a line -/

theorem modifyHead_append {α : Type} (g : α → α) {as bs : List α} (h : as ≠ []) :
    (as ++ bs).modifyHead g = as.modifyHead g ++ bs := by
  cases as with
  | nil => exact absurd rfl h
  | cons a as => rfl

section FirstLine

variable {L : Nat} {ts : List Token} {next : Token}

/-- Whether an expression begins a line does not matter. -/
theorem IsExpr.firstLine {e : Expr} (h : IsExpr L ts e) (newline : Bool) :
    IsExpr L (ts.modifyHead (Token.setLine newline)) e := by
  induction h with
  | atom h => exact .atom (t := Token.setLine newline _) h
  | group hopening hclosing h => exact .group (Token.kind_setLine hopening _) hclosing h
  | unit hopening hclosing => exact .unit (Token.kind_setLine hopening _) hclosing
  | tuple hopening hcomma hclosing hfirst hparts hlist =>
    exact .tuple (Token.kind_setLine hopening _) hcomma hclosing hfirst hparts hlist
  | array hopening hclosing hparts hlist =>
    exact .array (Token.kind_setLine hopening _) hclosing hparts hlist
  | map hopening hclosing hkeys hcolons hvalues hlist =>
    exact .map (Token.kind_setLine hopening _) hclosing hkeys hcolons hvalues hlist
  | call hcallee hopening hline hclosing hparts hlist ih =>
    rw [modifyHead_append _ hcallee.ne_nil]
    exact .call ih hopening hline hclosing hparts hlist
  | index htarget hopening hline hclosing hplace ih =>
    rw [modifyHead_append _ htarget.ne_nil]
    exact .index ih hopening hline hclosing hplace
  | unary ht h => exact .unary (t := Token.setLine newline _) ht h
  | binary hL ht hleft hright ih =>
    rw [modifyHead_append _ hleft.ne_nil]
    exact .binary hL ht ih hright
  | looser hL _ ih => exact .looser hL ih

/-- Whether a statement or a block begins a line does not matter. -/
theorem IsConstruct.firstLine {x : Construct} (h : IsConstruct ts next x) (newline : Bool) :
    IsConstruct (ts.modifyHead (Token.setLine newline)) next x := by
  cases h with
  | expr h hends hassign => exact .expr (h.firstLine newline) hends hassign
  | assign htarget hequals hvalue hends hs =>
    rw [modifyHead_append _ htarget.ne_nil]
    exact .assign (htarget.firstLine newline) hequals hvalue hends hs
  | define hstart ht htype hequals hvalue hends =>
    exact .define (Token.kind_setLine hstart _) ht htype hequals hvalue hends
  | delete hstart ht => exact .delete (Token.kind_setLine hstart _) ht
  | function hstart ht hparams htype hbody =>
    exact .function (Token.kind_setLine hstart _) ht hparams htype hbody
  | ifThen hstart hcondition hthen helse =>
    exact .ifThen (Token.kind_setLine hstart _) hcondition hthen helse
  | ifElse hstart hcondition hthen hother helse =>
    exact .ifElse (Token.kind_setLine hstart _) hcondition hthen hother helse
  | elseIf hstart hcondition hthen hother ht hnested =>
    exact .elseIf (Token.kind_setLine hstart _) hcondition hthen hother ht hnested
  | forEach hstart hnames hword hiterable hbody =>
    exact .forEach (Token.kind_setLine hstart _) hnames hword hiterable hbody
  | returnNothing hstart hends => exact .returnNothing (Token.kind_setLine hstart _) hends
  | returnValue hstart hline hvalue hends =>
    exact .returnValue (Token.kind_setLine hstart _) hline hvalue hends
  | block hopening hclosing hparts hsequence =>
    exact .block (Token.kind_setLine hopening _) hclosing hparts hsequence

end FirstLine

/-! ## Before another token -/

/-- No statement goes on with the token. -/
structure EndsStmt (t : Token) : Prop where
  expr : EndsExpr 0 t
  value : EndsReturn t
  assign : t.kind ≠ .symbol .assign
  other : t.kind ≠ .keyword .elseWord

theorem endsExpr_eof {L : Nat} {t : Token} (ht : t.kind = .eof) : EndsExpr L t := by
  have hstops : Stops 0 t.kind := ht ▸ stops_eof
  exact (hstops.mono (Nat.zero_le L)).endsExpr

theorem endsStmt_eof {t : Token} (ht : t.kind = .eof) : EndsStmt t :=
  ⟨endsExpr_eof ht, .inl ht, by rw [ht]; simp, by rw [ht]; simp⟩

/-- What is a statement before some token is one before any token that it does not go on with. -/
theorem IsConstruct.before {ts : List Token} {next last : Token} {x : Construct}
    (h : IsConstruct ts next x) (hends : EndsStmt last) : IsConstruct ts last x := by
  induction h with
  | expr h => exact .expr h hends.expr hends.assign
  | assign htarget hequals hvalue _ hs => exact .assign htarget hequals hvalue hends.expr hs
  | define hstart ht htype hequals hvalue => exact .define hstart ht htype hequals hvalue hends.expr
  | delete hstart ht => exact .delete hstart ht
  | function hstart ht hparams htype _ ih => exact .function hstart ht hparams htype ih
  | ifThen hstart hcondition _ _ ih => exact .ifThen hstart hcondition ih hends.other
  | ifElse hstart hcondition hthen hother _ _ ih => exact .ifElse hstart hcondition hthen hother ih
  | elseIf hstart hcondition hthen hother ht _ _ ih =>
    exact .elseIf hstart hcondition hthen hother ht ih
  | forEach hstart hnames hword hiterable _ ih => exact .forEach hstart hnames hword hiterable ih
  | returnNothing hstart => exact .returnNothing hstart hends.value
  | returnValue hstart hline hvalue => exact .returnValue hstart hline hvalue hends.expr
  | block hopening hclosing hparts hsequence => exact .block hopening hclosing hparts hsequence

/-- What is a statement before some token is one at the end of the text. -/
theorem IsConstruct.atEnd {ts : List Token} {next last : Token} {x : Construct}
    (h : IsConstruct ts next x) (hlast : last.kind = .eof) : IsConstruct ts last x :=
  h.before (endsStmt_eof hlast)

/-! ## Nothing else -/

/-- **Tokens make one statement at most.** -/
theorem IsConstruct.unique {ts : List Token} {next : Token} {s s' : Stmt}
    (h : IsConstruct ts next (.stmt s)) (h' : IsConstruct ts next (.stmt s')) : s = s' := by
  have hlen : ts.length < ts.length + 1 := Nat.lt_succ_self _
  obtain ⟨previous, hrun⟩ := takes_statementWithin ts h hlen [next] Span.nowhere rfl
  obtain ⟨previous', hrun'⟩ := takes_statementWithin ts h' hlen [next] Span.nowhere rfl
  rw [hrun] at hrun'
  cases hrun'
  rfl

end Nikl
