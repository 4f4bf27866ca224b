import Nikl.Proofs.Syntax.Grammar

/-
Where a program ends. The end of the text is a token like others, but no part of an expression or of a
statement. A program stops before such a token; so if it is the last token and the only one of its
kind, the program is all that stands before it.
-/

set_option autoImplicit false

namespace Nikl

open Nikl.Parser

/-- None of some tokens is the end of the text. -/
def EndFree (ts : List Token) : Prop := ∀ t ∈ ts, t.kind ≠ .eof

section EndFree

variable {ts us : List Token} {t : Token}

@[simp] theorem endFree_nil : EndFree [] := List.forall_mem_nil _

@[simp] theorem endFree_cons : EndFree (t :: ts) ↔ t.kind ≠ .eof ∧ EndFree ts := List.forall_mem_cons

@[simp] theorem endFree_append : EndFree (ts ++ us) ↔ EndFree ts ∧ EndFree us := List.forall_mem_append

/-- What stands for something is not the end of the text, if that stands for nothing. -/
theorem kind_ne_eof {α : Type} {f : TokenKind → Option α} {k : TokenKind} {a : α} (h : f k = some a)
    (hnone : f .eof = none) : k ≠ .eof := by
  rintro rfl
  rw [hnone] at h
  cases h

theorem opAt_eof (L : Nat) : opAt L .eof = none := by
  match L with
  | 0 | 1 | _ + 2 => rfl

theorem Listed.endFree {α : Type} {parts : List (List Token × α)} (h : Listed parts ts)
    (hparts : ∀ p ∈ parts, EndFree p.1) : EndFree ts := by
  induction h with
  | nil => exact endFree_nil
  | last part => exact hparts part (List.mem_singleton_self part)
  | cons part hcomma _ ih =>
    rw [List.forall_mem_cons] at hparts
    simp [hcomma, hparts.1, ih hparts.2]

/-- The end of the text is no part of an expression. -/
theorem IsExpr.endFree {L : Nat} {e : Expr} (h : IsExpr L ts e) : EndFree ts := by
  induction h with
  | @atom t e h =>
    have hend : t.kind ≠ .eof := kind_ne_eof (f := fun k => atom? k t.span) h rfl
    simp [hend]
  | group hopening hclosing _ ih => simp [hopening, hclosing, ih]
  | unit hopening hclosing => simp [hopening, hclosing]
  | tuple hopening hcomma hclosing _ _ hlist ih ihParts =>
    simp [hopening, hcomma, hclosing, ih, hlist.endFree ihParts]
  | array hopening hclosing _ hlist ih => simp [hopening, hclosing, hlist.endFree ih]
  | map hopening hclosing _ hcolons _ hlist ihKeys ihValues =>
    have hentries := hlist.endFree fun p hp => by
      obtain ⟨part, hpart, rfl⟩ := List.mem_map.1 hp
      simp [EntryPart.whole, hcolons part hpart, ihKeys part hpart, ihValues part hpart]
    simp [hopening, hclosing, hentries]
  | call _ hopening _ hclosing _ hlist ih ihParts =>
    simp [hopening, hclosing, ih, hlist.endFree ihParts]
  | index _ hopening _ hclosing _ ih ihPlace => simp [hopening, hclosing, ih, ihPlace]
  | unary ht _ ih => simp [kind_ne_eof ht rfl, ih]
  | binary _ ht _ _ ihLeft ihRight => simp [kind_ne_eof ht (opAt_eof _), ihLeft, ihRight]
  | looser _ _ ih => exact ih

theorem IsType.endFree {mark : Symbol} {type : Option TypeTag} (h : IsType mark ts type) : EndFree ts := by
  cases h with
  | absent => exact endFree_nil
  | given hm ht => simp [hm, kind_ne_eof ht rfl]

theorem IsParams.endFree {ps : List Param} (h : IsParams ts ps) : EndFree ts := by
  cases h with
  | mk hopening hclosing hparts hlist =>
    have hparams := hlist.endFree fun p hp => by
      obtain ⟨us, p⟩ := p
      cases hparts _ hp with
      | mk ht htype => simp [ht, htype.endFree]
    simp [hopening, hclosing, hparams]

theorem IsNames.endFree {first : String} {second : Option String} (h : IsNames ts first second) :
    EndFree ts := by
  cases h with
  | one ht => simp [ht]
  | two ht hcomma ht' => simp [ht, hcomma, ht']

theorem InSequence.endFree {last : Token} {parts : List StmtPart} (h : InSequence last parts ts)
    (hparts : ∀ p ∈ parts, EndFree p.tokens) : EndFree ts := by
  induction h with
  | nil => exact endFree_nil
  | semicolon ht _ ih => simp [ht, ih hparts]
  | cons part _ _ ih =>
    rw [List.forall_mem_cons] at hparts
    simp [hparts.1, ih hparts.2]

/-- The end of the text is no part of a statement or of a block. -/
theorem IsConstruct.endFree {next : Token} {x : Construct} (h : IsConstruct ts next x) : EndFree ts := by
  induction h with
  | expr h => exact h.endFree
  | assign htarget hequals hvalue => simp [hequals, htarget.endFree, hvalue.endFree]
  | define hstart ht htype hequals hvalue =>
    simp [hstart, ht, hequals, htype.endFree, hvalue.endFree]
  | delete hstart ht => simp [hstart, ht]
  | function hstart ht hparams htype _ ih => simp [hstart, ht, hparams.endFree, htype.endFree, ih]
  | ifThen hstart hcondition _ _ ih => simp [hstart, hcondition.endFree, ih]
  | ifElse hstart hcondition _ hother _ ihThen ihElse =>
    simp [hstart, hcondition.endFree, hother, ihThen, ihElse]
  | elseIf hstart hcondition _ hother _ _ ihThen ihNested =>
    rw [endFree_cons, endFree_append, endFree_append, endFree_cons, hstart, hother]
    simp [hcondition.endFree, ihThen, ihNested]
  | forEach hstart hnames hword hiterable _ ih =>
    simp [hstart, hnames.endFree, hword, hiterable.endFree, ih]
  | returnNothing hstart => simp [hstart]
  | returnValue hstart _ hvalue => simp [hstart, hvalue.endFree]
  | block hopening hclosing _ hsequence ih => simp [hopening, hclosing, hsequence.endFree ih]

end EndFree

/-! ## Where a program ends -/

/-- Behind the tokens of a program, the end of the text is the only token left. -/
theorem rest_of_only_end {ts us rest : List Token} {last : Token} (hts : EndFree ts) (hus : EndFree us)
    (hlast : last.kind = .eof) (hend : (firstOf rest).kind = .eof) (h : ts ++ [last] = us ++ rest) :
    us = ts ∧ rest = [last] := by
  rcases List.append_eq_append_iff.1 h with ⟨more, hus', hrest⟩ | ⟨more, hts', hrest⟩
  · -- `us` does not reach over the last token
    cases more with
    | nil =>
      simp only [List.append_nil, List.nil_append] at hus' hrest
      exact ⟨hus', hrest.symm⟩
    | cons t more =>
      simp only [List.cons_append, List.cons.injEq] at hrest
      rw [hus', endFree_append, endFree_cons, ← hrest.1] at hus
      exact absurd hlast hus.2.1
  · -- nor does it stop before
    cases more with
    | nil =>
      simp only [List.append_nil, List.nil_append] at hts' hrest
      exact ⟨hts'.symm, hrest⟩
    | cons t more =>
      rw [hts', endFree_append, endFree_cons] at hts
      rw [hrest] at hend
      exact absurd hend hts.2.1

/-- A program whose last token is the only end of the text: statements up to that token. -/
theorem IsProgram.upToEnd {ts : List Token} {last : Token} {b : Block} (hts : EndFree ts)
    (hlast : last.kind = .eof) (h : IsProgram (ts ++ [last]) b) :
    ∃ parts, (∀ p ∈ parts, IsConstruct p.tokens p.next (.stmt p.stmt)) ∧ InSequence last parts ts ∧
      b = .mk (parts.map (·.stmt)) ((firstOf (ts ++ [last])).span.merge last.span) := by
  generalize htokens : ts ++ [last] = tokens at h
  obtain @⟨us, rest, parts, hend, hparts, hseq⟩ := h
  have hus : EndFree us := hseq.endFree fun p hp => (hparts p hp).endFree
  obtain ⟨rfl, rfl⟩ := rest_of_only_end hts hus hlast hend htokens
  exact ⟨parts, hparts, hseq, rfl⟩

end Nikl
