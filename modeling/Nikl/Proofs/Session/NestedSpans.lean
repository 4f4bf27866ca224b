import Nikl.Proofs.Session.Reading
import Nikl.Proofs.Syntax.EndOfText
import Nikl.Proofs.Syntax.Parts
import Nikl.Proofs.Syntax.Soundness

/-
The spans of a program nest like its tree. A part covers the bytes of its tokens from the first to the
last, and the parts under it are made of some of these, one behind the other. So a part lies in the one
it is under, parts side by side do not overlap, and their order is that of the text.

Only a program without a token covers nothing. It stands where the source ends, and so does the end of
any other: a program reaches up to the end of its source, whatever stands behind the last statement.
-/

set_option autoImplicit false

namespace Nikl

open Nikl.Parser
open Source

/-- How a part stands in a source of `size` bytes and among its tokens. -/
structure Nested (size : Nat) (tokens : List Token) (p : Part) : Prop where
  starts : ∃ t ∈ tokens, p.span.start = t.span.start
  stops : ∃ t ∈ tokens, p.span.stop = t.span.stop
  inSource : p.span.stop ≤ size
  inside : ∀ q ∈ p.children, p.span.start ≤ q.span.start ∧ q.span.stop ≤ p.span.stop
  ordered : p.children.Pairwise fun a b => a.span.stop ≤ b.span.start

/-- No two tokens overlap, and they stand in the order of the text. -/
def Apart (ts : List Token) : Prop := ts.Pairwise fun a b => a.span.stop ≤ b.span.start

/-- Tokens as they are read from a source of `size` bytes: in order and apart, none empty but the end of
the text, none behind the source. -/
structure Standing (size : Nat) (tokens : List Token) : Prop where
  inOrder : InOrder tokens
  apart : Apart tokens
  solid : ∀ t ∈ tokens, t.kind ≠ .eof → t.span.start < t.span.stop
  inSource : ∀ t ∈ tokens, t.span.stop ≤ size

/-- A place from where the first of some tokens starts to where the last of them stops. -/
structure Extent (ts : List Token) (s : Span) : Prop where
  first : ∃ t ∈ ts.head?, s.start = t.span.start
  last : ∃ t ∈ ts.getLast?, s.stop = t.span.stop

/-! ## What tokens cover -/

section Covering

variable {ts own tokens : List Token} {first last t : Token} {s s' : Span}

theorem Bounds.extent (h : Bounds ts s) : Extent ts s := by
  obtain ⟨t, ht, hstop, -⟩ := h.last
  exact ⟨h.first, t, ht, hstop⟩

/-- No token starts before the first. -/
theorem InOrder.first_le (h : InOrder ts) (hfirst : first ∈ ts.head?) (ht : t ∈ ts) :
    first.span.start ≤ t.span.start := by
  obtain ⟨behind, rfl⟩ := List.head?_eq_some_iff.1 hfirst
  by_cases heq : t = first
  · rw [heq]
  · have hbehind : t ∈ behind := by simpa [heq] using ht
    exact ((List.pairwise_cons.1 h).1 t hbehind).1

/-- No token stops behind the last. -/
theorem InOrder.le_last (h : InOrder ts) (hlast : last ∈ ts.getLast?) (ht : t ∈ ts) :
    t.span.stop ≤ last.span.stop := by
  obtain ⟨before, rfl⟩ := List.getLast?_eq_some_iff.1 hlast
  by_cases heq : t = last
  · rw [heq]
  · have hbefore : t ∈ before := by simpa [heq] using ht
    exact ((List.pairwise_append.1 h).2.2 t hbefore last (List.mem_singleton_self last)).2

/-- What some of the tokens cover lies in what all of them cover. -/
theorem Extent.inside (h : Extent ts s) (hown : Extent own s') (hwithin : own <:+: ts)
    (horder : InOrder ts) : s.start ≤ s'.start ∧ s'.stop ≤ s.stop := by
  obtain ⟨first, hfirst, hstart⟩ := h.first
  obtain ⟨last, hlast, hstop⟩ := h.last
  obtain ⟨first', hfirst', hstart'⟩ := hown.first
  obtain ⟨last', hlast', hstop'⟩ := hown.last
  have hle := horder.first_le hfirst (hwithin.subset (List.mem_of_mem_head? hfirst'))
  have hle' := horder.le_last hlast (hwithin.subset (List.mem_of_mem_getLast? hlast'))
  omega

/-- Tokens cover something, since the last of them does. -/
theorem Bounds.start_lt_stop (h : Bounds ts s) (horder : InOrder ts)
    (hsolid : ∀ t ∈ ts, t.kind ≠ .eof → t.span.start < t.span.stop) : s.start < s.stop := by
  obtain ⟨first, hfirst, hstart⟩ := h.first
  obtain ⟨last, hlast, hstop, hkind⟩ := h.last
  have hmem := List.mem_of_mem_getLast? hlast
  have hle := horder.first_le hfirst hmem
  have hlt := hsolid last hmem hkind
  omega

/-- The tokens of a source that is not too long. The end of the text is the last of them, and no other. -/
theorem standing_of_lex {source : String} (hlex : lex source = .ok tokens)
    (hsize : byteLength source.toList < 2 ^ 32) :
    Standing (byteLength source.toList) tokens ∧
      ∃ ts last, tokens = ts ++ [last] ∧ last.kind = .eof ∧ EndFree ts := by
  have htiles : Tiles 0 false source.toList tokens := lexFrom_eq_ok_iff.1 hlex
  have hmax : 0 + byteLength source.toList ≤ Span.maxOffset := by
    rw [Nat.zero_add]
    exact Nat.le_of_lt_succ hsize
  have horder := htiles.inOrder
  have hapart := (htiles.ordered hmax).imp And.right
  have hsolid := htiles.start_lt_stop hmax
  obtain ⟨ts, flag, rfl, hts⟩ := htiles.ends
  refine ⟨⟨horder, hapart, hsolid, fun t ht => ?_⟩, ts, _, rfl, rfl, hts⟩
  have hle := horder.le_last List.getLast?_concat ht
  simp only [Token.endAt, Span.ofRange] at hle
  omega

end Covering

/-! ## The parts under a part -/

section Parts

variable {ts tokens : List Token} {ps : List Part} {p : Part} {program : Block} {size : Nat}

/-- Parts behind each other do not overlap. -/
theorem Laid.ordered (h : Laid ts ps) (horder : InOrder ts) (hapart : Apart ts) :
    ps.Pairwise fun a b => a.span.stop ≤ b.span.start := by
  induction h with
  | nil => exact .nil
  | @cons before own behind p ps hp hps ih =>
    have horder' : InOrder (own ++ behind) := horder.right
    obtain ⟨-, hbehind, hcross⟩ := List.pairwise_append.1 (List.pairwise_append.1 hapart).2.1
    refine List.pairwise_cons.2 ⟨fun q hq => ?_, ih horder'.right hbehind⟩
    -- the last token of `p` stands before the first one of `q`
    obtain ⟨piece, hpiece, hq⟩ := hps.found q hq
    obtain ⟨last, hlast, hstop⟩ := (hp.bounds horder'.left).extent.last
    obtain ⟨first, hfirst, hstart⟩ := (hq.bounds (horder'.right.within hpiece)).extent.first
    have hlt := hcross last (List.mem_of_mem_getLast? hlast) first
      (hpiece.subset (List.mem_of_mem_head? hfirst))
    omega

/-- A part nests if it covers its tokens and what is under it is laid out in them. -/
theorem Laid.nested (h : Laid ts p.children) (hextent : Extent ts p.span) (hts : ts <:+: tokens)
    (htokens : Standing size tokens) : Nested size tokens p := by
  have horder : InOrder ts := htokens.inOrder.within hts
  obtain ⟨first, hfirst, hstart⟩ := hextent.first
  obtain ⟨last, hlast, hstop⟩ := hextent.last
  have hmem := hts.subset (List.mem_of_mem_getLast? hlast)
  refine ⟨⟨first, hts.subset (List.mem_of_mem_head? hfirst), hstart⟩, ⟨last, hmem, hstop⟩, ?_, ?_, ?_⟩
  · rw [hstop]
    exact htokens.inSource last hmem
  · intro q hq
    obtain ⟨own, hown, hmade⟩ := h.found q hq
    exact hextent.inside (hmade.bounds (horder.within hown)).extent hown horder
  · exact h.ordered horder (htokens.apart.sublist hts.sublist)

/-- A part that is made of tokens nests, and is not empty. -/
theorem Part.MadeOf.nested (h : p.MadeOf ts) (hts : ts <:+: tokens) (htokens : Standing size tokens) :
    Nested size tokens p ∧ p.span.start < p.span.stop := by
  have horder := htokens.inOrder.within hts
  have hbounds := h.bounds horder
  exact ⟨h.laid.nested hbounds.extent hts htokens,
    hbounds.start_lt_stop horder fun t ht => htokens.solid t (hts.subset ht)⟩

/-- Every part under a program is made of some of its tokens. -/
theorem Part.Within.found (hlaid : Laid tokens (Part.block program).children)
    (h : Part.Within (.block program) p) :
    p = .block program ∨ ∃ ts, ts <:+: tokens ∧ p.MadeOf ts := by
  induction h with
  | root => exact .inl rfl
  | child hq _ ih =>
    right
    rcases ih with rfl | ⟨ts, hts, hmade⟩
    · exact hlaid.found _ hq
    · obtain ⟨own, hown, hmade'⟩ := hmade.laid.found _ hq
      exact ⟨own, hown.trans hts, hmade'⟩

/-- A program nests, though it is not made of its tokens: it reaches over the end of the text. It is not
empty if there are other tokens. -/
theorem IsProgram.nested {last : Token} (h : IsProgram (ts ++ [last]) program) (hts : EndFree ts)
    (hlast : last.kind = .eof) (htokens : Standing size (ts ++ [last])) :
    Laid (ts ++ [last]) (Part.block program).children ∧ Nested size (ts ++ [last]) (.block program) ∧
      (ts ≠ [] → program.span.start < program.span.stop) := by
  obtain ⟨parts, hparts, hseq, rfl⟩ := h.upToEnd hts hlast
  have hlaid := (hseq.laid hparts).before [last]
  have hfirst : firstOf (ts ++ [last]) ∈ (ts ++ [last]).head? := by
    cases ts <;> rfl
  have hend : last ∈ (ts ++ [last]).getLast? := List.getLast?_concat
  have hstart := htokens.inOrder.first_le hfirst (List.mem_of_mem_getLast? hend)
  have hstop := htokens.inOrder.le_last hend (List.mem_of_mem_head? hfirst)
  refine ⟨hlaid, hlaid.nested ⟨⟨_, hfirst, ?_⟩, last, hend, ?_⟩ List.infix_rfl htokens, fun hne => ?_⟩
  · simp only [Part.span, Block.span, Span.merge_start]
    omega
  · simp only [Part.span, Block.span, Span.merge_stop]
    omega
  · -- the first token is not empty, and the program reaches over it
    obtain ⟨first, ts, rfl⟩ := List.exists_cons_of_ne_nil hne
    have hlt := htokens.solid first (by simp) (hts first (by simp))
    simp only [Block.span, Span.merge_start, Span.merge_stop, firstOf, List.cons_append,
      List.headD_cons] at hstop ⊢
    omega

end Parts

/-- **Spans nest and are ordered.** Each part of a program lies on the boundaries of tokens, it lies in
the part it is under, and of the parts under it each ends before the next one begins. None is empty but
a program without any token but the end of the text. -/
theorem spans_nest {source : String} {program : Block} (h : programOf source = .ok program)
    (hsize : byteLength source.toList < 2 ^ 32) :
    ∃ tokens, lex source = .ok tokens ∧ ∀ p, Part.Within (.block program) p →
      Nested (byteLength source.toList) tokens p ∧
        (p.span.start < p.span.stop ∨ p = .block program ∧ ∃ last, tokens = [last]) := by
  obtain ⟨tokens, hlex, hparse⟩ := programOf_eq_ok_iff.1 h
  obtain ⟨htokens, ts, last, rfl, hlast, hts⟩ := standing_of_lex hlex hsize
  obtain ⟨hlaid, hnested, hsolid⟩ := (isProgram_of_parse hparse).nested hts hlast htokens
  refine ⟨_, hlex, fun p hp => ?_⟩
  rcases Part.Within.found hlaid hp with rfl | ⟨own, hown, hmade⟩
  · refine ⟨hnested, ?_⟩
    by_cases hnone : ts = []
    · exact .inr ⟨rfl, last, by simp [hnone]⟩
    · exact .inl (hsolid hnone)
  · obtain ⟨hnested', hsolid'⟩ := hmade.nested hown htokens
    exact ⟨hnested', .inl hsolid'⟩

/-- `fn f(a: Int) { return (a) }` with a comment behind it. -/
def commented : String := "fn f(a: Int) \x7b return (a) \x7d // x"

def commentedTokens : List Token :=
  [⟨.keyword .fnWord, ⟨0, 2⟩, false⟩, ⟨.ident "f", ⟨3, 4⟩, false⟩, ⟨.symbol .leftParen, ⟨4, 5⟩, false⟩,
   ⟨.ident "a", ⟨5, 6⟩, false⟩, ⟨.symbol .colon, ⟨6, 7⟩, false⟩, ⟨.typeName .int, ⟨8, 11⟩, false⟩,
   ⟨.symbol .rightParen, ⟨11, 12⟩, false⟩, ⟨.symbol .leftBrace, ⟨13, 14⟩, false⟩,
   ⟨.keyword .returnWord, ⟨15, 21⟩, false⟩, ⟨.symbol .leftParen, ⟨22, 23⟩, false⟩,
   ⟨.ident "a", ⟨23, 24⟩, false⟩, ⟨.symbol .rightParen, ⟨24, 25⟩, false⟩,
   ⟨.symbol .rightBrace, ⟨26, 27⟩, false⟩, ⟨.eof, ⟨32, 32⟩, false⟩]

def commentedProgram : Block :=
  let body : Block := .mk [.giveBack (some (.ident "a" ⟨22, 25⟩)) ⟨15, 25⟩] ⟨13, 27⟩
  .mk [.function (.mk "f" [⟨"a", some .int, ⟨5, 6⟩⟩] none body ⟨0, 27⟩) ⟨0, 27⟩] ⟨0, 32⟩

/-- The parentheses belong to what is given back, and the comment to the program. -/
theorem spans_nest_commented :
    programOf commented = .ok commentedProgram ∧ byteLength commented.toList < 2 ^ 32 ∧
      ∃ tokens, lex commented = .ok tokens ∧ ∀ p, Part.Within (.block commentedProgram) p →
        Nested (byteLength commented.toList) tokens p ∧
          (p.span.start < p.span.stop ∨ p = .block commentedProgram ∧ ∃ last, tokens = [last]) := by
  have hlex : lex commented = .ok commentedTokens := by decide +kernel
  have hprogram : programOf commented = .ok commentedProgram :=
    programOf_eq_ok_iff.2 ⟨commentedTokens, hlex, rfl⟩
  have hsize : byteLength commented.toList < 2 ^ 32 := by decide +kernel
  exact ⟨hprogram, hsize, spans_nest hprogram hsize⟩

end Nikl
