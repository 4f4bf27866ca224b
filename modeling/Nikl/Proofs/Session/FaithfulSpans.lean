import Nikl.Proofs.Session.Reading
import Nikl.Proofs.Syntax.Locality
import Nikl.Proofs.Syntax.Nodes

/-
The bytes that a node is said to cover are the node. Cut out of the source and read on their own, they are
a program of one statement: the node, or the statement that is the node, as far from the beginning of the
piece as it is from where the node begins.

The tokens of a node stand next to each other, and it covers them and no more. So cutting it out leaves
just its tokens, and they make the same tree as before, since what they make depends on nothing else.

Offsets that are too large for a span are cut. A node that reaches past the largest offset is not said to
end where it ends, and cannot be cut out.
-/

set_option autoImplicit false

namespace Nikl

open Nikl.Parser
open Source

/-- The bytes that a node covers can be read on their own, and are the node. -/
def Faithful (source : String) (n : Node) : Prop :=
  ∃ piece program s, slice? source.toList n.span.start n.span.stop = some piece ∧
    programOf (String.ofList piece) = .ok program ∧ program.stmts = [s] ∧
      s.mapSpans (Span.forth n.span.start) = n.asStmt

/-! ## Places -/

/-- A place behind byte `n` is where it was when it is moved back and forth. -/
theorem forth_back {n : Nat} {s : Span} (hstart : n ≤ s.start) (hstop : n ≤ s.stop) :
    (s.back n).forth n = s := by
  obtain ⟨start, stop⟩ := s
  simp only [Span.back, Span.forth, Span.mk.injEq]
  dsimp only at hstart hstop
  omega

/-! ## A node on its own -/

section Alone

variable {ts : List Token} {n : Node} {last : Token}

/-- Before the end of the text, the tokens of a node make a statement. -/
theorem MadeOf.asStmt (h : MadeOf ts n) (hlast : last.kind = .eof) :
    IsConstruct ts last (.stmt n.asStmt) := by
  cases n with
  | expr e => exact .expr h (endsExpr_eof hlast) (by rw [hlast]; simp)
  | stmt s =>
    obtain ⟨next, h⟩ := h
    exact h.atEnd hlast

/-- A statement with nothing behind it is a program. -/
theorem isProgram_of_stmt {s : Stmt} (hlast : last.kind = .eof) (h : IsConstruct ts last (.stmt s)) :
    ∃ span, IsProgram (ts ++ [last]) (.mk [s] span) := by
  have hend : (firstOf [last]).kind = .eof := hlast
  have hparts : ∀ p ∈ [StmtPart.mk ts last s], IsConstruct p.tokens p.next (.stmt p.stmt) := by
    simpa using h
  have hseq : InSequence last [⟨ts, last, s⟩] (ts ++ []) := .cons _ rfl .nil
  rw [List.append_nil] at hseq
  exact ⟨_, .mk hend hparts hseq⟩

/-- **In another place and on a line of their own, the tokens of a node are a program**: the node in
that place. -/
theorem MadeOf.parse {f : Span → Span} (hf : KeepsMerge f) (h : MadeOf ts n) (hlast : last.kind = .eof) :
    ∃ program, parse ((ts.modifyHead Token.onLine).map (Token.mapSpan f) ++ [last]) = .ok program ∧
      program.stmts = [n.asStmt.mapSpans f] := by
  have hmoved := ((h.asStmt hlast).firstLine false).mapSpan hf
  obtain ⟨span, hprogram⟩ := isProgram_of_stmt hlast (hmoved.atEnd hlast)
  exact ⟨_, parse_of_isProgram hprogram, rfl⟩

/-- Moved back and forth, the tokens of a node make what they made. -/
theorem MadeOf.forth_back {k : Nat} (h : MadeOf ts n)
    (hts : ∀ t ∈ ts, (t.span.back k).forth k = t.span) :
    (n.asStmt.mapSpans (Span.back k)).mapSpans (Span.forth k) = n.asStmt := by
  have hlast : (Token.endAt 0 false : Token).kind = .eof := rfl
  have hplain := h.asStmt hlast
  have hmoved := (hplain.mapSpan (keepsMerge_back k)).mapSpan (keepsMerge_forth k)
  have hsame : (ts.map (Token.mapSpan (Span.back k))).map (Token.mapSpan (Span.forth k)) = ts := by
    rw [List.map_map]
    refine (List.map_congr_left fun t ht => ?_).trans (List.map_id ts)
    exact congrArg (fun s => { t with span := s }) (hts t ht)
  rw [hsame] at hmoved
  exact (hmoved.atEnd rfl).unique hplain

end Alone

/-! ## A node in its source -/

/-- The end of the text is none of some tokens, so there are tokens behind them. -/
theorem Tiles.ne_nil_of_last {offset : Nat} {newline : Bool} {text : List Char}
    {earlier ts later : List Token} {last : Token}
    (h : Tiles offset newline text (earlier ++ (ts ++ later))) (hlast : last ∈ ts.getLast?)
    (hend : last.kind ≠ .eof) : later ≠ [] := by
  rintro rfl
  obtain ⟨us, flag, hus, -⟩ := h.ends
  have hsame := congrArg List.getLast? hus
  rw [List.append_nil, List.getLast?_append, Option.mem_def.1 hlast, Option.some_or,
    List.getLast?_concat] at hsame
  rw [Option.some.inj hsame] at hend
  exact hend rfl

/-- A node whose place in the source is not cut. -/
theorem faithful_of_cut {front piece back : List Char} {first : Token} {ts : List Token} {n : Node}
    (hmade : MadeOf (first :: ts) n) (hspan : n.span = ⟨byteLength front, byteLength (front ++ piece)⟩)
    (hbehind : ∀ t ∈ first :: ts, byteLength front ≤ t.span.start ∧ t.span.start ≤ t.span.stop)
    (htiles : Tiles 0 false piece
      ((first.onLine :: ts).map (Token.mapSpan (Span.back (byteLength front))) ++
        [Token.endAt (byteLength piece) false])) :
    Faithful (String.ofList (front ++ piece ++ back)) n := by
  have hlast : (Token.endAt (byteLength piece) false : Token).kind = .eof := rfl
  obtain ⟨program, hparse, hstmts⟩ := hmade.parse (keepsMerge_back (byteLength front)) hlast
  have hlex : lex (String.ofList piece) = .ok ((first.onLine :: ts).map (Token.mapSpan
      (Span.back (byteLength front))) ++ [Token.endAt (byteLength piece) false]) := by
    rw [lex, String.toList_ofList]
    exact lexFrom_eq_ok_iff.2 htiles
  refine ⟨piece, program, n.asStmt.mapSpans (Span.back (byteLength front)), ?_,
    programOf_eq_ok_iff.2 ⟨_, hlex, hparse⟩, hstmts, ?_⟩
  · rw [hspan, String.toList_ofList]
    exact slice?_append front piece back
  · rw [hspan]
    refine hmade.forth_back fun t ht => ?_
    obtain ⟨hstart, hstop⟩ := hbehind t ht
    exact Nikl.forth_back hstart (Nat.le_trans hstart hstop)

/-- **Spans are faithful.** Every expression and statement of a program, at any depth, covers bytes that
can be cut out of the source and read on their own, and what is read is that expression or statement. The
source is no longer than offsets go, or else the node ends before the largest offset. -/
theorem spans_faithful {source : String} {program : Block} {n : Node}
    (h : programOf source = .ok program) (hn : program.HasNode n)
    (hfits : byteLength source.toList ≤ Span.maxOffset ∨ n.span.stop < Span.maxOffset) :
    Faithful source n := by
  obtain ⟨tokens, hlex, hparse⟩ := programOf_eq_ok_iff.1 h
  have htiles : Tiles 0 false source.toList tokens := lexFrom_eq_ok_iff.1 hlex
  obtain ⟨ts, ⟨earlier, later, rfl⟩, hmade⟩ := (isProgram_of_parse hparse).foundIn hn
  have horder : InOrder ts := htiles.inOrder.within ⟨earlier, later, rfl⟩
  rw [List.append_assoc] at htiles
  obtain ⟨⟨first, hfirst, hstart⟩, last, hlast, hstop, hend⟩ := hmade.bounds horder
  obtain ⟨u, later, rfl⟩ := List.exists_cons_of_ne_nil (htiles.ne_nil_of_last hlast hend)
  obtain ⟨ts, rfl⟩ : ∃ ts', ts = first :: ts' := List.head?_eq_some_iff.1 hfirst
  obtain ⟨front, piece, back, hsource, hfront, hpiece, hcut⟩ := htiles.cut hlast
  have hsize : byteLength (front ++ piece) ≤ Span.maxOffset := by
    rw [hstop, hpiece, hsource, byteLength_append (front ++ piece)] at hfits
    omega
  have hle := hsize
  rw [byteLength_append] at hle
  have hspan : n.span = ⟨byteLength front, byteLength (front ++ piece)⟩ := by
    rw [Nat.min_eq_left (by omega)] at hfront
    rw [Nat.min_eq_left hsize] at hpiece
    rw [← hpiece, ← hfront, ← hstart, ← hstop]
  rw [← String.ofList_toList (s := source), hsource]
  refine faithful_of_cut hmade hspan (fun t ht => ⟨?_, ?_⟩) (hcut hsize)
  · -- the first token of the node starts where the node does, and the others stand behind it
    have hge : first.span.start ≤ t.span.start := by
      rcases List.mem_cons.1 ht with rfl | ht
      · exact Nat.le_refl _
      · exact ((List.pairwise_cons.1 horder).1 t ht).1
    omega
  · exact htiles.start_le_stop t (List.mem_append_right _ (List.mem_append_left _ ht))

/-- `if a { xs[(i)] = 1 } else if b { return (f` on one line and `) }` on the next. -/
def branches : String := "if a \x7b xs[(i)] = 1 \x7d else if b \x7b return (f\n) \x7d"

/-- The value that the second branch gives back, with its parentheses. -/
def givenBack : Expr := .ident "f" ⟨40, 44⟩

def secondBranch : Stmt :=
  .ifThen (.ident "b" ⟨29, 30⟩) (.mk [.giveBack (some givenBack) ⟨33, 44⟩] ⟨31, 46⟩) ⟨26, 46⟩

def branchesProgram : Block :=
  let assigned : Stmt :=
    .assignIndex (.ident "xs" ⟨7, 9⟩) (.ident "i" ⟨10, 13⟩) (.literal (.int 1) ⟨17, 18⟩) ⟨7, 18⟩
  .mk
    [.ifElse (.ident "a" ⟨3, 4⟩) (.mk [assigned] ⟨5, 20⟩) (.mk [secondBranch] ⟨26, 46⟩) ⟨0, 46⟩]
    ⟨0, 46⟩

def branchesTokens : List Token :=
  [⟨.keyword .ifWord, ⟨0, 2⟩, false⟩, ⟨.ident "a", ⟨3, 4⟩, false⟩, ⟨.symbol .leftBrace, ⟨5, 6⟩, false⟩,
   ⟨.ident "xs", ⟨7, 9⟩, false⟩, ⟨.symbol .leftBracket, ⟨9, 10⟩, false⟩,
   ⟨.symbol .leftParen, ⟨10, 11⟩, false⟩, ⟨.ident "i", ⟨11, 12⟩, false⟩,
   ⟨.symbol .rightParen, ⟨12, 13⟩, false⟩, ⟨.symbol .rightBracket, ⟨13, 14⟩, false⟩,
   ⟨.symbol .assign, ⟨15, 16⟩, false⟩, ⟨.int 1, ⟨17, 18⟩, false⟩, ⟨.symbol .rightBrace, ⟨19, 20⟩, false⟩,
   ⟨.keyword .elseWord, ⟨21, 25⟩, false⟩, ⟨.keyword .ifWord, ⟨26, 28⟩, false⟩,
   ⟨.ident "b", ⟨29, 30⟩, false⟩, ⟨.symbol .leftBrace, ⟨31, 32⟩, false⟩,
   ⟨.keyword .returnWord, ⟨33, 39⟩, false⟩, ⟨.symbol .leftParen, ⟨40, 41⟩, false⟩,
   ⟨.ident "f", ⟨41, 42⟩, false⟩, ⟨.symbol .rightParen, ⟨43, 44⟩, true⟩,
   ⟨.symbol .rightBrace, ⟨45, 46⟩, false⟩, ⟨.eof, ⟨46, 46⟩, false⟩]

theorem spans_faithful_branches :
    programOf branches = .ok branchesProgram ∧ branchesProgram.HasNode (.expr givenBack) ∧
      Faithful branches (.expr givenBack) := by
  have hlex : lex branches = .ok branchesTokens := by decide +kernel
  have hprogram : programOf branches = .ok branchesProgram :=
    programOf_eq_ok_iff.2 ⟨branchesTokens, hlex, rfl⟩
  have hnode : branchesProgram.HasNode (.expr givenBack) := by
    refine ⟨_, List.mem_singleton_self _, ?_⟩
    refine .child (n := .stmt (.giveBack (some givenBack) ⟨33, 44⟩)) (List.mem_singleton_self _) ?_
    refine .child (n := .stmt secondBranch) ?_ (.child ?_ .root)
    · exact List.mem_cons_of_mem _ (List.mem_singleton_self _)
    · simp [Node.children, Block.stmts]
  exact ⟨hprogram, hnode, spans_faithful hprogram hnode (.inr (by decide))⟩

/-- A name at the largest offset is said to cover no bytes, and so it is not what its bytes are. -/
theorem not_faithful_far :
    ∃ program, programOf (String.ofList (blankText 4294967295 ++ ['x'])) = .ok program ∧
      program.HasNode (.expr (.ident "x" ⟨4294967295, 4294967295⟩)) ∧
      ¬ Faithful (String.ofList (blankText 4294967295 ++ ['x']))
        (.expr (.ident "x" ⟨4294967295, 4294967295⟩)) := by
  obtain ⟨program, hprogram, hstmts⟩ := programOf_gap_name (.blankText 4294967295 ['x'])
  rw [byteLength_blankText] at hstmts
  refine ⟨program, hprogram, ⟨_, hstmts ▸ List.mem_singleton_self _, ?_⟩, ?_⟩
  · exact .child (List.mem_singleton_self _) .root
  rintro ⟨piece, cut, s, hpiece, hcut, hsingle, -⟩
  have hempty := slice?_append (blankText 4294967295) [] ['x']
  rw [List.append_nil, byteLength_blankText] at hempty
  replace hpiece : slice? (String.ofList (blankText 4294967295 ++ ['x'])).toList 4294967295 4294967295 =
    some piece := hpiece
  rw [String.toList_ofList, hempty] at hpiece
  cases hpiece
  -- there is no statement in no text
  have hlex : lex (String.ofList []) = .ok [Token.endAt 0 false] := by decide +kernel
  have hnone : programOf (String.ofList []) = .ok (.mk [] ⟨0, 0⟩) := programOf_eq_ok_iff.2 ⟨_, hlex, rfl⟩
  cases hnone.symm.trans hcut
  cases hsingle

end Nikl
