import Nikl.Proofs.Session.Reading
import Nikl.Proofs.Syntax.EndOfText
import Nikl.Proofs.Syntax.Locality
import Nikl.Proofs.Token.ErrorPlaces
import Nikl.Proofs.Token.Joining

/-
Consecutive lines do not fuse. A statement has no mark at its end; it ends where the token behind it does
not go on with it. At the beginning of a line only an operator goes on with an expression, only `=` with
what is assigned to, only `else` with an `if`, and nothing with a `return`. Of the tokens that begin a
statement one alone is among these: the minus sign. So two sources that can each be read can be read
together, a line feed between them, and what is read is the statements of one and then those of the other.
-/

set_option autoImplicit false

namespace Nikl

open Nikl.Parser
open Source

/-! ## Statements in sequence -/

/-- Statements one after another, before the token `last`, and their tokens. -/
inductive IsStmts (last : Token) : List Token → List Stmt → Prop where
  | nil : IsStmts last [] []
  | semicolon {t : Token} {ts : List Token} {ss : List Stmt} (ht : t.kind = .symbol .semicolon) :
    IsStmts last ts ss → IsStmts last (t :: ts) ss
  | cons {ts ts' : List Token} {s : Stmt} {ss : List Stmt}
    (h : IsConstruct ts (ts'.headD last) (.stmt s)) :
    IsStmts last ts' ss → IsStmts last (ts ++ ts') (s :: ss)

theorem InSequence.isStmts {last : Token} {parts : List StmtPart} {ts : List Token}
    (h : InSequence last parts ts) (hparts : ∀ p ∈ parts, IsConstruct p.tokens p.next (.stmt p.stmt)) :
    IsStmts last ts (parts.map (·.stmt)) := by
  induction h with
  | nil => exact .nil
  | semicolon ht _ ih => exact .semicolon ht (ih hparts)
  | cons part hnext _ ih =>
    rw [List.forall_mem_cons] at hparts
    exact .cons (hnext ▸ hparts.1) (ih hparts.2)

namespace IsStmts

variable {last last' : Token} {ts ts' : List Token} {ss ss' : List Stmt}

theorem parts (h : IsStmts last ts ss) :
    ∃ parts : List StmtPart, parts.map (·.stmt) = ss ∧
      (∀ p ∈ parts, IsConstruct p.tokens p.next (.stmt p.stmt)) ∧ InSequence last parts ts := by
  induction h with
  | nil => exact ⟨[], rfl, nofun, .nil⟩
  | semicolon ht _ ih =>
    obtain ⟨parts, hstmts, hparts, hseq⟩ := ih
    exact ⟨parts, hstmts, hparts, .semicolon ht hseq⟩
  | @cons ts ts' s ss h _ ih =>
    obtain ⟨parts, rfl, hparts, hseq⟩ := ih
    exact ⟨⟨ts, ts'.headD last, s⟩ :: parts, rfl, List.forall_mem_cons.2 ⟨h, hparts⟩, .cons _ rfl hseq⟩

/-- What is read to the end of the text is statements in sequence, and nothing else. -/
theorem of_parse {b : Block} (hts : EndFree ts) (hlast : last.kind = .eof)
    (h : Nikl.parse (ts ++ [last]) = .ok b) : IsStmts last ts b.stmts := by
  obtain ⟨parts, hparts, hseq, rfl⟩ := (isProgram_of_parse h).upToEnd hts hlast
  exact hseq.isStmts hparts

theorem parse (hlast : last.kind = .eof) (h : IsStmts last ts ss) :
    ∃ b, Nikl.parse (ts ++ [last]) = .ok b ∧ b.stmts = ss := by
  obtain ⟨parts, rfl, hparts, hseq⟩ := h.parts
  have hend : (firstOf [last]).kind = .eof := hlast
  exact ⟨_, parse_of_isProgram (.mk hend hparts hseq), rfl⟩

/-- **Statements in two sequences are statements in one**, if the second does not begin with a token that
goes on with a statement. -/
theorem append (h : IsStmts last ts ss) (h' : IsStmts last' ts' ss')
    (hends : EndsStmt (ts'.headD last')) : IsStmts last' (ts ++ ts') (ss ++ ss') := by
  induction h with
  | nil => exact h'
  | semicolon ht _ ih => exact .semicolon ht ih
  | @cons ts us s ss h _ ih =>
    rw [List.append_assoc]
    refine .cons ?_ ih
    -- only the last statement gets another token behind it
    cases us with
    | nil => exact h.before hends
    | cons u us => exact h

theorem mapSpan {f : Span → Span} (hf : KeepsMerge f) (h : IsStmts last ts ss) :
    IsStmts (last.mapSpan f) (ts.map (Token.mapSpan f)) (ss.map (Stmt.mapSpans f)) := by
  induction h with
  | nil => exact .nil
  | semicolon ht _ ih => exact .semicolon (t := Token.mapSpan f _) ht ih
  | @cons ts us s ss h _ ih =>
    rw [List.map_append]
    refine .cons ?_ ih
    have hmoved := h.mapSpan hf
    cases us with
    | nil => exact hmoved
    | cons u us => exact hmoved

theorem eq_nil (h : IsStmts last [] ss) : ss = [] := by
  generalize hall : [] = all at h
  cases h with
  | nil => rfl
  | semicolon => cases hall
  | cons h =>
    obtain ⟨u, us, rfl, -⟩ := stmt_begins h
    cases hall

/-- The first token is a semicolon, or begins a statement. -/
theorem begins {t : Token} (h : IsStmts last (t :: ts) ss) :
    t.kind = .symbol .semicolon ∨ t.kind.beginsStmt = true := by
  generalize hall : t :: ts = all at h
  cases h with
  | nil => cases hall
  | semicolon ht =>
    cases hall
    exact .inl ht
  | cons h =>
    obtain ⟨u, us, rfl, hu⟩ := stmt_begins h
    cases hall
    exact .inr hu

/-- Whether the first token begins a line does not matter. -/
theorem firstLine {t : Token} (h : IsStmts last (t :: ts) ss) (newline : Bool) :
    IsStmts last (t.setLine newline :: ts) ss := by
  generalize hall : t :: ts = all at h
  cases h with
  | nil => cases hall
  | semicolon ht hrest =>
    cases hall
    exact .semicolon (Token.kind_setLine ht newline) hrest
  | cons h hrest =>
    obtain ⟨u, us, rfl, -⟩ := stmt_begins h
    cases hall
    exact .cons (h.firstLine newline) hrest

end IsStmts

/-! ## At the seam -/

/-- At the beginning of a line, a token that begins a statement ends the one before it, unless it is a
minus sign. -/
theorem endsStmt_of_line {t : Token} (hline : t.newlineBefore = true)
    (hkind : t.kind = .symbol .semicolon ∨ t.kind.beginsStmt = true)
    (hminus : t.kind ≠ .symbol .minus) : EndsStmt t := by
  have hother : ∀ k : TokenKind, k ≠ .symbol .semicolon → k.beginsStmt = false → t.kind ≠ k := by
    rintro k hsemicolon hbegins rfl
    rcases hkind with hkind | hkind
    · exact hsemicolon hkind
    · exact Bool.false_ne_true (hbegins.symm.trans hkind)
  have hoperator : ∀ op : BinaryOp, t.kind ≠ op.token := by
    intro op
    cases op with
    | sub => exact hminus
    | _ => exact hother _ (by simp [BinaryOp.token]) rfl
  have hsame : t.newlineBefore ≠ false := by simp [hline]
  refine ⟨⟨fun h => absurd h hsame, fun h => absurd h hsame, fun M _ _ => ?_⟩, .inr (.inl hline), ?_, ?_⟩
  · refine Option.eq_none_iff_forall_ne_some.2 fun op hop => hoperator op (opAt_eq_some hop)
  · exact hother _ (by simp) rfl
  · exact hother _ (by simp) rfl

/-- **Statements and more statements on the next line are one program**, if the first token on that line
is no minus sign. -/
theorem IsStmts.joined {last last' : Token} {ts us : List Token} {ss ss' : List Stmt}
    (h : IsStmts last ts ss) (h' : IsStmts last' us ss') (hend : last'.kind = .eof)
    (hminus : (firstOf (us ++ [last'])).kind ≠ .symbol .minus) :
    ∃ b, Nikl.parse (ts ++ (us ++ [last']).modifyHead (Token.setLine true)) = .ok b ∧
      b.stmts = ss ++ ss' := by
  cases us with
  | nil =>
    -- nothing is read from the second line, and the end of the text ends the last statement
    have hend' : (last'.setLine true).kind = .eof := Token.kind_setLine hend true
    have hall : IsStmts (last'.setLine true) (ts ++ []) (ss ++ []) := h.append .nil (endsStmt_eof hend')
    rw [List.append_nil] at hall
    rw [h'.eq_nil]
    exact hall.parse hend'
  | cons u us =>
    have hends : EndsStmt (u.setLine true) := endsStmt_of_line rfl h'.begins hminus
    obtain ⟨b, hparse, hb⟩ := (h.append (h'.firstLine true) hends).parse hend
    rw [List.append_assoc] at hparse
    exact ⟨b, hparse, hb⟩

/-- The tokens of a source that is a program. -/
theorem isStmts_of_programOf {source : String} {b : Block} (h : programOf source = .ok b) :
    ∃ ts last, lex source = .ok (ts ++ [last]) ∧ last.kind = .eof ∧ IsStmts last ts b.stmts := by
  obtain ⟨tokens, hlex, hparse⟩ := programOf_eq_ok_iff.1 h
  obtain ⟨ts, flag, rfl, hts⟩ := (lexFrom_eq_ok_iff.1 hlex).ends
  exact ⟨ts, _, hlex, rfl, .of_parse hts rfl hparse⟩

theorem keepsMerge_later (n : Nat) : KeepsMerge (Span.later n) := by
  intro a b
  simp only [Span.later, Span.ofRange, Span.merge, Span.mk.injEq]
  omega

/-- Tokens of a text whose offsets are not cut in their new place are as many bytes later. -/
theorem map_later_eq_forth {source : String} {tokens : List Token} {n : Nat} (h : lex source = .ok tokens)
    (hfits : byteLength source.toList + n ≤ Span.maxOffset) :
    tokens.map (Token.mapSpan (Span.later n)) = tokens.map (Token.mapSpan (Span.forth n)) := by
  refine List.map_congr_left fun t ht => ?_
  obtain ⟨hstart, hstop⟩ := within_of_lexFrom h (Nat.zero_add _) t ht
  have hplace : t.span.later n = t.span.forth n := Span.later_eq_forth (by omega) (by omega)
  exact congrArg (fun s => { t with span := s }) hplace

section Joined

variable {s₁ s₂ : String} {b₁ b₂ : Block}

/-- Two sources with a line feed between them, where the tokens of the second are moved in some way that
keeps to the places of wholes and parts. -/
theorem programOf_joined {f : Span → Span} (hf : KeepsMerge f) (h₁ : programOf s₁ = .ok b₁)
    (h₂ : programOf s₂ = .ok b₂)
    (hminus : ∀ tokens, lex s₂ = .ok tokens → (firstOf tokens).kind ≠ .symbol .minus)
    (hmove : ∀ tokens, lex s₂ = .ok tokens →
      tokens.map (Token.mapSpan (Span.later (byteLength s₁.toList + 1))) = tokens.map (Token.mapSpan f)) :
    ∃ b, programOf (s₁ ++ "\n" ++ s₂) = .ok b ∧ b.stmts = b₁.stmts ++ b₂.stmts.map (Stmt.mapSpans f) := by
  obtain ⟨ts, last, hlex, -, hstmts⟩ := isStmts_of_programOf h₁
  obtain ⟨us, last', hlex', hend, hstmts'⟩ := isStmts_of_programOf h₂
  have hjoined := lex_joined hlex hlex'
  rw [List.dropLast_concat, hmove _ hlex', List.map_append, List.map_singleton] at hjoined
  have hfirst : (firstOf (us.map (Token.mapSpan f) ++ [last'.mapSpan f])).kind ≠ .symbol .minus := by
    have hsame := hminus _ hlex'
    cases us with
    | nil => exact hsame
    | cons u us => exact hsame
  obtain ⟨b, hparse, hb⟩ := hstmts.joined (hstmts'.mapSpan hf) hend hfirst
  exact ⟨b, programOf_eq_ok_iff.2 ⟨_, hjoined, hparse⟩, hb⟩

/-- **Consecutive lines do not fuse.** Two sources that can each be read can be read with a line feed
between them, if the second does not begin with a minus sign. What is read is the statements of the first
and then those of the second, as many bytes later as stand before them; offsets that are too large then
are cut, and there are none in a whole that is no longer than offsets go. -/
theorem lines_do_not_fuse (h₁ : programOf s₁ = .ok b₁) (h₂ : programOf s₂ = .ok b₂)
    (hminus : ∀ tokens, lex s₂ = .ok tokens → (firstOf tokens).kind ≠ .symbol .minus) :
    ∃ b, programOf (s₁ ++ "\n" ++ s₂) = .ok b ∧
      b.stmts = b₁.stmts ++ b₂.stmts.map (Stmt.mapSpans (Span.later (byteLength s₁.toList + 1))) ∧
      (byteLength (s₁ ++ "\n" ++ s₂).toList ≤ Span.maxOffset →
        b.stmts = b₁.stmts ++ b₂.stmts.map (Stmt.mapSpans (Span.forth (byteLength s₁.toList + 1)))) := by
  obtain ⟨b, hb, hlater⟩ := programOf_joined (keepsMerge_later _) h₁ h₂ hminus fun _ _ => rfl
  refine ⟨b, hb, hlater, fun hfits => ?_⟩
  have hsource : byteLength (s₁ ++ "\n" ++ s₂).toList =
      byteLength s₂.toList + (byteLength s₁.toList + 1) := by
    rw [String.toList_append, String.toList_append, byteLength_append, byteLength_append, Nat.add_comm]
    rfl
  obtain ⟨b', hb', hforth⟩ := programOf_joined (keepsMerge_forth _) h₁ h₂ hminus fun _ hlex =>
    map_later_eq_forth hlex (hsource ▸ hfits)
  cases hb.symm.trans hb'
  exact hforth

end Joined

/-- A name with a comment behind it. Without the line break, the next line would make it a call. -/
def nameLine : String := "f // not called"

def pairLine : String := "(2, 3)"

def pairTokens : List Token :=
  [⟨.symbol .leftParen, ⟨0, 1⟩, false⟩, ⟨.int 2, ⟨1, 2⟩, false⟩, ⟨.symbol .comma, ⟨2, 3⟩, false⟩,
   ⟨.int 3, ⟨4, 5⟩, false⟩, ⟨.symbol .rightParen, ⟨5, 6⟩, false⟩, ⟨.eof, ⟨6, 6⟩, false⟩]

def nameProgram : Block := .mk [.expr (.ident "f" ⟨0, 1⟩) ⟨0, 1⟩] ⟨0, 15⟩

def pairProgram : Block :=
  .mk [.expr (.tuple [.literal (.int 2) ⟨1, 2⟩, .literal (.int 3) ⟨4, 5⟩] ⟨0, 6⟩) ⟨0, 6⟩] ⟨0, 6⟩

theorem lines_do_not_fuse_pairLine :
    programOf nameLine = .ok nameProgram ∧ programOf pairLine = .ok pairProgram ∧
      ∃ b, programOf (nameLine ++ "\n" ++ pairLine) = .ok b ∧
        b.stmts =
          [.expr (.ident "f" ⟨0, 1⟩) ⟨0, 1⟩,
            .expr (.tuple [.literal (.int 2) ⟨17, 18⟩, .literal (.int 3) ⟨20, 21⟩] ⟨16, 22⟩)
              ⟨16, 22⟩] := by
  have hname : lex nameLine = .ok [⟨.ident "f", ⟨0, 1⟩, false⟩, ⟨.eof, ⟨15, 15⟩, false⟩] := by
    decide +kernel
  have hpair : lex pairLine = .ok pairTokens := by decide +kernel
  have hfirst : programOf nameLine = .ok nameProgram := programOf_eq_ok_iff.2 ⟨_, hname, rfl⟩
  have hsecond : programOf pairLine = .ok pairProgram := programOf_eq_ok_iff.2 ⟨_, hpair, rfl⟩
  have hminus : ∀ tokens, lex pairLine = .ok tokens → (firstOf tokens).kind ≠ .symbol .minus := by
    intro tokens hlex
    cases hpair.symm.trans hlex
    simp [firstOf, pairTokens]
  obtain ⟨b, hb, -, hforth⟩ := lines_do_not_fuse hfirst hsecond hminus
  exact ⟨hfirst, hsecond, b, hb, hforth (by decide +kernel)⟩

/-- Behind a line of 2^32 - 1 blanks a name is said to stand one byte before the place where it is, and to
cover no byte. -/
theorem lines_do_not_fuse_far :
    (∃ b₁, programOf (String.ofList (blankText 4294967295)) = .ok b₁ ∧ b₁.stmts = []) ∧
      (∃ b₂, programOf "x" = .ok b₂ ∧ b₂.stmts = [.expr (.ident "x" ⟨0, 1⟩) ⟨0, 1⟩]) ∧
      byteLength (blankText 4294967295) + 1 = 4294967296 ∧
      ∃ b, programOf (String.ofList (blankText 4294967295) ++ "\n" ++ "x") = .ok b ∧
        b.stmts = [.expr (.ident "x" ⟨4294967295, 4294967295⟩) ⟨4294967295, 4294967295⟩] := by
  refine ⟨?_, ?_, ?_, ?_⟩
  · have htiles : Tiles 0 false (blankText 4294967295) _ := .stop (.blankText 4294967295 [])
    rw [← String.toList_ofList (l := blankText 4294967295)] at htiles
    exact ⟨_, programOf_eq_ok_iff.2 ⟨_, lexFrom_eq_ok_iff.2 htiles, rfl⟩, rfl⟩
  · obtain ⟨b, hb, hstmts⟩ := programOf_gap_name (Gap.nil : Gap ['x'] [])
    exact ⟨b, hb, hstmts⟩
  · rw [byteLength_blankText]
  · have hgap : Gap ['x'] (blankText 4294967295 ++ ['\n']) :=
      (Gap.blankText 4294967295 []).over_line .nil
    obtain ⟨b, hb, hstmts⟩ := programOf_gap_name hgap
    rw [byteLength_append, byteLength_blankText] at hstmts
    have hsource : String.ofList (blankText 4294967295) ++ "\n" ++ "x" =
        String.ofList (blankText 4294967295 ++ ['\n'] ++ ['x']) := by
      rw [String.ofList_append, String.ofList_append]
    rw [← hsource] at hb
    exact ⟨b, hb, hstmts⟩

end Nikl
