import Nikl.Proofs.Token.Tiling
import Nikl.Session

/-
Reading a source is reading its tokens and then the tree that they make. A program is there if both
succeed, and a fault of one of them tells which one it was.
-/

set_option autoImplicit false

namespace Nikl

open Source

variable {source : String}

theorem programOf_eq_ok_iff {program : Block} :
    programOf source = .ok program ↔ ∃ tokens, lex source = .ok tokens ∧ parse tokens = .ok program := by
  rw [programOf, tokensOf]
  cases lex source with
  | error e => exact ⟨nofun, nofun⟩
  | ok tokens =>
    show (parse tokens).mapError Failure.parse = .ok program ↔ _
    cases hparse : parse tokens with
    | error e =>
      refine ⟨nofun, ?_⟩
      rintro ⟨_, ⟨⟩, h⟩
      rw [hparse] at h
      cases h
    | ok b =>
      constructor
      · rintro ⟨⟩
        exact ⟨tokens, rfl, hparse⟩
      · rintro ⟨_, ⟨⟩, h⟩
        rw [hparse] at h
        cases h
        rfl

theorem lex_of_parseError {e : ParseError} (h : programOf source = .error (.parse e)) :
    ∃ tokens, lex source = .ok tokens ∧ parse tokens = .error e := by
  rw [programOf, tokensOf] at h
  cases hlex : lex source with
  | error e =>
    rw [hlex] at h
    cases h
  | ok tokens =>
    rw [hlex] at h
    cases hparse : parse tokens with
    | ok b =>
      replace h : (parse tokens).mapError Failure.parse = .error (.parse e) := h
      rw [hparse] at h
      cases h
    | error e' =>
      replace h : (parse tokens).mapError Failure.parse = .error (.parse e) := h
      rw [hparse] at h
      cases h
      exact ⟨tokens, rfl, hparse⟩

/-- Behind a gap, however long, a name is a program. -/
theorem programOf_gap_name {gap : List Char} (h : Gap ['x'] gap) :
    ∃ program, programOf (String.ofList (gap ++ ['x'])) = .ok program ∧
      program.stmts =
        [.expr (.ident "x" (Span.ofRange (byteLength gap) (byteLength gap + 1)))
          (Span.ofRange (byteLength gap) (byteLength gap + 1))] := by
  have hname : ∀ (offset : Nat) (newline : Bool), lexFrom offset newline ['x'] =
      .ok [⟨.ident "x", Span.ofRange offset (offset + 1), newline⟩, Token.endAt (offset + 1) false] := by
    intro offset newline
    have hfirst : Lexeme.first? ['x'] = some (⟨.word, ['x']⟩, []) := rfl
    have hkind : ∀ span, Lexeme.tokenKind? ⟨.word, ['x']⟩ span = .ok (some (.ident "x")) := fun _ => rfl
    have hend : lexFrom (offset + 1) false [] = .ok [Token.endAt (offset + 1) false] := by
      rw [lexFrom_eq]
      rfl
    rw [lexFrom_eq]
    split
    · next hnone => cases hfirst.symm.trans hnone
    · next hsome =>
      cases hfirst.symm.trans hsome
      simp only [hkind]
      exact congrArg (Except.map _) hend
  have hlex : lex (String.ofList (gap ++ ['x'])) =
      .ok [⟨.ident "x", Span.ofRange (byteLength gap) (byteLength gap + 1), false || decide ('\n' ∈ gap)⟩,
        Token.endAt (byteLength gap + 1) false] := by
    rw [lex, String.toList_ofList, lexFrom_gap h, Nat.zero_add]
    exact hname _ _
  exact ⟨_, programOf_eq_ok_iff.2 ⟨_, hlex, rfl⟩, rfl⟩

end Nikl
