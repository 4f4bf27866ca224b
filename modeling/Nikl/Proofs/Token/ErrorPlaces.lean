import Nikl.Proofs.Token.Tiling

/-
Tokens lie in the text that they were read from, and so does what is wrong with a text that makes no
tokens. Bytes are counted along the text, and never past its end.
-/

set_option autoImplicit false

namespace Nikl

open Source

/-- A span of a text of so many bytes: it ends where it begins or behind, and no later than the text. -/
structure Span.Within (size : Nat) (s : Span) : Prop where
  start_le : s.start ≤ s.stop
  stop_le : s.stop ≤ size

namespace Span.Within

variable {size : Nat} {s t : Span}

theorem ofRange {start stop : Nat} (h : start ≤ stop) (hstop : stop ≤ size) :
    (Span.ofRange start stop).Within size := by
  simp only [Span.ofRange]
  exact ⟨by dsimp only; omega, by dsimp only; omega⟩

theorem merge (hs : s.Within size) (ht : t.Within size) : (s.merge t).Within size := by
  obtain ⟨hs, hs'⟩ := hs
  obtain ⟨ht, ht'⟩ := ht
  exact ⟨by rw [Span.merge_start, Span.merge_stop]; omega, by rw [Span.merge_stop]; omega⟩

end Span.Within

theorem map_eq_error {ε α β : Type} {f : α → β} {x : Except ε α} {e : ε} (h : x.map f = .error e) :
    x = .error e := by
  cases x with
  | error e' => exact congrArg Except.error (Except.error.inj h)
  | ok a => cases h

/-! ## Tokens -/

/-- A bad escape lies in the content of its string. -/
theorem within_of_unescape {offset size : Nat} {content : List Char} {e : LexError}
    (h : unescape offset content = .error e) (hsize : offset + byteLength content ≤ size) :
    e.span.Within size := by
  fun_induction unescape offset content with
  | case1 => cases h
  | case2 => cases h
  | case3 offset c rest plain hescape ih =>
    refine ih (map_eq_error h) ?_
    rw [byteLength_cons, byteLength_cons] at hsize
    have hslash : '\\'.utf8Size = 1 := rfl
    omega
  | case4 offset c rest hescape =>
    cases h
    rw [byteLength_cons, byteLength_cons] at hsize
    have hslash : '\\'.utf8Size = 1 := rfl
    exact .ofRange (by omega) (by omega)
  | case5 offset c rest hne hne' ih =>
    refine ih (map_eq_error h) ?_
    rw [byteLength_cons] at hsize
    omega

/-- Without its quotes a string is shorter by the first one at least. -/
theorem byteLength_content {text : List Char} (h : text ≠ []) :
    byteLength ((text.drop 1).dropLast) + 1 ≤ byteLength text := by
  obtain ⟨c, rest, rfl⟩ := List.exists_cons_of_ne_nil h
  obtain ⟨last, hlast⟩ := List.dropLast_prefix rest
  have hrest := congrArg byteLength hlast
  rw [byteLength_append] at hrest
  have hpos := c.utf8Size_pos
  rw [byteLength_cons, List.drop_succ_cons, List.drop_zero]
  omega

/-- What is wrong with a lexeme lies in it. -/
theorem within_of_tokenKind? {l : Lexeme} {offset size : Nat} {e : LexError} (hl : l.text ≠ [])
    (h : l.tokenKind? (Span.ofRange offset (offset + byteLength l.text)) = .error e)
    (hsize : offset + byteLength l.text ≤ size) : e.span.Within size := by
  have hspan : (Span.ofRange offset (offset + byteLength l.text)).Within size :=
    .ofRange (Nat.le_add_right _ _) hsize
  unfold Lexeme.tokenKind? at h
  split at h
  · cases h
  · cases h
  · cases h
  · cases h
  · have hnumber := map_eq_error h
    unfold intLiteral at hnumber
    dsimp only at hnumber
    split at hnumber
    · cases hnumber
    · cases hnumber
      exact hspan
  · cases h
  · have hcontent := byteLength_content hl
    have hfirst := Span.behindFirst_ofRange_le offset (offset + byteLength l.text)
    exact within_of_unescape (map_eq_error h) (by omega)
  · cases h
    exact hspan
  · cases h

/-- What the reader does in one step, where it fails. -/
theorem lexFrom_eq_error {offset : Nat} {newline : Bool} {text : List Char} {e : LexError}
    (h : lexFrom offset newline text = .error e) :
    (∃ c rest, text = c :: rest ∧ e.span = Span.ofRange offset (offset + c.utf8Size)) ∨
      ∃ l rest, Lexeme.first? text = some (l, rest) ∧
        (l.tokenKind? (Span.ofRange offset (offset + byteLength l.text)) = .error e ∨
          ∃ newline', lexFrom (offset + byteLength l.text) newline' rest = .error e) := by
  rw [lexFrom_eq] at h
  split at h
  · split at h
    · cases h
    · cases h
      exact .inl ⟨_, _, rfl, rfl⟩
  · next l rest hfirst =>
    refine .inr ⟨l, rest, hfirst, ?_⟩
    dsimp only at h
    split at h
    · next hkind =>
      cases h
      exact .inl hkind
    · exact .inr ⟨_, h⟩
    · exact .inr ⟨_, map_eq_error h⟩

section Text

variable {size : Nat} {text : List Char}

/-- What is wrong with a text lies in it. -/
theorem within_of_lexFrom_error {offset : Nat} {newline : Bool} {e : LexError}
    (h : lexFrom offset newline text = .error e) (hsize : offset + byteLength text = size) :
    e.span.Within size := by
  -- a lexeme takes part of the text away and adds as many bytes to the offset
  induction hn : text.length using Nat.strongRecOn generalizing offset newline text with
  | _ n ih =>
    subst hn
    rcases lexFrom_eq_error h with ⟨c, rest, rfl, hspan⟩ | ⟨l, rest, hfirst, hnext⟩
    · rw [byteLength_cons] at hsize
      rw [hspan]
      exact .ofRange (by omega) (by omega)
    have hlength := congrArg byteLength (Lexeme.first?_append hfirst)
    rw [byteLength_append] at hlength
    rcases hnext with hkind | ⟨newline', hrest⟩
    · exact within_of_tokenKind? (Lexeme.first?_ne_nil hfirst) hkind (by omega)
    · exact ih _ (Lexeme.first?_length_lt hfirst) hrest (by omega) rfl

/-- All tokens of a text lie in it. -/
theorem within_of_lexFrom {offset : Nat} {newline : Bool} {tokens : List Token}
    (h : lexFrom offset newline text = .ok tokens) (hsize : offset + byteLength text = size) :
    ∀ t ∈ tokens, t.span.Within size := by
  induction hn : text.length using Nat.strongRecOn generalizing offset newline text tokens with
  | _ n ih =>
    subst hn
    rcases lexFrom_eq_ok h with ⟨rfl, rfl⟩ | ⟨l, rest, hfirst, hnext⟩
    · refine List.forall_mem_singleton.2 (.ofRange (Nat.le_refl offset) ?_)
      rw [byteLength_nil] at hsize
      omega
    have hlength := congrArg byteLength (Lexeme.first?_append hfirst)
    have hshorter := Lexeme.first?_length_lt hfirst
    rw [byteLength_append] at hlength
    rcases hnext with ⟨-, hrest⟩ | ⟨kind, later, -, hrest, rfl⟩
    · exact ih _ hshorter hrest (by omega) rfl
    · refine List.forall_mem_cons.2 ⟨.ofRange (Nat.le_add_right _ _) (by omega), ?_⟩
      exact ih _ hshorter hrest (by omega) rfl

end Text

end Nikl
