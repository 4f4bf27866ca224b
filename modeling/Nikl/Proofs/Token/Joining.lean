import Nikl.Proofs.Token.Cutting

/-
Two texts with a line feed between them. No lexeme reaches over the line feed, since the only one that
has a line feed in it is the line feed itself. So the tokens of the first text are read as before, without
the token for its end; the tokens of the second are read in their new place, the first of them behind a
line break (`lex_joined`). A comment at the end of the first text stops at the line feed, as it stopped at
the end of the text.
-/

set_option autoImplicit false

namespace Nikl

open Source LexemeKind

/-! ## Over a line feed -/

theorem InString.no_line {body : List Char} (h : InString body) : '\n' ∉ body := by
  induction h with
  | nil => exact List.not_mem_nil
  | plain _ _ hc _ ih => simp [hc.symm, ih]
  | escape hc _ ih => simp [hc.symm, ih]

/-- A piece with a line feed in it is a line feed. -/
theorem LexemeKind.Allows.eq_line {kind : LexemeKind} {piece : List Char} (h : kind.Allows piece)
    (hline : '\n' ∈ piece) : piece = ['\n'] := by
  have hdigit : ∀ {text : List Char}, (∀ c ∈ text, c.isDigit = true) → '\n' ∉ text := fun htext hmem =>
    absurd (htext _ hmem) (by decide)
  cases h with
  | newline => rfl
  | blank _ htext => exact absurd (htext _ hline) (by decide)
  | @comment text htext =>
    have hnone : '\n' ∉ text := fun hmem => htext _ hmem rfl
    simp [hnone] at hline
  | @word c text hc htext =>
    rcases List.mem_cons.1 hline with rfl | hmem
    · exact absurd hc (by decide)
    · exact absurd (htext _ hmem) (by decide)
  | integer _ htext => exact absurd hline (hdigit htext)
  | decimal _ _ hwhole hfraction => simp [hdigit hwhole, hdigit hfraction] at hline
  | string hbody => simp [hbody.no_line] at hline
  | openString hbody => simp [hbody.no_line] at hline
  | symbol s => cases s <;> exact absurd hline (by decide)

/-- The longest piece before the end of a text is the longest before a line feed. -/
theorem Longest.before_line {piece rest : List Char} (h : Longest piece rest) (hne : piece ≠ [])
    (more : List Char) : Longest piece (rest ++ '\n' :: more) := by
  intro kind p hp hfront
  obtain ⟨behind, hbehind⟩ := hfront
  rw [← List.append_assoc] at hbehind
  rcases List.append_eq_append_iff.1 hbehind with ⟨inside, hinside, -⟩ | ⟨past, rfl, hpast⟩
  · exact h kind p hp ⟨inside, hinside.symm⟩
  cases past with
  | nil =>
    rw [List.append_nil] at hp ⊢
    exact h kind _ hp (List.prefix_refl _)
  | cons c past =>
    -- a piece that reaches over the line feed is the line feed, and no longer than another piece
    rw [List.cons_append, List.cons.injEq] at hpast
    have hsame := hp.eq_line (List.mem_append_right _ (hpast.1 ▸ List.mem_cons_self))
    have hlen := congrArg List.length hsame
    have hpos := List.length_pos_iff.2 hne
    rw [hsame]
    exact hpos

/-- A gap at the end of a text, a line feed and another gap are a gap. -/
theorem Gap.over_line {behind gap gap' : List Char} (h : Gap [] gap) (h' : Gap behind gap') :
    Gap behind (gap ++ '\n' :: gap') := by
  induction h with
  | nil => exact .blank (.inr rfl) h'
  | blank hc _ ih => exact .blank hc ih
  | @comment text gap htext hend _ ih =>
    rw [List.append_assoc]
    refine .comment htext (fun c hc => ?_) ih
    cases gap with
    | nil => exact (Option.some.inj hc).symm
    | cons d gap => exact hend c hc

/-! ## In another place, and behind a line break -/

/-- The place as far from byte `n` as it was from the beginning, cut where it is too far. -/
def Span.later (n : Nat) (s : Span) : Span := Span.ofRange (s.start + n) (s.stop + n)

/-- Where offsets are not cut, a place later is the place moved. -/
theorem Span.later_eq_forth {n : Nat} {s : Span} (hstart : s.start + n ≤ maxOffset)
    (hstop : s.stop + n ≤ maxOffset) : s.later n = s.forth n := by
  rw [later, ofRange, Nat.min_eq_left hstart, Nat.min_eq_left hstop]
  rfl

theorem Span.later_ofRange (n start stop : Nat) :
    (Span.ofRange start stop).later n = Span.ofRange (start + n) (stop + n) := by
  simp only [later, ofRange, Span.mk.injEq]
  omega

namespace Tiles

variable {offset : Nat} {newline : Bool} {text text' : List Char} {tokens tokens' : List Token}

theorem ne_nil (h : Tiles offset newline text tokens) : tokens ≠ [] := by
  cases h <;> exact List.cons_ne_nil _ _

/-- In a later place, a text is tiled by the same tokens in later places. -/
theorem later (h : Tiles offset newline text tokens) (n : Nat) :
    Tiles (offset + n) newline text (tokens.map (Token.mapSpan (Span.later n))) := by
  induction h with
  | @stop offset newline gap hgap =>
    have hstop : Tiles (offset + n) newline gap _ := .stop hgap
    rw [Nat.add_right_comm] at hstop
    rw [List.map_singleton, Token.endAt, Token.mapSpan, Span.later_ofRange]
    exact hstop
  | @tile offset newline gap piece rest kind tokens hgap hmeans hlongest _ ih =>
    rw [Nat.add_right_comm, Nat.add_right_comm offset] at ih
    have htile : Tiles (offset + n) newline (gap ++ (piece ++ rest)) _ := .tile hgap hmeans hlongest ih
    rw [← Nat.add_right_comm offset, ← Nat.add_right_comm (offset + _), ← Span.later_ofRange] at htile
    exact htile

/-- Behind a line break, only the first token differs. -/
theorem behindLine (h : Tiles offset newline text tokens) :
    Tiles offset true text (tokens.modifyHead (Token.setLine true)) := by
  cases h with
  | stop hgap => exact .stop hgap
  | tile hgap hmeans hlongest htail => exact .tile hgap hmeans hlongest htail

/-- The gap at the end of a text and a line feed stand before what follows. -/
theorem over_line {gap : List Char} (hgap : Gap [] gap)
    (h : Tiles (offset + byteLength gap + 1) true text tokens) :
    Tiles offset newline (gap ++ '\n' :: text) tokens := by
  have hplace : ∀ gap' : List Char, offset + byteLength gap + 1 + byteLength gap' =
      offset + byteLength (gap ++ '\n' :: gap') := by
    intro gap'
    rw [byteLength_append, byteLength_cons]
    have hsize : '\n'.utf8Size = 1 := rfl
    omega
  have hline : ∀ gap' : List Char, (true || decide ('\n' ∈ gap')) =
      (newline || decide ('\n' ∈ gap ++ '\n' :: gap')) := by
    intro gap'
    simp
  cases h with
  | stop hgap' =>
    rw [hplace, hline]
    exact .stop (hgap.over_line hgap')
  | @tile _ _ gap' piece rest kind tokens hgap' hmeans hlongest htail =>
    rw [hplace] at htail ⊢
    rw [hline gap']
    have htile : Tiles offset newline ((gap ++ '\n' :: gap') ++ (piece ++ rest)) _ :=
      .tile (hgap.over_line hgap') hmeans hlongest htail
    rwa [List.append_assoc] at htile

/-- **A text, a line feed and another text are tiled by the tokens of both**, without the end of the
first text. -/
theorem join (h : Tiles offset newline text tokens)
    (h' : Tiles (offset + byteLength text + 1) true text' tokens') :
    Tiles offset newline (text ++ '\n' :: text') (tokens.dropLast ++ tokens') := by
  induction h with
  | stop hgap => exact over_line hgap h'
  | @tile offset newline gap piece rest kind tokens hgap hmeans hlongest htail ih =>
    rw [byteLength_append, byteLength_append, ← Nat.add_assoc, ← Nat.add_assoc] at h'
    rw [List.dropLast_cons_of_ne_nil htail.ne_nil, List.append_assoc, List.append_assoc]
    exact .tile (hgap.before hmeans.ne_nil) hmeans (hlongest.before_line hmeans.ne_nil _) (ih h')

end Tiles

/-- **Two sources with a line feed between them** have the tokens of the first without its end, and those
of the second, as many bytes later as stand before them. The first of these stands behind a line break. -/
theorem lex_joined {s₁ s₂ : String} {ts us : List Token} (h₁ : lex s₁ = .ok ts) (h₂ : lex s₂ = .ok us) :
    lex (s₁ ++ "\n" ++ s₂) =
      .ok (ts.dropLast ++
        (us.map (Token.mapSpan (Span.later (byteLength s₁.toList + 1)))).modifyHead
          (Token.setLine true)) := by
  have htiles : Tiles 0 false s₁.toList ts := lexFrom_eq_ok_iff.1 h₁
  have htiles' : Tiles 0 false s₂.toList us := lexFrom_eq_ok_iff.1 h₂
  have hmoved := (htiles'.later (byteLength s₁.toList + 1)).behindLine
  rw [← Nat.add_assoc] at hmoved
  have hsource : (s₁ ++ "\n" ++ s₂).toList = s₁.toList ++ '\n' :: s₂.toList := by
    simp
  rw [lex, hsource]
  exact lexFrom_eq_ok_iff.2 (htiles.join hmoved)

end Nikl
