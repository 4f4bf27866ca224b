import Nikl.Proofs.Token.Tiling

/-
A piece of a source that is cut out at the edges of tokens. The tokens of the piece are those of the
source that stand in it, each as far from the beginning of the piece as it was from where the piece
began (`Tiles.cut`). Longest pieces stay the longest when less follows them, and a gap inside stays the
gap it was, since a token stands behind it.

Only the mark for a line break may be lost: nothing stands before the first token of the piece.
-/

set_option autoImplicit false

namespace Nikl

open Source

/-! ## Less text behind -/

theorem Longest.shorten {piece rest back : List Char} (h : Longest piece (rest ++ back)) :
    Longest piece rest := by
  intro kind p hp hfront
  refine h kind p hp (hfront.trans ?_)
  rw [← List.append_assoc]
  exact List.prefix_append _ _

/-- A gap before a token is one whatever stands behind the token. -/
theorem Gap.before {piece rest rest' gap : List Char} (hpiece : piece ≠ [])
    (h : Gap (piece ++ rest) gap) : Gap (piece ++ rest') gap := by
  induction h with
  | nil => exact .nil
  | blank hc _ ih => exact .blank hc ih
  | @comment text gap htext hend _ ih =>
    refine .comment htext (fun c hc => hend c ?_) ih
    obtain ⟨d, piece, rfl⟩ := List.exists_cons_of_ne_nil hpiece
    cases gap with
    | nil => exact hc
    | cons g gap => exact hc

theorem Means.ne_nil {piece : List Char} {kind : TokenKind} (h : Means piece kind) : piece ≠ [] := by
  rintro rfl
  exact absurd h.byteLength_pos (Nat.lt_irrefl 0)

/-! ## Cutting -/

/-- Tokens in the order of the text. -/
def InOrder (ts : List Token) : Prop :=
  ts.Pairwise fun a b => a.span.start ≤ b.span.start ∧ a.span.stop ≤ b.span.stop

theorem InOrder.within {ts us : List Token} (h : InOrder us) (hts : ts <:+: us) : InOrder ts :=
  h.sublist hts.sublist

/-- The place as far from byte `n` as it was from the beginning. -/
def Span.back (n : Nat) (s : Span) : Span := ⟨s.start - n, s.stop - n⟩

/-- The place as far from the beginning as it was from byte `n`. -/
def Span.forth (n : Nat) (s : Span) : Span := ⟨s.start + n, s.stop + n⟩

/-- The token in another place. -/
def Token.mapSpan (f : Span → Span) (t : Token) : Token := { t with span := f t.span }

@[simp] theorem Token.mapSpan_kind (f : Span → Span) (t : Token) : (t.mapSpan f).kind = t.kind := rfl

@[simp] theorem Token.mapSpan_newlineBefore (f : Span → Span) (t : Token) :
    (t.mapSpan f).newlineBefore = t.newlineBefore := rfl

@[simp] theorem Token.mapSpan_span (f : Span → Span) (t : Token) : (t.mapSpan f).span = f t.span := rfl

/-- A token in another place is of the same kind. -/
theorem Token.kind_mapSpan {t : Token} {k : TokenKind} (h : t.kind = k) (f : Span → Span) :
    (t.mapSpan f).kind = k := h

/-- The token as it is where no line break comes before it. -/
def Token.onLine (t : Token) : Token := { t with newlineBefore := false }

/-- The token as it is behind a line break, or not behind one. -/
def Token.setLine (newline : Bool) (t : Token) : Token := { t with newlineBefore := newline }

theorem Token.kind_setLine {t : Token} {k : TokenKind} (h : t.kind = k) (newline : Bool) :
    (t.setLine newline).kind = k := h

namespace Tiles

variable {offset : Nat} {newline : Bool} {text : List Char} {earlier ts later tokens : List Token}
  {t u last : Token}

/-- Tokens do not stop before they start. -/
theorem start_le_stop (h : Tiles offset newline text tokens) : ∀ t ∈ tokens, t.span.start ≤ t.span.stop := by
  induction h with
  | stop =>
    intro t ht
    cases List.mem_singleton.1 ht
    exact Nat.le_refl _
  | tile _ _ _ _ ih =>
    refine List.forall_mem_cons.2 ⟨?_, ih⟩
    simp only [Span.ofRange]
    omega

/-- Tokens stand in order, also where offsets are cut. -/
theorem inOrder (h : Tiles offset newline text tokens) : InOrder tokens := by
  induction h with
  | stop => exact List.pairwise_singleton _ _
  | tile _ _ _ htail ih =>
    refine List.pairwise_cons.2 ⟨fun b hb => ?_, ih⟩
    have hstart := htail.le_start b hb
    have hstop := htail.start_le_stop b hb
    simp only [Span.ofRange]
    omega

/-- The text up to the end of some tokens is tiled by them. -/
theorem front (h : Tiles offset newline text (ts ++ u :: later)) (hlast : last ∈ ts.getLast?) :
    ∃ body back, text = body ++ back ∧
      last.span.stop = min (offset + byteLength body) Span.maxOffset ∧
      Tiles offset newline body (ts ++ [Token.endAt (offset + byteLength body) false]) := by
  induction ts generalizing offset newline text with
  | nil => exact absurd hlast (Option.not_mem_none _)
  | cons t ts ih =>
    rw [List.cons_append] at h
    generalize hmore : ts ++ u :: later = more at h
    cases h with
    | stop => exact absurd hmore (List.append_ne_nil_of_right_ne_nil _ (List.cons_ne_nil _ _))
    | @tile _ _ gap piece rest kind _ hgap hmeans hlongest htail =>
      subst hmore
      cases ts with
      | nil =>
        rw [List.getLast?_singleton] at hlast
        cases hlast
        have hgap' : Gap (piece ++ []) gap := hgap.before hmeans.ne_nil
        have hlongest' : Longest piece ([] ++ rest) := hlongest
        have hend : Tiles (offset + byteLength gap + byteLength piece) false []
            [Token.endAt (offset + byteLength gap + byteLength piece) false] := .stop .nil
        have htile : Tiles offset newline (gap ++ (piece ++ [])) _ := .tile hgap' hmeans hlongest'.shorten hend
        refine ⟨gap ++ piece, rest, by simp, ?_, ?_⟩
        · rw [byteLength_append, ← Nat.add_assoc]
          rfl
        · simpa [byteLength_append, Nat.add_assoc] using htile
      | cons t' ts =>
        rw [List.getLast?_cons_cons] at hlast
        obtain ⟨body, back, rfl, hstop, hbody⟩ := ih htail hlast
        have htile : Tiles offset newline (gap ++ (piece ++ body)) _ :=
          .tile (hgap.before hmeans.ne_nil) hmeans hlongest.shorten hbody
        refine ⟨gap ++ (piece ++ body), back, by simp, ?_, ?_⟩
        · rw [hstop, byteLength_append, byteLength_append]
          simp only [Nat.add_assoc]
        · simpa [byteLength_append, Nat.add_assoc] using htile

/-- The text from the start of its first token on is tiled by its tokens. -/
theorem fromFirst (h : Tiles offset newline text (t :: ts)) (hts : ts ≠ []) :
    ∃ gap body, text = gap ++ body ∧ t.span.start = min (offset + byteLength gap) Span.maxOffset ∧
      Tiles (offset + byteLength gap) false body (t.onLine :: ts) := by
  cases h with
  | stop => exact absurd rfl hts
  | @tile _ _ gap piece rest kind _ hgap hmeans hlongest htail =>
    have htile : Tiles (offset + byteLength gap) false ([] ++ (piece ++ rest)) _ :=
      .tile .nil hmeans hlongest (by simpa using htail)
    refine ⟨gap, piece ++ rest, rfl, rfl, ?_⟩
    simpa [Token.onLine] using htile

/-- In another place, a text is tiled by the same tokens in other places. -/
theorem shift {n : Nat} (h : Tiles (offset + n) newline text tokens)
    (hsize : offset + n + byteLength text ≤ Span.maxOffset) :
    Tiles offset newline text (tokens.map (Token.mapSpan (Span.back n))) := by
  generalize hplace : offset + n = place at h hsize
  induction h generalizing offset with
  | @stop _ newline gap hgap =>
    subst hplace
    have hstop : Tiles offset newline gap _ := .stop hgap
    have hspan : (Token.endAt (offset + n + byteLength gap) (newline || decide ('\n' ∈ gap))).mapSpan
        (Span.back n) = Token.endAt (offset + byteLength gap) (newline || decide ('\n' ∈ gap)) := by
      simp only [Token.endAt, Token.mapSpan, Span.ofRange, Span.back, Token.mk.injEq, Span.mk.injEq,
        true_and, and_true]
      omega
    rw [List.map_singleton, hspan]
    exact hstop
  | @tile _ newline gap piece rest kind tokens hgap hmeans hlongest _ ih =>
    subst hplace
    rw [byteLength_append, byteLength_append] at hsize
    have hplace : offset + byteLength gap + byteLength piece + n =
        offset + n + byteLength gap + byteLength piece := by omega
    have htail := ih hplace (by omega)
    have hspan : Span.back n (Span.ofRange (offset + n + byteLength gap)
        (offset + n + byteLength gap + byteLength piece)) =
        Span.ofRange (offset + byteLength gap) (offset + byteLength gap + byteLength piece) := by
      simp only [Span.ofRange, Span.back, Span.mk.injEq]
      omega
    have htile : Tiles offset newline (gap ++ (piece ++ rest)) _ := .tile hgap hmeans hlongest htail
    rw [← hspan] at htile
    exact htile

/-- **Cut out at the edges of tokens, a piece of a source is tiled by its tokens.** The piece begins where
the first of them starts and ends where the last of them stops, as long as offsets are not cut. -/
theorem cut (h : Tiles 0 newline text (earlier ++ (t :: ts ++ u :: later)))
    (hlast : last ∈ (t :: ts).getLast?) :
    ∃ front body back, text = front ++ body ++ back ∧
      t.span.start = min (byteLength front) Span.maxOffset ∧
      last.span.stop = min (byteLength (front ++ body)) Span.maxOffset ∧
      (byteLength (front ++ body) ≤ Span.maxOffset →
        Tiles 0 false body ((t.onLine :: ts).map (Token.mapSpan (Span.back (byteLength front))) ++
          [Token.endAt (byteLength body) false])) := by
  obtain ⟨before, behind, newline', rfl, hbehind, -, -⟩ := Tiles.behind h
  rw [Nat.zero_add] at hbehind
  obtain ⟨body, back, rfl, hstop, hbody⟩ := Tiles.front hbehind hlast
  rw [List.cons_append] at hbody
  obtain ⟨gap, piece, rfl, hstart, hpiece⟩ := Tiles.fromFirst hbody (by simp)
  rw [← byteLength_append] at hstop hstart hpiece
  refine ⟨before ++ gap, piece, back, by simp, hstart, by rw [hstop, List.append_assoc], fun hsize => ?_⟩
  rw [byteLength_append (before ++ gap)] at hsize
  rw [← Nat.zero_add (byteLength (before ++ gap))] at hpiece hsize
  have hshift := hpiece.shift hsize
  have hend : (Token.endAt (byteLength (before ++ (gap ++ piece))) false).mapSpan
      (Span.back (byteLength (before ++ gap))) = Token.endAt (byteLength piece) false := by
    rw [← List.append_assoc, byteLength_append (before ++ gap)]
    simp only [Token.endAt, Token.mapSpan, Span.ofRange, Span.back, Token.mk.injEq, Span.mk.injEq,
      true_and, and_true]
    omega
  rwa [← List.cons_append, List.map_append, List.map_singleton, ← byteLength_append, hend] at hshift

end Tiles

end Nikl
