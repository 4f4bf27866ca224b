import Nikl.Proofs.Token.Joining

/-
Respacing. The tokens of a source cut it into gaps and pieces (`Layout.CutBy`). What stands in the gaps is
without meaning, and so is how much: the same pieces with other gaps between them are read as tokens of
the same kinds, as long as each gap that comes behind a piece begins with a blank or a line feed
(`respacing_is_invisible`). Pieces that touched are the same pieces apart.

A piece cannot reach over a blank that stands behind it: what does reach over a blank is a run of blanks, a
comment or a string, and a piece that one of these begins with is no token, or is the string. Nor can it
reach over a line feed (`Longest.before_line`). So a piece in front of either is the longest piece there,
whatever it is and whatever follows.
-/

set_option autoImplicit false

namespace Nikl

open Source Lexeme LexemeKind

/-! ## Spacing -/

/-- Blanks, line feeds and comments with the line feeds that end them. -/
inductive Spacing : List Char → Prop where
  | nil : Spacing []
  | blank {c : Char} {gap : List Char} (hc : isSpace c = true ∨ c = '\n') :
    Spacing gap → Spacing (c :: gap)
  | comment {text gap : List Char} (htext : ∀ c ∈ text, c ≠ '\n') :
    Spacing gap → Spacing ('/' :: '/' :: text ++ '\n' :: gap)

/-- Spacing that begins with a blank or a line feed, as it must where it comes behind a piece: a comment
would make the slash before it a comment too. -/
inductive Separator : List Char → Prop where
  | blank {c : Char} {gap : List Char} (hc : isSpace c = true ∨ c = '\n') :
    Spacing gap → Separator (c :: gap)

theorem Separator.spacing {gap : List Char} (h : Separator gap) : Spacing gap := by
  cases h with
  | blank hc h => exact .blank hc h

/-- Spacing may stand before anything. -/
theorem Spacing.gap {gap : List Char} (h : Spacing gap) (behind : List Char) : Gap behind gap := by
  induction h with
  | nil => exact .nil
  | blank hc _ ih => exact .blank hc ih
  | comment htext _ ih =>
    exact .comment htext (fun _ hd => (Option.some.inj hd).symm) (.blank (.inr rfl) ih)

/-! ## Pieces before blanks -/

/-- What becomes a token is neither blanks nor a comment, and no string without an end. -/
theorem Means.not_dropped {piece : List Char} {k : TokenKind} {rule : LexemeKind} (h : Means piece k)
    (hrule : rule.Allows piece) : rule ≠ .blank ∧ rule ≠ .comment ∧ rule ≠ .openString := by
  obtain ⟨rule', hrule', hkind⟩ := h.lexeme
  cases hrule.kind_unique hrule'
  have hmade := hkind .nowhere
  refine ⟨?_, ?_, ?_⟩
  all_goals
    rintro rfl
    cases hmade

theorem continuesWord_of_isSpace {c : Char} (h : isSpace c = true) : continuesWord c = false := by
  simp only [isSpace, Bool.or_eq_true, decide_eq_true_eq] at h
  rcases h with ((rfl | rfl) | rfl) | rfl <;> rfl

/-- What has a blank in it is a run of blanks, a comment or a string. -/
theorem LexemeKind.Allows.of_blank {kind : LexemeKind} {piece : List Char} {c : Char}
    (h : kind.Allows piece) (hc : isSpace c = true) (hmem : c ∈ piece) :
    kind = .blank ∨ kind = .comment ∨ kind = .string ∨ kind = .openString := by
  have hdigit : ∀ {text : List Char}, (∀ d ∈ text, d.isDigit = true) → c ∉ text := fun htext hmem =>
    absurd hc (by rw [isSpace_of_isDigit (htext c hmem)]; exact Bool.false_ne_true)
  cases h with
  | blank => exact .inl rfl
  | comment => exact .inr (.inl rfl)
  | string => exact .inr (.inr (.inl rfl))
  | openString => exact .inr (.inr (.inr rfl))
  | newline =>
    cases List.mem_singleton.1 hmem
    cases hc
  | @word d text hd htext =>
    have hword : ∀ e ∈ d :: text, continuesWord e = true :=
      List.forall_mem_cons.2 ⟨continuesWord_of_beginsWord hd, htext⟩
    exact absurd (hword c hmem) (by rw [continuesWord_of_isSpace hc]; exact Bool.false_ne_true)
  | integer _ htext => exact absurd hmem (hdigit htext)
  | decimal _ _ hwhole hfraction =>
    rcases List.mem_append.1 hmem with hmem | hmem
    · exact absurd hmem (hdigit hwhole)
    rcases List.mem_cons.1 hmem with rfl | hmem
    · cases hc
    · exact absurd hmem (hdigit hfraction)
  | symbol s =>
    have hnone : s.spelling.toList.any isSpace = false := by
      cases s <;> rfl
    exact absurd (List.any_eq_true.2 ⟨c, hmem, hc⟩) (by rw [hnone]; exact Bool.false_ne_true)

/-- What a quote begins is a string, with its closing quote or without it. -/
theorem LexemeKind.Allows.of_quote {kind : LexemeKind} {text : List Char}
    (h : kind.Allows ('"' :: text)) : kind = .string ∨ kind = .openString := by
  generalize hpiece : '"' :: text = piece at h
  cases h with
  | string => exact .inl rfl
  | openString => exact .inr rfl
  | newline => cases hpiece
  | comment => cases hpiece
  | blank _ htext => exact absurd (htext '"' (hpiece ▸ List.mem_cons_self)) (by decide)
  | word hc =>
    obtain ⟨rfl, -⟩ := List.cons.inj hpiece
    cases hc
  | integer _ htext => exact absurd (htext '"' (hpiece ▸ List.mem_cons_self)) (by decide)
  | @decimal whole fraction hwhole _ htext =>
    obtain ⟨c, whole, rfl⟩ := List.exists_cons_of_ne_nil hwhole
    obtain ⟨rfl, -⟩ := List.cons.inj hpiece
    exact absurd (htext '"' List.mem_cons_self) (by decide)
  | symbol s => cases s <;> cases hpiece

/-- A string reaches no further than to its closing quote. -/
theorem InString.longest {body : List Char} (h : InString body) (rest : List Char) :
    Longest ('"' :: body ++ ['"']) rest := fun _ _ hp hfront =>
  first?_longest (h.first?_string rest) hp hfront

/-- **What becomes a token does not reach over a blank behind it.** -/
theorem Means.longest_before_blank {piece : List Char} {k : TokenKind} {c : Char} (h : Means piece k)
    (hc : isSpace c = true) (rest : List Char) : Longest piece (c :: rest) := by
  obtain ⟨rule, hrule, -⟩ := h.lexeme
  obtain ⟨hblank, hcomment, hopen⟩ := h.not_dropped hrule
  by_cases hstring : rule = .string
  · subst hstring
    cases hrule with
    | string hbody => exact hbody.longest _
  intro kind p hp hfront
  by_contra hlonger
  -- a longer piece begins with this one and the blank
  obtain ⟨more, hmore⟩ : piece ++ [c] <+: p := by
    refine List.prefix_of_prefix_length_le ⟨rest, List.append_cons .. |>.symm⟩ hfront ?_
    rw [List.length_append, List.length_singleton]
    omega
  have hmem : c ∈ p := by simp [← hmore]
  obtain ⟨d, piece, rfl⟩ := List.exists_cons_of_ne_nil h.ne_nil
  rw [List.cons_append, List.cons_append] at hmore
  rcases hp.of_blank hc hmem with rfl | rfl | hquoted
  · cases hp with
    | blank _ htext =>
      refine hblank (hrule.kind_unique (.blank (List.cons_ne_nil _ _) fun e he => htext e ?_))
      rw [← hmore, List.append_assoc, ← List.cons_append]
      exact List.mem_append_left _ he
  · cases hp with
    | @comment text htext =>
      obtain ⟨rfl, hnext⟩ := List.cons.inj hmore
      cases piece with
      | nil =>
        obtain ⟨rfl, -⟩ := List.cons.inj hnext
        cases hc
      | cons e piece =>
        obtain ⟨rfl, rfl⟩ := List.cons.inj hnext
        refine hcomment (hrule.kind_unique (.comment fun e he => htext e ?_))
        exact List.mem_append_left _ (List.mem_append_left _ he)
  · have hquote : d = '"' := by
      rcases hquoted with rfl | rfl <;> cases hp <;> exact (List.cons.inj hmore).1
    subst hquote
    exact hrule.of_quote.elim hstring hopen

/-! ## Gaps and pieces -/

/-- A text that is cut up: gaps and pieces in turn, and a gap at the end. -/
inductive Layout where
  | ending (gap : List Char)
  | part (gap piece : List Char) (behind : Layout)

namespace Layout

/-- The text that is cut up. -/
def text : Layout → List Char
  | ending gap => gap
  | part gap piece behind => gap ++ (piece ++ behind.text)

/-- The pieces, without the gaps. -/
def pieces : Layout → List (List Char)
  | ending _ => []
  | part _ piece behind => piece :: behind.pieces

/-- Tokens cut a text up if each of them is what its piece means and stands in its place, and what lies
between them are gaps. The text begins at byte `offset` of the source, as in `Tiles`. -/
inductive CutBy : Nat → Bool → Layout → List Token → Prop where
  | ending {offset : Nat} {newline : Bool} {gap : List Char} (hgap : Gap [] gap) :
    CutBy offset newline (.ending gap)
      [Token.endAt (offset + byteLength gap) (newline || decide ('\n' ∈ gap))]
  | part {offset : Nat} {newline : Bool} {gap piece : List Char} {behind : Layout} {kind : TokenKind}
    {tokens : List Token} (hgap : Gap (piece ++ behind.text) gap) (hmeans : Means piece kind)
    (hlongest : Longest piece behind.text)
    (htail : CutBy (offset + byteLength gap + byteLength piece) false behind tokens) :
    CutBy offset newline (.part gap piece behind)
      (⟨kind, Span.ofRange (offset + byteLength gap) (offset + byteLength gap + byteLength piece),
        newline || decide ('\n' ∈ gap)⟩ :: tokens)

section CutBy

variable {offset : Nat} {newline : Bool} {layout : Layout} {text : List Char} {tokens : List Token}

theorem CutBy.tiles (h : layout.CutBy offset newline tokens) : Tiles offset newline layout.text tokens := by
  induction h with
  | ending hgap => exact .stop hgap
  | part hgap hmeans hlongest _ ih => exact .tile hgap hmeans hlongest ih

/-- What is tiled is cut up. -/
theorem exists_cutBy (h : Tiles offset newline text tokens) :
    ∃ layout : Layout, layout.text = text ∧ layout.CutBy offset newline tokens := by
  induction h with
  | @stop _ _ gap hgap => exact ⟨.ending gap, rfl, .ending hgap⟩
  | @tile _ _ gap piece _ _ _ hgap hmeans hlongest _ ih =>
    obtain ⟨behind, rfl, hcut⟩ := ih
    exact ⟨.part gap piece behind, rfl, .part hgap hmeans hlongest hcut⟩

/-- As long as offsets are not cut, the pieces are the bytes that the tokens cover. -/
theorem CutBy.slices {front : List Char} (h : layout.CutBy (byteLength front) newline tokens)
    (hsize : byteLength (front ++ layout.text) ≤ Span.maxOffset) :
    tokens.dropLast.map (fun t => slice? (front ++ layout.text) t.span.start t.span.stop) =
      layout.pieces.map some := by
  generalize hoffset : byteLength front = offset at h
  induction h generalizing front with
  | ending => rfl
  | @part _ _ gap piece behind _ tokens _ _ _ htail ih =>
    subst hoffset
    have hfront : front ++ (Layout.part gap piece behind).text = front ++ gap ++ piece ++ behind.text := by
      simp [Layout.text]
    rw [hfront] at hsize ⊢
    have hplace : Span.ofRange (byteLength front + byteLength gap)
        (byteLength front + byteLength gap + byteLength piece) =
        ⟨byteLength (front ++ gap), byteLength (front ++ gap ++ piece)⟩ := by
      rw [byteLength_append] at hsize
      simp only [byteLength_append] at hsize ⊢
      simp only [Span.ofRange, Span.mk.injEq]
      omega
    have hrest := ih hsize (by simp only [byteLength_append])
    rw [List.dropLast_cons_of_ne_nil htail.tiles.ne_nil, List.map_cons, hrest, hplace]
    dsimp only
    rw [slice?_append]
    rfl

end CutBy

/-! ## Other gaps -/

/-- What comes behind a piece: every gap separates, and there may be none at the end. -/
inductive Separates : Layout → Prop where
  | nothing : Separates (.ending [])
  | ending {gap : List Char} (h : Separator gap) : Separates (.ending gap)
  | part {gap piece : List Char} {behind : Layout} (h : Separator gap) :
    Separates behind → Separates (.part gap piece behind)

/-- All gaps are spacing, and those behind a piece separate. -/
inductive Spaced : Layout → Prop where
  | ending {gap : List Char} (h : Spacing gap) : Spaced (.ending gap)
  | part {gap piece : List Char} {behind : Layout} (h : Spacing gap) (hbehind : Separates behind) :
    Spaced (.part gap piece behind)

theorem Separates.spaced {layout : Layout} (h : layout.Separates) : layout.Spaced := by
  cases h with
  | nothing => exact .ending .nil
  | ending h => exact .ending h.spacing
  | part h hbehind => exact .part h.spacing hbehind

/-- A piece is the longest before what separates. -/
theorem Separates.longest {piece : List Char} {k : TokenKind} {layout : Layout} (h : layout.Separates)
    (hmeans : Means piece k) : Longest piece layout.text := by
  have hend : Longest piece [] := fun _ _ _ hfront => by
    rw [List.append_nil] at hfront
    exact hfront.length_le
  have hbefore : ∀ {gap : List Char} (rest : List Char), Separator gap → Longest piece (gap ++ rest) := by
    rintro _ rest ⟨hc, -⟩
    rcases hc with hc | rfl
    · exact hmeans.longest_before_blank hc _
    · exact hend.before_line hmeans.ne_nil _
  cases h with
  | nothing => exact hend
  | ending h =>
    have hgap := hbefore [] h
    rwa [List.append_nil] at hgap
  | part h => exact hbefore _ h

/-- With other gaps, the same pieces are cut out by tokens of the same kinds. -/
theorem CutBy.respaced {offset : Nat} {newline : Bool} {layout layout' : Layout} {tokens : List Token}
    (h : layout.CutBy offset newline tokens) (hpieces : layout'.pieces = layout.pieces)
    (hspaced : layout'.Spaced) (offset' : Nat) (newline' : Bool) :
    ∃ tokens', layout'.CutBy offset' newline' tokens' ∧
      tokens'.map (·.kind) = tokens.map (·.kind) := by
  induction h generalizing layout' offset' newline' with
  | ending =>
    cases hspaced with
    | ending hgap => exact ⟨_, .ending (hgap.gap []), rfl⟩
    | part => cases hpieces
  | part _ hmeans _ _ ih =>
    cases hspaced with
    | ending => cases hpieces
    | part hgap hbehind =>
      obtain ⟨rfl, hrest⟩ := List.cons.inj hpieces
      obtain ⟨tokens', hcut, hkinds⟩ := ih hrest hbehind.spaced _ false
      refine ⟨_, .part (hgap.gap _) hmeans (hbehind.longest hmeans) hcut, ?_⟩
      rw [List.map_cons, List.map_cons, hkinds]

/-- Pieces with a space before each of them. -/
def spaceBefore : List (List Char) → Layout
  | [] => .ending []
  | piece :: pieces => .part [' '] piece (spaceBefore pieces)

/-- Pieces with single spaces between them. -/
def bySpaces : List (List Char) → Layout
  | [] => .ending []
  | piece :: pieces => .part [] piece (spaceBefore pieces)

theorem separates_spaceBefore (pieces : List (List Char)) : (spaceBefore pieces).Separates := by
  induction pieces with
  | nil => exact .nothing
  | cons piece pieces ih => exact .part (.blank (.inl rfl) .nil) ih

theorem spaced_bySpaces (pieces : List (List Char)) : (bySpaces pieces).Spaced := by
  cases pieces with
  | nil => exact .ending .nil
  | cons piece pieces => exact .part .nil (separates_spaceBefore pieces)

theorem pieces_bySpaces (pieces : List (List Char)) : (bySpaces pieces).pieces = pieces := by
  have hbefore : ∀ pieces, (spaceBefore pieces).pieces = pieces := by
    intro pieces
    induction pieces with
    | nil => rfl
    | cons piece pieces ih => exact congrArg (piece :: ·) ih
  cases pieces with
  | nil => rfl
  | cons piece pieces => exact congrArg (piece :: ·) (hbefore pieces)

theorem text_bySpaces (pieces : List (List Char)) :
    (bySpaces pieces).text = [' '].intercalate pieces := by
  cases pieces with
  | nil => rfl
  | cons piece pieces =>
    induction pieces generalizing piece with
    | nil => simp [bySpaces, spaceBefore, text]
    | cons piece' pieces ih =>
      have hrest : (bySpaces (piece' :: pieces)).text = piece' ++ (spaceBefore pieces).text := rfl
      rw [List.intercalate_cons_cons, ← ih, hrest]
      simp [bySpaces, spaceBefore, text]

/-- The text is read as tokens of these kinds, and they cut it up as it is laid out. -/
def ReadsAs (layout : Layout) (kinds : List TokenKind) : Prop :=
  ∃ tokens, lex (String.ofList layout.text) = .ok tokens ∧ layout.CutBy 0 false tokens ∧
    tokens.map (·.kind) = kinds

end Layout

/-- **Respacing is invisible.** A source that is read as tokens is cut into gaps and pieces by them. With
any other spacing in the gaps, as long as it separates the pieces, the same pieces are read as tokens of
the same kinds, one for each. So they are with single spaces between them, and then they are joined
to the same text again. -/
theorem respacing_is_invisible {source : String} {tokens : List Token} (hlex : lex source = .ok tokens) :
    ∃ layout : Layout, layout.text = source.toList ∧ layout.CutBy 0 false tokens ∧
      (byteLength source.toList < 2 ^ 32 →
        tokens.dropLast.map (fun t => slice? source.toList t.span.start t.span.stop) =
          layout.pieces.map some) ∧
      (∀ layout' : Layout, layout'.pieces = layout.pieces → layout'.Spaced →
        layout'.ReadsAs (tokens.map (·.kind))) ∧
      ∃ joined : Layout, joined.text = [' '].intercalate layout.pieces ∧
        joined.ReadsAs (tokens.map (·.kind)) ∧ [' '].intercalate joined.pieces = joined.text := by
  obtain ⟨layout, htext, hcut⟩ := Layout.exists_cutBy (lexFrom_eq_ok_iff.1 hlex)
  have hrespaced : ∀ layout' : Layout, layout'.pieces = layout.pieces → layout'.Spaced →
      layout'.ReadsAs (tokens.map (·.kind)) := by
    intro layout' hpieces hspaced
    obtain ⟨tokens', hcut', hkinds⟩ := hcut.respaced hpieces hspaced 0 false
    refine ⟨tokens', ?_, hcut', hkinds⟩
    rw [lex, String.toList_ofList]
    exact lexFrom_eq_ok_iff.2 hcut'.tiles
  refine ⟨layout, htext, hcut, fun hsize => ?_, hrespaced, .bySpaces layout.pieces,
    Layout.text_bySpaces _, hrespaced _ (Layout.pieces_bySpaces _) (Layout.spaced_bySpaces _), ?_⟩
  · have hbegin : layout.CutBy (byteLength []) false tokens := hcut
    rw [← htext] at hsize ⊢
    exact hbegin.slices (Nat.le_of_lt_succ hsize)
  · rw [Layout.pieces_bySpaces, Layout.text_bySpaces]

/-- Pieces that touch: symbols, numbers, a string with slashes in it and a word, with a comment at the end. -/
def touching : String := "a==-1]\"s//\"(1.5x//end"

def touchingTokens : List Token :=
  [⟨.ident "a", ⟨0, 1⟩, false⟩, ⟨.symbol .equal, ⟨1, 3⟩, false⟩, ⟨.symbol .minus, ⟨3, 4⟩, false⟩,
   ⟨.int 1, ⟨4, 5⟩, false⟩, ⟨.symbol .rightBracket, ⟨5, 6⟩, false⟩, ⟨.string "s//", ⟨6, 11⟩, false⟩,
   ⟨.symbol .leftParen, ⟨11, 12⟩, false⟩, ⟨.float (Decimal.ofParts ['1'] ['5']), ⟨12, 15⟩, false⟩,
   ⟨.ident "x", ⟨15, 16⟩, false⟩, ⟨.eof, ⟨21, 21⟩, false⟩]

/-- The same pieces apart, by all that may stand between them. -/
def apart : String :=
  "//one\na\t== //-\n-\r\n1\x0c] \"s//\"\n//(\n( 1.5 //\nx //end\n"

theorem respacing_is_invisible_touching :
    lex touching = .ok touchingTokens ∧
      ∃ tokens, lex apart = .ok tokens ∧ tokens.map (·.kind) = touchingTokens.map (·.kind) := by
  have hlex : lex touching = .ok touchingTokens := by decide +kernel
  refine ⟨hlex, ?_⟩
  obtain ⟨layout, -, -, hslices, hrespaced, -⟩ := respacing_is_invisible hlex
  have hslices := hslices (by decide +kernel)
  have hpieces : layout.pieces = [['a'], ['=', '='], ['-'], ['1'], [']'], ['"', 's', '/', '/', '"'], ['('],
      ['1', '.', '5'], ['x']] := by
    refine (List.map_inj_right fun _ _ => Option.some.inj).1 ?_
    rw [← hslices]
    decide +kernel
  have hcomment : ∀ (text : List Char), (∀ c ∈ text, c ≠ '\n') → Spacing ('/' :: '/' :: text ++ ['\n']) :=
    fun _ htext => .comment htext .nil
  have hspaced : Layout.Spaced
      (.part ['/', '/', 'o', 'n', 'e', '\n'] ['a'] <| .part ['\t'] ['=', '='] <|
        .part [' ', '/', '/', '-', '\n'] ['-'] <| .part ['\r', '\n'] ['1'] <| .part ['\x0c'] [']'] <|
        .part [' '] ['"', 's', '/', '/', '"'] <| .part ['\n', '/', '/', '(', '\n'] ['('] <|
        .part [' '] ['1', '.', '5'] <| .part [' ', '/', '/', '\n'] ['x'] <|
        .ending [' ', '/', '/', 'e', 'n', 'd', '\n']) :=
    .part (hcomment ['o', 'n', 'e'] (by simp)) <| .part (.blank (by decide) .nil) <|
      .part (.blank (by decide) (hcomment ['-'] (by simp))) <|
      .part (.blank (by decide) (.blank (by decide) .nil)) <| .part (.blank (by decide) .nil) <|
      .part (.blank (by decide) .nil) <| .part (.blank (by decide) (hcomment ['('] (by simp))) <|
      .part (.blank (by decide) .nil) <| .part (.blank (by decide) (hcomment [] (by simp))) <|
      .ending (.blank (by decide) (hcomment ['e', 'n', 'd'] (by simp)))
  obtain ⟨tokens, hread, -, hkinds⟩ := hrespaced _ (by rw [hpieces]; rfl) hspaced
  exact ⟨tokens, hread, hkinds⟩

end Nikl
