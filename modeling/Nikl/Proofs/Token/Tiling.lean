import Mathlib.Algebra.Group.Nat.Defs
import Nikl.Proofs.Token.LongestMatch

/-
A text that is read into tokens is tiled by them: gap, piece, gap, piece, and so on, and one gap more
before the end. `Tiles` says this without the reader: what a gap may hold, what a piece is, what it
means. It holds of the tokens that the reader gives and of no others (`lexFrom_eq_ok_iff`), so the
places, kinds and line breaks of tokens are read off it.

The reader carries a flag for line breaks from one separating lexeme to the next. In a tiling a gap is
one text, and the flag of the token behind it says whether there is a line feed in it.
-/

set_option autoImplicit false

namespace Nikl

open Source Lexeme LexemeKind

/-! ## What pieces mean -/

/-- What the content of a string stands for: a backslash and the character behind it stand for one
character, and all else for itself. -/
inductive StandsFor : List Char → List Char → Prop where
  | nil : StandsFor [] []
  | plain {c : Char} {body content : List Char} (hc : c ≠ '\\') :
    StandsFor body content → StandsFor (c :: body) (c :: content)
  | escape {e c : Char} {body content : List Char} (he : escape? e = some c) :
    StandsFor body content → StandsFor ('\\' :: e :: body) (c :: content)

/-- What a piece of text means as a token. A word that is reserved is no name. -/
inductive Means : List Char → TokenKind → Prop where
  | keyword (w : Keyword) : Means w.spelling.toList (.keyword w)
  | typeName (t : TypeName) : Means t.spelling.toList (.typeName t)
  | ident {word : List Char} (hword : Allows .word word)
    (hkeyword : ∀ w : Keyword, w.spelling.toList ≠ word)
    (htype : ∀ t : TypeName, t.spelling.toList ≠ word) : Means word (.ident (String.ofList word))
  | int {digits : List Char} {n : Int64} (hdigits : Allows .integer digits)
    (hvalue : n.toInt = Decimal.digitsValue digits) : Means digits (.int n)
  | float {whole fraction : List Char} (hwhole : Allows .integer whole)
    (hfraction : Allows .integer fraction) :
    Means (whole ++ '.' :: fraction) (.float (Decimal.ofParts whole fraction))
  | string {body content : List Char} (hbody : InString body) (hcontent : StandsFor body content) :
    Means ('"' :: body ++ ['"']) (.string (String.ofList content))
  | symbol (s : Symbol) : Means s.spelling.toList (.symbol s)

theorem Means.ne_eof {piece : List Char} {k : TokenKind} (h : Means piece k) : k ≠ .eof := by
  rintro rfl
  cases h

/-! ## The reader finds the meaning -/

theorem map_eq_ok_iff {ε α β : Type} {f : α → β} {x : Except ε α} {b : β} :
    x.map f = .ok b ↔ ∃ a, x = .ok a ∧ f a = b := by
  cases x <;> simp [Except.map]

theorem unescape_plain {c : Char} (hc : c ≠ '\\') (offset : Nat) (rest : List Char) :
    unescape offset (c :: rest) = (unescape (offset + c.utf8Size) rest).map (c :: ·) := by
  rw [unescape]
  all_goals simp [hc]

/-- The content of a string is read as what it stands for, and is refused where it stands for nothing. -/
theorem unescape_ok_iff {body content : List Char} (h : InString body) (offset : Nat) :
    unescape offset body = .ok content ↔ StandsFor body content := by
  induction h generalizing offset content with
  | nil =>
    constructor
    · rintro ⟨⟩
      exact .nil
    · rintro ⟨⟩
      rfl
  | @plain c rest _ hslash _ _ ih =>
    rw [unescape_plain hslash, map_eq_ok_iff]
    constructor
    · rintro ⟨content, hrest, rfl⟩
      exact .plain hslash ((ih _).1 hrest)
    · intro hstands
      cases hstands with
      | plain _ hrest => exact ⟨_, (ih _).2 hrest, rfl⟩
      | escape => exact absurd rfl hslash
  | @escape c rest _ _ ih =>
    rw [unescape]
    cases he : escape? c with
    | none =>
      constructor
      · intro hfails
        cases hfails
      · intro hstands
        cases hstands with
        | plain hslash => exact absurd rfl hslash
        | escape he' =>
          rw [he] at he'
          cases he'
    | some plain =>
      dsimp only
      rw [map_eq_ok_iff]
      constructor
      · rintro ⟨content, hrest, rfl⟩
        exact .escape he ((ih _).1 hrest)
      · intro hstands
        cases hstands with
        | plain hslash => exact absurd rfl hslash
        | escape he' hrest =>
          rw [he] at he'
          cases he'
          exact ⟨_, (ih _).2 hrest, rfl⟩

theorem wordKind_keyword (w : Keyword) : wordKind w.spelling = .keyword w := by
  cases w <;> rfl

theorem wordKind_typeName (t : TypeName) : wordKind t.spelling = .typeName t := by
  cases t <;> rfl

/-- A word that is not reserved is a name. -/
theorem wordKind_ident {word : List Char} (hkeyword : ∀ w : Keyword, w.spelling.toList ≠ word)
    (htype : ∀ t : TypeName, t.spelling.toList ≠ word) :
    wordKind (String.ofList word) = .ident (String.ofList word) := by
  have hnokeyword : Keyword.all.find? (fun k => k.spelling == String.ofList word) = none := by
    refine List.find?_eq_none.2 fun k _ hk => hkeyword k ?_
    rw [beq_iff_eq.1 hk, String.toList_ofList]
  have hnotype : TypeName.all.find? (fun t => t.spelling == String.ofList word) = none := by
    refine List.find?_eq_none.2 fun t _ ht => htype t ?_
    rw [beq_iff_eq.1 ht, String.toList_ofList]
  rw [wordKind, hnokeyword, hnotype]

theorem wordKind_means {word : List Char} (hword : Allows .word word) :
    Means word (wordKind (String.ofList word)) := by
  by_cases hkeyword : ∃ w : Keyword, w.spelling.toList = word
  · obtain ⟨w, rfl⟩ := hkeyword
    rw [String.ofList_toList, wordKind_keyword]
    exact .keyword w
  by_cases htype : ∃ t : TypeName, t.spelling.toList = word
  · obtain ⟨t, rfl⟩ := htype
    rw [String.ofList_toList, wordKind_typeName]
    exact .typeName t
  rw [not_exists] at hkeyword htype
  rw [wordKind_ident hkeyword htype]
  exact .ident hword hkeyword htype

/-- Digits are read as the integer that they write, unless it is too large. -/
theorem intLiteral_eq_ok_iff {digits : List Char} {k : TokenKind} (span : Span) :
    intLiteral digits span = .ok k ↔ ∃ n : Int64, n.toInt = Decimal.digitsValue digits ∧ k = .int n := by
  have hmax : (maxInt : Int) + 1 = 2 ^ 63 := by decide
  show (if Decimal.digitsValue digits ≤ maxInt then _ else _) = _ ↔ _
  split
  · next hle =>
    have hvalue : (Int64.ofNat (Decimal.digitsValue digits)).toInt = Decimal.digitsValue digits :=
      Int64.toInt_ofNat_of_lt (by omega)
    constructor
    · rintro ⟨⟩
      exact ⟨_, hvalue, rfl⟩
    · rintro ⟨n, hn, rfl⟩
      rw [Int64.toInt_inj.1 (hn.trans hvalue.symm)]
  · next hlarge =>
    refine ⟨nofun, ?_⟩
    rintro ⟨n, hn, -⟩
    have hlt := Int64.toInt_lt n
    omega

theorem floatLiteral_append {whole fraction : List Char} (h : ∀ c ∈ whole, c.isDigit = true) :
    floatLiteral (whole ++ '.' :: fraction) = .float (Decimal.ofParts whole fraction) := by
  have hrun : run .integer Char.isDigit (whole ++ '.' :: fraction) = _ :=
    run_append_eq .integer h (by simp)
  rw [run, Prod.mk.injEq, Lexeme.mk.injEq] at hrun
  rw [floatLiteral, hrun.1.2, hrun.2]
  rfl

theorem dropQuotes (body : List Char) : (('"' :: body ++ ['"']).drop 1).dropLast = body := by
  rw [List.cons_append, List.drop_one, List.tail_cons, List.dropLast_concat]

/-- A lexeme becomes no token but the one that its text means. -/
theorem Lexeme.means_of_tokenKind? {l : Lexeme} {k : TokenKind} {span : Span}
    (h : l.kind.Allows l.text) (hk : l.tokenKind? span = .ok (some k)) : Means l.text k := by
  obtain ⟨kind, text⟩ := l
  cases h with
  | blank | newline | comment | openString => cases hk
  | word hc htext =>
    cases hk
    exact wordKind_means (.word hc htext)
  | integer hne htext =>
    obtain ⟨_, hliteral, ⟨⟩⟩ := map_eq_ok_iff.1 hk
    obtain ⟨n, hvalue, rfl⟩ := (intLiteral_eq_ok_iff span).1 hliteral
    exact .int (.integer hne htext) hvalue
  | @decimal whole fraction hwhole hfraction h h' =>
    have hfloat : floatLiteral (whole ++ '.' :: fraction) = _ := floatLiteral_append h
    replace hk : Except.ok (some (floatLiteral (whole ++ '.' :: fraction))) = .ok (some k) := hk
    rw [hfloat] at hk
    cases hk
    exact .float (.integer hwhole h) (.integer hfraction h')
  | @string body hbody =>
    obtain ⟨content, hcontent, ⟨⟩⟩ := map_eq_ok_iff.1 hk
    replace hcontent : unescape span.behindFirst (('"' :: body ++ ['"']).drop 1).dropLast = .ok content :=
      hcontent
    rw [dropQuotes] at hcontent
    exact .string hbody ((unescape_ok_iff hbody _).1 hcontent)
  | symbol s =>
    cases hk
    exact .symbol s

theorem allows_keyword (w : Keyword) : Allows .word w.spelling.toList := by
  cases w <;> exact .word (by decide) (List.all_eq_true.1 (by decide))

theorem allows_typeName (t : TypeName) : Allows .word t.spelling.toList := by
  cases t <;> exact .word (by decide) (List.all_eq_true.1 (by decide))

/-- A text with a meaning is a lexeme, and becomes what it means. -/
theorem Means.lexeme {piece : List Char} {k : TokenKind} (h : Means piece k) :
    ∃ rule : LexemeKind, rule.Allows piece ∧
      ∀ span, tokenKind? ⟨rule, piece⟩ span = .ok (some k) := by
  cases h with
  | keyword w =>
    refine ⟨.word, allows_keyword w, fun _ => ?_⟩
    rw [tokenKind?, String.ofList_toList, wordKind_keyword]
  | typeName t =>
    refine ⟨.word, allows_typeName t, fun _ => ?_⟩
    rw [tokenKind?, String.ofList_toList, wordKind_typeName]
  | ident hword hkeyword htype =>
    refine ⟨.word, hword, fun _ => ?_⟩
    rw [tokenKind?, wordKind_ident hkeyword htype]
  | int hdigits hvalue =>
    refine ⟨.integer, hdigits, fun span => ?_⟩
    rw [tokenKind?, (intLiteral_eq_ok_iff span).2 ⟨_, hvalue, rfl⟩]
    rfl
  | float hwhole hfraction =>
    cases hwhole with | integer hne h =>
    cases hfraction with | integer hne' h' =>
    refine ⟨.decimal, .decimal hne hne' h h', fun _ => ?_⟩
    rw [tokenKind?, floatLiteral_append h]
  | string hbody hcontent =>
    refine ⟨.string, .string hbody, fun _ => ?_⟩
    rw [tokenKind?, dropQuotes, (unescape_ok_iff hbody _).2 hcontent]
    rfl
  | symbol s => exact ⟨.symbol s, .symbol s, fun _ => rfl⟩

/-- A text has one meaning. -/
theorem Means.unique {piece : List Char} {k k' : TokenKind} (h : Means piece k) (h' : Means piece k') :
    k = k' := by
  obtain ⟨rule, hallows, hkind⟩ := h.lexeme
  obtain ⟨rule', hallows', hkind'⟩ := h'.lexeme
  cases hallows.kind_unique hallows'
  have hsame := (hkind .nowhere).symm.trans (hkind' .nowhere)
  simpa using hsame

theorem Means.byteLength_pos {piece : List Char} {k : TokenKind} (h : Means piece k) :
    0 < byteLength piece := by
  obtain ⟨rule, hallows, -⟩ := h.lexeme
  have hpos := List.length_pos_iff.2 hallows.ne_nil
  have hle := length_le_byteLength piece
  omega

/-! ## Gaps -/

/-- What may stand before a token, or before the end of the text: blanks, line feeds, and comments
that go on to the end of their line. What the gap is followed by tells whether a comment that stands
last in it does. -/
inductive Gap (behind : List Char) : List Char → Prop where
  | nil : Gap behind []
  | blank {c : Char} {gap : List Char} (hc : isSpace c = true ∨ c = '\n') :
    Gap behind gap → Gap behind (c :: gap)
  | comment {text gap : List Char} (htext : ∀ c ∈ text, c ≠ '\n')
    (hend : ∀ c ∈ (gap ++ behind).head?, c = '\n') :
    Gap behind gap → Gap behind ('/' :: '/' :: text ++ gap)

section Gaps

variable {behind gap : List Char} {offset : Nat} {newline : Bool}

theorem Gap.blanks {text : List Char} (htext : ∀ c ∈ text, isSpace c = true) (h : Gap behind gap) :
    Gap behind (text ++ gap) := by
  induction text with
  | nil => exact h
  | cons c text ih =>
    rw [List.forall_mem_cons] at htext
    exact .blank (.inl htext.1) (ih htext.2)

/-- A lexeme that becomes no token may stand before a gap. -/
theorem Gap.lexeme {l : Lexeme} {span : Span} (hnone : l.tokenKind? span = .ok none)
    (hallows : l.kind.Allows l.text) (hlongest : Longest l.text (gap ++ behind)) (h : Gap behind gap) :
    Gap behind (l.text ++ gap) ∧ decide (l.kind = .newline) = decide ('\n' ∈ l.text) := by
  obtain ⟨kind, text⟩ := l
  cases hallows with
  | blank hne htext =>
    refine ⟨h.blanks htext, ?_⟩
    have hline : '\n' ∉ text := fun hmem => Bool.false_ne_true (htext _ hmem)
    simp [hline]
  | newline => exact ⟨.blank (.inr rfl) h, rfl⟩
  | @comment text htext =>
    refine ⟨.comment htext (fun c hc => ?_) h, ?_⟩
    · by_contra hne
      obtain ⟨rest, hrest⟩ := List.head?_eq_some_iff.1 hc
      have hmore : Allows .comment ('/' :: '/' :: (text ++ [c])) := by
        refine .comment fun d hd => ?_
        rcases List.mem_append.1 hd with hd | hd
        · exact htext d hd
        · exact List.mem_singleton.1 hd ▸ hne
      -- a comment that stops short of its line's end is not the longest one
      have hle := hlongest .comment _ hmore ⟨rest, by simp [hrest]⟩
      simp only [List.length_cons, List.length_append, List.length_nil] at hle
      omega
    · have hline : '\n' ∉ '/' :: '/' :: text := by
        simpa using fun hmem => htext _ hmem rfl
      simp [hline]
  | word | decimal | openString | symbol => cases hnone
  | integer =>
    obtain ⟨_, _, ⟨⟩⟩ := map_eq_ok_iff.1 hnone
  | string =>
    obtain ⟨_, _, ⟨⟩⟩ := map_eq_ok_iff.1 hnone

/-- A space is dropped, whether or not more spaces follow it. -/
theorem lexFrom_space {c : Char} (hc : isSpace c = true) (text : List Char) :
    lexFrom offset newline (c :: text) = lexFrom (offset + c.utf8Size) newline text := by
  have hrun : ∀ (offset : Nat) {d : Char} (rest : List Char), isSpace d = true →
      lexFrom offset newline (d :: rest) =
        lexFrom (offset + byteLength (d :: rest.takeWhile isSpace)) newline
          (rest.dropWhile isSpace) := by
    intro offset d rest hd
    have hfirst : first? (d :: rest) = _ := first?_space hd
    rw [run, List.takeWhile_cons, if_pos hd, List.dropWhile_cons, if_pos hd] at hfirst
    rw [lexFrom_separator hfirst fun _ => rfl]
    exact congrArg (lexFrom _ · _) (Bool.or_false newline)
  rw [hrun _ _ hc]
  cases text with
  | nil => rfl
  | cons d rest =>
    by_cases hd : isSpace d = true
    · rw [hrun _ _ hd, List.takeWhile_cons, if_pos hd, List.dropWhile_cons, if_pos hd, byteLength_cons,
        Nat.add_assoc]
    · rw [List.takeWhile_cons, if_neg hd, List.dropWhile_cons, if_neg hd]
      rfl

/-- So many blanks. -/
def blankText (n : Nat) : List Char := List.replicate n ' '

theorem byteLength_blankText (n : Nat) : byteLength (blankText n) = n := by
  induction n with
  | zero => rfl
  | succ n ih =>
    rw [blankText, List.replicate_succ, byteLength_cons, ← blankText, ih, Nat.add_comm]
    rfl

theorem Gap.blankText (n : Nat) (behind : List Char) : Gap behind (Nikl.blankText n) := by
  have hblank : ∀ c ∈ Nikl.blankText n, isSpace c = true := fun c hc => List.eq_of_mem_replicate hc ▸ rfl
  have h : Gap behind (Nikl.blankText n ++ []) := .blanks hblank .nil
  rwa [List.append_nil] at h

/-- **A gap is dropped**, and the line feeds in it are noted. -/
theorem lexFrom_gap (h : Gap behind gap) (offset : Nat) (newline : Bool) :
    lexFrom offset newline (gap ++ behind) =
      lexFrom (offset + byteLength gap) (newline || decide ('\n' ∈ gap)) behind := by
  induction h generalizing offset newline with
  | nil =>
    rw [List.nil_append, byteLength_nil, Nat.add_zero]
    exact congrArg (lexFrom _ · _) (Bool.or_false newline).symm
  | @blank c gap hc _ ih =>
    rw [List.cons_append, byteLength_cons, ← Nat.add_assoc]
    rcases hc with hc | rfl
    · have hne : '\n' ≠ c := by
        rintro rfl
        cases hc
      rw [lexFrom_space hc, ih]
      simp [hne]
    · rw [lexFrom_separator (l := ⟨.newline, ['\n']⟩) rfl fun _ => rfl, ih]
      simp
  | @comment text gap htext hend _ ih =>
    have hrun : run .comment (· ≠ '\n') ('/' :: '/' :: text ++ (gap ++ behind)) = _ :=
      run_append_eq .comment (by simpa using htext) (by simpa using hend)
    have hfirst : first? ('/' :: '/' :: (text ++ (gap ++ behind))) = _ := first?_slashes
    have hline : '\n' ∉ text := fun hmem => htext _ hmem rfl
    rw [← List.cons_append, ← List.cons_append, hrun] at hfirst
    rw [List.append_assoc, lexFrom_separator hfirst fun _ => rfl, ih, byteLength_append, Nat.add_assoc]
    simp [hline]

end Gaps

/-! ## Tilings -/

/-- Tokens and the text that they tile, from byte `offset` of the source on: gaps and pieces in turn.
A line break stands before the first token if `newline`, or if there is one in the gap before it. -/
inductive Tiles : Nat → Bool → List Char → List Token → Prop where
  | stop {offset : Nat} {newline : Bool} {gap : List Char} (hgap : Gap [] gap) :
    Tiles offset newline gap
      [Token.endAt (offset + byteLength gap) (newline || decide ('\n' ∈ gap))]
  | tile {offset : Nat} {newline : Bool} {gap piece rest : List Char} {kind : TokenKind}
    {tokens : List Token} (hgap : Gap (piece ++ rest) gap) (hmeans : Means piece kind)
    (hlongest : Longest piece rest)
    (htail : Tiles (offset + byteLength gap + byteLength piece) false rest tokens) :
    Tiles offset newline (gap ++ (piece ++ rest))
      (⟨kind, Span.ofRange (offset + byteLength gap) (offset + byteLength gap + byteLength piece),
        newline || decide ('\n' ∈ gap)⟩ :: tokens)

section Tiles

variable {offset : Nat} {newline : Bool} {text : List Char} {tokens : List Token}

theorem newline_append (front gap : List Char) :
    (newline || decide ('\n' ∈ front ++ gap)) =
      (newline || decide ('\n' ∈ front) || decide ('\n' ∈ gap)) := by
  simp [Bool.or_assoc]

/-- A lexeme that becomes no token joins the gap behind it. -/
theorem Tiles.lexeme {l : Lexeme} {span : Span} (hnone : l.tokenKind? span = .ok none)
    (hallows : l.kind.Allows l.text) (hlongest : Longest l.text text)
    (h : Tiles (offset + byteLength l.text) (newline || decide (l.kind = .newline)) text tokens) :
    Tiles offset newline (l.text ++ text) tokens := by
  cases h with
  | stop hgap =>
    obtain ⟨hfront, hline⟩ := hgap.lexeme hnone hallows (by rwa [List.append_nil])
    rw [hline, Nat.add_assoc, ← byteLength_append, ← newline_append]
    exact .stop hfront
  | tile hgap hmeans hlong htail =>
    obtain ⟨hfront, hline⟩ := hgap.lexeme hnone hallows hlongest
    rw [hline, Nat.add_assoc offset, ← byteLength_append] at *
    rw [← newline_append, ← List.append_assoc]
    exact .tile hfront hmeans hlong htail

/-! ## The reader tiles -/

/-- What the reader does in one step, where it succeeds. -/
theorem lexFrom_eq_ok (h : lexFrom offset newline text = .ok tokens) :
    (text = [] ∧ tokens = [Token.endAt offset newline]) ∨
      ∃ l rest, first? text = some (l, rest) ∧
        (l.tokenKind? (Span.ofRange offset (offset + byteLength l.text)) = .ok none ∧
            lexFrom (offset + byteLength l.text) (newline || l.kind = .newline) rest = .ok tokens ∨
          ∃ kind later,
            l.tokenKind? (Span.ofRange offset (offset + byteLength l.text)) = .ok (some kind) ∧
              lexFrom (offset + byteLength l.text) false rest = .ok later ∧
                tokens =
                  ⟨kind, Span.ofRange offset (offset + byteLength l.text), newline⟩ :: later) := by
  rw [lexFrom_eq] at h
  split at h
  · split at h
    · exact .inl ⟨rfl, (Except.ok.inj h).symm⟩
    · cases h
  · next l rest hfirst =>
    refine .inr ⟨l, rest, hfirst, ?_⟩
    dsimp only at h
    split at h
    · cases h
    · next hnone => exact .inl ⟨hnone, h⟩
    · next kind hkind =>
      obtain ⟨later, hlater, rfl⟩ := map_eq_ok_iff.1 h
      exact .inr ⟨kind, later, hkind, hlater, rfl⟩

theorem tiles_of_lexFrom (h : lexFrom offset newline text = .ok tokens) :
    Tiles offset newline text tokens := by
  induction hn : text.length using Nat.strongRecOn generalizing offset newline text tokens with
  | _ n ih =>
    subst hn
    rcases lexFrom_eq_ok h with ⟨rfl, rfl⟩ | ⟨l, rest, hfirst, hnext⟩
    · have hstop : Tiles offset newline [] _ := .stop .nil
      simpa using hstop
    obtain ⟨rfl, hallows, hlongest⟩ := first?_eq_some_iff.1 hfirst
    have hshorter := first?_length_lt hfirst
    rcases hnext with ⟨hnone, hrest⟩ | ⟨kind, later, hkind, hrest, rfl⟩
    · exact (ih _ hshorter hrest rfl).lexeme hnone hallows hlongest
    · have htile : Tiles offset newline ([] ++ (l.text ++ rest)) _ :=
        .tile .nil (means_of_tokenKind? hallows hkind) hlongest (ih _ hshorter hrest rfl)
      simpa using htile

/-- **A text is read as the tokens that tile it.** -/
theorem lexFrom_eq_ok_iff :
    lexFrom offset newline text = .ok tokens ↔ Tiles offset newline text tokens := by
  refine ⟨tiles_of_lexFrom, fun h => ?_⟩
  induction h with
  | stop hgap =>
    have hdropped := lexFrom_gap hgap
    simp only [List.append_nil] at hdropped
    rw [hdropped, lexFrom_eq]
    rfl
  | @tile offset newline gap piece rest kind tokens hgap hmeans hlongest _ ih =>
    obtain ⟨rule, hallows, hkind⟩ := hmeans.lexeme
    have hfirst : first? (piece ++ rest) = some (⟨rule, piece⟩, rest) :=
      first?_eq_some_iff.2 ⟨rfl, hallows, hlongest⟩
    rw [lexFrom_gap hgap, lexFrom_token hfirst hkind, ih]
    rfl

end Tiles

/-! ## Inside a tiling -/

namespace Tiles

variable {offset : Nat} {newline : Bool} {text : List Char} {tokens earlier later : List Token}
  {t : Token}

/-- The text behind some of the tokens is tiled by the others, and begins where the last of them
stops. -/
theorem behind (h : Tiles offset newline text (earlier ++ t :: later)) :
    ∃ front back newline', text = front ++ back ∧
      Tiles (offset + byteLength front) newline' back (t :: later) ∧
      (earlier = [] → front = [] ∧ newline' = newline) ∧
      ∀ last ∈ earlier.getLast?,
        newline' = false ∧ last.span.stop = min (offset + byteLength front) Span.maxOffset := by
  induction earlier generalizing offset newline text with
  | nil => exact ⟨[], text, newline, rfl, h, fun _ => ⟨rfl, rfl⟩, nofun⟩
  | cons e earlier ih =>
    rw [List.cons_append] at h
    generalize hts : earlier ++ t :: later = ts at h
    cases h with
    | stop => exact absurd hts (List.append_ne_nil_of_right_ne_nil _ (List.cons_ne_nil _ _))
    | @tile _ _ gap piece rest kind _ hgap hmeans hlongest htail =>
      subst hts
      obtain ⟨front, back, newline', rfl, htiles, hnone, hlast⟩ := ih htail
      refine ⟨gap ++ piece ++ front, back, newline', by simp, ?_, nofun, ?_⟩
      · rwa [byteLength_append, byteLength_append, ← Nat.add_assoc, ← Nat.add_assoc]
      · rw [byteLength_append, byteLength_append, ← Nat.add_assoc, ← Nat.add_assoc]
        cases earlier with
        | nil =>
          obtain ⟨rfl, rfl⟩ := hnone rfl
          rintro last ⟨⟩
          exact ⟨rfl, rfl⟩
        | cons e' earlier =>
          rw [List.getLast?_cons_cons]
          exact hlast

/-- All tokens stand behind the place where the tiling begins. -/
theorem le_start (h : Tiles offset newline text tokens) :
    ∀ t ∈ tokens, min offset Span.maxOffset ≤ t.span.start := by
  induction h with
  | stop =>
    intro t ht
    cases List.mem_singleton.1 ht
    simp only [Token.endAt, Span.ofRange]
    omega
  | tile _ _ _ _ ih =>
    intro t ht
    rcases List.mem_cons.1 ht with rfl | ht
    · simp only [Span.ofRange]
      omega
    · have := ih t ht
      omega

/-- The last token is the end of the text, and no other is. -/
theorem ends (h : Tiles offset newline text tokens) :
    ∃ ts flag, tokens = ts ++ [Token.endAt (offset + byteLength text) flag] ∧
      ∀ t ∈ ts, t.kind ≠ .eof := by
  induction h with
  | stop => exact ⟨[], _, rfl, nofun⟩
  | @tile offset newline gap piece rest kind tokens _ hmeans _ _ ih =>
    obtain ⟨ts, flag, rfl, hts⟩ := ih
    refine ⟨⟨kind, Span.ofRange (offset + byteLength gap) (offset + byteLength gap + byteLength piece),
      newline || decide ('\n' ∈ gap)⟩ :: ts, flag, ?_, List.forall_mem_cons.2 ⟨hmeans.ne_eof, hts⟩⟩
    rw [byteLength_append, byteLength_append, List.cons_append]
    simp only [Nat.add_assoc]

/-- Tokens cover something, as long as offsets are not cut. -/
theorem start_lt_stop (h : Tiles offset newline text tokens)
    (hsize : offset + byteLength text ≤ Span.maxOffset) :
    ∀ t ∈ tokens, t.kind ≠ .eof → t.span.start < t.span.stop := by
  induction h with
  | stop =>
    intro t ht hkind
    cases List.mem_singleton.1 ht
    exact absurd rfl hkind
  | @tile offset newline gap piece rest kind tokens _ hmeans _ _ ih =>
    rw [byteLength_append, byteLength_append] at hsize
    intro t ht hkind
    rcases List.mem_cons.1 ht with rfl | ht
    · have hpos := hmeans.byteLength_pos
      simp only [Span.ofRange]
      omega
    · exact ih (by omega) t ht hkind

/-- Tokens stand in order, and do not overlap. -/
theorem ordered (h : Tiles offset newline text tokens)
    (hsize : offset + byteLength text ≤ Span.maxOffset) :
    tokens.Pairwise fun a b => a.span.start < b.span.start ∧ a.span.stop ≤ b.span.start := by
  induction h with
  | stop => exact List.pairwise_singleton _ _
  | tile _ hmeans _ htail ih =>
    rw [byteLength_append, byteLength_append] at hsize
    refine List.pairwise_cons.2 ⟨fun b hb => ?_, ih (by omega)⟩
    have hpos := hmeans.byteLength_pos
    have hstart := htail.le_start b hb
    simp only [Span.ofRange] at hstart ⊢
    omega

end Tiles

/-! ## Reading a source -/

/-- What holds of the tokens of a source: where they stand, what they cover, and what is left out
between them. -/
structure Tiling (source : List Char) (tokens : List Token) : Prop where
  /-- The last token, and no other, is the end of the source. -/
  ends : ∃ ts flag, tokens = ts ++ [⟨.eof, ⟨byteLength source, byteLength source⟩, flag⟩] ∧
    ∀ t ∈ ts, t.kind ≠ .eof
  /-- No token but the last is empty. -/
  nonempty : ∀ t ∈ tokens, t.kind ≠ .eof → t.span.start < t.span.stop
  /-- Each token stops before the next one starts. -/
  ordered : tokens.Pairwise fun a b => a.span.start < b.span.start ∧ a.span.stop ≤ b.span.start
  /-- A token covers a piece of the source that a rule allows there and that no rule allows more than,
  and what it is is what that piece means and nothing else does. -/
  pieces : ∀ t ∈ tokens, t.kind ≠ .eof →
    ∃ front piece back, source = front ++ piece ++ back ∧
      t.span = ⟨byteLength front, byteLength (front ++ piece)⟩ ∧
      (∃ rule : LexemeKind, rule.Allows piece) ∧ Longest piece back ∧
      ∀ k, Means piece k ↔ k = t.kind
  /-- Between a token and the one before it, or the beginning of the source, lies a gap, and the token
  is marked if there is a line feed in it. -/
  gaps : ∀ earlier t later, tokens = earlier ++ t :: later →
    ∃ front gap back, source = front ++ gap ++ back ∧
      byteLength front = (earlier.getLast?.map (·.span.stop)).getD 0 ∧
      byteLength (front ++ gap) = t.span.start ∧ Gap back gap ∧
      (t.newlineBefore = true ↔ '\n' ∈ gap)

/-- **Reading a source loses nothing**: its tokens are longest pieces in order, each is what its piece
means, and what lies between them is blanks, line feeds and whole comments. -/
theorem lex_tiling {source : String} {tokens : List Token}
    (hsize : byteLength source.toList < 2 ^ 32) (hlex : lex source = .ok tokens) :
    Tiling source.toList tokens := by
  have htiles : Tiles 0 false source.toList tokens := lexFrom_eq_ok_iff.1 hlex
  have hmax : 0 + byteLength source.toList ≤ Span.maxOffset := by
    rw [Nat.zero_add]
    exact Nat.le_of_lt_succ hsize
  refine ⟨?_, htiles.start_lt_stop hmax, htiles.ordered hmax, ?_, ?_⟩
  · obtain ⟨ts, flag, rfl, hts⟩ := htiles.ends
    refine ⟨ts, flag, ?_, hts⟩
    rw [Token.endAt, Span.ofRange, Nat.min_eq_left hmax, Nat.zero_add]
  · intro t ht hkind
    obtain ⟨earlier, later, rfl⟩ := List.append_of_mem ht
    obtain ⟨front, back, newline, hsource, hback, -, -⟩ := htiles.behind
    rw [hsource] at hmax ⊢
    cases hback with
    | stop => exact absurd rfl hkind
    | @tile _ _ gap piece rest kind _ hgap hmeans hlongest htail =>
      obtain ⟨rule, hallows, -⟩ := hmeans.lexeme
      simp only [byteLength_append] at hmax
      refine ⟨front ++ gap, piece, rest, by simp, ?_, ⟨rule, hallows⟩, hlongest, fun k => ?_⟩
      · simp only [Span.ofRange, byteLength_append, Span.mk.injEq]
        omega
      · exact ⟨fun hk => hk.unique hmeans, fun hk => hk ▸ hmeans⟩
  · rintro earlier t later rfl
    obtain ⟨front, back, newline, hsource, hback, hnone, hlast⟩ := htiles.behind
    rw [hsource] at hmax ⊢
    have hfront : byteLength front = (earlier.getLast?.map (·.span.stop)).getD 0 ∧ newline = false := by
      cases hend : earlier.getLast? with
      | none =>
        obtain ⟨rfl, rfl⟩ := hnone (List.getLast?_eq_none_iff.1 hend)
        exact ⟨rfl, rfl⟩
      | some last =>
        obtain ⟨hline, hstop⟩ := hlast last hend
        rw [byteLength_append] at hmax
        refine ⟨?_, hline⟩
        rw [Option.map_some, Option.getD_some, hstop]
        omega
    obtain ⟨hfront, rfl⟩ := hfront
    cases hback with
    | stop hgap =>
      refine ⟨front, back, [], by simp, hfront, ?_, hgap, by simp [Token.endAt]⟩
      rw [byteLength_append] at hmax ⊢
      simp only [Token.endAt, Span.ofRange]
      omega
    | @tile _ _ gap piece rest kind _ hgap hmeans hlongest htail =>
      refine ⟨front, gap, piece ++ rest, by simp, hfront, ?_, hgap, by simp⟩
      simp only [byteLength_append] at hmax ⊢
      simp only [Span.ofRange]
      omega

/-- Two lines without a space between their tokens, the first with a comment. -/
def crowded : String := "n=-1//one\n\"\\n\">=nil"

def crowdedTokens : List Token :=
  [⟨.ident "n", ⟨0, 1⟩, false⟩, ⟨.symbol .assign, ⟨1, 2⟩, false⟩, ⟨.symbol .minus, ⟨2, 3⟩, false⟩,
   ⟨.int 1, ⟨3, 4⟩, false⟩, ⟨.string "\n", ⟨10, 14⟩, true⟩, ⟨.symbol .greaterEqual, ⟨14, 16⟩, false⟩,
   ⟨.ident "nil", ⟨16, 19⟩, false⟩, ⟨.eof, ⟨19, 19⟩, false⟩]

theorem lex_tiling_crowded :
    byteLength crowded.toList < 2 ^ 32 ∧ lex crowded = .ok crowdedTokens ∧
      Tiling crowded.toList crowdedTokens := by
  have hsize : byteLength crowded.toList < 2 ^ 32 := by decide +kernel
  have hlex : lex crowded = .ok crowdedTokens := by decide +kernel
  exact ⟨hsize, hlex, lex_tiling hsize hlex⟩

end Nikl
