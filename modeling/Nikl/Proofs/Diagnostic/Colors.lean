import Mathlib.Data.List.Basic
import Nikl.Diagnostic.Terminal
import Nikl.Proofs.Source.Lines

/-
Colours are decoration. A terminal is told to change the style of what follows by an escape character, an
opening bracket, parameters and the letter `m`. Without these sequences a coloured diagnostic is the plain
one, provided that the texts in it bring no escape characters of their own: a row of pieces is the same
with and without colours, and each piece has its sequences before and behind its text.
-/

set_option autoImplicit false

namespace Nikl.Terminal

open Nikl.Source

/-! ## Sequences in a text -/

/-- The characters between the bracket and the `m` of a sequence. -/
def isParameter (c : Char) : Bool := c.isDigit || c = ';'

/-- What follows a sequence, given what follows its escape character. -/
def behindSequence? : List Char → Option (List Char)
  | '[' :: rest =>
    match rest.dropWhile isParameter with
    | 'm' :: back => some back
    | _ => none
  | _ => none

theorem length_behindSequence? {text back : List Char} (h : behindSequence? text = some back) :
    back.length < text.length := by
  unfold behindSequence? at h
  split at h
  · rename_i rest
    have hlength := (List.dropWhile_sublist isParameter (l := rest)).length_le
    split at h
    · rename_i heq
      cases h
      rw [heq, List.length_cons] at hlength
      rw [List.length_cons]
      omega
    · cases h
  · cases h

/-- A text without its sequences. An escape character that begins none is kept. -/
def withoutSequences : List Char → List Char
  | [] => []
  | c :: rest =>
    if c = '\x1b' then
      match _h : behindSequence? rest with
      | some back => withoutSequences back
      | none => c :: withoutSequences rest
    else c :: withoutSequences rest
termination_by text => text.length
decreasing_by
  · have := length_behindSequence? _h
    rw [List.length_cons]
    omega
  all_goals
    rw [List.length_cons]
    omega

/-- A text that brings no escape characters. -/
def Clear (text : String) : Prop := '\x1b' ∉ text.toList

instance (text : String) : Decidable (Clear text) := inferInstanceAs (Decidable (¬ _))

/-- The second text is the first without sequences, whatever follows. -/
def Decorates (colored bare : String) : Prop :=
  ∀ rest, withoutSequences (colored.toList ++ rest) = bare.toList ++ withoutSequences rest

section Sequences

variable {text : String}

theorem withoutSequences_cons {c : Char} (hc : c ≠ '\x1b') (rest : List Char) :
    withoutSequences (c :: rest) = c :: withoutSequences rest := by
  rw [withoutSequences, if_neg hc]

theorem behindSequence?_of_parameters {parameters : List Char}
    (h : parameters.all isParameter = true) (rest : List Char) :
    behindSequence? ('[' :: (parameters ++ 'm' :: rest)) = some rest := by
  have hdrop : (parameters ++ 'm' :: rest).dropWhile isParameter = 'm' :: rest :=
    List.dropWhile_append_of_pos (List.all_eq_true.1 h)
  rw [behindSequence?, hdrop]
  rfl

theorem decorates_switch {parameters : String} (h : parameters.toList.all isParameter = true) :
    Decorates (switch parameters) "" := by
  intro rest
  have hswitch : (switch parameters).toList ++ rest =
      '\x1b' :: '[' :: (parameters.toList ++ 'm' :: rest) := by
    rw [switch, String.toList_append, String.toList_append, List.append_assoc, List.append_assoc]
    rfl
  -- the match keeps its own equation for the termination, so it is split rather than rewritten
  rw [hswitch, withoutSequences, if_pos rfl]
  split
  · next back hback =>
    rw [behindSequence?_of_parameters h] at hback
    cases hback
    rfl
  · next hnone =>
    rw [behindSequence?_of_parameters h] at hnone
    cases hnone

theorem Clear.decorates (h : Clear text) : Decorates text text := by
  intro rest
  unfold Clear at h
  generalize text.toList = chars at h ⊢
  induction chars with
  | nil => rfl
  | cons c chars ih =>
    rw [List.mem_cons, not_or] at h
    rw [List.cons_append, withoutSequences_cons (Ne.symm h.1), ih h.2, List.cons_append]

theorem Decorates.append {a b a' b' : String} (h : Decorates a b) (h' : Decorates a' b') :
    Decorates (a ++ a') (b ++ b') := by
  intro rest
  rw [String.toList_append, String.toList_append, List.append_assoc, h, h', List.append_assoc]

theorem Decorates.join {α : Type} {colored bare : α → String} {xs : List α}
    (h : ∀ x ∈ xs, Decorates (colored x) (bare x)) :
    Decorates (String.join (xs.map colored)) (String.join (xs.map bare)) := by
  induction xs with
  | nil => exact fun rest => rfl
  | cons x xs ih =>
    rw [List.forall_mem_cons] at h
    rw [List.map_cons, List.map_cons, String.join_cons, String.join_cons]
    exact h.1.append (ih h.2)

/-- Without its sequences a decorated text is the plain one. -/
theorem Decorates.eq {colored bare : String} (h : Decorates colored bare) :
    withoutSequences colored.toList = bare.toList := by
  have hwhole := h []
  rwa [withoutSequences, List.append_nil, List.append_nil] at hwhole

theorem all_parameters (style : Style) : style.parameters.toList.all isParameter = true := by
  cases style <;> decide

/-- A piece is written in colour as it is written plainly, between two sequences or none. -/
theorem decorates_write {p : Piece} (h : Clear p.text) : Decorates (p.write true) (p.write false) := by
  have hplain : p.write false = p.text := if_neg (by simp)
  rw [hplain, Piece.write]
  split
  · have hon : Decorates (switch p.style.parameters) "" := decorates_switch (all_parameters p.style)
    have hoff : Decorates (switch "0") "" := decorates_switch (by decide)
    have hall := (hon.append h.decorates).append hoff
    rwa [String.empty_append, String.append_empty] at hall
  · exact h.decorates

end Sequences

/-! ## Texts without escape characters -/

/-- The texts of a diagnostic bring no escape characters. -/
structure ClearDiagnostic (d : Diagnostic) : Prop where
  message : Clear d.message
  labels : ∀ l ∈ d.labels, Clear l.message
  notes : ∀ note ∈ d.notes, Clear note

/-- Nor does what it is shown against. -/
structure ClearView (view : View) : Prop where
  path : ∀ path, view.path = some path → Clear path
  listing : ∀ listing, view.listing = some listing → '\x1b' ∉ listing.text

section Clear

variable {a b : String} {view : View} {l : Label} {d : Diagnostic}

theorem Clear.append (ha : Clear a) (hb : Clear b) : Clear (a ++ b) := by
  rw [Clear, String.toList_append, List.mem_append, not_or]
  exact ⟨ha, hb⟩

theorem clear_ofList {text : List Char} (h : '\x1b' ∉ text) : Clear (String.ofList text) := by
  rwa [Clear, String.toList_ofList]

/-- A number is written in digits. -/
theorem isDigit_of_mem_number {n : Nat} {c : Char} (h : c ∈ (toString n).toList) : c.isDigit = true := by
  rw [Nat.toString_eq_repr, Nat.toList_repr] at h
  exact Nat.isDigit_of_mem_toDigits (by decide) (by decide) h

theorem clear_number (n : Nat) : Clear (toString n) := fun hmem =>
  absurd (isDigit_of_mem_number hmem) (by decide)

theorem clear_repeated {c : Char} (hc : c ≠ '\x1b') (n : Nat) : Clear (repeated c n) :=
  clear_ofList fun hmem => hc (List.eq_of_mem_replicate hmem).symm

theorem ClearView.pathText (h : ClearView view) : Clear view.pathText := by
  rw [View.pathText]
  cases hpath : view.path with
  | none => exact (by decide : Clear "<input>")
  | some path => exact h.path path hpath

theorem ClearView.location (h : ClearView view) (l : Label) : Clear (view.location l) := by
  have hcolon : Clear ":" := by decide
  unfold View.location
  split
  · exact (((h.pathText.append hcolon).append (clear_number _)).append hcolon).append (clear_number _)
  · have hspan : Clear l.span.text :=
      ((clear_number _).append (by decide : Clear "..")).append (clear_number _)
    exact (h.pathText.append hcolon).append hspan

/-- The line that is shown is a part of the source. -/
theorem ClearView.content (h : ClearView view) {snippet : Snippet} (hsnippet : view.snippet? l = some snippet) :
    '\x1b' ∉ snippet.content := by
  obtain ⟨listing, hlisting, hsome⟩ := Option.bind_eq_some_iff.1 hsnippet
  split at hsome
  · cases hsome
  · cases hsome
    exact fun hmem => h.listing listing hlisting ((LineTable.lineText_sublist _ _ _).subset hmem)

theorem clear_underline (hmessage : Clear l.message) (snippet : Snippet) :
    Clear (underline l snippet).text := by
  have hmarks : ∀ width, Clear (repeated (if l.primary then '^' else '-') width) := fun width =>
    clear_repeated (by split <;> decide) width
  rw [underline]
  dsimp only
  split
  · exact hmarks _
  · exact ((hmarks _).append (by decide : Clear " ")).append hmessage

/-- A label brings no escape characters but those of its remark. -/
theorem clear_labelPieces (hview : ClearView view) (hmessage : Clear l.message) :
    ∀ p ∈ labelPieces view l, Clear p.text := by
  rw [labelPieces, List.forall_mem_append]
  constructor
  · have hmarker : Clear (if l.primary then "  --> " else "  ::: ") := by split <;> decide
    rw [List.forall_mem_cons, List.forall_mem_cons, List.forall_mem_singleton]
    exact ⟨hmarker, hview.location l, (by decide : Clear "\n")⟩
  · cases hsnippet : view.snippet? l with
    | none =>
      dsimp only
      split
      · nofun
      · rw [List.forall_mem_singleton]
        exact ((by decide : Clear "      ").append hmessage).append (by decide : Clear "\n")
    | some snippet =>
      -- the margin, the line and the marks; nothing else comes from outside
      have hpad := clear_repeated (c := ' ') (by decide) (toString snippet.line).length
      have hcontent := clear_ofList (hview.content hsnippet)
      have hspace : Clear " " := by decide
      have hbar : Clear " | " := by decide
      have hbreak : Clear "\n" := by decide
      dsimp only
      rw [List.forall_mem_cons, List.forall_mem_cons, List.forall_mem_cons, List.forall_mem_singleton]
      refine ⟨?_, ?_, clear_underline hmessage snippet, hbreak⟩
      · exact (((((hspace.append hpad).append (by decide : Clear " |\n ")).append
          (clear_number _)).append hbar).append hcontent).append hbreak
      · exact ((hspace.append hpad).append hbar).append (clear_repeated (by decide) _)

/-- Nor does a diagnostic, but for those in its own texts. -/
theorem clear_pieces (hview : ClearView view) (hd : ClearDiagnostic d) :
    ∀ p ∈ pieces view d, Clear p.text := by
  rw [pieces, List.forall_mem_append, List.forall_mem_append]
  refine ⟨⟨?_, ?_⟩, ?_⟩
  · have hseverity : Clear d.severity.text := by cases d.severity <;> decide
    have hcode : Clear d.code.text := by cases d.code <;> decide
    rw [List.forall_mem_cons, List.forall_mem_cons, List.forall_mem_singleton]
    refine ⟨hseverity, ?_, ?_⟩
    · exact ((by decide : Clear "[").append hcode).append (by decide : Clear "]")
    · exact ((by decide : Clear ": ").append hd.message).append (by decide : Clear "\n")
  · rw [List.forall_mem_flatMap]
    exact fun l hl => clear_labelPieces hview (hd.labels l hl)
  · rw [List.forall_mem_flatMap]
    intro note hnote
    rw [List.forall_mem_cons, List.forall_mem_cons, List.forall_mem_singleton]
    refine ⟨(by decide : Clear "  = "), (by decide : Clear "note"), ?_⟩
    exact ((by decide : Clear ": ").append (hd.notes note hnote)).append (by decide : Clear "\n")

end Clear

/-! ## An emitter at work -/

/-- What an emitter is asked to do. -/
inductive Request where
  /-- To show what follows against another source. -/
  | attach (source : String)
  /-- To write diagnostics in turn. -/
  | emit (diagnostics : List Diagnostic)

/-- The texts of a request bring no escape characters. -/
def ClearRequest : Request → Prop
  | .attach source => Clear source
  | .emit diagnostics => ∀ d ∈ diagnostics, ClearDiagnostic d

/-- What is written for requests in turn. -/
def written (colors : Bool) : View → List Request → String
  | _, [] => ""
  | view, .attach source :: rest =>
    written colors { view with listing := some (Listing.ofString source) } rest
  | view, .emit diagnostics :: rest => renderAll colors view diagnostics ++ written colors view rest

theorem ClearView.attach {view : View} (h : ClearView view) {source : String} (hsource : Clear source) :
    ClearView { view with listing := some (Listing.ofString source) } where
  path := h.path
  listing := by
    rintro _ ⟨⟩
    exact hsource

/-- **A diagnostic in colour is the plain one decorated**, whatever its severity, labels and notes. -/
theorem decorates_render {view : View} {d : Diagnostic} (hview : ClearView view) (hd : ClearDiagnostic d) :
    Decorates (render true view d) (render false view d) :=
  Decorates.join fun p hp => decorates_write (clear_pieces hview hd p hp)

theorem decorates_renderAll {view : View} {ds : List Diagnostic} (hview : ClearView view)
    (hds : ∀ d ∈ ds, ClearDiagnostic d) : Decorates (renderAll true view ds) (renderAll false view ds) :=
  Decorates.join fun d hd => decorates_render hview (hds d hd)

theorem decorates_written {view : View} {requests : List Request} (hview : ClearView view)
    (hrequests : ∀ r ∈ requests, ClearRequest r) :
    Decorates (written true view requests) (written false view requests) := by
  -- the source may change on the way, and stays clear
  induction requests generalizing view with
  | nil => exact fun rest => rfl
  | cons r requests ih =>
    rw [List.forall_mem_cons] at hrequests
    cases r with
    | attach source => exact ih (hview.attach hrequests.1) hrequests.2
    | emit diagnostics =>
      exact (decorates_renderAll hview hrequests.1).append (ih hview hrequests.2)

/-- **Colours are nothing but decoration.** An emitter writes diagnostics against any path and any source,
which may be replaced between them. If none of the texts brings an escape character, then what it writes
in colour is, without the sequences, what it writes plainly. -/
theorem colors_only_decorate {view : View} {requests : List Request} (hview : ClearView view)
    (hrequests : ∀ r ∈ requests, ClearRequest r) :
    withoutSequences (written true view requests).toList = (written false view requests).toList :=
  (decorates_written hview hrequests).eq

/-- Two labels on a text with a letter of two bytes, and a note. -/
def accentedItem : Diagnostic :=
  { code := .cannotIndex, severity := .warning, message := "no items",
    labels := [⟨⟨2, 5⟩, "here", true⟩, ⟨⟨0, 2⟩, "", false⟩], notes := ["a number"] }

/-- The diagnostic is written where the source is not known, and then where it is. -/
def accentedItemTwice : List Request := [.emit [accentedItem], .attach "é[0]", .emit [accentedItem]]

theorem colors_only_decorate_accentedItemTwice :
    written true ⟨some "a.nk", none⟩ accentedItemTwice =
      "\x1b[1;33mwarning\x1b[0m\x1b[1m[E6015]\x1b[0m: no items\n" ++
      "  --> \x1b[1ma.nk:2..5\x1b[0m\n      here\n  ::: \x1b[1ma.nk:0..2\x1b[0m\n" ++
      "  = \x1b[1;36mnote\x1b[0m: a number\n" ++
      "\x1b[1;33mwarning\x1b[0m\x1b[1m[E6015]\x1b[0m: no items\n" ++
      "  --> \x1b[1ma.nk:1:2\x1b[0m\n   |\n 1 | é[0]\n   |  \x1b[1;31m^^^ here\x1b[0m\n" ++
      "  ::: \x1b[1ma.nk:1:1\x1b[0m\n   |\n 1 | é[0]\n   | \x1b[1;34m--\x1b[0m\n" ++
      "  = \x1b[1;36mnote\x1b[0m: a number\n" ∧
    String.ofList (withoutSequences (written true ⟨some "a.nk", none⟩ accentedItemTwice).toList) =
      "warning[E6015]: no items\n  --> a.nk:2..5\n      here\n  ::: a.nk:0..2\n  = note: a number\n" ++
      "warning[E6015]: no items\n" ++
      "  --> a.nk:1:2\n   |\n 1 | é[0]\n   |  ^^^ here\n  ::: a.nk:1:1\n   |\n 1 | é[0]\n   | --\n" ++
      "  = note: a number\n" := by
  have hview : ClearView ⟨some "a.nk", none⟩ := by
    constructor
    · rintro _ ⟨⟩
      decide
    · nofun
  have hitem : ∀ d ∈ [accentedItem], ClearDiagnostic d := by
    rw [List.forall_mem_singleton]
    exact ⟨by decide, by decide, by decide⟩
  have hrequests : ∀ r ∈ accentedItemTwice, ClearRequest r := by
    rw [accentedItemTwice, List.forall_mem_cons, List.forall_mem_cons, List.forall_mem_singleton]
    exact ⟨hitem, (by decide : Clear "é[0]"), hitem⟩
  constructor
  · decide +kernel
  · rw [colors_only_decorate hview hrequests, String.ofList_toList]
    decide +kernel

end Nikl.Terminal
