import Nikl.Proofs.Evaluation.Relabeling
import Nikl.Proofs.Interner.Known
import Nikl.Proofs.Syntax.Renaming

/-
Sessions whose names are numbers. Which number a name has depends on all that was read before, and nothing
else does: a session with numbers goes the way of the session with texts (`Stands.runChunks`). An
interpreter stands for a state with texts if some state with known numbers is the one state when its
numbers are read as numbers, and the other when they are read as texts (`Interpreter.Stands`). The table
may grow meanwhile. What is read into numbers are again tokens and trees with known numbers, and a run of
such a tree is the run of the tree with numbers, and of the tree with texts.
-/

set_option autoImplicit false

namespace Nikl

open Interner

variable {table : Interner}

/-! ## Reading into numbers -/

theorem TokenKind.rename_rename {ν μ κ : Type} (g : ν → μ) (h : μ → κ) (kind : TokenKind ν) :
    (kind.rename g).rename h = kind.rename (h ∘ g) := by
  cases kind <;> rfl

theorem ParseError.rename_rename {ν μ κ : Type} (g : ν → μ) (h : μ → κ) (e : ParseError ν) :
    (e.rename g).rename h = e.rename (h ∘ g) := by
  have hfault : (e.fault.rename g).rename h = e.fault.rename (h ∘ g) := by
    cases e.fault <;> simp only [ParseFault.rename, TokenKind.rename_rename, Function.comp_apply]
  exact congrArg (ParseError.mk · _ _) hfault

/-- A kind of token that is numbered is one with a known number. -/
theorem exists_known_keep (hinv : table.Inverse) (kind : TokenKind) :
    ∃ hlater : (kind.keep (fun x t => t.intern x) table).2.Inverse,
      table.Extends (kind.keep (fun x t => t.intern x) table).2 ∧
      ∃ known : TokenKind (Known (kind.keep (fun x t => t.intern x) table).2),
        (kind.keep (fun x t => t.intern x) table).1 = known.rename (Known.number _).name ∧
        kind = known.rename (Known.text hlater).name := by
  have htext : ∀ x : String, ∃ n : Known (table.intern x).2,
      n.1 = (table.intern x).1 ∧ (table.intern x).2.lookup n.1 = x := fun x =>
    ⟨.ofNames (hinv.intern_names x), rfl, (hinv.intern_names x).lookup_eq⟩
  cases kind with
  | string content =>
    obtain ⟨n, hn, hx⟩ := htext content
    exact ⟨hinv.intern content, intern_extends table content, .string n,
      congrArg TokenKind.string hn.symm, congrArg TokenKind.string hx.symm⟩
  | ident x =>
    obtain ⟨n, hn, hx⟩ := htext x
    exact ⟨hinv.intern x, intern_extends table x, .ident n, congrArg TokenKind.ident hn.symm,
      congrArg TokenKind.ident hx.symm⟩
  | int n => exact ⟨hinv, .refl table, .int n, rfl, rfl⟩
  | float x => exact ⟨hinv, .refl table, .float x, rfl, rfl⟩
  | keyword w => exact ⟨hinv, .refl table, .keyword w, rfl, rfl⟩
  | typeName t => exact ⟨hinv, .refl table, .typeName t, rfl, rfl⟩
  | symbol s => exact ⟨hinv, .refl table, .symbol s, rfl, rfl⟩
  | eof => exact ⟨hinv, .refl table, .eof, rfl, rfl⟩

/-- **A text is read into numbers as it is read into tokens with texts**: its tokens have known numbers
for their names, and what cannot be read is the same. -/
theorem exists_known_lexWith (hinv : table.Inverse) (offset : Nat) (newline : Bool) (text : List Char) :
    ∃ (later : Interner) (hlater : later.Inverse) (tokens : Except LexError (List (Token (Known later)))),
      table.Extends later ∧
      lexWith (fun x t => t.intern x) offset newline text table =
        (tokens.map (List.map (·.rename (Known.number later).name)), later) ∧
      lexFrom offset newline text = tokens.map (List.map (·.rename (Known.text hlater).name)) := by
  induction offset, newline, text using lexing_induction generalizing table with
  | done offset newline =>
    rw [lexWith_eq, lexFrom_eq]
    exact ⟨table, hinv, .ok [Token.endAt offset newline], .refl table, rfl, rfl⟩
  | stuck offset newline c rest hfirst =>
    rw [lexWith_eq, lexFrom_eq, hfirst]
    exact ⟨table, hinv, .error _, .refl table, rfl, rfl⟩
  | refused offset newline text l rest e hfirst hkind =>
    rw [lexWith_eq, lexFrom_eq]
    simp only [hfirst, hkind]
    exact ⟨table, hinv, .error e, .refl table, rfl, rfl⟩
  | gap offset newline text l rest hfirst hkind ih =>
    rw [lexWith_eq, lexFrom_eq]
    simp only [hfirst, hkind]
    exact ih hinv
  | token offset newline text l rest kind hfirst hkind ih =>
    obtain ⟨hnext, hkept, known, hnumber, htext⟩ := exists_known_keep hinv kind
    obtain ⟨later, hlater, tokens, hgrown, hnumbers, htexts⟩ := ih hnext
    -- the table grows behind the token, which goes along into the larger one
    let token : Token (Known later) := ⟨known.rename (Known.into hgrown).name,
      Span.ofRange offset (offset + Source.byteLength l.text), newline⟩
    have hnumbered : known.rename (Known.number _).name =
        (known.rename (Known.into hgrown).name).rename (Known.number later).name := by
      rw [TokenKind.rename_rename]
      rfl
    have hworded : known.rename (Known.text hnext).name =
        (known.rename (Known.into hgrown).name).rename (Known.text hlater).name := by
      rw [TokenKind.rename_rename, Known.text_comp_into hgrown hnext hlater]
    refine ⟨later, hlater, tokens.map (token :: ·), hkept.trans hgrown, ?_, ?_⟩
    · rw [lexWith_eq]
      simp only [hfirst, hkind, hnumbers, hnumber, hnumbered]
      cases tokens <;> rfl
    · rw [lexFrom_eq]
      simp only [hfirst, hkind, htexts]
      rw [htext, hworded]
      cases tokens <;> rfl

/-- A token's name or string is numbered when the token is read. -/
theorem keep_intern_eq_internAll (kind : TokenKind) (span : Span) (newline : Bool) :
    (kind.keep (fun x t => t.intern x) table).2 = table.internAll (tokenTexts [⟨kind, span, newline⟩]) := by
  cases kind <;> rfl

/-- **A text that is read leaves behind the table in which the names and strings of its tokens are numbered
in order.** -/
theorem lexWith_intern_eq_internAll (offset : Nat) (newline : Bool) (text : List Char)
    {tokens : List Token} (hread : lexFrom offset newline text = .ok tokens) :
    (lexWith (fun x t => t.intern x) offset newline text table).2 = table.internAll (tokenTexts tokens) := by
  induction offset, newline, text using lexing_induction generalizing table tokens with
  | done offset newline =>
    rw [lexFrom_eq] at hread
    cases hread
    rw [lexWith_eq]
    rfl
  | stuck offset newline c rest hfirst =>
    rw [lexFrom_eq, hfirst] at hread
    cases hread
  | refused offset newline text l rest e hfirst hkind =>
    rw [lexFrom_eq] at hread
    simp only [hfirst, hkind] at hread
    cases hread
  | gap offset newline text l rest hfirst hkind ih =>
    rw [lexFrom_eq] at hread
    simp only [hfirst, hkind] at hread
    rw [lexWith_eq]
    simp only [hfirst, hkind]
    exact ih hread
  | token offset newline text l rest kind hfirst hkind ih =>
    rw [lexFrom_eq] at hread
    simp only [hfirst, hkind] at hread
    cases hrest : lexFrom (offset + Source.byteLength l.text) false rest with
    | error e =>
      rw [hrest] at hread
      cases hread
    | ok behind =>
      rw [hrest] at hread
      cases hread
      rw [lexWith_eq]
      simp only [hfirst, hkind]
      let token : Token := ⟨kind, Span.ofRange offset (offset + Source.byteLength l.text), newline⟩
      calc _ = (table.internAll (tokenTexts [token])).internAll (tokenTexts behind) := by
            rw [← keep_intern_eq_internAll]
            exact ih hrest
        _ = table.internAll (tokenTexts [token] ++ tokenTexts behind) := List.foldl_append.symm
        _ = table.internAll (tokenTexts (token :: behind)) :=
            congrArg table.internAll List.filterMap_append.symm

/-- Two tables that a token is numbered in both learn its text. -/
theorem within_keep {other : Interner} (h : table.Within other) (hinv : other.Inverse) (kind : TokenKind) :
    (kind.keep (fun x t => t.intern x) table).2.Within (kind.keep (fun x t => t.intern x) other).2 ∧
      (kind.keep (fun x t => t.intern x) other).2.Inverse := by
  cases kind with
  | string content => exact ⟨h.intern hinv content, hinv.intern content⟩
  | ident x => exact ⟨h.intern hinv x, hinv.intern x⟩
  | _ => exact ⟨h, hinv⟩

/-- Two tables that a text is read into both learn the texts in it. -/
theorem within_lexWith {other : Interner} (h : table.Within other) (hinv : other.Inverse) (offset : Nat)
    (newline : Bool) (text : List Char) :
    (lexWith (fun x t => t.intern x) offset newline text table).2.Within
      (lexWith (fun x t => t.intern x) offset newline text other).2 := by
  induction offset, newline, text using lexing_induction generalizing table other with
  | done offset newline =>
    rw [lexWith_eq, lexWith_eq]
    exact h
  | stuck offset newline c rest hfirst =>
    rw [lexWith_eq, lexWith_eq, hfirst]
    exact h
  | refused offset newline text l rest e hfirst hkind =>
    rw [lexWith_eq, lexWith_eq]
    simp only [hfirst, hkind]
    exact h
  | gap offset newline text l rest hfirst hkind ih =>
    rw [lexWith_eq, lexWith_eq]
    simp only [hfirst, hkind]
    exact ih h hinv
  | token offset newline text l rest kind hfirst hkind ih =>
    rw [lexWith_eq, lexWith_eq]
    simp only [hfirst, hkind]
    obtain ⟨hkept, hkeeps⟩ := within_keep h hinv kind
    exact ih hkept hkeeps

/-- **A source is read into a tree with known numbers as it is read into a tree with texts**, or it cannot
be read for the same reason. -/
theorem Interpreter.exists_known_read (hinv : table.Inverse) (source : String) :
    ∃ (later : Interner) (hlater : later.Inverse) (program : Except Failure (Block (Known later))),
      table.Extends later ∧
      read source table = (program.map (Block.relabel (.ofNames (Known.number later))), later) ∧
      programOf source = program.map (Block.relabel (.ofNames (Known.text hlater))) := by
  obtain ⟨later, hlater, tokens, hgrown, hnumbers, htexts⟩ :=
    exists_known_lexWith hinv 0 false source.toList
  replace hnumbers : lexInto table source = _ := hnumbers
  replace htexts : lex source = _ := htexts
  cases tokens with
  | error e =>
    refine ⟨later, hlater, .error (.lex e), hgrown, ?_, ?_⟩
    · rw [read, hnumbers]
      rfl
    · rw [programOf, tokensOf, htexts]
      rfl
  | ok ts =>
    have hread : read source table = ((parse (ts.map (·.rename (Known.number later).name))).mapError
        fun e => .parse (e.rename later.lookup), later) := by
      rw [read, hnumbers]
      rfl
    have hprogram : programOf source =
        (parse (ts.map (·.rename (Known.text hlater).name))).mapError .parse := by
      rw [programOf, tokensOf, htexts]
      rfl
    rw [parse_rename] at hread hprogram
    cases hparse : parse ts with
    | error e =>
      rw [hparse] at hread hprogram
      refine ⟨later, hlater, .error (.parse (e.rename (Known.text hlater).name)), hgrown, ?_, hprogram⟩
      -- the error is told with the texts of the numbers in it
      have htold : (e.rename (Known.number later).name).rename later.lookup =
          e.rename (Known.text hlater).name := e.rename_rename _ _
      exact hread.trans (congrArg (fun e => (Except.error (Failure.parse e), later)) htold)
    | ok program =>
      rw [hparse] at hread hprogram
      exact ⟨later, hlater, .ok program, hgrown, hread, hprogram⟩

/-! ## States with numbers -/

/-- What a name means between chunks, as far as it can be seen: the kind of its value and how it is
written, or why it means nothing. -/
def Machine.meaning {ν : Type} [DecidableEq ν] [Naming ν] (m : Machine ν) (x : ν) :
    Except LookupFault (Kind × String) :=
  (m.env.lookup x).map fun v => (v.kind, v.text m.store)

/-- What a name means when it is looked up by its text, which is numbered for it. -/
def Interpreter.meaning (i : Interpreter) (x : String) : Except LookupFault (Kind × String) :=
  have : Naming Name := (i.table.intern x).2.naming
  i.machine.meaning (i.table.intern x).1

/-- Another name for the same text means the same in the relabeled state. -/
theorem Machine.meaning_relabel {ν μ : Type} [DecidableEq ν] [DecidableEq μ] [Naming ν] [Naming μ]
    {f : Relabeling ν μ} (hf : f.KeepsText) (m : Machine ν) (x : ν) :
    (m.relabel f).meaning (f.name x) = m.meaning x := by
  have hlookup : (m.relabel f).env.lookup (f.name x) = _ := m.env.lookup_relabel f x
  rw [meaning, meaning, hlookup]
  cases m.env.lookup x with
  | error fault => rfl
  | ok v =>
    have htext : (v.relabel f).text (m.relabel f).store = v.text m.store := v.text_relabel hf m.store
    show Except.ok ((v.relabel f).kind, (v.relabel f).text (m.relabel f).store) = .ok (v.kind, v.text m.store)
    rw [htext, Value.kind_relabel]

/-- An interpreter stands for a state with texts: both come from one state with known numbers. -/
structure Interpreter.Stands (i : Interpreter) (m : Machine) : Prop where
  inverse : i.table.Inverse
  known : ∃ k : Machine (Known i.table), k.relabel (.ofNames (Known.number _)) = i.machine ∧
    k.relabel (.ofNames (Known.text inverse)) = m

theorem EvalError.mapSpans_id (e : EvalError) : e.mapSpans id = e := by
  have hframe : ∀ frame : Frame, frame.mapSpans id = frame := fun frame =>
    congrArg (Frame.mk _) (congrFun Option.map_id frame.span)
  rcases e with ⟨fault, span, _ | backtrace⟩
  · exact congrArg (EvalError.mk fault · none) (congrFun Option.map_id span)
  · have hbacktrace : backtrace.map (·.mapSpans id) = backtrace := by simp only [hframe, List.map_id']
    show EvalError.mk fault _ (some (backtrace.map _)) = _
    rw [hbacktrace, Option.map_id, id]

theorem Stop.mapError_mapSpans_id (stop : Stop) : stop.mapError (·.mapSpans id) = stop := by
  cases stop with
  | error e => exact congrArg Stop.error e.mapSpans_id
  | endless => rfl

namespace Interpreter.Stands

variable {i : Interpreter} {m : Machine}

/-- A table may grow. -/
theorem grow (h : i.Stands m) {later : Interner} (hlater : later.Inverse)
    (hgrown : i.table.Extends later) : Stands ⟨later, i.machine⟩ m := by
  obtain ⟨hinv, k, hnumber, htext⟩ := h
  refine ⟨hlater, k.relabel (.ofNames (Known.into hgrown)), ?_, ?_⟩
  · rw [← Machine.relabel_trans, Known.into_trans_number]
    exact hnumber
  · rw [← Machine.relabel_trans, Known.into_trans_text hgrown hinv]
    exact htext

/-- A tree with known numbers does the same when it is run with numbers and with texts. -/
theorem run (h : i.Stands m) (program : Block (Known i.table)) :
    have : Naming Name := i.table.naming
    (∃ n t, i.machine.run (program.relabel (.ofNames (Known.number _))) = .ok () n ∧
      m.run (program.relabel (.ofNames (Known.text h.inverse))) = .ok () t ∧ Stands ⟨i.table, n⟩ t) ∨
    ∃ stop n t, i.machine.run (program.relabel (.ofNames (Known.number _))) = .error stop n ∧
      m.run (program.relabel (.ofNames (Known.text h.inverse))) = .error stop t ∧
      Stands ⟨i.table, n⟩ t := by
  intro naming
  obtain ⟨hinv, k, hnumber, htext⟩ := h
  have hnumbers := k.run_relabel (f := .ofNames (Known.number i.table)) (Known.keepsText_number _) program
  have htexts := k.run_relabel (f := .ofNames (Known.text hinv)) (Known.keepsText_text hinv) program
  rw [hnumber] at hnumbers
  rw [htext] at htexts
  rw [hnumbers, htexts]
  cases k.run program with
  | ok u n => exact .inl ⟨_, _, rfl, rfl, hinv, n, rfl, rfl⟩
  | error stop n =>
    have hstop : stop.mapError (·.mapSpans id) = stop := stop.mapError_mapSpans_id
    refine .inr ⟨stop, n.relabel (.ofNames (Known.number _)), n.relabel (.ofNames (Known.text hinv)),
      ?_, ?_, hinv, n, rfl, rfl⟩
    · exact congrArg (EStateM.Result.error · _) hstop
    · exact congrArg (EStateM.Result.error · _) hstop

/-- **A source does the same with numbers and with texts.** -/
theorem runSource (h : i.Stands m) (source : String) :
    (i.runSource source).1 = (m.runSource source).1 ∧
      (i.runSource source).2.Stands (m.runSource source).2 := by
  obtain ⟨later, hlater, program, hgrown, hread, hprogram⟩ :=
    Interpreter.exists_known_read h.inverse source
  have hnext := h.grow hlater hgrown
  rw [Interpreter.runSource, Machine.runSource, hread, hprogram]
  cases program with
  | error f => exact ⟨rfl, hnext⟩
  | ok program =>
    dsimp only [Except.map]
    obtain ⟨n, t, hnumbers, htexts, hstands⟩ | ⟨stop, n, t, hnumbers, htexts, hstands⟩ := hnext.run program
    · rw [hnumbers, htexts]
      exact ⟨rfl, hstands⟩
    · rw [hnumbers, htexts]
      exact ⟨rfl, hstands⟩

/-- What was printed has no part in what a state stands for. -/
theorem cleared (h : i.Stands m) :
    Stands { i with machine := { i.machine with output := "" } } { m with output := "" } := by
  obtain ⟨hinv, k, hnumber, htext⟩ := h
  exact ⟨hinv, { k with output := "" }, congrArg (fun m => { m with output := "" }) hnumber,
    congrArg (fun m => { m with output := "" }) htext⟩

theorem output_eq (h : i.Stands m) : i.machine.output = m.output := by
  obtain ⟨hinv, k, hnumber, htext⟩ := h
  rw [← hnumber, ← htext]
  rfl

theorem runChunk (h : i.Stands m) (source : String) :
    (i.runChunk source).1 = (m.runChunk source).1 ∧
      (i.runChunk source).2.Stands (m.runChunk source).2 := by
  obtain ⟨hresult, hstands⟩ := h.cleared.runSource source
  exact ⟨congrArg₂ (Report.mk source) hstands.output_eq hresult, hstands⟩

/-- **A session with numbers is the session with texts**: its chunks are reported the same, and it leaves
behind a state that stands for the one with texts. -/
theorem runChunks (h : i.Stands m) (chunks : List String) :
    (i.runChunks chunks).1 = (m.runChunks chunks).1 ∧
      (i.runChunks chunks).2.Stands (m.runChunks chunks).2 := by
  induction chunks generalizing i m with
  | nil => exact ⟨rfl, h⟩
  | cons source rest ih =>
    obtain ⟨hreport, hchunk⟩ := h.runChunk source
    obtain ⟨hreports, hstands⟩ := ih hchunk
    exact ⟨congrArg₂ List.cons hreport hreports, hstands⟩

/-- **A name means the same with numbers and with texts.** -/
theorem meaning_eq (h : i.Stands m) : i.meaning = m.meaning := by
  funext x
  -- to be looked up the name is numbered, and the state stands in the larger table for what it stood for
  have hnames := h.inverse.intern_names x
  obtain ⟨hinv, k, hnumber, htext⟩ := h.grow (h.inverse.intern x) (intern_extends i.table x)
  let naming : Naming Name := (i.table.intern x).2.naming
  let n : Known (i.table.intern x).2 := .ofNames hnames
  have hnumbers := k.meaning_relabel (f := .ofNames (Known.number _)) (Known.keepsText_number _) n
  have htexts := k.meaning_relabel (f := .ofNames (Known.text hinv)) (Known.keepsText_text hinv) n
  have hx : (Relabeling.ofNames (Known.text hinv)).name n = x := hnames.lookup_eq
  rw [hnumber] at hnumbers
  rw [htext, hx] at htexts
  exact hnumbers.trans htexts.symm

/-! ### The first state -/

theorem register (h : i.Stands m) (b : Builtin) :
    (i.register b).Stands { m with env := m.env.defineGlobal b.name (.builtin b) } := by
  have hnames := h.inverse.intern_names b.name
  obtain ⟨hinv, k, hnumber, htext⟩ := h.grow (h.inverse.intern b.name) (intern_extends i.table b.name)
  let x : Known (i.table.intern b.name).2 := .ofNames hnames
  refine ⟨hinv, { k with env := k.env.defineGlobal x (.builtin b) }, ?_, ?_⟩
  · have henv := k.env.defineGlobal_relabel (.ofNames (Known.number _)) x (.builtin b)
    replace hnumber : k.relabel (.ofNames (Known.number _)) = i.machine := hnumber
    have hmachine : (i.register b).machine =
        { i.machine with env := i.machine.env.defineGlobal x.1 (.builtin b) } := rfl
    rw [hmachine, ← hnumber]
    exact congrArg (fun env => Machine.mk env _ _ _ _) henv
  · have henv := k.env.defineGlobal_relabel (.ofNames (Known.text hinv)) x (.builtin b)
    have hx : (Relabeling.ofNames (Known.text hinv)).name x = b.name := hnames.lookup_eq
    rw [hx] at henv
    rw [← htext]
    exact congrArg (fun env => Machine.mk env _ _ _ _) henv

/-- **An interpreter that has run nothing stands for the first state with texts.** -/
theorem ofLimit (limit : Nat) : (Interpreter.ofLimit limit).Stands (Machine.ofLimit limit) := by
  have hall : ∀ (bs : List Builtin) {i : Interpreter} {m : Machine}, i.Stands m →
      (bs.foldl (fun i b => i.register b) i).Stands
        { m with env := bs.foldl (fun env b => env.defineGlobal b.name (.builtin b)) m.env } := by
    intro bs
    induction bs with
    | nil => exact fun h => h
    | cons b rest ih => exact fun h => ih (h.register b)
  have hblank : Interpreter.Stands ⟨.empty, { env := {}, calls := .ofLimit limit }⟩
      { env := {}, calls := .ofLimit limit } :=
    ⟨inverse_empty, { env := {}, calls := .ofLimit limit }, Machine.relabel_blank _ limit,
      Machine.relabel_blank _ limit⟩
  exact hall Builtin.all hblank

end Interpreter.Stands

end Nikl
