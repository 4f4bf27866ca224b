import Nikl.Proofs.Interner.Numbering
import Nikl.Proofs.Session.Numbered

/-
Chunks of source that cannot be read. With texts for names such a chunk does nothing, so a session in which
some of them are left out goes the same way (`Machine.runChunks_leavingOut`). With numbers that is not
plain: an unreadable chunk has numbered some texts by the time its reading fails, and all names that are
first met behind it get other numbers than without it. But both sessions with numbers are those with texts
(`Interpreter.Stands.runChunks`), and so they go the same way too. The one without the chunks needs no more
numbers than the one with them.
-/

set_option autoImplicit false

namespace Nikl

/-- A chunk of source that makes no program: a lexeme of it makes no token, or its tokens make no tree. -/
def Unreadable (source : String) : Prop :=
  (∃ e, programOf source = .error (.lex e)) ∨ ∃ e, programOf source = .error (.parse e)

/-- The chunk failed for a lexeme that makes no token, or for tokens that make no tree. -/
def Report.Unread (r : Report) : Prop := (∃ e, r.result = .error (.lex e)) ∨ ∃ e, r.result = .error (.parse e)

instance (r : Report) : Decidable r.Unread :=
  match h : r.result with
  | .error (.lex e) => .isTrue (.inl ⟨e, h⟩)
  | .error (.parse e) => .isTrue (.inr ⟨e, h⟩)
  | .error (.eval _) | .error .endless | .ok _ => .isFalse (by simp [Report.Unread, h])

/-! ## Places that are left out -/

section LeavingOut

variable {α : Type}

/-- The items of a list, without those at some places. -/
def leavingOut (places : Nat → Bool) : List α → List α
  | [] => []
  | item :: items =>
    if places 0 then leavingOut (fun i => places (i + 1)) items
    else item :: leavingOut (fun i => places (i + 1)) items

variable {places : Nat → Bool}

theorem leavingOut_cons_of_out (h : places 0 = true) (item : α) (items : List α) :
    leavingOut places (item :: items) = leavingOut (fun i => places (i + 1)) items := by
  rw [leavingOut, if_pos h]

theorem leavingOut_cons_of_kept (h : places 0 = false) (item : α) (items : List α) :
    leavingOut places (item :: items) = item :: leavingOut (fun i => places (i + 1)) items := by
  rw [leavingOut, if_neg (by rw [h]; exact Bool.false_ne_true)]

end LeavingOut

/-- Only unreadable chunks are left out. -/
def OnlyUnreadable (places : Nat → Bool) (chunks : List String) : Prop :=
  ∀ i source, chunks[i]? = some source → places i = true → Unreadable source

namespace OnlyUnreadable

variable {places : Nat → Bool} {source : String} {rest : List String}

theorem head (h : OnlyUnreadable places (source :: rest)) (hplace : places 0 = true) :
    Unreadable source :=
  h 0 source rfl hplace

theorem tail (h : OnlyUnreadable places (source :: rest)) :
    OnlyUnreadable (fun i => places (i + 1)) rest :=
  fun i next hi hplace => h (i + 1) next hi hplace

end OnlyUnreadable

/-! ## Sessions with texts -/

namespace Machine

/-- The state without what was printed, as the next chunk finds it. -/
def cleared (m : Machine) : Machine := { m with output := "" }

theorem meaning_cleared (m : Machine) : m.cleared.meaning = m.meaning := rfl

theorem runChunk_cleared (source : String) (m : Machine) :
    m.cleared.runChunk source = m.runChunk source := rfl

theorem runChunk_of_unreadable {source : String} (h : Unreadable source) (m : Machine) :
    (m.runChunk source).2 = m.cleared := by
  rcases h with ⟨e, he⟩ | ⟨e, he⟩ <;>
  · unfold runChunk runSource
    rw [he]
    rfl

/-- What cannot be read is what its report says could not be read, whatever the state. -/
theorem unreadable_iff_report (source : String) (m : Machine) :
    Unreadable source ↔ (m.runChunk source).1.Unread := by
  rw [Unreadable, Report.Unread, runChunk, runSource]
  cases programOf source with
  | error f => simp only [Except.error.injEq]
  | ok program =>
    simp only [reduceCtorEq, exists_false, or_self, false_iff]
    cases ({ m with output := "" } : Machine).run program with
    | ok _ n => simp
    | error stop n => cases stop <;> simp [Failure.ofStop]

theorem runChunks_cons (source : String) (rest : List String) (m : Machine) :
    m.runChunks (source :: rest) =
      ((m.runChunk source).1 :: ((m.runChunk source).2.runChunks rest).1,
        ((m.runChunk source).2.runChunks rest).2) := rfl

/-- Sessions from states that differ in what was printed, of which one leaves unreadable chunks out. -/
theorem runChunks_leavingOut {places : Nat → Bool} {chunks : List String}
    (hplaces : OnlyUnreadable places chunks) {m m' : Machine} (h : m.cleared = m'.cleared) :
    (m.runChunks (leavingOut places chunks)).1 = leavingOut places (m'.runChunks chunks).1 ∧
      (m.runChunks (leavingOut places chunks)).2.cleared = (m'.runChunks chunks).2.cleared := by
  induction chunks generalizing places m m' with
  | nil => exact ⟨rfl, h⟩
  | cons source rest ih =>
    cases hplace : places 0 with
    | false =>
      have hchunk : m.runChunk source = m'.runChunk source := by
        rw [← runChunk_cleared, h, runChunk_cleared]
      have hih := ih hplaces.tail (m := (m'.runChunk source).2) rfl
      rw [leavingOut_cons_of_kept hplace, runChunks_cons, runChunks_cons, hchunk,
        leavingOut_cons_of_kept hplace, hih.1]
      exact ⟨rfl, hih.2⟩
    | true =>
      -- the chunk that is left out leaves the state as it was, but for what was printed
      have hsame : m.cleared = (m'.runChunk source).2.cleared := by
        rw [runChunk_of_unreadable (hplaces.head hplace), h]
        rfl
      rw [leavingOut_cons_of_out hplace, runChunks_cons, leavingOut_cons_of_out hplace]
      exact ih hplaces.tail hsame

/-- The places of reports that say so are those of unreadable chunks. -/
theorem onlyUnreadable_of_reports {places : Nat → Bool} {chunks : List String} {m : Machine}
    (h : ∀ k report, (m.runChunks chunks).1[k]? = some report → places k = true → report.Unread) :
    OnlyUnreadable places chunks := by
  induction chunks generalizing places m with
  | nil => nofun
  | cons source rest ih =>
    have hrest := ih (m := (m.runChunk source).2) fun k report hk => h (k + 1) report hk
    intro k next hk hplace
    cases k with
    | zero =>
      obtain rfl : source = next := Option.some.inj hk
      exact (unreadable_iff_report source m).2 (h 0 _ rfl hplace)
    | succ k => exact hrest k next hk hplace

end Machine

/-! ## Sessions with numbers -/

namespace Interpreter

theorem table_runSource (source : String) (i : Interpreter) :
    (i.runSource source).2.table = (lexInto i.table source).2 := by
  have hread : (read source i.table).2 = (lexInto i.table source).2 := by
    rw [read]
    rcases lexInto i.table source with ⟨e | tokens, later⟩ <;> rfl
  rw [← hread, runSource]
  rcases read source i.table with ⟨f | program, later⟩
  · rfl
  · dsimp only
    rcases @Machine.run _ _ later.naming i.machine program with ⟨u, n⟩ | ⟨stop, n⟩ <;> rfl

/-- The texts that are numbered in a session without some chunks are numbered in the session with them. -/
theorem within_runChunks {i i' : Interpreter} {m' : Machine} (h : i.table.Within i'.table)
    (hstands : i'.Stands m') (places : Nat → Bool) (chunks : List String) :
    (i.runChunks (leavingOut places chunks)).2.table.Within (i'.runChunks chunks).2.table := by
  induction chunks generalizing places i i' m' with
  | nil => exact h
  | cons source rest ih =>
    have hnext := (hstands.runChunk source).2
    have htable' : (i'.runChunk source).2.table = (lexInto i'.table source).2 := table_runSource source _
    show Interner.Within _ ((i'.runChunk source).2.runChunks rest).2.table
    cases hplace : places 0 with
    | false =>
      have htable : (i.runChunk source).2.table = (lexInto i.table source).2 := table_runSource source _
      have hwithin : (i.runChunk source).2.table.Within (i'.runChunk source).2.table := by
        rw [htable, htable']
        exact within_lexWith h hstands.inverse 0 false source.toList
      rw [leavingOut_cons_of_kept hplace]
      exact ih hwithin hnext fun k => places (k + 1)
    | true =>
      -- what was numbered before the reading failed is known to the session with the chunk alone
      obtain ⟨later, _, _, hgrown, hlex, _⟩ := exists_known_lexWith hstands.inverse 0 false source.toList
      have hwithin : i.table.Within (i'.runChunk source).2.table := by
        rw [htable', lexInto, hlex]
        exact h.grow hgrown
      rw [leavingOut_cons_of_out hplace]
      exact ih hwithin hnext fun k => places (k + 1)

end Interpreter

/-- **A chunk that cannot be read leaves no trace.** Chunks that fail when they are read may be left out of
a session: each other chunk prints the same and ends the same, and at the end each name, looked up by its
text, means the same. The table of the names numbers fewer texts, if any; so where the numbers are enough
for all chunks, they are enough without some. -/
theorem unreadable_chunks_leave_no_trace (limit : Nat) (chunks : List String) (places : Nat → Bool)
    (hplaces : ∀ k report, ((Interpreter.ofLimit limit).runChunks chunks).1[k]? = some report →
      places k = true → report.Unread) :
    ((Interpreter.ofLimit limit).runChunks (leavingOut places chunks)).1 =
      leavingOut places ((Interpreter.ofLimit limit).runChunks chunks).1 ∧
    ((Interpreter.ofLimit limit).runChunks (leavingOut places chunks)).2.meaning =
      ((Interpreter.ofLimit limit).runChunks chunks).2.meaning ∧
    ((Interpreter.ofLimit limit).runChunks (leavingOut places chunks)).2.table.size ≤
      ((Interpreter.ofLimit limit).runChunks chunks).2.table.size := by
  -- both sessions with numbers are sessions with texts, in which unreadable chunks do nothing
  have hfirst := Interpreter.Stands.ofLimit limit
  obtain ⟨hreports, hstands⟩ := hfirst.runChunks chunks
  obtain ⟨hreports', hstands'⟩ := hfirst.runChunks (leavingOut places chunks)
  rw [hreports] at hplaces
  have hsame : (Machine.ofLimit limit).cleared = (Machine.ofLimit limit).cleared := rfl
  obtain ⟨hsession, hcleared⟩ :=
    Machine.runChunks_leavingOut (Machine.onlyUnreadable_of_reports hplaces) hsame
  refine ⟨?_, ?_, ?_⟩
  · rw [hreports', hsession, hreports]
  · rw [hstands'.meaning_eq, hstands.meaning_eq, ← Machine.meaning_cleared, hcleared,
      Machine.meaning_cleared]
  · have hwithin := Interpreter.within_runChunks (.refl _) hfirst places chunks
    exact hwithin.size_le hstands'.inverse

/-- A session with two chunks that cannot be read. The first of them has names that are met in another
order behind it. -/
def withUnreadable : List String :=
  ["let x = 1", "let z y", "?", "let y = x", "let z = y + x", "print(z, w)"]

def unreadablePlaces (i : Nat) : Bool := i = 1 || i = 2

/-- Without the two chunks the other ones do what they do with them, the last of which fails, and `y` has
another number. -/
theorem unreadable_chunks_leave_no_trace_twoChunks :
    ((Interpreter.ofLimit 3).runChunks (leavingOut unreadablePlaces withUnreadable)).1 =
      leavingOut unreadablePlaces ((Interpreter.ofLimit 3).runChunks withUnreadable).1 ∧
    ((Interpreter.ofLimit 3).runChunks (leavingOut unreadablePlaces withUnreadable)).2.meaning "z" =
      .ok (.int, "2") ∧
    ((Interpreter.ofLimit 3).runChunks (leavingOut unreadablePlaces withUnreadable)).2.table.find? "y" =
      some ⟨4⟩ ∧
    ((Interpreter.ofLimit 3).runChunks withUnreadable).2.table.find? "y" = some ⟨5⟩ := by
  have hunread : (((Interpreter.ofLimit 3).runChunks withUnreadable).1.zipIdx.all fun r =>
      !unreadablePlaces r.2 || decide r.1.Unread) = true := by decide +kernel
  have hplaces : ∀ k report, ((Interpreter.ofLimit 3).runChunks withUnreadable).1[k]? = some report →
      unreadablePlaces k = true → report.Unread := by
    intro k report hk hplace
    have hreport := List.all_eq_true.1 hunread (report, k) (List.mem_zipIdx_iff_getElem?.2 hk)
    simpa [hplace] using hreport
  obtain ⟨hreports, hmeaning, -⟩ := unreadable_chunks_leave_no_trace 3 withUnreadable unreadablePlaces hplaces
  refine ⟨hreports, ?_, ?_, ?_⟩
  · rw [hmeaning]
    decide +kernel
  · decide +kernel
  · decide +kernel

end Nikl
