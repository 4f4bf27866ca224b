import Nikl.Proofs.Evaluation.Following
import Nikl.Proofs.Value.Writing

/-
Programs come to an end. Calls are limited, loops go through lists made before their first round, and
all else goes down the tree; what is left is the comparison of collections that contain themselves. So a
program ends, with a result or an error, unless it comes to a comparison that never ends.

That is said of the rules, which carry out a program with any amount of fuel and end it for want of fuel
if there is too little: there is an amount that is enough, and with it the rules end as the evaluator
does. More fuel changes no end (`Job.run_mono`), so the end does not depend on the amount. Writing a
value is one action of the rules; it goes no deeper than there are collections (`textWithin_stable`).
-/

set_option autoImplicit false

namespace Nikl

/-! ## More fuel -/

section Fuel

variable {σ α : Type} {host : Host σ}

/-- What more fuel does not change: an end, or a comparison that has none. -/
def Progress.Final : Progress σ α → Prop
  | ended .. => True
  | unfinished => False
  | comparing s v w _ => ∀ depth, v.equalWithin s depth w = none

/-- A script whose jobs come at least as far, and whose comparisons look at least as deep, comes at least
as far itself. -/
theorem Script.run_mono {perform perform' : {β : Type} → Job β → σ → Progress σ β} {depth depth' : Nat}
    (hperform : ∀ {β : Type} (j : Job β) (m : σ), (perform j m).Final → perform' j m = perform j m)
    (hdepth : depth ≤ depth') (s : Script α) (m : σ) (h : (s.run host perform depth m).Final) :
    s.run host perform' depth' m = s.run host perform depth m := by
  induction s generalizing m with
  | give a => rfl
  | fault f => rfl
  | act action next ih => exact ih _ _ h
  | compare v w next ih =>
    simp only [run] at h ⊢
    cases hsame : v.equalWithin (host.act .look m).1 depth w with
    | some same =>
      rw [hsame] at h
      rw [Value.equalWithin_mono _ hdepth v w same hsame]
      exact ih same _ h
    | none =>
      rw [hsame] at h
      rw [h depth']
  | perform job next ih =>
    simp only [run] at h ⊢
    cases hjob : perform job m with
    | unfinished =>
      rw [hjob] at h
      exact h.elim
    | ended r n =>
      rw [hperform job m (by rw [hjob]; trivial), hjob]
      rw [hjob] at h
      cases r with
      | error e => rfl
      | ok b => exact ih b n h
    | comparing u v w k =>
      rw [hjob] at h
      rw [hperform job m (by rw [hjob]; exact h), hjob]
      rfl

theorem Closing.final_apply {closing : Closing} {p : Progress σ α} :
    (closing.apply host p).Final ↔ p.Final := by
  cases p <;> cases closing <;> rfl

/-- **More fuel changes nothing about an end.** -/
theorem Job.run_mono {fuel fuel' : Nat} (hfuel : fuel ≤ fuel') (j : Job α) (m : σ)
    (h : (j.run host fuel m).Final) : j.run host fuel' m = j.run host fuel m := by
  induction fuel generalizing fuel' α m with
  | zero => exact h.elim
  | succ fuel ih =>
    obtain ⟨fuel', rfl⟩ : ∃ n, fuel' = n + 1 := ⟨fuel' - 1, by omega⟩
    have hle : fuel ≤ fuel' := by omega
    rw [run] at h ⊢
    rw [run, Script.run_mono (fun j m => ih hle j m) hle _ _ (Closing.final_apply.1 h)]

end Fuel

/-! ## How the rules end -/

/-- The rules do what the evaluator does with a program. -/
theorem follows_program (m : Machine) (program : Block) :
    Follows (Script.job (.stmts program.stmts)) (Eval.stmts (Eval.callWithin m.calls.room) program.stmts)
      m :=
  (Carries.stmts (Carries.call m.calls.room) program.stmts).follows m rfl

/-- **The rules end as the evaluator does**, with enough fuel: with its result, with its error, or at a
comparison that has no answer. -/
theorem Machine.rules_of_run (m : Machine) (program : Block) :
    ∃ enough n,
      (∃ c, m.run program = .ok () n ∧ ∀ fuel, enough ≤ fuel →
        (Job.stmts program.stmts).run host fuel m = .ended (.ok c) n) ∨
      (∃ e, m.run program = .error (.error e) n ∧ ∀ fuel, enough ≤ fuel →
        (Job.stmts program.stmts).run host fuel m = .ended (.error e) n) ∨
      ∃ s v w k, m.run program = .error .endless n ∧ (∀ depth, v.equalWithin s depth w = none) ∧
        ∀ fuel, enough ≤ fuel → (Job.stmts program.stmts).run host fuel m = .comparing s v w k := by
  obtain ⟨p, htold, enough, hcomes⟩ := follows_program m program
  simp only [Script.run_job] at hcomes
  cases hw : Eval.stmts (Eval.callWithin m.calls.room) program.stmts m with
  | ok c n =>
    rw [hw] at htold
    cases htold
    exact ⟨enough, n, .inl ⟨c, run_of_ok hw, hcomes⟩⟩
  | error stop n =>
    rw [hw] at htold
    cases htold with
    | error e => exact ⟨enough, n, .inr (.inl ⟨e, run_of_error hw, hcomes⟩)⟩
    | endless _ _ hnever => exact ⟨enough, n, .inr (.inr ⟨_, _, _, _, run_of_error hw, hnever, hcomes⟩)⟩

/-! ## The main statement -/

/-- Each comparison that a program comes to, from a state, has an answer: it may not have been found with
the fuel there was, but some depth is enough for it. -/
def Machine.ComparisonsEnd (m : Machine) (program : Block) : Prop :=
  ∀ fuel s v w k, (Job.stmts program.stmts).run host fuel m = .comparing s v w k →
    ∃ depth same, v.equalWithin s depth w = some same

/-- The comparisons of a program have answers if its run does not stop for want of one. -/
theorem Machine.comparisonsEnd_of_run {m : Machine} {program : Block}
    (h : ∀ n, m.run program ≠ .error .endless n) : m.ComparisonsEnd program := by
  intro fuel s v w k hrun
  by_contra hnone
  have hnever : ∀ depth, v.equalWithin s depth w = none := by
    intro depth
    cases hdepth : v.equalWithin s depth w with
    | none => rfl
    | some same => exact absurd ⟨depth, same, hdepth⟩ hnone
  -- a comparison that never ends is there with any more fuel, so it is where the rules stay
  have hstays : ∀ more, fuel ≤ more →
      (Job.stmts program.stmts).run host more m = .comparing s v w k := by
    intro more hmore
    rw [Job.run_mono hmore _ m (by rw [hrun]; exact hnever), hrun]
  obtain ⟨enough, n, ⟨c, -, hends⟩ | ⟨e, -, hends⟩ | ⟨s', v', w', k', hm, -⟩⟩ := rules_of_run m program
  · have hended := hends (max fuel enough) (Nat.le_max_right fuel enough)
    rw [hstays _ (Nat.le_max_left fuel enough)] at hended
    cases hended
  · have hended := hends (max fuel enough) (Nat.le_max_right fuel enough)
    rw [hstays _ (Nat.le_max_left fuel enough)] at hended
    cases hended
  · exact h n hm

/-- **Every program terminates.** From every state, and so with every limit on nested calls, the rules
carry a program out to its end with some amount of fuel, and with any more: to a result or to an error,
those of the evaluator. All that is asked is that each comparison it comes to has an answer. Writing
values has an end in any case, at the depth of as many collections as there are. -/
theorem programs_terminate (m : Machine) (program : Block) (h : m.ComparisonsEnd program) :
    (∃ enough n,
      (∃ c, (∀ fuel, enough ≤ fuel →
          (Job.stmts program.stmts).run Machine.host fuel m = .ended (.ok c) n) ∧
        m.run program = .ok () n) ∨
      ∃ e, (∀ fuel, enough ≤ fuel →
          (Job.stmts program.stmts).run Machine.host fuel m = .ended (.error e) n) ∧
        m.run program = .error (.error e) n) ∧
    ∀ (s : Store) (v : Value) (depth : Nat), s.size ≤ depth → v.textWithin s depth [] = v.chars s [] := by
  refine ⟨?_, fun s v depth hdepth => v.textWithin_stable hdepth⟩
  obtain ⟨enough, n, ⟨c, hm, hends⟩ | ⟨e, hm, hends⟩ | ⟨u, v, w, k, -, hnever, hends⟩⟩ :=
    m.rules_of_run program
  · exact ⟨enough, n, .inl ⟨c, hends, hm⟩⟩
  · exact ⟨enough, n, .inr ⟨e, hends, hm⟩⟩
  · -- a comparison that never ends is none that has an answer
    obtain ⟨depth, same, hsame⟩ := h enough u v w k (hends enough (Nat.le_refl enough))
    rw [hnever depth] at hsame
    cases hsame

/-- A function that goes through an array, changes it in every round to contain itself, compares it, and
calls what it was given; and a call of it with itself. -/
def feedsItself : Block :=
  let here := Span.nowhere
  let name (x : String) : Expr := .ident x here
  let number (n : Int64) : Expr := .literal (.int n) here
  let items : Expr := .array [number 1, number 2] here
  let round : Block := .mk [
    .assignIndex (name "a") (number 0) (name "a") here,
    .expr (.binary .equal (name "a") items here) here,
    .expr (.call (name "g") [name "g"] here) here] here
  .mk [
    .define "a" none items here,
    .function (.mk "f" [⟨"g", none, here⟩] none
      (.mk [.forEach "x" none (name "a") round here] here) here) here,
    .expr (.call (name "f") [name "f"] here) here] here

/-- Whether a run ends with a fault. -/
def endsWith (fault : EvalFault) : EStateM.Result Stop Machine Unit → Bool
  | .error (.error e) _ => e.fault = fault
  | _ => false

/-- With room for three calls the program that feeds itself ends in an error for want of room. -/
theorem programs_terminate_feedsItself :
    (Machine.ofLimit 3).ComparisonsEnd feedsItself ∧
    ∃ enough n e, (∀ fuel, enough ≤ fuel →
        (Job.stmts feedsItself.stmts).run Machine.host fuel (Machine.ofLimit 3) = .ended (.error e) n) ∧
      e.fault = .tooDeep 3 := by
  obtain ⟨e, n, hrun, hfault⟩ : ∃ e n, (Machine.ofLimit 3).run feedsItself = .error (.error e) n ∧
      e.fault = .tooDeep 3 := by
    have hends : endsWith (.tooDeep 3) ((Machine.ofLimit 3).run feedsItself) = true := by decide +kernel
    unfold endsWith at hends
    split at hends
    · next e n hrun => exact ⟨e, n, hrun, of_decide_eq_true hends⟩
    · cases hends
  have hends : (Machine.ofLimit 3).ComparisonsEnd feedsItself :=
    Machine.comparisonsEnd_of_run fun n' h => by rw [hrun] at h; cases h
  refine ⟨hends, ?_⟩
  obtain ⟨enough, n', ⟨c, -, hok⟩ | ⟨e', hends, herror⟩⟩ :=
    (programs_terminate (Machine.ofLimit 3) feedsItself hends).1
  · rw [hrun] at hok
    cases hok
  · rw [hrun] at herror
    cases herror
    exact ⟨enough, n, e, hends, hfault⟩

end Nikl
