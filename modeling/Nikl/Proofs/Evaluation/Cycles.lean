import Nikl.Proofs.Evaluation.Discipline
import Nikl.Proofs.Value.Ages

/-
Where no item is assigned to there are no cycles. A program with no assignment to an item anywhere in its
tree makes collections, of values that there are, and changes none. So each collection holds older ones
only, at every moment, whatever is bound, captured by functions, gone through or handed over.

The functions that there are have such trees as well: they come from programs that were run before. That
is why what is kept of values says which statements there are in the functions among them.
-/

set_option autoImplicit false

namespace Nikl

/-! ## Programs without assignments to items -/

/-- No assignment to an item is found anywhere in a statement. -/
def Stmt.AssignsNoItem (s : Stmt) : Prop :=
  ∀ target index value span, ¬ Node.Within (.stmt s) (.stmt (.assignIndex target index value span))

/-- No assignment to an item is found anywhere in a block. -/
def Block.AssignsNoItem (b : Block) : Prop := ∀ s ∈ b.stmts, s.AssignsNoItem

/-- It is enough to look at a statement itself and at the statements directly under it. -/
theorem Stmt.assignsNoItem_iff {s : Stmt} :
    s.AssignsNoItem ↔ (∀ target index value span, s ≠ .assignIndex target index value span) ∧
      ∀ t, .stmt t ∈ (Node.stmt s).children → t.AssignsNoItem := by
  refine ⟨fun h => ⟨fun target index value span hs => ?_, fun t ht _ _ _ _ hwithin => ?_⟩, fun h => ?_⟩
  · exact h target index value span (hs ▸ .root)
  · exact h _ _ _ _ (Node.within_iff.2 (.inr ⟨_, ht, hwithin⟩))
  · intro target index value span hwithin
    rcases Node.within_iff.1 hwithin with hs | ⟨e | t, hc, hwithin⟩
    · exact h.1 target index value span (Node.stmt.inj hs).symm
    · obtain ⟨e', he⟩ := hwithin.eq_expr
      cases he
    · exact h.2 t hc _ _ _ _ hwithin

theorem Stmt.assignsNoItem_of_leaf {s : Stmt}
    (hs : ∀ target index value span, s ≠ .assignIndex target index value span)
    (hleaf : ∀ t, .stmt t ∉ (Node.stmt s).children) : s.AssignsNoItem :=
  Stmt.assignsNoItem_iff.2 ⟨hs, fun t ht => absurd ht (hleaf t)⟩

theorem Stmt.assignsNoItem_function {d : FunctionDef} {span : Span} (h : d.body.AssignsNoItem) :
    (Stmt.function d span).AssignsNoItem :=
  Stmt.assignsNoItem_iff.2 ⟨nofun, by simpa [Node.children, Block.AssignsNoItem] using h⟩

theorem Stmt.assignsNoItem_forEach {first : String} {second : Option String} {iterable : Expr}
    {body : Block} {span : Span} (h : body.AssignsNoItem) :
    (Stmt.forEach first second iterable body span).AssignsNoItem :=
  Stmt.assignsNoItem_iff.2 ⟨nofun, by simpa [Node.children, Block.AssignsNoItem] using h⟩

/-- A function assigns to no item, and neither do those in a tuple. -/
def Value.AssignsNoItem (v : Value) : Prop :=
  v.Throughout fun w => ∀ f, w = .function f → f.definition.body.AssignsNoItem

/-- Collections hold older ones only, and no functions that assign to items. -/
structure Store.Grounded (s : Store) : Prop where
  aged : s.Aged
  functions : s.HoldsOnly Value.AssignsNoItem

section Grounded

variable {s : Store} {v : Value} {c : Cell}

theorem Value.IsScalar.assignsNoItem (h : v.IsScalar) : v.AssignsNoItem := by
  refine h.throughout fun f hf => ?_
  rw [hf] at h
  exact h.elim

theorem Cell.stored_iff {n : Nat} : c.Stored n ↔ ∀ v ∈ c.contents, v.Stored n := by
  cases c with
  | array items => exact Iff.rfl
  | map entries => exact Entries.All.iff_contents

theorem Store.Grounded.push (hs : s.Grounded) (hc : ∀ v ∈ c.contents, v.Stored s.size ∧ v.AssignsNoItem) :
    (s.push c).Grounded where
  aged := hs.aged.push (Cell.stored_iff.2 fun v hv => (hc v hv).1)
  functions := hs.functions.push fun v hv => (hc v hv).2

end Grounded

/-- What programs keep that assign to no item. -/
def aging : Discipline where
  Sound := Store.Grounded
  Fit s v := v.Stored s.size ∧ v.AssignsNoItem
  Later s t := s.size ≤ t.size
  Allows := Stmt.AssignsNoItem
  refl _ := Nat.le_refl _
  trans := Nat.le_trans
  mono h hv := ⟨hv.1.mono h, hv.2⟩
  scalar h := ⟨h.stored _, h.assignsNoItem⟩
  builtin _ _ := ⟨trivial, nofun⟩
  tuple h := ⟨Value.stored_tuple.2 fun v hv => (h v hv).1, Value.throughout_tuple.2 fun v hv => (h v hv).2⟩
  function := ⟨fun h => h.2 _ rfl, fun h => ⟨trivial, fun _ hf => Value.function.inj hf ▸ h⟩⟩
  held hs hv hw := ⟨hv.1.of_held hs.aged.closed hw, Value.Throughout.held hs.functions hv.2 hw⟩
  make {s c} hs hc := by
    refine ⟨hs.push hc, ?_, ?_⟩
    · rw [Store.size_push]
      exact Nat.le_succ _
    · have hnext : s.next.index < (s.push c).size := by
        rw [Store.size_push]
        exact Nat.lt_succ_self _
      cases c <;> exact ⟨hnext, nofun⟩
  write hallows := absurd rfl ((Stmt.assignsNoItem_iff.1 hallows).1 _ _ _ _)
  part hs ht := (Stmt.assignsNoItem_iff.1 hs).2 _ ht

/-! ## Runs -/

section Runs

variable {m n : Machine} {program : Block}

/-- At a comparison that a run has come to, the two values can be compared. -/
theorem Job.Passes.equal? (hm : aging.Keeps m) (hprogram : program.AssignsNoItem) {p : Point}
    (h : (Job.stmts program.stmts).Passes m p) (v w : Value) :
    ∃ same, v.equal? p.state.store w = some same :=
  (Discipline.during hm hprogram (.inl ⟨p, h, rfl⟩)).1.1.aged.equal? v w

/-- **A program that assigns to no item never stays at a comparison.** -/
theorem Machine.run_ne_endless (hm : aging.Keeps m) (hprogram : program.AssignsNoItem) (n : Machine) :
    m.run program ≠ .error .endless n := by
  intro hrun
  obtain ⟨enough, l, ⟨c, hl, -⟩ | ⟨e, hl, -⟩ | ⟨s, v, w, k, -, hnever, hends⟩⟩ := m.rules_of_run program
  · rw [hrun] at hl
    cases hl
  · rw [hrun] at hl
    cases hl
  · obtain ⟨p, hp, rfl, rfl, next, -⟩ := Job.passes_of_comparing (hends enough (Nat.le_refl enough))
    obtain ⟨same, hsame⟩ := hp.equal? hm hprogram v w
    obtain ⟨depth, hdepth⟩ := Value.equal?_eq_some_iff.1 hsame
    rw [hnever depth] at hdepth
    cases hdepth

/-- What a program leaves behind that assigns to no item. -/
theorem Machine.keeps_afterRun (hm : aging.Keeps m) (hprogram : program.AssignsNoItem) :
    aging.Keeps (m.afterRun program) := by
  have hends : m.Ends program (m.afterRun program) := by
    unfold afterRun
    cases hrun : m.run program with
    | ok _ n => exact .inl hrun
    | error stop n =>
      cases stop with
      | error e => exact .inr ⟨e, hrun⟩
      | endless => exact absurd hrun (m.run_ne_endless hm hprogram n)
  exact (Discipline.during hm hprogram (.inr hends)).1

/-- The state that programs leave behind which are run in turn and assign to no item. -/
theorem Machine.keeps_session (limit : Nat) {session : List Block} (h : ∀ b ∈ session, b.AssignsNoItem) :
    aging.Keeps (session.foldl afterRun (.ofLimit limit)) := by
  have from_start : ∀ m, aging.Keeps m → aging.Keeps (session.foldl afterRun m) := by
    induction session with
    | nil => exact fun _ hm => hm
    | cons b rest ih =>
      obtain ⟨hb, hrest⟩ := List.forall_mem_cons.1 h
      exact fun m hm => ih hrest _ (keeps_afterRun hm hb)
  have hempty : Store.Grounded {} := ⟨fun _ _ => nofun, fun _ _ => nofun⟩
  exact from_start _ (aging.keeps_ofLimit hempty limit)

end Runs

/-! ## The main statement -/

/-- **Cycles come from assignments to items alone.** Programs that are run in turn in a new interpreter,
with any limit on nested calls, may assign to no item anywhere. Then at every moment of a run, and when it
has ended, what values hold directly is well-founded: no way down goes on forever. And whatever value of
that moment is written, it is written as if no collection were open around another, so that none is shown
by dots. Each comparison that the run comes to, of operands or of keys, has an answer, so the run does not
stop for want of one. Each text that it prints is what a built-in function makes of such values. -/
theorem cycles_need_item_assignment (limit : Nat) {session : List Block} {program : Block}
    (hsession : ∀ b ∈ session, b.AssignsNoItem) (hprogram : program.AssignsNoItem) :
    let m := session.foldl Machine.afterRun (.ofLimit limit)
    (∀ n, m.During program n → (WellFounded fun w v => Value.Holds n.store v w) ∧
      ∀ v : Value, v.Stored n.store.size → ∀ depth, n.store.size ≤ depth →
        v.text n.store = String.ofList (v.plainWithin n.store depth)) ∧
    (∀ {α : Type} (j : Job α) (start : Machine) (v w : Value) (next : Bool → Script α) (k : Machine),
      (Job.stmts program.stmts).Passes m ⟨j, start, .compare v w next, k⟩ →
        ∃ same, v.equal? k.store w = some same) ∧
    (∀ n, m.run program ≠ .error .endless n) ∧
    ∀ {α : Type} (j : Job α) (start : Machine) (text : String) (next : Unit → Script α) (k : Machine),
      (Job.stmts program.stmts).Passes m ⟨j, start, .act (.write text) next, k⟩ →
        ∃ (b : Builtin) (args : List Value) (v : Value), b.apply k.store args = .ok (text, v) ∧
          ∀ a ∈ args, ∀ depth, k.store.size ≤ depth →
            a.text k.store = String.ofList (a.plainWithin k.store depth) := by
  intro m
  have hm : aging.Keeps m := Machine.keeps_session limit hsession
  refine ⟨fun n hn => ?_, fun j start v w next k h => h.equal? hm hprogram v w,
    m.run_ne_endless hm hprogram, fun j start text next k h => ?_⟩
  · have haged := (Discipline.during hm hprogram hn).1.1.aged
    exact ⟨haged.wellFounded, fun v hv depth hdepth => haged.text_eq_plain hv hdepth⟩
  · obtain ⟨hk, b, args, v, happly, hargs⟩ := Discipline.legal hm hprogram h
    exact ⟨b, args, v, happly, fun a ha depth hdepth => hk.1.aged.text_eq_plain (hargs a ha).1 hdepth⟩

/-- Makes an array, and a function that pairs something with it. -/
def pairing : Block :=
  let here := Span.nowhere
  let body : Block := .mk [.giveBack (some (.array [.ident "x" here, .ident "a" here] here)) here] here
  .mk [
    .define "a" none (.array [.literal (.int 1) here] here) here,
    .function (.mk "pair" [⟨"x", none, here⟩] none body here) here] here

/-- Pairs the array with itself, makes a map that has the pair for a key and in its value, compares what
the pair holds with the array, and looks the pair up in the map. -/
def pairsItself : Block :=
  let here := Span.nowhere
  let name (x : String) : Expr := .ident x here
  let round : Block := .mk [.expr (.binary .equal (name "x") (name "a") here) here] here
  .mk [
    .define "b" none (.call (name "pair") [name "a"] here) here,
    .define "m" none (.map [(name "b", .tuple [name "a", name "b"] here)] here) here,
    .forEach "x" none (name "b") round here,
    .define "t" none (.index (name "m") (name "b") here) here] here

theorem assignsNoItem_pairing : pairing.AssignsNoItem := by
  have leaf := @Stmt.assignsNoItem_of_leaf
  refine List.forall_mem_cons.2 ⟨leaf nofun (by simp [Node.children]), ?_⟩
  refine List.forall_mem_singleton.2 (Stmt.assignsNoItem_function ?_)
  exact List.forall_mem_singleton.2 (leaf nofun (by simp [Node.children]))

theorem assignsNoItem_pairsItself : pairsItself.AssignsNoItem := by
  have leaf := @Stmt.assignsNoItem_of_leaf
  refine List.forall_mem_cons.2 ⟨leaf nofun (by simp [Node.children]), ?_⟩
  refine List.forall_mem_cons.2 ⟨leaf nofun (by simp [Node.children]), ?_⟩
  refine List.forall_mem_cons.2 ⟨Stmt.assignsNoItem_forEach ?_, ?_⟩
  · exact List.forall_mem_singleton.2 (leaf nofun (by simp [Node.children]))
  · exact List.forall_mem_singleton.2 (leaf nofun (by simp [Node.children]))

/-- The state between the two programs. -/
def pairingMachine : Machine := (Machine.ofLimit 3).afterRun pairing

/-- The state after them. -/
def pairedMachine : Machine := pairingMachine.afterRun pairsItself

/-- In the end there are the array, the pair and the map, and what they hold is well-founded. -/
theorem cycles_need_item_assignment_pairsItself :
    (pairedMachine.store.items ⟨1⟩).map Value.kind = [.array, .array] ∧
      ((pairedMachine.store.entries ⟨2⟩).map fun e => (e.1.kind, e.2.kind)) = [(.array, .tuple)] ∧
      WellFounded fun w v => Value.Holds pairedMachine.store v w := by
  have hsession : ∀ b ∈ [pairing], b.AssignsNoItem :=
    List.forall_mem_singleton.2 assignsNoItem_pairing
  have hends : pairingMachine.Ends pairsItself pairedMachine := .inl (by cbv)
  refine ⟨by cbv, by cbv, ?_⟩
  exact ((cycles_need_item_assignment 3 hsession assignsNoItem_pairsItself).1 _ (.inr hends)).1

end Nikl
