import Nikl.Evaluation

/-
What operations complain about. An operation on values finds a fault and knows neither where it stands in
the program nor which calls are under way: both are added on the way outward. And it never complains of
nesting, which only the beginning of a call does. This is gone through here once for all operations, so
that whoever follows an error outward has calls, places and blocks to think of, and nothing else.
-/

set_option autoImplicit false

namespace Nikl

/-- An error of an operation: it has no place and no calls yet, and it is not for want of room. -/
structure EvalError.Fresh (e : EvalError) : Prop where
  span : e.span = none
  backtrace : e.backtrace = none
  fault : e.fault.faultClass ≠ .stackOverflow

/-- A fault that an operation may find. -/
abbrev EvalFault.Plain (fault : EvalFault) : Prop := fault.faultClass ≠ .stackOverflow

/-- The faults of a result are such that an operation may find. -/
def FaultsPlain {α : Type} (r : Except EvalFault α) : Prop := ∀ fault, r = .error fault → fault.Plain

/-- All errors of some work are fresh. -/
def FailsFresh {σ α : Type} (w : EStateM Stop σ α) : Prop :=
  ∀ m e n, w m = .error (.error e) n → e.Fresh

/-! ## Faults of results -/

section Results

variable {α : Type}

theorem faultsPlain_ok (a : α) : FaultsPlain (.ok a : Except EvalFault α) := by
  rintro _ ⟨⟩

theorem faultsPlain_error {fault : EvalFault} (h : fault.Plain) :
    FaultsPlain (.error fault : Except EvalFault α) := by
  rintro _ ⟨⟩
  exact h

theorem faultsPlain_checked (operation : Arithmetic) (n : Option Int64) :
    FaultsPlain (BinaryOp.checked operation n : Except EvalFault Value) := by
  cases n with
  | some n => exact faultsPlain_ok _
  | none => exact faultsPlain_error nofun

theorem faultsPlain_onInts (op : BinaryOp) (a b : Int64) :
    FaultsPlain (op.onInts a b : Except EvalFault Value) := by
  unfold BinaryOp.onInts
  split
  · exact faultsPlain_checked _ _
  · exact faultsPlain_checked _ _
  · exact faultsPlain_checked _ _
  · split
    · exact faultsPlain_error nofun
    · exact faultsPlain_checked _ _
  · split
    · exact faultsPlain_error nofun
    · exact faultsPlain_checked _ _
  · exact faultsPlain_ok _

theorem faultsPlain_onFloats (op : BinaryOp) (a b : Float) :
    FaultsPlain (op.onFloats a b : Except EvalFault Value) := by
  unfold BinaryOp.onFloats
  split
  · exact faultsPlain_ok _
  · exact faultsPlain_ok _
  · exact faultsPlain_ok _
  · split
    · exact faultsPlain_error nofun
    · exact faultsPlain_ok _
  · split
    · exact faultsPlain_error nofun
    · exact faultsPlain_ok _
  · exact faultsPlain_ok _

theorem faultsPlain_onStrings (op : BinaryOp) (a b : String) :
    FaultsPlain (op.onStrings a b : Except EvalFault Value) := by
  unfold BinaryOp.onStrings
  by_cases hadd : op = .add
  · rw [if_pos hadd]
    exact faultsPlain_ok _
  rw [if_neg hadd]
  by_cases hordering : op.isOrdering
  · rw [if_pos hordering]
    exact faultsPlain_ok _
  · rw [if_neg hordering]
    exact faultsPlain_error nofun

theorem plain_mismatch (op : BinaryOp) (l r : Kind) : (op.mismatch l r).Plain := by
  unfold BinaryOp.mismatch
  split <;> exact nofun

theorem faultsPlain_onScalars (op : BinaryOp) (l r : Value) : FaultsPlain (op.onScalars l r) := by
  unfold BinaryOp.onScalars
  split
  · exact faultsPlain_onInts _ _ _
  · exact faultsPlain_onFloats _ _ _
  · exact faultsPlain_onFloats _ _ _
  · exact faultsPlain_onFloats _ _ _
  · exact faultsPlain_onStrings _ _ _
  · exact faultsPlain_error (plain_mismatch _ _ _)

theorem faultsPlain_pair? (s : Store) (v : Value) : FaultsPlain (v.pair? s) := by
  unfold Value.pair?
  split
  · exact faultsPlain_ok _
  · exact faultsPlain_error nofun
  · split
    · exact faultsPlain_ok _
    · exact faultsPlain_error nofun
  · exact faultsPlain_error nofun

theorem faultsPlain_mapM {β : Type} {f : α → Except EvalFault β} (hf : ∀ a, FaultsPlain (f a))
    (as : List α) : FaultsPlain (as.mapM f) := by
  induction as with
  | nil => exact faultsPlain_ok _
  | cons a as ih =>
    intro fault h
    rw [List.mapM_cons] at h
    cases hfirst : f a with
    | error found =>
      rw [hfirst] at h
      cases h
      exact hf a _ hfirst
    | ok b =>
      cases hrest : as.mapM f with
      | error found =>
        rw [hfirst, hrest] at h
        cases h
        exact ih _ hrest
      | ok bs =>
        rw [hfirst, hrest] at h
        cases h

theorem faultsPlain_loopItems (s : Store) (pairs : Bool) (v : Value) :
    FaultsPlain (v.loopItems s pairs) := by
  have each : ∀ vs : List Value, FaultsPlain
      (if pairs then vs.mapM (Value.pair? s) else .ok (vs.map fun v => ⟨v, none⟩)) := by
    intro vs
    split
    · exact faultsPlain_mapM (faultsPlain_pair? s) vs
    · exact faultsPlain_ok _
  unfold Value.loopItems
  cases v with
  | map r => exact faultsPlain_ok _
  | array r => exact each _
  | tuple items => exact each _
  | string content => exact each _
  | _ => exact faultsPlain_error nofun

theorem faultsPlain_apply (s : Store) (b : Builtin) (args : List Value) :
    FaultsPlain (b.apply s args) := by
  unfold Builtin.apply
  split
  · exact faultsPlain_ok _
  · split
    · exact faultsPlain_ok _
    · exact faultsPlain_error nofun
  · exact faultsPlain_error nofun

end Results

/-! ## Errors of work -/

section Work

variable {σ α β : Type}

theorem failsFresh_pure (a : α) : FailsFresh (pure a : EStateM Stop σ α) := by
  rintro m e n ⟨⟩

theorem failsFresh_modifyGet (f : σ → α × σ) : FailsFresh (modifyGet f : EStateM Stop σ α) := by
  rintro m e n ⟨⟩

theorem failsFresh_modify (f : σ → σ) : FailsFresh (modify f : EStateM Stop σ Unit) :=
  failsFresh_modifyGet _

theorem failsFresh_get : FailsFresh (get : EStateM Stop σ σ) := by
  rintro m e n ⟨⟩

theorem failsFresh_fault {fault : EvalFault} (h : fault.Plain) :
    FailsFresh (throw (.ofFault fault) : EStateM Stop σ α) := by
  rintro m e n ⟨⟩
  exact ⟨rfl, rfl, h⟩

theorem failsFresh_bind {w : EStateM Stop σ α} {f : α → EStateM Stop σ β} (hw : FailsFresh w)
    (hf : ∀ a, FailsFresh (f a)) : FailsFresh (w >>= f) := by
  intro m e n h
  simp only [bind, EStateM.bind] at h
  split at h
  · exact hf _ _ _ _ h
  · next hr =>
    cases h
    exact hw _ _ _ hr

end Work

namespace StoreM

theorem failsFresh_ofSettled {α : Type} (a : Settled α) : FailsFresh (ofSettled a : StoreM α) := by
  cases a with
  | some a => exact failsFresh_pure a
  | none => rintro m e n ⟨⟩

theorem failsFresh_binary (op : BinaryOp) (l r : Value) : FailsFresh (op.apply l r) := by
  refine failsFresh_bind failsFresh_get fun s => ?_
  split
  · exact failsFresh_bind (failsFresh_ofSettled _) fun _ => failsFresh_pure _
  split
  · exact failsFresh_bind (failsFresh_ofSettled _) fun _ => failsFresh_pure _
  cases op.joined? l r with
  | some refs => exact failsFresh_modifyGet _
  | none =>
    have hplain := faultsPlain_onScalars op l r
    cases hscalars : op.onScalars l r with
    | ok v => exact failsFresh_pure v
    | error fault => exact failsFresh_fault (hplain fault hscalars)

theorem failsFresh_unary (op : UnaryOp) (v : Value) : FailsFresh (op.apply v) := by
  unfold UnaryOp.apply
  split
  · exact failsFresh_bind failsFresh_get fun _ => failsFresh_pure _
  · split
    · exact failsFresh_pure _
    · exact failsFresh_fault nofun
  · exact failsFresh_pure _
  · exact failsFresh_fault nofun

theorem failsFresh_itemAt (items : List Value) (i : Int64) : FailsFresh (itemAt items i) := by
  unfold itemAt
  split
  · exact failsFresh_pure _
  · exact failsFresh_fault nofun

theorem failsFresh_index (t i : Value) : FailsFresh (t.index i) := by
  refine failsFresh_bind failsFresh_get fun s => ?_
  split
  · exact failsFresh_itemAt _ _
  · exact failsFresh_itemAt _ _
  · exact failsFresh_itemAt _ _
  · refine failsFresh_bind (failsFresh_ofSettled _) fun found => ?_
    cases found with
    | some v => exact failsFresh_pure v
    | none => exact failsFresh_fault nofun
  · exact failsFresh_fault nofun

theorem failsFresh_assignIndex (t i v : Value) : FailsFresh (t.assignIndex i v) := by
  unfold Value.assignIndex
  split
  · next r n =>
    refine failsFresh_bind failsFresh_get fun s => ?_
    dsimp only
    cases placeOf? n (s.items r).length with
    | some place => exact failsFresh_modify _
    | none => exact failsFresh_fault nofun
  · exact failsFresh_fault nofun
  · refine failsFresh_bind failsFresh_get fun s => ?_
    refine failsFresh_bind (failsFresh_ofSettled _) fun place => ?_
    cases place <;> exact failsFresh_modify _
  · exact failsFresh_fault nofun
  · exact failsFresh_fault nofun

end StoreM

namespace Eval

theorem failsFresh_onStore {α : Type} {w : StoreM α} (h : FailsFresh w) : FailsFresh (onStore w) := by
  intro m e n hrun
  simp only [onStore] at hrun
  split at hrun
  · cases hrun
  · next hw =>
    cases hrun
    exact h _ _ _ hw

theorem failsFresh_ofExcept {α : Type} {r : Except EvalFault α} (h : FaultsPlain r) :
    FailsFresh (ofExcept r : Eval α) := by
  cases r with
  | ok a => exact failsFresh_pure a
  | error fault => exact failsFresh_fault (h fault rfl)

theorem failsFresh_nameValue (x : String) : FailsFresh (nameValue x) := by
  refine failsFresh_bind failsFresh_get fun m => ?_
  split
  · exact failsFresh_pure _
  · exact failsFresh_fault nofun
  · exact failsFresh_fault nofun

theorem failsFresh_deleteName (x : String) : FailsFresh (deleteName x) := by
  refine failsFresh_bind (failsFresh_modifyGet _) fun removed => ?_
  split
  · exact failsFresh_pure _
  · exact failsFresh_fault nofun

theorem failsFresh_callBuiltin (b : Builtin) (args : List Value) : FailsFresh (callBuiltin b args) := by
  refine failsFresh_bind failsFresh_get fun m => ?_
  refine failsFresh_bind (failsFresh_ofExcept (faultsPlain_apply _ b args)) fun answered => ?_
  exact failsFresh_bind (failsFresh_modify _) fun _ => failsFresh_pure _

theorem failsFresh_addEntry (entries : Entries) (key value : Value) :
    FailsFresh (addEntry entries key value) :=
  failsFresh_bind failsFresh_get fun _ => failsFresh_onStore (StoreM.failsFresh_ofSettled _)

end Eval

end Nikl
