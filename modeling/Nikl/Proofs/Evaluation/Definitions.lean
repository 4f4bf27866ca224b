import Nikl.Proofs.Evaluation.Regime
import Nikl.Proofs.Syntax.OwnNodes

/-
Where functions come from. A function that a program comes by has been made from a definition that was
carried out, in this program or in one before it: it may have been bound, put into collections, captured
and handed over since, but there is no other way to make one. So what is known of the definitions is known
of whatever function is called.
-/

set_option autoImplicit false

namespace Nikl

/-- The functions that a value is, or has in its tuples, are made from such definitions. -/
def Value.MadeFrom (K : FunctionDef → Prop) (v : Value) : Prop :=
  v.Throughout fun w => ∀ f, w = .function f → K f.definition

/-- The functions that are defined anywhere in a statement are such functions. -/
def Stmt.DefinesOnly (K : FunctionDef → Prop) (s : Stmt) : Prop :=
  ∀ n d, Node.Within (.stmt s) n → n.Defines d → K d

/-- With a function, all those that are defined in its body are such functions. -/
def DefinitionsClosed (K : FunctionDef → Prop) : Prop := ∀ d d', K d → d.body.Defines d' → K d'

variable {K : FunctionDef → Prop} {s : Store} {v : Value}

theorem Value.IsScalar.madeFrom (h : v.IsScalar) : v.MadeFrom K := by
  refine h.throughout fun f hf => ?_
  rw [hf] at h
  exact h.elim

/-- Writing to an item puts nothing into a collection but the key and the value. -/
theorem Store.HoldsOnly.write {P : Value → Prop} {key value target : Value} {t : Store}
    (hs : s.HoldsOnly P) (htarget : ∀ w ∈ target.held s, P w) (hkey : P key) (hvalue : P value)
    (h : s.Writes key value target t) : t.HoldsOnly P := by
  have put_any : ∀ (r : Ref) (c : Cell), (∀ w ∈ c.contents, P w) → (s.put r c).HoldsOnly P := by
    intro r c hc
    by_cases hr : r.index < s.size
    · exact hs.put hr hc
    · -- where there is no collection nothing is written
      rwa [Store.put_of_size_le (Nat.le_of_not_lt hr)]
  have entries_of : ∀ r, (∀ w ∈ (Value.map r).held s, P w) → Entries.All P (s.entries r) :=
    fun r hheld e he => ⟨hheld _ (Value.held_key he), hheld _ (Value.held_value he)⟩
  cases h with
  | item hplace =>
    refine put_any _ _ fun w hw => ?_
    rcases List.mem_or_eq_of_mem_set hw with hw | rfl
    · exact htarget w hw
    · exact hvalue
  | replace place =>
    exact put_any _ _ (Entries.All.iff_contents.1 ((entries_of _ htarget).replaceAt hvalue place))
  | append =>
    exact put_any _ _ (Entries.All.iff_contents.1 ((entries_of _ htarget).append hkey hvalue))

/-- What every program keeps of its functions, whose definitions are all known. -/
def knowing (K : FunctionDef → Prop) (hK : DefinitionsClosed K) : Regime where
  Sound s := s.HoldsOnly (Value.MadeFrom K)
  Fit _ v := v.MadeFrom K
  Later _ _ := True
  Allows := Stmt.DefinesOnly K
  Makes := K
  refl _ := trivial
  trans _ _ := trivial
  mono _ hv := hv
  scalar h := h.madeFrom
  builtin _ _ := nofun
  tuple h := Value.throughout_tuple.2 h
  function := ⟨fun h => h _ rfl, fun h _ hf => Value.function.inj hf ▸ h⟩
  held hs hv hw := Value.Throughout.held hs hv hw
  make {s c} hs hc := ⟨hs.push hc, trivial, by cases c <;> exact nofun⟩
  write _ hs ht hkey hvalue h :=
    ⟨hs.write (fun _ hw => Value.Throughout.held hs ht hw) hkey hvalue h, trivial⟩
  part hs ht n d hn hd := hs n d (Node.within_iff.2 (.inr ⟨_, ht, hn⟩)) hd
  made hs := hs _ _ .root ⟨_, rfl⟩
  body hd t ht n d' hn hd' := hK _ d' hd ⟨n, ⟨t, ht, hn⟩, hd'⟩

/-- What is defined in the body of a function of a program is defined in the program. -/
theorem Block.definitionsClosed (b : Block) : DefinitionsClosed b.Defines := fun _ _ => Defines.inner

end Nikl
