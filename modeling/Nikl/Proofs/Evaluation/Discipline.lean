import Nikl.Proofs.Evaluation.Regime

/-
Disciplines: regimes in which any function may be made whose statements may be carried out. So all that
is said of a function is said of the statements of its body, and no other definition has to be known.
-/

set_option autoImplicit false

namespace Nikl

/-- What a program keeps of its values, its statements and its collections. -/
structure Discipline where
  /-- What holds of the collections at every moment. -/
  Sound : Store → Prop
  /-- Which values there may be, with the collections as they are. -/
  Fit : Store → Value → Prop
  /-- How the collections are related to those at every later moment. -/
  Later : Store → Store → Prop
  /-- Which statements may be carried out. -/
  Allows : Stmt → Prop
  refl (s : Store) : Later s s
  trans {s t u : Store} : Later s t → Later t u → Later s u
  mono {s t : Store} {v : Value} : Later s t → Fit s v → Fit t v
  scalar {s : Store} {v : Value} : v.IsScalar → Fit s v
  builtin (s : Store) (b : Builtin) : Fit s (.builtin b)
  tuple {s : Store} {vs : List Value} : (∀ v ∈ vs, Fit s v) → Fit s (.tuple vs)
  function {s : Store} {f : Closure} :
    Fit s (.function f) ↔ ∀ t ∈ f.definition.body.stmts, Allows t
  held {s : Store} {v w : Value} : Sound s → Fit s v → w ∈ v.held s → Fit s w
  make {s : Store} {c : Cell} : Sound s → (∀ v ∈ c.contents, Fit s v) →
    Sound (s.push c) ∧ Later s (s.push c) ∧ Fit (s.push c) (c.at s.next)
  write {s s' : Store} {e i o : Expr} {span : Span} {t key value : Value} :
    Allows (.assignIndex e i o span) → Sound s → Fit s t → Fit s key → Fit s value →
      s.Writes key value t s' → Sound s' ∧ Later s s'
  part {s t : Stmt} : Allows s → .stmt t ∈ (Node.stmt s).children → Allows t

namespace Discipline

variable (D : Discipline)

/-- A state keeps a discipline: the collections are sound, and only fit values are bound. -/
def Keeps (m : Machine) : Prop := D.Sound m.store ∧ m.env.BindsOnly (D.Fit m.store)

/-- Statements that may be carried out. -/
def AllowsAll (ss : List Stmt) : Prop := ∀ s ∈ ss, D.Allows s

/-- The regime of a discipline. -/
def regime : Regime where
  Sound := D.Sound
  Fit := D.Fit
  Later := D.Later
  Allows := D.Allows
  Makes d := D.AllowsAll d.body.stmts
  refl := D.refl
  trans := D.trans
  mono := D.mono
  scalar := D.scalar
  builtin := D.builtin
  tuple := D.tuple
  function := D.function
  held := D.held
  make := D.make
  write := D.write
  part := D.part
  made hs _ ht := D.part hs (List.mem_map_of_mem ht)
  body h := h

variable {D}

/-- A new interpreter keeps every discipline. -/
theorem keeps_ofLimit (D : Discipline) (h : D.Sound {}) (limit : Nat) : D.Keeps (.ofLimit limit) :=
  D.regime.keeps_ofLimit h limit

/-- A legal action keeps the discipline. -/
theorem Keeps.act {m : Machine} (h : D.Keeps m) {α β : Type} {j : Job α} {start : Machine}
    {a : Action β} (ha : D.regime.Legal j start m a) :
    D.Keeps (Machine.host.act a m).2 ∧ D.Later m.store (Machine.host.act a m).2.store :=
  Regime.Keeps.act (R := D.regime) h ha

variable {m : Machine} {program : Block} (hm : D.Keeps m) (hprogram : D.AllowsAll program.stmts)

include hm hprogram

/-- A program that may be carried out keeps the discipline all the while. -/
theorem during {n : Machine} (h : m.During program n) : D.Keeps n ∧ D.Later m.store n.store :=
  Regime.during (R := D.regime) hm hprogram h

/-- All actions of a program that may be carried out are legal. -/
theorem legal {α β : Type} {j : Job α} {start k : Machine} {a : Action β} {next : β → Script α}
    (h : (Job.stmts program.stmts).Passes m ⟨j, start, .act a next, k⟩) :
    D.Keeps k ∧ D.regime.Legal j start k a :=
  Regime.legal (R := D.regime) hm hprogram h

end Discipline

end Nikl
