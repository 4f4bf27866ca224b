import Nikl.Interpreter
import Nikl.Proofs.Interner
import Nikl.Proofs.Syntax.Relabeling

/-
The numbers that a table knows. All numbers that a program works with were given out by its table, and
these can be read in two ways: as the numbers that they are, and as the texts that they stand for. Both
ways no two of them are the same (`Known.number`, `Known.text`), so what holds known numbers stands for
what holds numbers, and for what holds texts. A table that grows knows what it knew before (`Known.into`),
and reads it the same.
-/

set_option autoImplicit false

namespace Nikl.Interner

/-- The numbers that a table has given out. -/
def Known (table : Interner) : Type := { n : Name // n.index < table.size }

namespace Known

variable {table later : Interner}

instance : DecidableEq (Known table) := inferInstanceAs (DecidableEq { _n : Name // _ })

instance : Naming (Known table) := ⟨fun n => table.lookup n.1⟩

/-- A known number stands for the text that is looked up under it. -/
theorem names (n : Known table) : table.Names n.1 (table.lookup n.1) := by
  rw [Names, lookup, Array.getD_eq_getD_getElem?, Array.getElem?_eq_getElem n.2]
  rfl

/-- A number that stands for a text is known. -/
def ofNames {n : Name} {x : String} (h : table.Names n x) : Known table :=
  ⟨n, (Array.getElem?_eq_some_iff.1 h).1⟩

/-- A known number as a number. -/
def number (table : Interner) : Renaming (Known table) Name := ⟨Subtype.val, fun _ _ => Subtype.ext⟩

/-- A known number as the text that it stands for, which no other one does. -/
def text (hinv : table.Inverse) : Renaming (Known table) String where
  name n := table.lookup n.1
  injective n k h := Subtype.ext ((names_iff hinv n.names k.names).2 h)

/-- A known number, in a table that has grown. -/
def into (h : table.Extends later) : Renaming (Known table) (Known later) where
  name n := ofNames (h _ _ n.names)
  injective _ _ h := Subtype.ext (congrArg (fun n : Known later => n.1) h)

theorem keepsText_number (table : Interner) :
    @Renaming.KeepsText _ _ (number table) _ table.naming := fun _ => rfl

theorem keepsText_text (hinv : table.Inverse) : (text hinv).KeepsText := fun _ => rfl

/-- What was known before stands for its text. -/
theorem text_comp_into (h : table.Extends later) (hinv : table.Inverse) (hlater : later.Inverse) :
    (text hlater).name ∘ (into h).name = (text hinv).name :=
  funext fun n => (h _ _ n.names).lookup_eq

/-- What was known before has its number. -/
theorem into_trans_number (h : table.Extends later) :
    (Relabeling.ofNames (into h)).trans (.ofNames (number later)) = .ofNames (number table) := rfl

theorem into_trans_text (h : table.Extends later) (hinv : table.Inverse) (hlater : later.Inverse) :
    (Relabeling.ofNames (into h)).trans (.ofNames (text hlater)) = .ofNames (text hinv) :=
  Relabeling.ext (text_comp_into h hinv hlater) rfl

end Known
end Nikl.Interner
