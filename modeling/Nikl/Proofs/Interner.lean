import Nikl.Interner

/-
Numbers for texts. The two sides of a table are inverse to each other (`Inverse`), which every new number
keeps up; a table only grows, and what it has numbered keeps its number; no text has two numbers. So while
a table grows, comparing numbers stays the same as comparing texts (`names_iff`).
-/

set_option autoImplicit false

namespace Nikl.Interner

variable {table later : Interner} {n k : Name} {x y : String}

/-- A number stands for a text. -/
def Names (table : Interner) (n : Name) (x : String) : Prop := table.texts[n.index]? = some x

/-- The two sides of a table are inverse to each other: a text is found under the number that stands for
it, and under no other. -/
def Inverse (table : Interner) : Prop := ∀ x n, table.find? x = some n ↔ table.Names n x

/-- What one table has numbered, another has numbered the same. -/
def Extends (table later : Interner) : Prop := ∀ n x, table.Names n x → later.Names n x

theorem Names.text_eq (h : table.Names n x) (h' : table.Names n y) : x = y :=
  Option.some.inj (h.symm.trans h')

theorem Names.lookup_eq (h : table.Names n x) : table.lookup n = x := by
  rw [lookup, Array.getD_eq_getD_getElem?, h]
  rfl

/-- What `Inverse` says of the two sides of a table as they are kept. -/
theorem Inverse.lookup_eq_some_iff (hinv : table.Inverse) {i : Nat} :
    table.numbers.lookup x = some i ↔ table.texts[i]? = some x := by
  have h := hinv x ⟨i⟩
  rw [find?, Option.map_eq_some_iff] at h
  rw [← show table.Names ⟨i⟩ x ↔ table.texts[i]? = some x from Iff.rfl, ← h]
  simp

/-- Numbers are the same just when the texts are. -/
theorem names_iff (hinv : table.Inverse) (h : table.Names n x) (h' : table.Names k y) :
    n = k ↔ x = y := by
  constructor
  · rintro rfl
    exact h.text_eq h'
  · rintro rfl
    exact Option.some.inj (((hinv x n).2 h).symm.trans ((hinv x k).2 h'))

theorem Extends.refl (table : Interner) : table.Extends table := fun _ _ h => h

theorem Extends.trans {last : Interner} (h : table.Extends later) (h' : later.Extends last) :
    table.Extends last :=
  fun n x hn => h' n x (h n x hn)

/-! ## One more text -/

theorem names_add : (table.add x).2.Names n y ↔ table.Names n y ∨ n = ⟨table.size⟩ ∧ y = x := by
  have hnew : table.texts[table.size]? = none := Array.getElem?_eq_none (Nat.le_refl _)
  rcases n with ⟨i⟩
  rw [Names, Names, add, Array.getElem?_push, Name.mk.injEq]
  -- the new number was not given out before
  by_cases hi : i = table.texts.size
  · subst hi
    rw [if_pos rfl]
    simp_all [size, eq_comm]
  · rw [if_neg hi]
    simp [size, hi]

theorem find?_add : (table.add x).2.find? y = if y = x then some ⟨table.size⟩ else table.find? y := by
  rw [find?, add, List.lookup_cons]
  by_cases h : y = x
  · simp [h]
  · rw [if_neg h, beq_eq_false_iff_ne.2 h]
    rfl

theorem add_extends (table : Interner) (x : String) : table.Extends (table.add x).2 :=
  fun _ _ h => names_add.2 (.inl h)

/-- **A text that has no number may be given the next one**: both sides of the table learn it. -/
theorem Inverse.add (hinv : table.Inverse) (hnew : table.find? x = none) :
    (table.add x).2.Inverse := by
  intro y n
  rw [find?_add, names_add]
  by_cases hy : y = x
  · subst hy
    have hnone : ¬ table.Names n y := fun h => by
      rw [← hinv y n, hnew] at h
      cases h
    rw [if_pos rfl, Option.some.injEq]
    simp [hnone, eq_comm]
  · rw [if_neg hy, hinv y n]
    simp [hy]

/-- The table that knows the empty text is one that knew nothing before. -/
theorem inverse_empty : empty.Inverse := by
  have hblank : Inverse ⟨[], #[]⟩ := fun x n => by simp [find?, Names]
  exact hblank.add (x := "") rfl

/-- A text is looked for twice, and the second time decides. -/
theorem intern_eq_addMissing (table : Interner) (x : String) : table.intern x = table.addMissing x := by
  unfold intern addMissing
  cases table.find? x <;> rfl

/-- A text keeps the number it has; one that has none is given the next. -/
theorem intern_cases (table : Interner) (x : String) :
    (∃ n, table.find? x = some n ∧ table.intern x = (n, table)) ∨
      table.find? x = none ∧ table.intern x = table.add x := by
  rw [intern_eq_addMissing, addMissing]
  cases hfind : table.find? x with
  | some n => exact .inl ⟨n, rfl, rfl⟩
  | none => exact .inr ⟨rfl, rfl⟩

theorem intern_extends (table : Interner) (x : String) : table.Extends (table.intern x).2 := by
  obtain ⟨n, -, hintern⟩ | ⟨-, hintern⟩ := intern_cases table x <;> rw [hintern]
  · exact Extends.refl table
  · exact add_extends table x

theorem Inverse.intern_names (hinv : table.Inverse) (x : String) :
    (table.intern x).2.Names (table.intern x).1 x := by
  obtain ⟨n, hfind, hintern⟩ | ⟨-, hintern⟩ := intern_cases table x <;> rw [hintern]
  · exact (hinv x n).1 hfind
  · exact names_add.2 (.inr ⟨rfl, rfl⟩)

theorem Inverse.intern (hinv : table.Inverse) (x : String) : (table.intern x).2.Inverse := by
  obtain ⟨n, -, hintern⟩ | ⟨hnew, hintern⟩ := intern_cases table x <;> rw [hintern]
  · exact hinv
  · exact hinv.add hnew

theorem internAll_extends (table : Interner) (texts : List String) :
    table.Extends (table.internAll texts) := by
  induction texts generalizing table with
  | nil => exact Extends.refl table
  | cons x rest ih => exact (intern_extends table x).trans (ih _)

/-! ## Tables that number no more texts -/

/-- Whatever text one table numbers, another one numbers too, perhaps in another order. -/
def Within (table other : Interner) : Prop := ∀ n x, table.Names n x → ∃ k, other.Names k x

namespace Within

variable {other : Interner}

theorem refl (table : Interner) : table.Within table := fun n _ h => ⟨n, h⟩

theorem grow (h : table.Within other) (hgrown : other.Extends later) : table.Within later := by
  intro n y hn
  obtain ⟨k, hk⟩ := h n y hn
  exact ⟨k, hgrown k y hk⟩

/-- A text that both number anew is no difference. -/
theorem intern (h : table.Within other) (hinv : other.Inverse) (x : String) :
    (table.intern x).2.Within (other.intern x).2 := by
  have hold := h.grow (intern_extends other x)
  obtain ⟨n, -, hintern⟩ | ⟨-, hintern⟩ := intern_cases table x <;> rw [hintern]
  · exact hold
  · intro n y hn
    obtain hn | ⟨-, rfl⟩ := names_add.1 hn
    · exact hold n y hn
    · exact ⟨_, hinv.intern_names y⟩

end Within

end Nikl.Interner
