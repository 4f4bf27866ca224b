import Mathlib.Data.Finset.Card
import Mathlib.Data.List.Forall2
import Nikl.Proofs.Interner

/-
What a table is after any texts were numbered in turn. It holds the texts in the order in which they first
came, behind the empty one (`Reached`); one more text keeps that up, and so does any number of them. As
long as fewer texts differ than there are numbers, one is left for each (`numbering_is_stable`).
-/

set_option autoImplicit false

namespace Nikl.Interner

variable {table : Interner} {n : Name} {x : String} {seen : List String}

/-- A text that came before adds nothing to the order of first appearance. -/
theorem eraseDups_concat_of_mem (h : x ∈ seen) : (seen ++ [x]).eraseDups = seen.eraseDups := by
  rw [List.eraseDups_append, List.removeAll, List.filter_singleton, List.elem_eq_true_of_mem h]
  exact List.append_nil _

/-- A text that did not come before is the last in the order of first appearance. -/
theorem eraseDups_concat_of_not_mem (h : x ∉ seen) :
    (seen ++ [x]).eraseDups = seen.eraseDups ++ [x] := by
  have helem : seen.elem x = false := by simpa using h
  rw [List.eraseDups_append, List.removeAll, List.filter_singleton, helem]
  rfl

theorem toFinset_eraseDups (texts : List String) : texts.eraseDups.toFinset = texts.toFinset := by
  ext x
  rw [List.mem_toFinset, List.mem_toFinset, List.mem_eraseDups]

/-- A table of the texts `seen`, in the order in which they first came, with the empty text before all. -/
structure Reached (seen : List String) (table : Interner) : Prop where
  inverse : table.Inverse
  order : table.texts.toList = ("" :: seen).eraseDups

theorem reached_empty : Reached [] empty := ⟨inverse_empty, rfl⟩

/-- No text stands twice in a table whose sides are inverse to each other. -/
theorem Inverse.nodup (hinv : table.Inverse) : table.texts.toList.Nodup := by
  rw [List.nodup_iff_getElem?_ne_getElem?]
  intro i j hij hj heq
  rw [Array.getElem?_toList, Array.getElem?_toList] at heq
  have hx : table.Names ⟨j⟩ table.texts.toList[j] := by
    rw [Names, ← Array.getElem?_toList]
    exact List.getElem?_eq_getElem hj
  have hsame : (⟨i⟩ : Name) = ⟨j⟩ := (names_iff hinv (heq.trans hx) hx).2 rfl
  exact absurd (congrArg Name.index hsame) (Nat.ne_of_lt hij)

/-- A table whose texts another one numbers too has given out no more numbers. -/
theorem Within.size_le {other : Interner} (h : table.Within other) (hinv : table.Inverse) :
    table.size ≤ other.size := by
  have hsub : table.texts.toList ⊆ other.texts.toList := by
    intro x hx
    obtain ⟨i, hi⟩ := List.mem_iff_getElem?.1 hx
    rw [Array.getElem?_toList] at hi
    obtain ⟨k, hk⟩ := h ⟨i⟩ x hi
    rw [Names, ← Array.getElem?_toList] at hk
    exact List.mem_iff_getElem?.2 ⟨_, hk⟩
  have hlength := (hinv.nodup.subperm hsub).length_le
  rwa [Array.length_toList, Array.length_toList] at hlength

/-- The empty text counts as one, whether it is among some texts or not. -/
theorem card_cons_empty (texts : List String) :
    ("" :: texts).toFinset.card = 1 + (texts.toFinset.erase "").card := by
  rw [List.toFinset_cons, ← Finset.card_erase_add_one (Finset.mem_insert_self "" _),
    Finset.erase_insert_eq_erase, Nat.add_comm]

namespace Reached

/-- The texts without a number are those that did not come yet. -/
theorem find?_eq_none_iff (h : Reached seen table) : table.find? x = none ↔ x ∉ "" :: seen := by
  rw [← List.mem_eraseDups, ← h.order, Array.mem_toList_iff, Array.mem_iff_getElem?,
    Option.eq_none_iff_forall_ne_some]
  constructor
  · rintro hnone ⟨i, hi⟩
    exact hnone ⟨i⟩ ((h.inverse x ⟨i⟩).2 hi)
  · intro hnot n hn
    exact hnot ⟨n.index, (h.inverse x n).1 hn⟩

/-- There are as many numbers as different texts. -/
theorem size_eq (h : Reached seen table) : table.size = ("" :: seen).toFinset.card := by
  rw [← toFinset_eraseDups, ← h.order, List.toFinset_card_of_nodup h.inverse.nodup,
    Array.length_toList, size]

/-- **One more text** comes behind the others, unless it came before. -/
theorem intern (h : Reached seen table) (x : String) : Reached (seen ++ [x]) (table.intern x).2 := by
  refine ⟨h.inverse.intern x, ?_⟩
  obtain ⟨n, hfind, hintern⟩ | ⟨hnew, hintern⟩ := intern_cases table x <;>
    rw [hintern, ← List.cons_append]
  · have hold : x ∈ "" :: seen := by
      rw [← Decidable.not_not (p := x ∈ "" :: seen), ← h.find?_eq_none_iff, hfind]
      exact Option.some_ne_none n
    rw [eraseDups_concat_of_mem hold]
    exact h.order
  · rw [eraseDups_concat_of_not_mem (h.find?_eq_none_iff.1 hnew), ← h.order]
    exact Array.toList_push

/-- While fewer than `capacity` texts differ, there is a number left. -/
theorem intern?_eq (h : Reached seen table) (hfew : (seen ++ [x]).toFinset.card < capacity) :
    table.intern? x = some (table.intern x) := by
  rw [intern?, if_pos]
  rw [Bool.or_eq_true, decide_eq_true_iff]
  cases hfind : table.find? x with
  | some n => exact .inl rfl
  | none =>
    -- a new text is one more than those that came, and the empty text at most one more than they
    right
    have hnew := List.not_mem_of_not_mem_cons (h.find?_eq_none_iff.1 hfind)
    have hone : (seen ++ [x]).toFinset.card = seen.toFinset.card + 1 := by
      rw [List.toFinset_append, List.toFinset_cons, List.toFinset_nil, Finset.union_insert,
        Finset.union_empty, Finset.card_insert_of_notMem (by simpa using hnew)]
    have hempty : table.size ≤ seen.toFinset.card + 1 := by
      rw [h.size_eq, List.toFinset_cons]
      exact Finset.card_insert_le _ _
    omega

/-- **Any number of texts in turn.** -/
theorem internAll (h : Reached seen table) (texts : List String) :
    Reached (seen ++ texts) (table.internAll texts) := by
  induction texts generalizing seen table with
  | nil => rwa [List.append_nil]
  | cons x rest ih =>
    rw [List.append_cons]
    exact ih (h.intern x)

/-- Each of some texts is given a number, which still stands for it at the end. -/
theorem internEach? (h : Reached seen table) (texts : List String)
    (hfew : (seen ++ texts).toFinset.card < capacity) :
    ∃ names, table.internEach? texts = some (names, table.internAll texts) ∧
      List.Forall₂ (table.internAll texts).Names names texts := by
  -- text by text, what is still to be numbered becomes what has been
  induction texts generalizing seen table with
  | nil => exact ⟨[], rfl, .nil⟩
  | cons x rest ih =>
    rw [List.append_cons] at hfew
    have hroom : (seen ++ [x]).toFinset.card < capacity := by
      refine Nat.lt_of_le_of_lt (Finset.card_le_card ?_) hfew
      rw [List.toFinset_append (l := seen ++ [x])]
      exact Finset.subset_union_left
    obtain ⟨names, hrest, hnames⟩ := ih (h.intern x) hfew
    have hstill := internAll_extends (table.intern x).2 rest _ _ (h.inverse.intern_names x)
    refine ⟨(table.intern x).1 :: names, ?_, .cons hstill hnames⟩
    rw [Interner.internEach?, h.intern?_eq hroom]
    show ((table.intern x).2.internEach? rest >>= _) = _
    rw [hrest]
    rfl

/-- The number of a text that is new is the count of the texts before it, the empty one among them. -/
theorem index_of_new {front back : List String} (h : Reached (front ++ x :: back) table)
    (hnew : x ∉ "" :: front) (hn : table.Names n x) :
    n.index = 1 + (front.toFinset.erase "").card := by
  have horder : table.texts.toList =
      ("" :: front).eraseDups ++ (x :: (back.removeAll ("" :: front))).eraseDups := by
    have helem : ("" :: front).elem x = false := by simpa using hnew
    rw [h.order, ← List.cons_append, List.eraseDups_append, List.removeAll, List.filter_cons, helem]
    rfl
  have hplace : table.Names ⟨("" :: front).eraseDups.length⟩ x := by
    rw [Names, ← Array.getElem?_toList, horder, List.getElem?_append_right (Nat.le_refl _),
      Nat.sub_self, List.eraseDups_cons]
    rfl
  have hfront : ("" :: front).eraseDups.Nodup := by
    have hall := h.inverse.nodup
    rw [horder] at hall
    exact (List.nodup_append.1 hall).1
  rw [(names_iff h.inverse hn hplace).2 rfl, ← List.toFinset_card_of_nodup hfront, toFinset_eraseDups,
    card_cons_empty]

end Reached

/-- A text that has a number is given that number, and the table stays as it is. -/
theorem Names.intern?_eq (hinv : table.Inverse) (h : table.Names n x) :
    table.intern? x = some (n, table) := by
  have hfind := (hinv x n).2 h
  rw [intern?, intern, hfind]
  rfl

/-- The number that was given to a text among others stands for it. -/
theorem names_of_middle {names : List Name} {front back : List String}
    (h : List.Forall₂ table.Names names (front ++ x :: back)) :
    ∃ n, names[front.length]? = some n ∧ table.Names n x := by
  induction front generalizing names with
  | nil =>
    cases h with
    | cons hn _ => exact ⟨_, rfl, hn⟩
  | cons y front ih =>
    cases h with
    | cons _ hrest => exact ih hrest

/-! ## The main statement -/

/-- What `table` is and what the numbers `names` are when the texts `texts` were numbered in turn, from a
table that knew only the empty text. -/
structure Numbering (texts : List String) (names : List Name) (table : Interner) : Prop where
  /-- The two sides of the table are inverse to each other. -/
  inverse (x : String) (i : Nat) : table.numbers.lookup x = some i ↔ table.texts[i]? = some x
  zero : table.texts[0]? = some ""
  /-- There is a number for the empty text and one for each other text. -/
  size : table.size = 1 + (texts.toFinset.erase "").card
  /-- Texts stand in the order in which they first came. -/
  order : table.texts.toList = ("" :: texts).eraseDups
  length : names.length = texts.length
  /-- A text that is new is given the next number, the count of the texts that have one. -/
  consecutive (front back : List String) (x : String) : texts = front ++ x :: back →
    x ∉ "" :: front → names[front.length]? = some ⟨1 + (front.toFinset.erase "").card⟩
  /-- Whatever came behind a text, its number still stands for it, and it would be given that number
  again. -/
  stable (n : Name) (x : String) : (n, x) ∈ names.zip texts →
    table.lookup n = x ∧ table.intern? x = some (n, table)
  /-- Numbers are the same just when the texts are. -/
  same (n k : Name) (x y : String) : (n, x) ∈ names.zip texts → (k, y) ∈ names.zip texts →
    (n = k ↔ x = y)

/-- **Numbering is a stable bijection.** While fewer texts differ than there are numbers of 32 bits, each
is given a number, in the order of first appearance; the two sides of the table stay inverse to each other,
and a number stands for one text for good. -/
theorem numbering_is_stable (texts : List String) (hfew : texts.toFinset.card < capacity) :
    ∃ names, empty.internEach? texts = some (names, empty.internAll texts) ∧
      Numbering texts names (empty.internAll texts) := by
  obtain ⟨names, hrun, hnames⟩ := reached_empty.internEach? texts hfew
  obtain ⟨hlength, hpairs⟩ := List.forall₂_iff_zip.1 hnames
  have hreached := reached_empty.internAll texts
  rw [List.nil_append] at hreached
  have hinv := hreached.inverse
  refine ⟨names, hrun, ?_⟩
  exact
    { inverse := fun x i => hinv.lookup_eq_some_iff
      zero := internAll_extends empty texts ⟨0⟩ "" rfl
      size := hreached.size_eq.trans (card_cons_empty texts)
      order := hreached.order
      length := hlength
      consecutive := by
        rintro front back x rfl hnew
        obtain ⟨n, hplace, hn⟩ := names_of_middle hnames
        rw [hplace, ← hreached.index_of_new hnew hn]
      stable := fun n x hmem => ⟨(hpairs hmem).lookup_eq, (hpairs hmem).intern?_eq hinv⟩
      same := fun n k x y hx hy => names_iff hinv (hpairs hx) (hpairs hy) }

/-- Texts that come again, and the empty one among them. -/
def someTexts : List String := ["x", "len", "x", "", "y", "len"]

theorem numbering_is_stable_someTexts :
    someTexts.toFinset.card < capacity ∧
      empty.internEach? someTexts =
        some ([⟨1⟩, ⟨2⟩, ⟨1⟩, ⟨0⟩, ⟨3⟩, ⟨2⟩],
          ⟨[("y", 3), ("len", 2), ("x", 1), ("", 0)], #["", "x", "len", "y"]⟩) ∧
      Numbering someTexts [⟨1⟩, ⟨2⟩, ⟨1⟩, ⟨0⟩, ⟨3⟩, ⟨2⟩]
        ⟨[("y", 3), ("len", 2), ("x", 1), ("", 0)], #["", "x", "len", "y"]⟩ := by
  have hfew : someTexts.toFinset.card < capacity :=
    Nat.lt_of_le_of_lt (List.toFinset_card_le someTexts) (by decide)
  have hrun : empty.internEach? someTexts =
      some ([⟨1⟩, ⟨2⟩, ⟨1⟩, ⟨0⟩, ⟨3⟩, ⟨2⟩],
        ⟨[("y", 3), ("len", 2), ("x", 1), ("", 0)], #["", "x", "len", "y"]⟩) := by decide
  obtain ⟨names, hrun', hnumbering⟩ := numbering_is_stable someTexts hfew
  rw [hrun] at hrun'
  obtain ⟨rfl, htable⟩ := Prod.mk.inj (Option.some.inj hrun')
  rw [← htable] at hnumbering
  exact ⟨hfew, hrun, hnumbering⟩

end Nikl.Interner
