import Mathlib.Data.List.Forall2
import Nikl.Value.Text

/-
Data: the trees that values without functions and cycles stand for. A value is a root into the store,
where two collections of the same contents are two collections; what it says, apart from that, is a
finite tree (`Describes`). How a value is written and what it is equal to depend on that tree alone, and
so does what reading its text again makes.

The budgets that the functions on values go down with are the number of collections in the store. They
are enough: the collections around a value are different ones, since each of them stands for a deeper
tree than those inside it (`Encloses`), and there are no more of them than the store has.
-/

set_option autoImplicit false

namespace Nikl

/-- What a value without functions and cycles says. -/
inductive Data where
  | int (value : Int64)
  | bool (value : Bool)
  | none
  | string (content : String)
  | tuple (items : List Data)
  | array (items : List Data)
  | map (entries : List (Data × Data))

/-- The greatest of some depths. -/
def deepest (depths : List Nat) : Nat := depths.foldr max 0

theorem deepest_le {depths : List Nat} {n : Nat} : deepest depths ≤ n ↔ ∀ k ∈ depths, k ≤ n := by
  induction depths with
  | nil => simp [deepest]
  | cons k rest ih =>
    have hcons : deepest (k :: rest) = max k (deepest rest) := rfl
    rw [hcons, Nat.max_le, ih, List.forall_mem_cons]

theorem le_deepest {depths : List Nat} {k : Nat} (h : k ∈ depths) : k ≤ deepest depths :=
  deepest_le.1 (Nat.le_refl _) k h

namespace Data

theorem sizeOf_key_lt {entries : List (Data × Data)} {e : Data × Data} (h : e ∈ entries) :
    sizeOf e.1 < sizeOf (map entries) := by
  have hlt := List.sizeOf_lt_of_mem h
  obtain ⟨k, v⟩ := e
  rw [Prod.mk.sizeOf_spec] at hlt
  rw [map.sizeOf_spec]
  show sizeOf k < _
  omega

theorem sizeOf_value_lt {entries : List (Data × Data)} {e : Data × Data} (h : e ∈ entries) :
    sizeOf e.2 < sizeOf (map entries) := by
  have hlt := List.sizeOf_lt_of_mem h
  obtain ⟨k, v⟩ := e
  rw [Prod.mk.sizeOf_spec] at hlt
  rw [map.sizeOf_spec]
  show sizeOf v < _
  omega

/-- A property of all data, from what is in it. -/
@[elab_as_elim]
theorem induct {P : Data → Prop} (int : ∀ n, P (.int n)) (bool : ∀ b, P (.bool b)) (none : P .none)
    (string : ∀ content, P (.string content))
    (tuple : ∀ items, (∀ d ∈ items, P d) → P (.tuple items))
    (array : ∀ items, (∀ d ∈ items, P d) → P (.array items))
    (map : ∀ entries, (∀ e ∈ entries, P e.1) → (∀ e ∈ entries, P e.2) → P (.map entries)) :
    (d : Data) → P d
  | .int n => int n
  | .bool b => bool b
  | .none => none
  | .string content => string content
  | .tuple items => tuple items fun d _ => induct int bool none string tuple array map d
  | .array items => array items fun d _ => induct int bool none string tuple array map d
  | .map entries =>
    map entries (fun e _ => induct int bool none string tuple array map e.1)
      (fun e _ => induct int bool none string tuple array map e.2)
decreasing_by
  all_goals first | exact sizeOf_key_lt ‹_› | exact sizeOf_value_lt ‹_› | decreasing_tactic

/-- How deep collections nest. -/
def depth : Data → Nat
  | .tuple items => deepest (items.map depth)
  | .array items => deepest (items.map depth) + 1
  | .map entries => deepest (entries.map fun e => max e.1.depth e.2.depth) + 1
  | _ => 0
decreasing_by
  all_goals first | exact sizeOf_key_lt ‹_› | exact sizeOf_value_lt ‹_› | decreasing_tactic

/-- How data is written. -/
def chars : Data → List Char
  | .int n => (toString n.toInt).toList
  | .bool b => if b then "True".toList else "False".toList
  | .none => "None".toList
  | .string content => Text.Quoted.write content.toList
  | .tuple items => Value.tupleText (items.map chars)
  | .array items => '[' :: Value.separated (items.map chars) ++ [']']
  | .map entries =>
    '\x7b' :: Value.separated (entries.map fun e => Value.entryText e.1.chars e.2.chars) ++ ['\x7d']
decreasing_by
  all_goals first | exact sizeOf_key_lt ‹_› | exact sizeOf_value_lt ‹_› | decreasing_tactic

/-! ## Depths of parts -/

theorem depth_le_tuple {items : List Data} {d : Data} (h : d ∈ items) :
    d.depth ≤ (tuple items).depth := by
  rw [depth]
  exact le_deepest (List.mem_map_of_mem h)

theorem depth_lt_array {items : List Data} {d : Data} (h : d ∈ items) :
    d.depth < (array items).depth := by
  rw [depth, Nat.lt_succ_iff]
  exact le_deepest (List.mem_map_of_mem h)

theorem depth_lt_map {entries : List (Data × Data)} {e : Data × Data} (h : e ∈ entries) :
    e.1.depth < (map entries).depth ∧ e.2.depth < (map entries).depth := by
  have hle := le_deepest (List.mem_map_of_mem (f := fun e : Data × Data => max e.1.depth e.2.depth) h)
  rw [depth]
  exact ⟨by omega, by omega⟩

end Data

/-! ## Data of values -/

open Data

mutual

/-- A value says what some data says, by what the store holds. -/
inductive Describes (s : Store) : Data → Value → Prop
  | int (n : Int64) : Describes s (.int n) (.int n)
  | bool (b : Bool) : Describes s (.bool b) (.bool b)
  | none : Describes s .none .none
  | string (content : String) : Describes s (.string content) (.string content)
  | tuple {ds : List Data} {vs : List Value} (h : List.Forall₂ (Describes s) ds vs) :
    Describes s (.tuple ds) (.tuple vs)
  | array {ds : List Data} {r : Ref} {vs : List Value} (hcell : s.cells[r.index]? = some (.array vs))
    (h : List.Forall₂ (Describes s) ds vs) : Describes s (.array ds) (.array r)
  | map {ds : List (Data × Data)} {r : Ref} {es : Entries} (hcell : s.cells[r.index]? = some (.map es))
    (h : List.Forall₂ (DescribesEntry s) ds es) : Describes s (.map ds) (.map r)

inductive DescribesEntry (s : Store) : Data × Data → Value × Value → Prop
  | mk {d d' : Data} {v v' : Value} (hkey : Describes s d v) (hvalue : Describes s d' v') :
    DescribesEntry s (d, d') (v, v')

end

theorem DescribesEntry.key {s : Store} {d : Data × Data} {e : Value × Value}
    (h : DescribesEntry s d e) : Describes s d.1 e.1 := by
  cases h
  assumption

theorem DescribesEntry.value {s : Store} {d : Data × Data} {e : Value × Value}
    (h : DescribesEntry s d e) : Describes s d.2 e.2 := by
  cases h
  assumption

section Lists

variable {α β γ : Type} {R R' : α → β → Prop} {as as' : List α} {bs : List β}

theorem forall₂_of_mem (h : List.Forall₂ R as bs) (hR : ∀ a ∈ as, ∀ b, R a b → R' a b) :
    List.Forall₂ R' as bs := by
  have hmem : List.Forall₂ (fun a b => a ∈ as ∧ R a b) as bs :=
    (List.forall₂_and_left as bs).2 ⟨fun _ ha => ha, h⟩
  exact hmem.imp fun a b hab => hR a hab.1 b hab.2

theorem forall₂_of_map_eq {f : α → γ} {g : β → γ} (h : as.map f = bs.map g)
    (hR : ∀ a, ∀ b ∈ bs, f a = g b → R a b) : List.Forall₂ R as bs := by
  have hmaps : List.Forall₂ (· = ·) (as.map f) (bs.map g) := by
    rw [List.forall₂_eq_eq_eq]
    exact h
  rw [List.forall₂_map_left_iff, List.forall₂_map_right_iff] at hmaps
  exact (forall₂_of_mem hmaps.flip fun b hb a hab => hR a b hb hab).flip

theorem exists_of_forall₂ (h : List.Forall₂ R as bs) {a : α} (ha : a ∈ as) :
    ∃ b ∈ bs, R a b := by
  induction h with
  | nil => cases ha
  | cons hab _ ih =>
    rcases List.mem_cons.1 ha with rfl | ha
    · exact ⟨_, List.mem_cons_self, hab⟩
    · obtain ⟨b, hb, hab⟩ := ih ha
      exact ⟨b, List.mem_cons_of_mem _ hb, hab⟩

theorem exists_forall₂ {P : α → Prop} (h : ∀ b ∈ bs, ∃ a, R a b ∧ P a) :
    ∃ as, List.Forall₂ R as bs ∧ ∀ a ∈ as, P a := by
  induction bs with
  | nil => exact ⟨[], .nil, nofun⟩
  | cons b rest ih =>
    obtain ⟨a, hab, ha⟩ := h b List.mem_cons_self
    obtain ⟨as, hrest, has⟩ := ih fun b hb => h b (List.mem_cons_of_mem _ hb)
    exact ⟨a :: as, .cons hab hrest, List.forall_mem_cons.2 ⟨ha, has⟩⟩

theorem map_eq_of_forall₂ {f : β → γ} {g : α → γ} (h : List.Forall₂ R as bs)
    (hR : ∀ a ∈ as, ∀ b, R a b → f b = g a) : bs.map f = as.map g := by
  have hmaps : List.Forall₂ (· = ·) (bs.map f) (as.map g) := by
    rw [List.forall₂_map_left_iff, List.forall₂_map_right_iff]
    exact (forall₂_of_mem h hR).flip
  rwa [List.forall₂_eq_eq_eq] at hmaps

theorem eq_of_forall₂ (h : List.Forall₂ R as bs) (h' : List.Forall₂ R as' bs)
    (hR : ∀ a ∈ as, ∀ a' b, R a b → R a' b → a = a') : as = as' := by
  induction h generalizing as' with
  | nil =>
    cases h'
    rfl
  | cons hab _ ih =>
    cases h' with
    | cons hab' h' =>
      rw [hR _ List.mem_cons_self _ _ hab hab', ih h' fun a ha => hR a (List.mem_cons_of_mem _ ha)]

end Lists

/-- A value says one thing only. -/
theorem Describes.unique {s : Store} {d d' : Data} {v : Value} (h : Describes s d v)
    (h' : Describes s d' v) : d = d' := by
  induction d using Data.induct generalizing d' v with
  | int | bool | none | string =>
    cases h
    cases h'
    rfl
  | tuple items ih =>
    cases h with
    | tuple h =>
      cases h' with
      | tuple h' => rw [eq_of_forall₂ h h' fun d hd _ _ => ih d hd]
  | array items ih =>
    cases h with
    | array hcell h =>
      cases h' with
      | array hcell' h' =>
        obtain rfl : _ = _ := by simpa using hcell.symm.trans hcell'
        rw [eq_of_forall₂ h h' fun d hd _ _ => ih d hd]
  | map entries ihKey ihValue =>
    cases h with
    | map hcell h =>
      cases h' with
      | map hcell' h' =>
        obtain rfl : _ = _ := by simpa using hcell.symm.trans hcell'
        rw [eq_of_forall₂ h h' fun d hd _ _ he he' =>
          Prod.ext (ihKey d hd he.key he'.key) (ihValue d hd he.value he'.value)]

/-- The store holds all that another one held. -/
def Store.Grows (s s' : Store) : Prop := ∀ (i : Nat) (c : Cell), s.cells[i]? = some c → s'.cells[i]? = some c

/-- What a value says does not change when the store grows. -/
theorem Describes.grows {s s' : Store} (hs : s.Grows s') {d : Data} {v : Value}
    (h : Describes s d v) : Describes s' d v := by
  induction d using Data.induct generalizing v with
  | int | bool | none | string =>
    cases h
    constructor
  | tuple items ih =>
    cases h with
    | tuple h => exact .tuple (forall₂_of_mem h fun d hd _ => ih d hd)
  | array items ih =>
    cases h with
    | array hcell h => exact .array (hs _ _ hcell) (forall₂_of_mem h fun d hd _ => ih d hd)
  | map entries ihKey ihValue =>
    cases h with
    | map hcell h =>
      exact .map (hs _ _ hcell) (forall₂_of_mem h fun d hd _ he =>
        .mk (ihKey d hd he.key) (ihValue d hd he.value))

/-! ## How deep values nest -/

/-- The data of a collection. -/
def DescribesAt (s : Store) (d : Data) (r : Ref) : Prop :=
  Describes s d (.array r) ∨ Describes s d (.map r)

theorem DescribesAt.unique {s : Store} {d d' : Data} {r : Ref} (h : DescribesAt s d r)
    (h' : DescribesAt s d' r) : d = d' := by
  rcases h with h | h <;> rcases h' with h' | h'
  · exact h.unique h'
  · cases h with
    | array hcell _ => cases h' with
      | map hcell' _ => simp [hcell] at hcell'
  · cases h with
    | map hcell _ => cases h' with
      | array hcell' _ => simp [hcell] at hcell'
  · exact h.unique h'

theorem DescribesAt.known {s : Store} {d : Data} {r : Ref} (h : DescribesAt s d r) :
    r.index < s.size := by
  rcases h with h | h <;> cases h <;> exact (Array.getElem?_eq_some_iff.1 ‹_›).1

theorem DescribesAt.depth_pos {s : Store} {d : Data} {r : Ref} (h : DescribesAt s d r) :
    0 < d.depth := by
  rcases h with h | h
  · cases h
    rw [depth]
    exact Nat.succ_pos _
  · cases h
    rw [depth]
    exact Nat.succ_pos _

/-- `opened` are different collections, each of which nests deeper than `n`. -/
structure Encloses (s : Store) (opened : List Ref) (n : Nat) : Prop where
  nodup : opened.Nodup
  known : ∀ r ∈ opened, r.index < s.size
  deeper : ∀ r ∈ opened, ∀ d, DescribesAt s d r → n < d.depth

namespace Encloses

variable {s : Store} {opened : List Ref} {n m : Nat} {d : Data} {r : Ref}

theorem nil : Encloses s [] n := ⟨List.nodup_nil, by simp, by simp⟩

theorem mono (h : Encloses s opened n) (hm : m ≤ n) : Encloses s opened m :=
  ⟨h.nodup, h.known, fun r hr d hd => Nat.lt_of_le_of_lt hm (h.deeper r hr d hd)⟩

/-- A collection is not around itself. -/
theorem not_mem (h : Encloses s opened d.depth) (hd : DescribesAt s d r) : r ∉ opened := fun hr =>
  Nat.lt_irrefl _ (h.deeper r hr d hd)

theorem cons (h : Encloses s opened d.depth) (hd : DescribesAt s d r) (hn : n < d.depth) :
    Encloses s (r :: opened) n := by
  refine ⟨List.nodup_cons.2 ⟨h.not_mem hd, h.nodup⟩, fun q hq => ?_, fun q hq d' hd' => ?_⟩
  · rcases List.mem_cons.1 hq with rfl | hq
    · exact hd.known
    · exact h.known q hq
  -- the collection itself has this data only, and the others nest deeper than it does
  · rcases List.mem_cons.1 hq with rfl | hq
    · rw [hd'.unique hd]
      exact hn
    · exact Nat.lt_trans hn (h.deeper q hq d' hd')

/-- There are no more collections around a value than there are. -/
theorem length_le (h : Encloses s opened n) : opened.length ≤ s.size := by
  -- they are different places in the store, of which there are as many as it has collections
  have hsub : opened ⊆ (List.range s.size).map Ref.mk := fun r hr =>
    List.mem_map.2 ⟨r.index, List.mem_range.2 (h.known r hr), rfl⟩
  have hle := h.nodup.length_le_of_subset hsub
  rwa [List.length_map, List.length_range] at hle

/-- Around a collection there is room for one more, which is the collection itself. -/
theorem length_lt (h : Encloses s opened d.depth) (hd : DescribesAt s d r) :
    opened.length < s.size := by
  have hle := (h.cons hd hd.depth_pos).length_le
  rwa [List.length_cons] at hle

end Encloses

/-- Data nests less deep than there are collections besides those around it. -/
theorem Describes.depth_add_le {s : Store} {d : Data} {v : Value} {opened : List Ref}
    (h : Describes s d v) (ho : Encloses s opened d.depth) : d.depth + opened.length ≤ s.size := by
  induction d using Data.induct generalizing v opened with
  | int | bool | none | string =>
    have hle := ho.length_le
    rw [depth]
    · omega
    all_goals simp
  | tuple items ih =>
    cases h with
    | tuple h =>
      have hle := ho.length_le
      have hitems : deepest (items.map depth) ≤ s.size - opened.length := by
        rw [deepest_le, List.forall_mem_map]
        intro d hd
        obtain ⟨v, -, hv⟩ := exists_of_forall₂ h hd
        have hitem := ih d hd hv (ho.mono (depth_le_tuple hd))
        omega
      rw [depth]
      omega
  -- a collection is one of those around what it holds, so there is room for one less inside it
  | array items ih =>
    cases h with
    | @array _ r vs hcell h =>
      have hr : DescribesAt s (.array items) r := .inl (.array hcell h)
      have hlt := ho.length_lt hr
      have hitems : deepest (items.map depth) ≤ s.size - (opened.length + 1) := by
        rw [deepest_le, List.forall_mem_map]
        intro d hd
        obtain ⟨v, -, hv⟩ := exists_of_forall₂ h hd
        have hitem := ih d hd hv (ho.cons hr (depth_lt_array hd))
        rw [List.length_cons] at hitem
        omega
      rw [depth]
      omega
  | map entries ihKey ihValue =>
    cases h with
    | @map _ r es hcell h =>
      have hr : DescribesAt s (.map entries) r := .inr (.map hcell h)
      have hlt := ho.length_lt hr
      have hentries : deepest (entries.map fun e => max e.1.depth e.2.depth) ≤
          s.size - (opened.length + 1) := by
        rw [deepest_le, List.forall_mem_map]
        intro d hd
        obtain ⟨e, -, he⟩ := exists_of_forall₂ h hd
        have hkey := ihKey d hd he.key (ho.cons hr (depth_lt_map hd).1)
        have hvalue := ihValue d hd he.value (ho.cons hr (depth_lt_map hd).2)
        rw [List.length_cons] at hkey hvalue
        omega
      rw [depth]
      omega

/-- Data nests no deeper than there are collections. -/
theorem Describes.depth_le {s : Store} {d : Data} {v : Value} (h : Describes s d v) :
    d.depth ≤ s.size := h.depth_add_le .nil

/-! ## How values are written -/

namespace Value

theorem itemTextsWith_eq {ν : Type} [Naming ν] (s : Store ν) (opened : List Ref)
    (inner : List Ref → Value ν → List Char) (vs : List (Value ν)) :
    itemTextsWith s inner opened vs = vs.map (textWith s inner opened) := by
  induction vs with
  | nil => rfl
  | cons v rest ih => rw [itemTextsWith, ih, List.map_cons]

variable (s : Store) (n : Nat) (opened : List Ref)

theorem textWithin_tuple (vs : List Value) :
    textWithin s n opened (.tuple vs) = tupleText (vs.map (textWithin s n opened)) := by
  cases n <;> exact congrArg tupleText (itemTextsWith_eq s opened _ vs)

theorem textWithin_array {r : Ref} (hr : r ∉ opened) :
    textWithin s (n + 1) opened (.array r) =
      '[' :: separated ((s.items r).map (textWithin s n (r :: opened))) ++ [']'] := if_neg hr

theorem textWithin_map {r : Ref} (hr : r ∉ opened) :
    textWithin s (n + 1) opened (.map r) =
      '\x7b' :: separated ((s.entries r).map fun e =>
        entryText (textWithin s n (r :: opened) e.1) (textWithin s n (r :: opened) e.2)) ++
        ['\x7d'] := if_neg hr

end Value

theorem Describes.textWithin {s : Store} {d : Data} {v : Value} {opened : List Ref} {n : Nat}
    (h : Describes s d v) (ho : Encloses s opened d.depth) (hn : d.depth ≤ n) :
    v.textWithin s n opened = d.chars := by
  -- the collections around a part, and the budget left for it, change on the way down
  induction d using Data.induct generalizing v opened n with
  | int | bool | none | string =>
    cases h
    rw [chars]
    cases n <;> rfl
  | tuple items ih =>
    cases h with
    | tuple h =>
      rw [Value.textWithin_tuple, chars]
      refine congrArg Value.tupleText (map_eq_of_forall₂ h fun d hd v hv => ?_)
      have hle := depth_le_tuple hd
      exact ih d hd hv (ho.mono hle) (Nat.le_trans hle hn)
  | array items ih =>
    cases h with
    | @array _ r vs hcell h =>
      have hr : DescribesAt s (.array items) r := .inl (.array hcell h)
      have hitems : s.items r = vs := by rw [Store.items, hcell]
      obtain ⟨n, rfl⟩ : ∃ m, n = m + 1 := ⟨n - 1, by rw [depth] at hn; omega⟩
      rw [Value.textWithin_array s n opened (ho.not_mem hr), hitems, chars]
      rw [map_eq_of_forall₂ h fun d hd v hv => ?_]
      have hlt := depth_lt_array hd
      exact ih d hd hv (ho.cons hr hlt) (by omega)
  | map entries ihKey ihValue =>
    cases h with
    | @map _ r es hcell h =>
      have hr : DescribesAt s (.map entries) r := .inr (.map hcell h)
      have hentries : s.entries r = es := by rw [Store.entries, hcell]
      obtain ⟨n, rfl⟩ : ∃ m, n = m + 1 := ⟨n - 1, by rw [depth] at hn; omega⟩
      rw [Value.textWithin_map s n opened (ho.not_mem hr), hentries, chars]
      rw [map_eq_of_forall₂ h fun d hd e he => ?_]
      have hlt := depth_lt_map hd
      rw [ihKey d hd he.key (ho.cons hr hlt.1) (by omega),
        ihValue d hd he.value (ho.cons hr hlt.2) (by omega)]

/-- The text of a value is that of its data. -/
theorem Describes.text {s : Store} {d : Data} {v : Value} (h : Describes s d v) :
    v.text s = String.ofList d.chars :=
  congrArg String.ofList (h.textWithin .nil h.depth_le)

end Nikl
