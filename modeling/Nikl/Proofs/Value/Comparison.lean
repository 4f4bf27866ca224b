import Mathlib.Data.Fintype.Card
import Mathlib.Data.Fintype.Prod
import Mathlib.Order.Monotone.Basic
import Nikl.Proofs.Value.Sameness

/-
How deep a comparison has to look. Looking deeper keeps every answer, and only pairs of collections make
a difference: whoever has the answers for these has the answers for all values. There are as many such
pairs as the budget of `equal?` has steps, and each step that gains anything gains one of them. So the
budget is enough (`equal?_eq_some_iff`): where it does not settle a comparison, no depth does, and the
comparison goes on for ever.

It follows that `equal?` obeys the rules of one level with itself in the place of what compares the
contents of collections (`equal?_eq_equalWith`), whether the collections contain themselves or not.
-/

set_option autoImplicit false

namespace Nikl

/-- One way of comparing values has all the answers of another. -/
def Extends (f g : Value → Value → Settled Bool) : Prop :=
  ∀ v w b, f v w = some b → g v w = some b

/-! ## Comparing contents with more answers -/

section Contents

variable {f g : Value → Value → Settled Bool} {b : Bool}

theorem go_cons_cons {ν : Type} (f : Value ν → Value ν → Settled Bool) (v w : Value ν)
    (vs ws : List (Value ν)) :
    itemsEqual.go f (v :: vs) (w :: ws) =
      (f v w).bind fun same => if same then itemsEqual.go f vs ws else some false := rfl

theorem go_extends {vs ws : List Value}
    (hfg : ∀ v ∈ vs, ∀ w ∈ ws, ∀ b, f v w = some b → g v w = some b)
    (h : itemsEqual.go f vs ws = some b) : itemsEqual.go g vs ws = some b := by
  induction vs generalizing ws with
  | nil => exact h
  | cons v vs ih =>
    cases ws with
    | nil => exact h
    | cons w ws =>
      rw [go_cons_cons, Option.bind_eq_some_iff] at h ⊢
      obtain ⟨same, hsame, hrest⟩ := h
      refine ⟨same, hfg v List.mem_cons_self w List.mem_cons_self same hsame, ?_⟩
      cases same with
      | false => exact hrest
      | true =>
        exact ih (fun v hv w hw => hfg v (List.mem_cons_of_mem _ hv) w (List.mem_cons_of_mem _ hw)) hrest

theorem itemsEqual_extends {vs ws : List Value}
    (hfg : ∀ v ∈ vs, ∀ w ∈ ws, ∀ b, f v w = some b → g v w = some b)
    (h : itemsEqual f vs ws = some b) : itemsEqual g vs ws = some b := by
  unfold itemsEqual at h ⊢
  split at h
  · next hlen => rw [if_pos hlen, go_extends hfg h]
  · next hlen => rwa [if_neg hlen]

theorem get?_cons {ν : Type} (f : Value ν → Value ν → Settled Bool) (key : Value ν)
    (e : Value ν × Value ν) (es : Entries ν) :
    Entries.get? f key (e :: es) =
      (f e.1 key).bind fun same => if same then some (some e.2) else Entries.get? f key es := rfl

theorem includes_cons {ν : Type} (f : Value ν → Value ν → Settled Bool) (es : Entries ν)
    (e : Value ν × Value ν) (rest : Entries ν) :
    es.includes f (e :: rest) =
      (es.get? f e.1).bind fun found =>
        match found with
        | none => some false
        | some x => (f x e.2).bind fun same => if same then es.includes f rest else some false := rfl

theorem get?_extends {key : Value} {es : Entries} {found : Option Value}
    (hfg : ∀ e ∈ es, ∀ b, f e.1 key = some b → g e.1 key = some b)
    (h : es.get? f key = some found) : es.get? g key = some found := by
  induction es with
  | nil => exact h
  | cons e es ih =>
    rw [List.forall_mem_cons] at hfg
    rw [get?_cons, Option.bind_eq_some_iff] at h ⊢
    obtain ⟨same, hsame, hrest⟩ := h
    refine ⟨same, hfg.1 same hsame, ?_⟩
    cases same with
    | false => exact ih hfg.2 hrest
    | true => exact hrest

/-- What is found for a key is the value of an entry whose key is the same. -/
theorem mem_of_get? {key x : Value} {es : Entries} (h : es.get? f key = some (some x)) :
    ∃ e ∈ es, f e.1 key = some true ∧ e.2 = x := by
  induction es with
  | nil => cases h
  | cons e es ih =>
    rw [get?_cons, Option.bind_eq_some_iff] at h
    obtain ⟨same, hsame, hrest⟩ := h
    cases same with
    | false =>
      obtain ⟨d, hd, hfound⟩ := ih hrest
      exact ⟨d, List.mem_cons_of_mem _ hd, hfound⟩
    | true => exact ⟨e, List.mem_cons_self, hsame, Option.some.inj (Option.some.inj hrest)⟩

theorem includes_extends {es rest : Entries}
    (hkey : ∀ e ∈ es, ∀ d ∈ rest, ∀ b, f e.1 d.1 = some b → g e.1 d.1 = some b)
    (hvalue : ∀ e ∈ es, ∀ d ∈ rest, ∀ b, f e.2 d.2 = some b → g e.2 d.2 = some b)
    (h : es.includes f rest = some b) : es.includes g rest = some b := by
  induction rest with
  | nil => exact h
  | cons d rest ih =>
    rw [includes_cons, Option.bind_eq_some_iff] at h ⊢
    obtain ⟨found, hfound, hrest⟩ := h
    refine ⟨found, get?_extends (fun e he => hkey e he d List.mem_cons_self) hfound, ?_⟩
    cases found with
    | none => exact hrest
    | some x =>
      obtain ⟨e, he, -, rfl⟩ := mem_of_get? hfound
      rw [Option.bind_eq_some_iff] at hrest ⊢
      obtain ⟨same, hsame, hrest⟩ := hrest
      refine ⟨same, hvalue e he d List.mem_cons_self same hsame, ?_⟩
      cases same with
      | false => exact hrest
      | true =>
        exact ih (fun e he d hd => hkey e he d (List.mem_cons_of_mem _ hd))
          (fun e he d hd => hvalue e he d (List.mem_cons_of_mem _ hd)) hrest

theorem entriesEqual_extends {es fs : Entries}
    (hkey : ∀ e ∈ fs, ∀ d ∈ es, ∀ b, f e.1 d.1 = some b → g e.1 d.1 = some b)
    (hvalue : ∀ e ∈ fs, ∀ d ∈ es, ∀ b, f e.2 d.2 = some b → g e.2 d.2 = some b)
    (h : entriesEqual f es fs = some b) : entriesEqual g es fs = some b := by
  unfold entriesEqual at h ⊢
  split at h
  · next hlen => rw [if_pos hlen, includes_extends hkey hvalue h]
  · next hlen => rwa [if_neg hlen]

end Contents

/-! ## Searching by place -/

namespace Entries

variable (same : Value → Value → Settled Bool)

theorem position?_cons (key : Value) (e : Value × Value) (es : Entries) :
    Entries.position? same key (e :: es) =
      (same e.1 key).bind fun found =>
        if found then some (some 0)
        else (Entries.position? same key es).bind fun place => some (place.map (· + 1)) := rfl

theorem insert_cons (key value : Value) (e : Value × Value) (es : Entries) :
    Entries.insert same key value (e :: es) =
      (same e.1 key).bind fun found =>
        if found then some (some e.2, (e.1, value) :: es)
        else (Entries.insert same key value es).bind fun written => some (written.1, e :: written.2) := rfl

/-- The value of a key stands at its place. -/
theorem get?_eq_position? (key : Value) (es : Entries) :
    es.get? same key = (es.position? same key).map (·.bind fun place => es[place]?.map (·.2)) := by
  induction es with
  | nil => rfl
  | cons e es ih =>
    rw [get?_cons, position?_cons, ih]
    rcases same e.1 key with _ | _ | _
    · rfl
    · rcases Entries.position? same key es with _ | _ | place <;> rfl
    · rfl

/-- Writing to a key writes to its place, or else adds an entry. -/
theorem insert_eq_position? (key value : Value) (es : Entries) :
    es.insert same key value = (es.position? same key).map fun
      | some place => es.replaceAt place value
      | none => (none, es.append key value) := by
  induction es with
  | nil => rfl
  | cons e es ih =>
    rw [insert_cons, position?_cons, ih]
    rcases same e.1 key with _ | _ | _
    · rfl
    · rcases Entries.position? same key es with _ | _ | place <;> rfl
    · rfl

end Entries

/-! ## What the store knows -/

namespace Store

variable {s : Store} {r : Ref}

theorem index_lt_of_items (s : Store) (h : s.items r ≠ []) : r.index < s.size := by
  by_contra hle
  have hcell : s.cells[r.index]? = none := Array.getElem?_eq_none (Nat.le_of_not_lt hle)
  exact h (by rw [items, hcell])

theorem index_lt_of_entries (s : Store) (h : s.entries r ≠ []) : r.index < s.size := by
  by_contra hle
  have hcell : s.cells[r.index]? = none := Array.getElem?_eq_none (Nat.le_of_not_lt hle)
  exact h (by rw [entries, hcell])

/-- An array that has items is no map. -/
theorem entries_eq_nil (s : Store) (h : s.items r ≠ []) : s.entries r = [] := by
  unfold items at h
  unfold entries
  split at h
  · next hcell => rw [hcell]
  · exact absurd rfl h

end Store

namespace Value

/-! ## One level with more answers -/

/-- A property of all values, by going down through tuples only. -/
@[elab_as_elim]
theorem inductTuple {ν : Type} {P : Value ν → Prop}
    (tuple : ∀ items, (∀ v ∈ items, P v) → P (.tuple items))
    (other : ∀ v, (∀ items, v ≠ .tuple items) → P v) : (v : Value ν) → P v
  | .tuple items => tuple items fun v _ => inductTuple tuple other v
  | .int _ | .float _ | .bool _ | .string _ | .array _ | .map _ | .function _ | .builtin _ | .none =>
    other _ nofun

theorem equalWith_tuple {ν : Type} (s : Store ν) (inner : Value ν → Value ν → Settled Bool)
    (vs ws : List (Value ν)) :
    equalWith s inner (.tuple vs) (.tuple ws) = itemsEqual (equalWith s inner) vs ws := by
  rw [equalWith, itemsEqual, tuplesEqualWith_eq]

/-- Only the answers for two arrays and for two maps depend on how contents are compared. -/
theorem equalWith_extends {s : Store} {f g : Value → Value → Settled Bool}
    (harray : ∀ r q b, equalWith s f (.array r) (.array q) = some b →
      equalWith s g (.array r) (.array q) = some b)
    (hmap : ∀ r q b, equalWith s f (.map r) (.map q) = some b →
      equalWith s g (.map r) (.map q) = some b) :
    Extends (equalWith s f) (equalWith s g) := by
  intro v
  induction v using inductTuple with
  | tuple vs ih =>
    intro w b h
    cases w with
    | tuple ws =>
      rw [equalWith_tuple] at h ⊢
      exact itemsEqual_extends (fun v hv w _ => ih v hv w) h
    | _ => exact h
  | other v hv =>
    intro w b h
    cases v with
    | tuple items => exact absurd rfl (hv items)
    | array r =>
      cases w with
      | array q => exact harray r q b h
      | _ => exact h
    | map r =>
      cases w with
      | map q => exact hmap r q b h
      | _ => exact h
    | _ => cases w <;> exact h

theorem equalWith_array {s : Store} (inner : Value → Value → Settled Bool) {r q : Ref} (h : r ≠ q) :
    equalWith s inner (.array r) (.array q) = itemsEqual inner (s.items r) (s.items q) := if_neg h

theorem equalWith_map {s : Store} (inner : Value → Value → Settled Bool) {r q : Ref} (h : r ≠ q) :
    equalWith s inner (.map r) (.map q) = entriesEqual inner (s.entries r) (s.entries q) := if_neg h

/-- A collection is equal to itself, however contents are compared. -/
theorem equalWith_self (s : Store) (inner : Value → Value → Settled Bool) (r : Ref) :
    equalWith s inner (.array r) (.array r) = some true ∧
      equalWith s inner (.map r) (.map r) = some true := ⟨if_pos rfl, if_pos rfl⟩

/-- Comparing contents with more answers gives more answers. -/
theorem equalWith_mono (s : Store) {f g : Value → Value → Settled Bool} (hfg : Extends f g) :
    Extends (equalWith s f) (equalWith s g) := by
  refine equalWith_extends (fun r q b h => ?_) fun r q b h => ?_
  · by_cases hrq : r = q
    · rw [hrq, (equalWith_self s _ q).1] at h ⊢
      exact h
    · rw [equalWith_array _ hrq] at h ⊢
      exact itemsEqual_extends (fun v _ w _ => hfg v w) h
  · by_cases hrq : r = q
    · rw [hrq, (equalWith_self s _ q).2] at h ⊢
      exact h
    · rw [equalWith_map _ hrq] at h ⊢
      exact entriesEqual_extends (fun e _ d _ => hfg e.1 d.1) (fun e _ d _ => hfg e.2 d.2) h

/-! ## All levels -/

/-- Looking one collection deeper keeps every answer. -/
theorem equalWithin_succ (s : Store) (n : Nat) : Extends (equalWithin s n) (equalWithin s (n + 1)) := by
  induction n with
  | zero => exact equalWith_mono s nofun
  | succ n ih => exact equalWith_mono s ih

theorem equalWithin_mono (s : Store) {n k : Nat} (h : n ≤ k) :
    Extends (equalWithin s n) (equalWithin s k) := by
  induction h with
  | refl => exact fun _ _ _ h => h
  | step _ ih => exact fun v w b h => equalWithin_succ s _ v w b (ih v w b h)

/-! ## What there is to gain -/

/-- What is empty is told from others by its size. -/
theorem itemsEqual_nil (f : Value → Value → Settled Bool) (vs : List Value) :
    (itemsEqual f [] vs).isSome ∧ (itemsEqual f vs []).isSome := by
  cases vs <;> exact ⟨rfl, rfl⟩

theorem entriesEqual_nil (f : Value → Value → Settled Bool) (es : Entries) :
    (entriesEqual f [] es).isSome ∧ (entriesEqual f es []).isSome := by
  cases es <;> exact ⟨rfl, rfl⟩

theorem isSome_equalWithin_array {s : Store} {r q : Ref} (h : s.items r = [] ∨ s.items q = [])
    (n : Nat) : (equalWithin s n (.array r) (.array q)).isSome := by
  obtain ⟨inner, hinner⟩ := equalWithin_eq s n
  rw [hinner]
  by_cases hrq : r = q
  · rw [hrq, (equalWith_self s _ q).1]
    rfl
  rw [equalWith_array _ hrq]
  rcases h with h | h
  · rw [h]
    exact (itemsEqual_nil _ _).1
  · rw [h]
    exact (itemsEqual_nil _ _).2

theorem isSome_equalWithin_map {s : Store} {r q : Ref} (h : s.entries r = [] ∨ s.entries q = [])
    (n : Nat) : (equalWithin s n (.map r) (.map q)).isSome := by
  obtain ⟨inner, hinner⟩ := equalWithin_eq s n
  rw [hinner]
  by_cases hrq : r = q
  · rw [hrq, (equalWith_self s _ q).2]
    rfl
  rw [equalWith_map _ hrq]
  rcases h with h | h
  · rw [h]
    exact (entriesEqual_nil _ _).1
  · rw [h]
    exact (entriesEqual_nil _ _).2

/-- The pairs of collections whose comparison some depth settles. -/
def settledPairs (s : Store) (n : Nat) : Finset (Fin s.size × Fin s.size) :=
  Finset.univ.filter fun p =>
    (equalWithin s n (.array ⟨p.1⟩) (.array ⟨p.2⟩)).isSome ∧
      (equalWithin s n (.map ⟨p.1⟩) (.map ⟨p.2⟩)).isSome

theorem mem_settledPairs {s : Store} {n : Nat} {r q : Ref} (hr : r.index < s.size)
    (hq : q.index < s.size) :
    (⟨r.index, hr⟩, ⟨q.index, hq⟩) ∈ settledPairs s n ↔
      (equalWithin s n (.array r) (.array q)).isSome ∧ (equalWithin s n (.map r) (.map q)).isSome := by
  simp only [settledPairs, Finset.mem_filter, Finset.mem_univ, true_and]

theorem settledPairs_mono (s : Store) : Monotone (settledPairs s) := by
  intro n k hnk p hp
  simp only [settledPairs, Finset.mem_filter, Finset.mem_univ, true_and, Option.isSome_iff_exists]
    at hp ⊢
  obtain ⟨⟨a, ha⟩, ⟨b, hb⟩⟩ := hp
  exact ⟨⟨a, equalWithin_mono s hnk _ _ a ha⟩, ⟨b, equalWithin_mono s hnk _ _ b hb⟩⟩

section Settled

variable {s : Store} {n : Nat} (h : settledPairs s n = settledPairs s (n + 1)) {r q : Ref}

include h

/-- A cell of the store is an array or a map. So of the two comparisons of a pair, one is settled
without a look at any contents, and what a pair gains is the other one. -/
theorem isSome_array_of_settledPairs (hsome : (equalWithin s (n + 1) (.array r) (.array q)).isSome) :
    (equalWithin s n (.array r) (.array q)).isSome := by
  by_cases hempty : s.items r = [] ∨ s.items q = []
  · exact isSome_equalWithin_array hempty n
  rw [not_or] at hempty
  have hr := s.index_lt_of_items hempty.1
  have hq := s.index_lt_of_items hempty.2
  have hmap := isSome_equalWithin_map (q := q) (.inl (s.entries_eq_nil hempty.1)) (n + 1)
  have hmem := (mem_settledPairs hr hq).2 ⟨hsome, hmap⟩
  rw [← h, mem_settledPairs hr hq] at hmem
  exact hmem.1

theorem isSome_map_of_settledPairs (hsome : (equalWithin s (n + 1) (.map r) (.map q)).isSome) :
    (equalWithin s n (.map r) (.map q)).isSome := by
  by_cases hempty : s.entries r = [] ∨ s.entries q = []
  · exact isSome_equalWithin_map hempty n
  rw [not_or] at hempty
  have hr := s.index_lt_of_entries hempty.1
  have hq := s.index_lt_of_entries hempty.2
  have hitems : s.items r = [] := by
    by_contra hne
    exact hempty.1 (s.entries_eq_nil hne)
  have hmem := (mem_settledPairs hr hq).2 ⟨isSome_equalWithin_array (.inl hitems) (n + 1), hsome⟩
  rw [← h, mem_settledPairs hr hq] at hmem
  exact hmem.2

/-- A depth that settles no pair more than the one before gives no answer more. -/
theorem equalWithin_succ_eq : equalWithin s (n + 1) = equalWithin s n := by
  -- an answer that is there already is kept, so it is enough that one is there
  have keep : ∀ {v w : Value} {b : Bool}, (equalWithin s n v w).isSome →
      equalWithin s (n + 1) v w = some b → equalWithin s n v w = some b := by
    intro v w b hsome hb
    obtain ⟨a, ha⟩ := Option.isSome_iff_exists.1 hsome
    have ha' := equalWithin_succ s n v w a ha
    rw [ha, ← ha', hb]
  have back : Extends (equalWithin s (n + 1)) (equalWithin s n) := by
    obtain ⟨inner, hinner⟩ := equalWithin_eq s n
    have harray := fun (r q : Ref) (b : Bool) (hb : equalWithin s (n + 1) (.array r) (.array q) = some b) =>
      keep (isSome_array_of_settledPairs h (Option.isSome_of_eq_some hb)) hb
    have hmap := fun (r q : Ref) (b : Bool) (hb : equalWithin s (n + 1) (.map r) (.map q) = some b) =>
      keep (isSome_map_of_settledPairs h (Option.isSome_of_eq_some hb)) hb
    rw [hinner] at harray hmap ⊢
    exact equalWith_extends harray hmap
  funext v w
  exact Option.ext fun b => ⟨back v w b, equalWithin_succ s n v w b⟩

end Settled

/-- The budget of `equal?` is enough: there are no more pairs to gain. -/
theorem equalWithin_stable (s : Store) :
    equalWithin s (s.size * s.size + 1) = equalWithin s (s.size * s.size) := by
  let gained (n : Nat) : Nat := (settledPairs s n).card
  have hsame : ∀ n, gained n = gained (n + 1) → settledPairs s n = settledPairs s (n + 1) :=
    fun n hn => Finset.eq_of_subset_of_card_le (settledPairs_mono s (Nat.le_succ n)) hn.ge
  -- from the first depth on that gains nothing, nothing is gained any more
  have hstays : ∀ n, gained n = gained (n + 1) → gained (n + 1) = gained (n + 2) := by
    intro n hn
    have heq := equalWithin_succ_eq (hsame n hn)
    have heq' : equalWithin s (n + 2) = equalWithin s (n + 1) := congrArg (equalWith s) heq
    simp only [gained, settledPairs, heq']
  have hbound : ∀ n, gained n ≤ s.size * s.size := by
    intro n
    have hcard := Finset.card_le_univ (settledPairs s n)
    rwa [Fintype.card_prod, Fintype.card_fin] at hcard
  have hmono : Monotone gained := fun n k hnk => Finset.card_le_card (settledPairs_mono s hnk)
  exact equalWithin_succ_eq (hsame _ (Nat.stabilises_of_monotone hmono hbound hstays (Nat.le_succ _)).symm)

/-- Equality obeys the rules of one level, with itself in the place of what compares contents. -/
theorem equal?_eq_equalWith (s : Store) : equal? s = equalWith s (equal? s) :=
  (equalWithin_stable s).symm

/-- **A comparison is settled if any depth settles it.** -/
theorem equal?_eq_some_iff {s : Store} {v w : Value} {b : Bool} :
    equal? s v w = some b ↔ ∃ n, equalWithin s n v w = some b := by
  constructor
  · exact fun h => ⟨_, h⟩
  · rintro ⟨n, hn⟩
    induction n generalizing v w b with
    | zero => exact equalWithin_mono s (Nat.zero_le _) v w b hn
    | succ n ih =>
      rw [equal?_eq_equalWith]
      exact equalWith_mono s (fun v w b => ih) v w b hn

end Value
end Nikl
