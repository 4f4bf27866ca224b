import Nikl.Evaluation.Indexing
import Nikl.Proofs.Value.Equivalence
import Nikl.Proofs.Value.Inside

/-
Entries that show what was written. Of equal keys the one that was written first is kept, where it was
written first, with the value that was written last (`Entries.Show`). Searching for a key then tells what
was last written to it, and one more write, of either kind, leaves entries behind that show it as well.

Keys are compared by what they hold, so for all of this equality has to be an equivalence on them.
-/

set_option autoImplicit false

namespace Nikl

open Value (Same EquivalenceOn equal? sameIn)

/-! ## What was written

Writes are keys and what is written to them, the earliest first. -/

/-- The keys that were written, as each was written first and in the order of those first writes. -/
def firstWritten (s : Store) (writes : List (Value × Value)) : List Value :=
  writes.zipIdx.filterMap fun (w, i) =>
    if ∃ earlier ∈ writes.take i, Same s earlier.1 w.1 then none else some w.1

/-- The place of the first of some keys that is equal to a key. -/
def firstPlace? (s : Store) (key : Value) (keys : List Value) : Option Nat :=
  keys.findIdx? fun k => decide (Same s k key)

/-- What was last written to a key. -/
def lastWritten (s : Store) (writes : List (Value × Value)) (key : Value) : Option Value :=
  (writes.reverse.find? fun w => decide (Same s w.1 key)).map (·.2)

section Writes

variable {s : Store} {P : Value → Prop} {writes : List (Value × Value)} {key value : Value}

theorem firstWritten_concat (s : Store) (writes : List (Value × Value)) (w : Value × Value) :
    firstWritten s (writes ++ [w]) =
      firstWritten s writes ++ if ∃ earlier ∈ writes, Same s earlier.1 w.1 then [] else [w.1] := by
  have hbefore : ∀ p ∈ writes.zipIdx, (writes ++ [w]).take p.2 = writes.take p.2 := by
    rintro ⟨v, i⟩ hp
    have hi : i < writes.length := by simpa using (List.mem_zipIdx hp).2.1
    exact List.take_append_of_le_length (Nat.le_of_lt hi)
  have hlast : (writes ++ [w]).take writes.length = writes := List.take_left
  rw [firstWritten, List.zipIdx_append, List.filterMap_append]
  refine congrArg₂ (· ++ ·) (List.filterMap_congr fun p hp => ?_) ?_
  · simp only [hbefore p hp]
  · simp only [List.zipIdx_cons, List.zipIdx_nil, Nat.zero_add, List.filterMap_cons, List.filterMap_nil,
      hlast]
    by_cases hknown : ∃ earlier ∈ writes, Same s earlier.1 w.1
    · simp only [if_pos hknown]
    · simp only [if_neg hknown]

theorem lastWritten_concat (s : Store) (writes : List (Value × Value)) (w : Value × Value) (key : Value) :
    lastWritten s (writes ++ [w]) key = if Same s w.1 key then some w.2 else lastWritten s writes key := by
  rw [lastWritten, List.reverse_append, List.reverse_singleton, List.singleton_append, List.find?_cons]
  by_cases h : Same s w.1 key
  · rw [if_pos h, decide_eq_true h]
    rfl
  · rw [if_neg h, decide_eq_false h, lastWritten]

theorem mem_of_firstWritten (h : key ∈ firstWritten s writes) : ∃ w ∈ writes, w.1 = key := by
  obtain ⟨⟨w, i⟩, hp, hw⟩ := List.mem_filterMap.1 h
  obtain ⟨-, hw⟩ := Option.ite_none_left_eq_some.1 hw
  exact ⟨w, List.fst_mem_of_mem_zipIdx hp, Option.some.inj hw⟩

theorem lastWritten_eq_none_iff :
    lastWritten s writes key = none ↔ ∀ w ∈ writes, ¬ Same s w.1 key := by
  simp [lastWritten]

/-- No two first keys are equal. -/
theorem firstWritten_differ (s : Store) (writes : List (Value × Value)) :
    (firstWritten s writes).Pairwise fun k k' => ¬ Same s k k' := by
  induction writes using List.reverseRecOn with
  | nil => exact .nil
  | append_singleton writes w ih =>
    rw [firstWritten_concat]
    by_cases hknown : ∃ earlier ∈ writes, Same s earlier.1 w.1
    · rwa [if_pos hknown, List.append_nil]
    · rw [if_neg hknown, List.pairwise_append]
      refine ⟨ih, List.pairwise_singleton .., fun k hk k' hk' hsame => ?_⟩
      obtain ⟨earlier, hearlier, rfl⟩ := mem_of_firstWritten hk
      rw [List.mem_singleton.1 hk'] at hsame
      exact hknown ⟨earlier, hearlier, hsame⟩

/-- Each key that was written is equal to a first one. -/
theorem exists_firstWritten (h : EquivalenceOn s P) (hP : ∀ w ∈ writes, P w.1) :
    ∀ w ∈ writes, ∃ k ∈ firstWritten s writes, Same s k w.1 := by
  induction writes using List.reverseRecOn with
  | nil => exact nofun
  | append_singleton writes w ih =>
    have hbefore : ∀ v ∈ writes, P v.1 := fun v hv => hP v (List.mem_append_left _ hv)
    rw [firstWritten_concat]
    intro v hv
    rcases List.mem_append.1 hv with hv | hv
    · obtain ⟨k, hk, hsame⟩ := ih hbefore v hv
      exact ⟨k, List.mem_append_left _ hk, hsame⟩
    · rw [List.mem_singleton.1 hv]
      have hw : P w.1 := hP w (List.mem_append_right _ List.mem_cons_self)
      by_cases hknown : ∃ earlier ∈ writes, Same s earlier.1 w.1
      · -- equal to a key before it, the key is equal to the first one of that as well
        obtain ⟨earlier, hearlier, hsame⟩ := hknown
        obtain ⟨k, hk, hfirst⟩ := ih hbefore earlier hearlier
        obtain ⟨first, hfirstIn, rfl⟩ := mem_of_firstWritten hk
        exact ⟨_, List.mem_append_left _ hk,
          h.trans (hbefore first hfirstIn) (hbefore earlier hearlier) hw hfirst hsame⟩
      · rw [if_neg hknown]
        exact ⟨w.1, List.mem_append_right _ List.mem_cons_self, h.refl hw⟩

/-- What was last written is the same for equal keys. -/
theorem lastWritten_congr (h : EquivalenceOn s P) (hP : ∀ w ∈ writes, P w.1) {key' : Value}
    (hkey : P key) (hkey' : P key') (hsame : Same s key key') :
    lastWritten s writes key = lastWritten s writes key' := by
  rw [lastWritten, lastWritten]
  refine congrArg (Option.map Prod.snd) (List.find?_congr fun w hw => ?_)
  have hw : P w.1 := hP w (List.mem_reverse.1 hw)
  rw [decide_eq_decide]
  exact ⟨fun hwk => h.trans hw hkey hkey' hwk hsame,
    fun hwk => h.trans hw hkey' hkey hwk (h.symm hkey hkey' hsame)⟩

end Writes

/-! ## Entries that show what was written -/

/-- The keys are the first ones, and each has what was last written to it. -/
structure Entries.Show (s : Store) (writes : List (Value × Value)) (entries : Entries) : Prop where
  keys : entries.keys = firstWritten s writes
  values : ∀ e ∈ entries, lastWritten s writes e.1 = some e.2

namespace Entries

/-- Where all comparisons are settled, a search comes to the place of the first key that is equal. -/
theorem position?_eq {s : Store} {key : Value} {es : Entries}
    (h : ∀ e ∈ es, (equal? s e.1 key).isSome) :
    es.position? (sameIn s) key = some (firstPlace? s key (keys es)) := by
  induction es with
  | nil => rfl
  | cons e es ih =>
    obtain ⟨he, hes⟩ := List.forall_mem_cons.1 h
    have hcons : firstPlace? s key (Entries.keys (e :: es)) =
        if Same s e.1 key then some 0 else (firstPlace? s key (keys es)).map (· + 1) := by
      rw [firstPlace?, firstPlace?, keys, keys, List.map_cons, List.findIdx?_cons]
      by_cases hsame : Same s e.1 key <;> simp [hsame]
    obtain ⟨found, hfound⟩ := Option.isSome_iff_exists.1 he
    rw [position?_cons, sameIn, hfound, ih hes, hcons]
    cases found with
    | true =>
      rw [if_pos (show Same s e.1 key from hfound)]
      rfl
    | false =>
      have hdiffers : ¬ Same s e.1 key := by
        rw [Same, hfound]
        exact fun h => Bool.false_ne_true (Option.some.inj h)
      rw [if_neg hdiffers]
      rfl

theorem replaceAt_eq_set {es : Entries} {place : Nat} (h : place < es.length) (value : Value) :
    es.replaceAt place value = (some es[place].2, es.set place (es[place].1, value)) := by
  induction es generalizing place with
  | nil => exact absurd h (Nat.not_lt_zero place)
  | cons e es ih =>
    cases place with
    | zero => rfl
    | succ place =>
      rw [replaceAt, ih (Nat.lt_of_succ_lt_succ h)]
      rfl

section Show

variable {s : Store} {P : Value → Prop} {writes : List (Value × Value)} {es : Entries}
  {key value : Value} {place : Nat}

theorem Show.mem_keys (hP : ∀ w ∈ writes, P w.1) (hes : es.Show s writes) : ∀ e ∈ es, P e.1 := by
  intro e he
  have hfirst : e.1 ∈ firstWritten s writes := hes.keys ▸ List.mem_map_of_mem he
  obtain ⟨w, hw, hkey⟩ := mem_of_firstWritten hfirst
  exact hkey ▸ hP w hw

/-- What stands at the place of a key: an entry with an equal key. -/
theorem Show.at_place (hes : es.Show s writes)
    (hplace : firstPlace? s key (firstWritten s writes) = some place) :
    ∃ h : place < es.length, Same s es[place].1 key := by
  rw [← hes.keys, firstPlace?, Entries.keys] at hplace
  obtain ⟨hlt, hsame, -⟩ := List.findIdx?_eq_some_iff_getElem.1 hplace
  rw [List.getElem_map] at hsame
  exact ⟨by simpa using hlt, of_decide_eq_true hsame⟩

variable (h : EquivalenceOn s P) (hP : ∀ w ∈ writes, P w.1) (hes : es.Show s writes) (hkey : P key)

include h hP hkey in
/-- A key without a place is equal to none that was written. -/
theorem not_same_of_no_place (hplace : firstPlace? s key (firstWritten s writes) = none) :
    ∀ w ∈ writes, ¬ Same s w.1 key := by
  intro w hw hsame
  obtain ⟨k, hk, hfirst⟩ := exists_firstWritten h hP w hw
  obtain ⟨v, hv, rfl⟩ := mem_of_firstWritten hk
  have hnot := List.findIdx?_eq_none_iff.1 hplace v.1 hk
  exact of_decide_eq_false hnot (h.trans (hP v hv) (hP w hw) hkey hfirst hsame)

include h hP hes hkey

/-- A search comes to the place of the first key, among those that were written first. -/
theorem Show.position? :
    es.position? (sameIn s) key = some (firstPlace? s key (firstWritten s writes)) := by
  rw [← hes.keys]
  exact position?_eq fun e he => h.settled (hes.mem_keys hP e he) hkey

/-- The place of a key has what was last written to it; a key without a place was not written. -/
theorem Show.lastWritten :
    ((firstPlace? s key (firstWritten s writes)).bind fun place => es[place]?.map (·.2)) =
      lastWritten s writes key := by
  cases hplace : firstPlace? s key (firstWritten s writes) with
  | none => exact (lastWritten_eq_none_iff.2 (not_same_of_no_place h hP hkey hplace)).symm
  | some place =>
    obtain ⟨hlt, hsame⟩ := hes.at_place hplace
    have he := List.getElem_mem hlt
    rw [Option.bind_some, List.getElem?_eq_getElem hlt, Option.map_some,
      ← lastWritten_congr h hP (hes.mem_keys hP _ he) hkey hsame, hes.values _ he]

theorem Show.get? : es.get? (sameIn s) key = some (Nikl.lastWritten s writes key) := by
  rw [get?_eq_position?, hes.position? h hP hkey, Option.map_some, hes.lastWritten h hP hkey]

theorem Show.contains? :
    es.contains? (sameIn s) key = some (Nikl.lastWritten s writes key).isSome := by
  rw [Entries.contains?, hes.get? h hP hkey]
  rfl

/-- Writing to a known key changes the value of one entry. -/
theorem Show.replaceAt (hplace : firstPlace? s key (firstWritten s writes) = some place)
    (value : Value) : Entries.Show s (writes ++ [(key, value)]) (es.replaceAt place value).2 := by
  obtain ⟨hlt, hsame⟩ := hes.at_place hplace
  have hmem := hes.mem_keys hP
  have hat : P es[place].1 := hmem _ (List.getElem_mem hlt)
  refine ⟨?_, fun e he => ?_⟩
  · have hknown : ∃ earlier ∈ writes, Same s earlier.1 key := by
      have hfirst : es[place].1 ∈ firstWritten s writes :=
        hes.keys ▸ List.mem_map_of_mem (List.getElem_mem hlt)
      obtain ⟨w, hw, hkey⟩ := mem_of_firstWritten hfirst
      exact ⟨w, hw, hkey ▸ hsame⟩
    rw [keys_replaceAt, hes.keys, firstWritten_concat, if_pos hknown, List.append_nil]
  · rw [replaceAt_eq_set hlt] at he
    obtain ⟨i, hi, rfl⟩ := List.getElem_of_mem he
    rw [List.length_set] at hi
    rw [lastWritten_concat, List.getElem_set]
    by_cases hplace : place = i
    · rw [if_pos hplace, if_pos (h.symm hat hkey hsame)]
    · -- the keys of two entries are not equal, so only one of them is equal to the one written to
      have hother : ¬ Same s key es[i].1 := by
        intro hkeyi
        have hiP : P es[i].1 := hmem _ (List.getElem_mem hi)
        have htwo := h.trans hat hkey hiP hsame hkeyi
        have hdiffer := firstWritten_differ s writes
        rw [← hes.keys, Entries.keys, List.pairwise_map, List.pairwise_iff_getElem] at hdiffer
        rcases Nat.lt_or_gt_of_ne hplace with hlt' | hgt
        · exact hdiffer place i hlt hi hlt' htwo
        · exact hdiffer i place hi hlt hgt (h.symm hat hiP htwo)
      rw [if_neg hplace, if_neg hother, hes.values _ (List.getElem_mem hi)]

/-- Writing to a new key adds an entry. -/
theorem Show.append (hplace : firstPlace? s key (firstWritten s writes) = none) (value : Value) :
    Entries.Show s (writes ++ [(key, value)]) (es.append key value) := by
  have hnew := not_same_of_no_place h hP hkey hplace
  refine ⟨?_, fun e he => ?_⟩
  · rw [firstWritten_concat, if_neg fun ⟨w, hw, hsame⟩ => hnew w hw hsame, ← hes.keys]
    exact List.map_append
  · rw [lastWritten_concat]
    rcases List.mem_append.1 he with he | he
    · have hfirst : e.1 ∈ firstWritten s writes := hes.keys ▸ List.mem_map_of_mem he
      obtain ⟨w, hw, hwe⟩ := mem_of_firstWritten hfirst
      have hother : ¬ Same s key e.1 := fun hsame =>
        hnew w hw (hwe ▸ h.symm hkey (hes.mem_keys hP e he) hsame)
      rw [if_neg hother, hes.values e he]
    · rw [List.mem_singleton.1 he, if_pos (h.refl hkey)]

/-- Searching and replacing in one go writes what was asked for, and tells what was there before. -/
theorem Show.insert (value : Value) :
    ∃ after, es.insert (sameIn s) key value = some (Nikl.lastWritten s writes key, after) ∧
      after.Show s (writes ++ [(key, value)]) := by
  have hposition := hes.position? h hP hkey
  have hlast := hes.lastWritten h hP hkey
  rw [insert_eq_position?, hposition]
  cases hplace : firstPlace? s key (firstWritten s writes) with
  | none =>
    rw [hplace] at hlast
    exact ⟨_, by rw [← hlast]; rfl, hes.append h hP hkey hplace value⟩
  | some place =>
    obtain ⟨hlt, -⟩ := hes.at_place hplace
    rw [hplace, Option.bind_some, List.getElem?_eq_getElem hlt, Option.map_some] at hlast
    have hreplaced := replaceAt_eq_set hlt value
    refine ⟨(es.replaceAt place value).2, ?_, hes.replaceAt h hP hkey hplace value⟩
    simp only [← hlast, Option.map_some, hreplaced]

end Show

end Entries

end Nikl
