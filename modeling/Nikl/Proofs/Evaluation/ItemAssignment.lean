import Nikl.Proofs.Evaluation.Collections
import Nikl.Proofs.Value.Maps
import Nikl.Proofs.Value.Printing

/-
Assigning to an item. An assignment that fails has changed nothing, and one that succeeds has changed one
collection in one place. What was written is read there, and at any other index the same is read as
before, errors included.

For arrays this is so for all indices. A map is searched by comparing keys, so for maps equality has to be
an equivalence on the keys that matter. And keys are collections themselves, possibly: what is written to
a map that one of them reaches changes that key as well.
-/

set_option autoImplicit false

namespace Nikl

open Value (Same EquivalenceOn equal? sameIn)

/-- What reading an item comes to. -/
def Value.itemIn (s : Store) (target index : Value) : Except Stop Value :=
  match target.index index s with
  | .ok v _ => .ok v
  | .error stop _ => .error stop

/-- A collection before and after a value is written to an index: another value in one place of an array
or of a map, or one more entry behind all others. The key that was written first stays. -/
inductive Cell.ItemWritten (s : Store) (index value : Value) : Cell → Cell → Prop where
  | item {i : Int64} {before behind : List Value} {old : Value} (hindex : index = .int i)
    (hplace : i.toInt = before.length) :
    ItemWritten s index value (.array (before ++ old :: behind)) (.array (before ++ value :: behind))
  | entry {before behind : Entries} {key old : Value} (hkey : Same s key index)
    (hbefore : ∀ e ∈ before, equal? s e.1 index = some false) :
    ItemWritten s index value (.map (before ++ (key, old) :: behind))
      (.map (before ++ (key, value) :: behind))
  | added {entries : Entries} (hnew : ∀ e ∈ entries, equal? s e.1 index = some false) :
    ItemWritten s index value (.map entries) (.map (entries ++ [(index, value)]))

/-! ## Searching -/

namespace Entries

section Search

variable {same : Value → Value → Settled Bool} {key : Value} {es : Entries}

/-- One step of a search: it ends at the first entry or goes on behind it. -/
theorem position?_step {e : Value × Value} {found : Option Nat}
    (h : position? same key (e :: es) = some found) :
    same e.1 key = some true ∧ found = some 0 ∨
      same e.1 key = some false ∧
        ∃ rest, es.position? same key = some rest ∧ found = rest.map (· + 1) := by
  rw [position?_cons, Option.bind_eq_some_iff] at h
  obtain ⟨here, hsame, h⟩ := h
  cases here with
  | true =>
    left
    simp only [if_true, Option.some.injEq] at h
    exact ⟨hsame, h.symm⟩
  | false =>
    right
    simp only [Bool.false_eq_true, if_false, Option.bind_eq_some_iff, Option.some.injEq] at h
    obtain ⟨rest, hrest, hfound⟩ := h
    exact ⟨hsame, rest, hrest, hfound.symm⟩

/-- A search that comes to a place has passed entries with other keys only. -/
theorem split_of_position? {place : Nat} (h : es.position? same key = some (some place)) :
    ∃ before e behind, es = before ++ e :: behind ∧ before.length = place ∧
      same e.1 key = some true ∧ ∀ d ∈ before, same d.1 key = some false := by
  induction es generalizing place with
  | nil => cases h
  | cons e es ih =>
    rcases position?_step h with ⟨hsame, hplace⟩ | ⟨hsame, rest, hrest, hplace⟩
    · obtain rfl : place = 0 := by simpa using hplace
      exact ⟨[], e, es, rfl, rfl, hsame, nofun⟩
    · obtain ⟨n, rfl, rfl⟩ := Option.map_eq_some_iff.1 hplace.symm
      obtain ⟨before, d, behind, rfl, rfl, hd, hbefore⟩ := ih hrest
      exact ⟨e :: before, d, behind, rfl, rfl, hd, List.forall_mem_cons.2 ⟨hsame, hbefore⟩⟩

/-- A search that comes to no place has passed all entries. -/
theorem forall_of_position? (h : es.position? same key = some none) :
    ∀ e ∈ es, same e.1 key = some false := by
  induction es with
  | nil => exact nofun
  | cons e es ih =>
    rcases position?_step h with ⟨-, hplace⟩ | ⟨hsame, rest, hrest, hplace⟩
    · cases hplace
    · obtain rfl : rest = none := Option.map_eq_none_iff.1 hplace.symm
      exact List.forall_mem_cons.2 ⟨hsame, ih hrest⟩

/-- Where all comparisons are settled, the value of a key is that of the first entry with an equal key. -/
theorem get?_eq_find? (h : ∀ e ∈ es, (same e.1 key).isSome) :
    es.get? same key = some ((es.find? fun e => same e.1 key = some true).map (·.2)) := by
  induction es with
  | nil => rfl
  | cons e es ih =>
    rw [List.forall_mem_cons] at h
    obtain ⟨found, hfound⟩ := Option.isSome_iff_exists.1 h.1
    rw [get?_cons, hfound, Option.bind_some, ih h.2]
    cases found <;> simp [hfound]

theorem replaceAt_split (before behind : Entries) (e : Value × Value) (value : Value) :
    (replaceAt before.length value (before ++ e :: behind)).2 = before ++ (e.1, value) :: behind := by
  induction before with
  | nil => rfl
  | cons d before ih => exact congrArg (d :: ·) ih

end Search

end Entries

/-! ## Places of arrays -/

section Arrays

variable {i : Int64} {n place : Nat} {before behind : List Value} {old value : Value}

theorem placeOf?_eq_some : placeOf? i n = some place ↔ i.toInt = place ∧ place < n := by
  unfold placeOf?
  by_cases h : 0 ≤ i.toInt ∧ i.toInt < n
  · simp only [if_pos h, Option.some.injEq]
    omega
  · simp only [if_neg h, reduceCtorEq, false_iff]
    omega

/-- Two lists that differ in one place are the same at all others. -/
theorem getElem?_of_ne (h : place ≠ before.length) :
    (before ++ value :: behind)[place]? = (before ++ old :: behind)[place]? := by
  by_cases hlt : place < before.length
  · rw [List.getElem?_append_left hlt, List.getElem?_append_left hlt]
  · obtain ⟨n, hn⟩ : ∃ n, place - before.length = n + 1 := ⟨place - before.length - 1, by omega⟩
    rw [List.getElem?_append_right (by omega), List.getElem?_append_right (by omega), hn,
      List.getElem?_cons_succ, List.getElem?_cons_succ]

/-- Giving a place of a list another value, seen from the place. -/
theorem exists_split_of_lt {items : List Value} (h : place < items.length) (value : Value) :
    ∃ before old behind, items = before ++ old :: behind ∧ before.length = place ∧
      items.set place value = before ++ value :: behind := by
  refine ⟨items.take place, items[place], items.drop (place + 1), by simp, by simp; omega, ?_⟩
  rw [List.set_eq_take_append_cons_drop, if_pos h]

end Arrays

/-! ## What an assignment does -/

namespace Value

section Assignment

variable {s t : Store} {target index value : Value}

/-- An assignment to a place of an array. -/
theorem assignIndex_place (s : Store) (r : Ref) (i : Int64) (value : Value) :
    (array r).assignIndex (int i) value s =
      match placeOf? i (s.items r).length with
      | some place => .ok () (s.put r (.array ((s.items r).set place value)))
      | Option.none => .error (.ofFault (.outOfBounds i (s.items r).length)) s := by
  simp only [assignIndex, bind, EStateM.bind, get, getThe, MonadStateOf.get, EStateM.get]
  cases placeOf? i (s.items r).length <;> rfl

/-- An assignment to a key of a map. -/
theorem assignIndex_key (s : Store) (r : Ref) (key value : Value) :
    (map r).assignIndex key value s =
      match (s.entries r).position? (sameIn s) key with
      | some (some place) => .ok () (s.put r (.map ((s.entries r).replaceAt place value).2))
      | some Option.none => .ok () (s.put r (.map ((s.entries r).append key value)))
      | Option.none => .error .endless s := by
  simp only [assignIndex, bind, EStateM.bind, get, getThe, MonadStateOf.get, EStateM.get]
  rcases (s.entries r).position? (sameIn s) key with _ | _ | place <;> rfl

/-- **An assignment that fails has changed nothing.** -/
theorem assignIndex_error {stop : Stop} (h : target.assignIndex index value s = .error stop t) :
    t = s := by
  cases target with
  | array r =>
    cases index with
    | int i =>
      rw [assignIndex_place] at h
      cases hplace : placeOf? i (s.items r).length <;> simp_all
    | _ =>
      cases h
      rfl
  | map r =>
    rw [assignIndex_key] at h
    rcases hplace : (s.entries r).position? (sameIn s) index with _ | _ | place <;> simp_all
  | _ =>
    cases h
    rfl

/-- **An assignment that succeeds has written to one item** of the collection that is assigned to. -/
theorem assignIndex_ok (htarget : target.Kinded s) (h : target.assignIndex index value s = .ok () t) :
    ∃ (r : Ref) (c c' : Cell), c.at r = target ∧ s.cells[r.index]? = some c ∧
      c.ItemWritten s index value c' ∧ t = s.put r c' := by
  cases target with
  | array r =>
    obtain ⟨items | es, hcell, hat⟩ := htarget r (.inl rfl)
    · have hitems : s.items r = items := by rw [Store.items, hcell]
      cases index with
      | int i =>
        rw [assignIndex_place, hitems] at h
        cases hplace : placeOf? i items.length with
        | none => simp [hplace] at h
        | some place =>
          obtain ⟨hi, hlt⟩ := placeOf?_eq_some.1 hplace
          obtain ⟨before, old, behind, hsplit, hlen, hset⟩ := exists_split_of_lt hlt value
          simp only [hplace, hset, EStateM.Result.ok.injEq, true_and] at h
          rw [hsplit] at hcell
          exact ⟨r, _, _, rfl, hcell, .item rfl (hlen ▸ hi), h.symm⟩
      | _ => cases h
    · cases hat
  | map r =>
    obtain ⟨items | es, hcell, hat⟩ := htarget r (.inr rfl)
    · cases hat
    · have hentries : s.entries r = es := by rw [Store.entries, hcell]
      rw [assignIndex_key, hentries] at h
      rcases hplace : es.position? (sameIn s) index with _ | _ | place
      · simp [hplace] at h
      · simp only [hplace, EStateM.Result.ok.injEq, true_and] at h
        exact ⟨r, _, _, rfl, hcell, .added (Entries.forall_of_position? hplace), h.symm⟩
      · obtain ⟨before, ⟨key, old⟩, behind, rfl, rfl, hkey, hbefore⟩ := Entries.split_of_position? hplace
        simp only [hplace, Entries.replaceAt_split, EStateM.Result.ok.injEq, true_and] at h
        exact ⟨r, _, _, rfl, hcell, .entry hkey hbefore, h.symm⟩
  | _ => cases h

end Assignment

/-! ## What is read afterwards -/

section ReadBack

variable {s t : Store} {r : Ref} {index value j : Value}

/-- What is read from an array depends on its items only. -/
theorem itemIn_array (s : Store) (r : Ref) (i : Int64) : (array r).itemIn s (int i) =
    match (placeOf? i (s.items r).length).bind ((s.items r)[·]?) with
    | some v => .ok v
    | Option.none => .error (.ofFault (.outOfBounds i (s.items r).length)) := by
  simp only [itemIn, Value.index, bind, EStateM.bind, get, getThe, MonadStateOf.get, EStateM.get, itemAt]
  rcases (placeOf? i (s.items r).length).bind ((s.items r)[·]?) with _ | v <;> rfl

/-- What is read from a map, where the search comes to an end. -/
theorem itemIn_map {found : Option Value} (h : (s.entries r).get? (sameIn s) j = some found) :
    (map r).itemIn s j = found.elim (.error (.ofFault (.keyNotFound (j.text s)))) .ok := by
  simp only [itemIn, Value.index, bind, EStateM.bind, get, getThe, MonadStateOf.get, EStateM.get,
    StoreM.ofSettled, h]
  cases found <;> rfl

/-- Reading changes nothing. -/
theorem index_eq_ok {target v : Value} (h : target.itemIn s index = .ok v) :
    target.index index s = .ok v s := by
  have hstore := Eval.storeAfter_index target index s
  unfold itemIn at h
  unfold Eval.storeAfter at hstore
  cases hread : target.index index s with
  | ok w u =>
    rw [hread] at h hstore
    cases h
    rw [← hstore]
  | error stop u =>
    rw [hread] at h
    cases h

/-- After a write to a place of an array the value is read there, and at any other index what was read
before. -/
theorem array_reads_back {before behind : List Value} {old : Value} {i : Int64}
    (hplace : i.toInt = before.length) (hs : s.items r = before ++ old :: behind)
    (ht : t.items r = before ++ value :: behind) :
    (array r).itemIn t (int i) = .ok value ∧
      (¬ Same s (int i) j → (array r).itemIn t j = (array r).itemIn s j) := by
  have hlength : (before ++ value :: behind).length = (before ++ old :: behind).length := by simp
  constructor
  · have hat : placeOf? i (before ++ value :: behind).length = some before.length :=
      placeOf?_eq_some.2 ⟨hplace, by simp⟩
    rw [itemIn_array, ht, hat, Option.bind_some]
    simp
  · intro hdiffers
    cases j with
    | int k =>
      rw [itemIn_array, itemIn_array, hs, ht, hlength]
      cases hk : placeOf? k (before ++ old :: behind).length with
      | none => rfl
      | some place =>
        have hne : place ≠ before.length := by
          intro heq
          have hki : k.toInt = i.toInt := by
            rw [(placeOf?_eq_some.1 hk).1, hplace, heq]
          exact hdiffers (Int64.toInt_inj.1 hki ▸ (Alike.int k).same)
        rw [Option.bind_some, Option.bind_some, getElem?_of_ne hne]
    | _ => rfl

/-- What a search has passed is not what it looks for. -/
theorem find?_eq_none_of_passed {es : Entries} (h : ∀ e ∈ es, equal? s e.1 index = some false) :
    (es.find? fun e => Same s e.1 index) = Option.none := by
  refine List.find?_eq_none.2 fun e he => ?_
  simp [Same, h e he]

section Kept

variable {P : Value → Prop} (heq : EquivalenceOn s P) (hkept : KeysKept P s t)

include heq hkept

/-- What is read from a map, by the keys as they compare before a change that none of them is reached
by. -/
theorem itemIn_eq_find? {es : Entries} {key : Value} (hes : t.entries r = es) (hkeys : ∀ e ∈ es, P e.1)
    (hkey : P key) :
    (map r).itemIn t key = ((es.find? fun e => Same s e.1 key).map (·.2)).elim
      (.error (.ofFault (.keyNotFound (key.text s)))) .ok := by
  have hcompare : ∀ e ∈ es, sameIn t e.1 key = equal? s e.1 key := fun e he =>
    KeysKept.equal? heq hkept (hkeys e he) hkey
  have hsettled : ∀ e ∈ es, (sameIn t e.1 key).isSome := by
    intro e he
    rw [hcompare e he]
    exact heq.settled (hkeys e he) hkey
  have hfind : (es.find? fun e => sameIn t e.1 key = some true) = es.find? fun e => Same s e.1 key := by
    refine List.find?_congr fun e he => ?_
    rw [hcompare e he]
    rfl
  have hget := Entries.get?_eq_find? hsettled
  rw [hfind] at hget
  rw [← hes] at hget
  rw [itemIn_map hget, text_unchanged (hkept key hkey), hes]

/-- After a write to a key of a map the value is read there, and at any other key what was read before. -/
theorem map_reads_back {entries after : Entries}
    (hwritten : Cell.ItemWritten s index value (.map entries) (.map after))
    (hs : s.entries r = entries) (ht : t.entries r = after) (hkeys : ∀ k ∈ entries.keys, P k)
    (hindex : P index) (hj : P j) :
    (map r).itemIn t index = .ok value ∧
      (¬ Same s index j → (map r).itemIn t j = (map r).itemIn s j) := by
  have hold : ∀ e ∈ entries, P e.1 := fun e he => hkeys e.1 (List.mem_map_of_mem he)
  have hbefore := itemIn_eq_find? heq (t := s) (fun _ _ _ _ => rfl) hs hold hj
  cases hwritten with
  | @entry before behind key old hkey hpassed =>
    have hsame : Entries.keys (before ++ (key, value) :: behind) =
        Entries.keys (before ++ (key, old) :: behind) := by simp [Entries.keys]
    have hnew : ∀ e ∈ before ++ (key, value) :: behind, P e.1 := fun e he =>
      hkeys e.1 (hsame ▸ List.mem_map_of_mem he)
    have hnone := find?_eq_none_of_passed hpassed
    rw [itemIn_eq_find? heq hkept ht hnew hindex, itemIn_eq_find? heq hkept ht hnew hj, hbefore]
    refine ⟨by simp [List.find?_append, hnone, hkey], fun hdiffers => ?_⟩
    -- the key that is written to is equal to the index, and so not to `j`
    have hother : ¬ Same s key j := by
      intro hkeyj
      have hkeyP : P key := hold (key, old) (by simp)
      exact hdiffers (heq.trans hindex hkeyP hj (heq.symm hkeyP hindex hkey) hkeyj)
    simp [List.find?_append, hother]
  | added hpassed =>
    have hnew : ∀ e ∈ entries ++ [(index, value)], P e.1 := by
      intro e he
      rcases List.mem_append.1 he with he | he
      · exact hold e he
      · rw [List.mem_singleton.1 he]
        exact hindex
    have hnone := find?_eq_none_of_passed hpassed
    rw [itemIn_eq_find? heq hkept ht hnew hindex, itemIn_eq_find? heq hkept ht hnew hj, hbefore]
    refine ⟨by simp [List.find?_append, hnone, heq.refl hindex], fun hdiffers => ?_⟩
    simp [List.find?_append, hdiffers]

end Kept

end ReadBack

end Value

/-! ## The main statement -/

/-- Equality is an equivalence on the keys of a map and two more, and none of these reaches the map. -/
structure KeysCompare (s : Store) (r : Ref) (entries : Entries) (index j : Value) : Prop where
  equivalence : EquivalenceOn s fun k => k = index ∨ k = j ∨ k ∈ entries.keys
  unreached : NoKeyReaches (fun k => k = index ∨ k = j ∨ k ∈ entries.keys) s r

/-- **Item assignment is atomic and read back.** The target is anything that a program can come to hold:
what refers to a collection refers to one of its kind. If the assignment fails, no collection has changed.
If it succeeds, only the collection that is assigned to has, in one place. Then the value is read at the
index, and at any index that is not equal to it what was read before. For maps this is so if equality is
an equivalence on the keys that are compared and none of these reaches the map; the value may be
anything. -/
theorem assignment_is_atomic {s : Store} {target index value : Value} (htarget : target.Kinded s) :
    (∀ stop t, target.assignIndex index value s = .error stop t → t = s) ∧
      ∀ t, target.assignIndex index value s = .ok () t →
        ∃ (r : Ref) (c c' : Cell), c.at r = target ∧ s.cells[r.index]? = some c ∧
          t.cells[r.index]? = some c' ∧ c.ItemWritten s index value c' ∧
          t.size = s.size ∧ (∀ q, q ≠ r → t.cells[q.index]? = s.cells[q.index]?) ∧
          ∀ j, (∀ entries, c = .map entries → KeysCompare s r entries index j) →
            target.index index t = .ok value t ∧
              (¬ Same s index j → target.itemIn t j = target.itemIn s j) := by
  refine ⟨fun stop t h => Value.assignIndex_error h, fun t h => ?_⟩
  obtain ⟨r, c, c', hat, hcell, hwritten, rfl⟩ := Value.assignIndex_ok htarget h
  have hcell' : (s.put r c').cells[r.index]? = some c' := Store.cell_put_self hcell
  have hothers : ∀ q, q ≠ r → (s.put r c').cells[q.index]? = s.cells[q.index]? := by
    intro q hq
    rw [s.cell_put r q c' (Array.getElem?_eq_some_iff.1 hcell).1, if_neg hq]
  refine ⟨r, c, c', hat, hcell, hcell', hwritten, s.size_put r c', hothers, fun j hcompare => ?_⟩
  have hread : target.itemIn (s.put r c') index = .ok value ∧
      (¬ Same s index j → target.itemIn (s.put r c') j = target.itemIn s j) := by
    subst hat
    cases c with
    | array items =>
      cases hwritten with
      | item hindex hplace =>
        subst hindex
        exact Value.array_reads_back hplace (by rw [Store.items, hcell]) (by rw [Store.items, hcell'])
    | map entries =>
      obtain ⟨heq, hreach⟩ := hcompare entries rfl
      have hmap : ∃ after, c' = .map after := by
        cases hwritten <;> exact ⟨_, rfl⟩
      obtain ⟨after, rfl⟩ := hmap
      exact Value.map_reads_back heq (hreach.put _) hwritten (by rw [Store.entries, hcell])
        (by rw [Store.entries, hcell']) (fun k hk => .inr (.inr hk)) (.inl rfl) (.inr (.inl rfl))
  exact ⟨Value.index_eq_ok hread.1, hread.2⟩

/-- A map of two numbers. -/
def numbersStore : Store := ⟨#[.map [(.int 1, .string "one"), (.int 2, .string "two")]]⟩

/-- The map comes to hold itself, and what it had for the other number is left. -/
theorem assignment_is_atomic_holdsItself :
    (Value.map ⟨0⟩).Kinded numbersStore ∧
      ∃ t, (Value.map ⟨0⟩).assignIndex (.int 2) (.map ⟨0⟩) numbersStore = .ok () t ∧
        (Value.map ⟨0⟩).index (.int 2) t = .ok (.map ⟨0⟩) t ∧
        (Value.map ⟨0⟩).itemIn t (.int 1) = .ok (.string "one") := by
  have hkinded : (Value.map ⟨0⟩).Kinded numbersStore := by
    intro r hr
    rcases hr with h | h
    · cases h
    · cases h
      exact ⟨_, rfl, rfl⟩
  have hassign : (Value.map ⟨0⟩).assignIndex (.int 2) (.map ⟨0⟩) numbersStore =
      .ok () ⟨#[.map [(.int 1, .string "one"), (.int 2, .map ⟨0⟩)]]⟩ := rfl
  obtain ⟨r, c, c', hat, hcell, -, -, -, -, hread⟩ := (assignment_is_atomic hkinded).2 _ hassign
  obtain rfl : r = ⟨0⟩ := by
    cases c with
    | array items => cases hat
    | map entries => exact Value.map.inj hat
  have hcompare : ∀ entries, c = .map entries → KeysCompare numbersStore ⟨0⟩ entries (.int 2) (.int 1) := by
    rintro entries rfl
    cases hcell
    have hnumber : ∀ k : Value, (k = .int 2 ∨ k = .int 1 ∨ k ∈ Entries.keys
        [(.int 1, .string "one"), (.int 2, .string "two")]) → k = .int 1 ∨ k = .int 2 := by
      simp [Entries.keys]
    refine ⟨⟨fun hv hw => ?_, fun hv => ?_, fun hv hw => ?_, fun hu hv hw => ?_⟩, fun k hk hr => ?_⟩
    · rcases hnumber _ hv with rfl | rfl <;> rcases hnumber _ hw with rfl | rfl <;> decide
    · rcases hnumber _ hv with rfl | rfl <;> decide
    · rcases hnumber _ hv with rfl | rfl <;> rcases hnumber _ hw with rfl | rfl <;> decide
    · rcases hnumber _ hu with rfl | rfl <;> rcases hnumber _ hv with rfl | rfl <;>
        rcases hnumber _ hw with rfl | rfl <;> decide
    · -- nothing is found in a number
      obtain ⟨w, hw, hcollection⟩ := hr
      rcases Relation.ReflTransGen.cases_head hw with rfl | ⟨x, hx, -⟩
      · rcases hnumber _ hk with rfl | rfl <;> rcases hcollection with h | h <;> cases h
      · rcases hnumber _ hk with rfl | rfl <;> cases hx
  obtain ⟨hindex, hother⟩ := hread (.int 1) hcompare
  exact ⟨hkinded, _, hassign, hindex, hother (by decide)⟩

end Nikl
