import Nikl.Proofs.Token.Spelling
import Nikl.Proofs.Value.Data
import Nikl.Value.Equality

/-
Equality of data, and of the values that it stands for. Two values are equal if their data is, whatever
collections they are made of (`Describes.equal?`); so keys that differ still differ when they are made
anew, and what is made anew is equal to what it was made from.

A collection is equal to itself without a look at what it holds. For data this is no exception, as long
as no map has a key twice: then a map has each of its own entries.
-/

set_option autoImplicit false

namespace Nikl

namespace Data

/-! ## Equality of data -/

mutual

/-- Whether two values with this data are equal. -/
def same : Data → Data → Bool
  | .int a, .int b => a == b
  | .bool a, .bool b => a == b
  | .string a, .string b => a == b
  | .none, .none => true
  | .tuple ds, .tuple es => ds.length == es.length && sameItems ds es
  | .array ds, .array es => ds.length == es.length && sameItems ds es
  -- the keys of the second map are those that are stored, and they come first in each comparison
  | .map ds, .map es => ds.length == es.length && sameEntries es ds
  | _, _ => false
termination_by d e => sizeOf d + sizeOf e

/-- Whether two lists are equal as far as both go. -/
def sameItems : List Data → List Data → Bool
  | d :: ds, e :: es => same d e && sameItems ds es
  | _, _ => true
termination_by ds es => sizeOf ds + sizeOf es

/-- Whether the first of some entries that has a key has a value. -/
def sameEntry (key value : Data) : List (Data × Data) → Bool
  | [] => false
  | (k, v) :: rest => if same k key then same v value else sameEntry key value rest
termination_by entries => sizeOf entries + sizeOf key + sizeOf value

/-- Whether some entries are all among others. -/
def sameEntries (entries : List (Data × Data)) : List (Data × Data) → Bool
  | [] => true
  | (key, value) :: rest => sameEntry key value entries && sameEntries entries rest
termination_by others => sizeOf entries + sizeOf others

end

/-- Data that reads as itself again: its numbers can be written as signs before literals, its texts are
of characters that can be written, and no map has a key twice. -/
inductive Sound : Data → Prop
  | int {n : Int64} (h : n ≠ Int64.minValue) : Sound (.int n)
  | bool (b : Bool) : Sound (.bool b)
  | none : Sound .none
  | string {content : String} (h : ∀ c ∈ content.toList, Text.Quoted.Readable c) :
    Sound (.string content)
  | tuple {items : List Data} (h : ∀ d ∈ items, Sound d) : Sound (.tuple items)
  | array {items : List Data} (h : ∀ d ∈ items, Sound d) : Sound (.array items)
  | map {entries : List (Data × Data)} (hkeys : entries.Pairwise fun d e => same d.1 e.1 = false)
    (hkey : ∀ e ∈ entries, Sound e.1) (hvalue : ∀ e ∈ entries, Sound e.2) : Sound (.map entries)

/-! ## Data is equal to itself -/

theorem sameItems_self {ds : List Data} (h : ∀ d ∈ ds, same d d = true) :
    sameItems ds ds = true := by
  induction ds with
  | nil => rw [sameItems]; simp
  | cons d rest ih =>
    rw [List.forall_mem_cons] at h
    rw [sameItems, h.1, ih h.2, Bool.and_self]

theorem sameEntries_eq_true {ds es : List (Data × Data)} :
    sameEntries ds es = true ↔ ∀ e ∈ es, sameEntry e.1 e.2 ds = true := by
  induction es with
  | nil => simp [sameEntries]
  | cons e rest ih => rw [sameEntries, Bool.and_eq_true, ih, List.forall_mem_cons]

/-- An entry is found where no key is there twice. -/
theorem sameEntry_of_mem {ds : List (Data × Data)} {e : Data × Data}
    (hkeys : ds.Pairwise fun d e => same d.1 e.1 = false) (he : e ∈ ds)
    (hkey : same e.1 e.1 = true) (hvalue : same e.2 e.2 = true) : sameEntry e.1 e.2 ds = true := by
  induction ds with
  | nil => cases he
  | cons d rest ih =>
    rw [List.pairwise_cons] at hkeys
    rw [sameEntry]
    rcases List.mem_cons.1 he with rfl | he
    · rw [hkey, if_pos rfl, hvalue]
    -- the key before it is another one, so the search goes on
    · rw [hkeys.1 e he, if_neg Bool.false_ne_true, ih hkeys.2 he]

theorem Sound.same_self {d : Data} (h : d.Sound) : same d d = true := by
  induction d using Data.induct with
  | int | bool | string | none =>
    rw [same]
    try exact BEq.rfl
  | tuple items ih =>
    cases h with
    | tuple h => rw [same, sameItems_self fun d hd => ih d hd (h d hd), Bool.and_true, beq_self_eq_true]
  | array items ih =>
    cases h with
    | array h => rw [same, sameItems_self fun d hd => ih d hd (h d hd), Bool.and_true, beq_self_eq_true]
  | map entries ihKey ihValue =>
    cases h with
    | map hkeys hkey hvalue =>
      have hall : sameEntries entries entries = true := by
        rw [sameEntries_eq_true]
        intro e he
        exact sameEntry_of_mem hkeys he (ihKey e he (hkey e he)) (ihValue e he (hvalue e he))
      rw [same, hall, Bool.and_true, beq_self_eq_true]

end Data

/-! ## Values are equal as their data is -/

open Data

section Lists

variable {s : Store} {same' : Value → Value → Settled Bool}

/-- Collections of two sizes are told apart by their sizes alone. -/
theorem if_length_eq {n k : Nat} {b : Bool} :
    (if n = k then some b else return false : Settled Bool) = some (n == k && b) := by
  by_cases h : n = k
  · rw [if_pos h, h, beq_self_eq_true, Bool.true_and]
  · rw [if_neg h, beq_false_of_ne h, Bool.false_and]
    rfl

theorem itemsEqual_go_eq {ds es : List Data} {vs ws : List Value}
    (hv : List.Forall₂ (Describes s) ds vs) (hw : List.Forall₂ (Describes s) es ws)
    (hsame : ∀ d ∈ ds, ∀ e ∈ es, ∀ v w, Describes s d v → Describes s e w →
      same' v w = some (same d e)) :
    itemsEqual.go same' vs ws = some (sameItems ds es) := by
  induction hv generalizing es ws with
  | nil =>
    rw [sameItems, itemsEqual.go]
    · rfl
    all_goals simp
  | cons hdv _ ih =>
    cases hw with
    | nil =>
      rw [sameItems, itemsEqual.go]
      · rfl
      all_goals simp
    | cons hew hw =>
      have hhead := hsame _ List.mem_cons_self _ List.mem_cons_self _ _ hdv hew
      have hrest := ih hw fun d hd e he =>
        hsame d (List.mem_cons_of_mem _ hd) e (List.mem_cons_of_mem _ he)
      rw [sameItems, itemsEqual.go, hhead, hrest]
      cases same _ _ <;> rfl

theorem itemsEqual_eq {ds es : List Data} {vs ws : List Value}
    (hv : List.Forall₂ (Describes s) ds vs) (hw : List.Forall₂ (Describes s) es ws)
    (hsame : ∀ d ∈ ds, ∀ e ∈ es, ∀ v w, Describes s d v → Describes s e w →
      same' v w = some (same d e)) :
    itemsEqual same' vs ws = some (ds.length == es.length && sameItems ds es) := by
  rw [itemsEqual, itemsEqual_go_eq hv hw hsame, ← hv.length_eq, ← hw.length_eq, if_length_eq]

/-- What a map has for a key, compared with a value. -/
theorem get?_eq {ds : List (Data × Data)} {es : Entries} {d d' : Data} {v v' : Value}
    (h : List.Forall₂ (DescribesEntry s) ds es)
    (hkey : ∀ e ∈ ds, ∀ w, Describes s e.1 w → same' w v = some (same e.1 d))
    (hvalue : ∀ e ∈ ds, ∀ w, Describes s e.2 w → same' w v' = some (same e.2 d')) :
    (∃ w, es.get? same' v = some (some w) ∧ same' w v' = some (sameEntry d d' ds)) ∨
      (es.get? same' v = some Option.none ∧ sameEntry d d' ds = false) := by
  induction h with
  | nil => exact .inr ⟨rfl, by rw [sameEntry]⟩
  | @cons e w ds es hew _ ih =>
    have hhead := hkey e List.mem_cons_self w.1 hew.key
    have hget : Entries.get? same' v (w :: es) =
        if same e.1 d then some (some w.2) else Entries.get? same' v es := by
      rw [Entries.get?, hhead]
      cases same e.1 d <;> rfl
    rw [hget, sameEntry]
    cases same e.1 d with
    | true =>
      refine .inl ⟨w.2, rfl, ?_⟩
      exact hvalue e List.mem_cons_self w.2 hew.value
    | false =>
      exact ih (fun e he => hkey e (List.mem_cons_of_mem _ he))
        (fun e he => hvalue e (List.mem_cons_of_mem _ he))

/-- Whether a map has all entries of another one. -/
theorem includes_eq {ds es : List (Data × Data)} {vs ws : Entries}
    (hv : List.Forall₂ (DescribesEntry s) ds vs) (hw : List.Forall₂ (DescribesEntry s) es ws)
    (hkey : ∀ d ∈ ds, ∀ e ∈ es, ∀ w v, Describes s e.1 w → Describes s d.1 v →
      same' v w = some (same d.1 e.1))
    (hvalue : ∀ d ∈ ds, ∀ e ∈ es, ∀ w v, Describes s e.2 w → Describes s d.2 v →
      same' v w = some (same d.2 e.2)) :
    vs.includes same' ws = some (sameEntries ds es) := by
  induction hw with
  | nil =>
    rw [sameEntries]
    rfl
  | @cons e w es ws hew _ ih =>
    have hrest := ih (fun d hd e he => hkey d hd e (List.mem_cons_of_mem _ he))
      fun d hd e he => hvalue d hd e (List.mem_cons_of_mem _ he)
    -- what the search finds, or that it finds nothing, is the same on both sides
    have hfound := @get?_eq _ _ _ _ e.1 e.2 w.1 w.2 hv
      (fun d hd v hv => hkey d hd e List.mem_cons_self _ v hew.key hv)
      (fun d hd v hv => hvalue d hd e List.mem_cons_self _ v hew.value hv)
    rw [sameEntries, Entries.includes, hrest]
    rcases hfound with ⟨v, hget, hsame⟩ | ⟨hget, hsame⟩
    · rw [hget]
      show (same' v w.2 >>= fun b => if b = true then _ else return false) = _
      rw [hsame]
      cases sameEntry e.1 e.2 ds <;> rfl
    · rw [hget, hsame]
      rfl

theorem entriesEqual_eq {ds es : List (Data × Data)} {vs ws : Entries}
    (hv : List.Forall₂ (DescribesEntry s) ds vs) (hw : List.Forall₂ (DescribesEntry s) es ws)
    (hkey : ∀ d ∈ ds, ∀ e ∈ es, ∀ v w, Describes s d.1 v → Describes s e.1 w →
      same' w v = some (same e.1 d.1))
    (hvalue : ∀ d ∈ ds, ∀ e ∈ es, ∀ v w, Describes s d.2 v → Describes s e.2 w →
      same' w v = some (same e.2 d.2)) :
    entriesEqual same' vs ws = some (ds.length == es.length && sameEntries es ds) := by
  have hincludes := includes_eq hw hv (fun e he d hd => hkey d hd e he) fun e he d hd => hvalue d hd e he
  rw [entriesEqual, hincludes, ← hv.length_eq, ← hw.length_eq, if_length_eq]

end Lists

namespace Value

/-- Equality at any depth goes one level down the trees, whatever compares what collections hold. -/
theorem equalWithin_eq (s : Store) (n : Nat) :
    ∃ inner, equalWithin s n = equalWith s inner := by
  cases n <;> exact ⟨_, rfl⟩

theorem tuplesEqualWith_eq {ν : Type} (s : Store ν) (inner : Value ν → Value ν → Settled Bool)
    (vs ws : List (Value ν)) :
    tuplesEqualWith s inner vs ws = itemsEqual.go (equalWith s inner) vs ws := by
  induction vs generalizing ws with
  | nil =>
    rw [tuplesEqualWith, itemsEqual.go]
    all_goals simp
  | cons v vs ih =>
    cases ws with
    | nil =>
      rw [tuplesEqualWith, itemsEqual.go]
      all_goals simp
    | cons w ws => rw [tuplesEqualWith, itemsEqual.go, ih]

theorem equalWithin_tuple (s : Store) (n : Nat) (vs ws : List Value) :
    equalWithin s n (.tuple vs) (.tuple ws) = itemsEqual (equalWithin s n) vs ws := by
  obtain ⟨inner, hinner⟩ := equalWithin_eq s n
  rw [hinner, equalWith, itemsEqual, tuplesEqualWith_eq]

theorem equalWithin_array (s : Store) (n : Nat) {r q : Ref} (h : r ≠ q) :
    equalWithin s (n + 1) (.array r) (.array q) =
      itemsEqual (equalWithin s n) (s.items r) (s.items q) := if_neg h

theorem equalWithin_map (s : Store) (n : Nat) {r q : Ref} (h : r ≠ q) :
    equalWithin s (n + 1) (.map r) (.map q) =
      entriesEqual (equalWithin s n) (s.entries r) (s.entries q) := if_neg h

/-- A collection is equal to itself. -/
theorem equalWithin_self (s : Store) (n : Nat) (r : Ref) :
    equalWithin s n (.array r) (.array r) = some true ∧ equalWithin s n (.map r) (.map r) = some true := by
  obtain ⟨inner, hinner⟩ := equalWithin_eq s n
  rw [hinner]
  exact ⟨if_pos rfl, if_pos rfl⟩

end Value

/-- **Values are equal as their data is**, at any depth that is enough for both. Both the values and what
they hold may change places on the way down, so the induction is on the sizes of both. -/
theorem Describes.equalWithin {s : Store} {d e : Data} {v w : Value} {n : Nat} (hv : Describes s d v)
    (hw : Describes s e w) (hd : d.Sound) (he : e.Sound) (hdn : d.depth ≤ n) (hen : e.depth ≤ n) :
    v.equalWithin s n w = some (same d e) := by
  induction hm : sizeOf d + sizeOf e using Nat.strongRecOn generalizing d e v w n with
  | ind m ih =>
  obtain ⟨inner, hinner⟩ := Value.equalWithin_eq s n
  cases hv with
  | int a => cases hw <;> (rw [hinner]; simp [Value.equalWith, same])
  | bool a => cases hw <;> (rw [hinner]; simp [Value.equalWith, same])
  | string a => cases hw <;> (rw [hinner]; simp [Value.equalWith, same])
  | none => cases hw <;> (rw [hinner]; simp [Value.equalWith, same])
  | @tuple ds vs hvs =>
    cases hw with
    | @tuple es ws hws =>
      rw [Value.equalWithin_tuple, same]
      cases hd with | tuple hd =>
      cases he with | tuple he =>
      refine itemsEqual_eq hvs hws fun d hdm e hem v w hv hw => ?_
      have hdn' := depth_le_tuple hdm
      have hen' := depth_le_tuple hem
      have hds := List.sizeOf_lt_of_mem hdm
      have hes := List.sizeOf_lt_of_mem hem
      rw [tuple.sizeOf_spec, tuple.sizeOf_spec] at hm
      exact ih _ (by omega) hv hw (hd d hdm) (he e hem) (by omega) (by omega) rfl
    | _ => rw [hinner]; simp [Value.equalWith, same]
  | @array ds r vs hcell hvs =>
    cases hw with
    | @array es q ws hcell' hws =>
      -- one and the same collection is not looked into, so its data has to be equal to itself
      by_cases hrq : r = q
      · subst hrq
        have heq := (Describes.array hcell hvs).unique (.array hcell' hws)
        rw [(Value.equalWithin_self s n r).1, ← heq, hd.same_self]
      · obtain ⟨k, rfl⟩ : ∃ k, n = k + 1 := ⟨n - 1, by rw [depth] at hdn; omega⟩
        have hr : s.items r = vs := by rw [Store.items, hcell]
        have hq : s.items q = ws := by rw [Store.items, hcell']
        rw [Value.equalWithin_array s k hrq, hr, hq, same]
        cases hd with | array hd =>
        cases he with | array he =>
        refine itemsEqual_eq hvs hws fun d hdm e hem v w hv hw => ?_
        have hdn' := depth_lt_array hdm
        have hen' := depth_lt_array hem
        have hds := List.sizeOf_lt_of_mem hdm
        have hes := List.sizeOf_lt_of_mem hem
        rw [array.sizeOf_spec, array.sizeOf_spec] at hm
        exact ih _ (by omega) hv hw (hd d hdm) (he e hem) (by omega) (by omega) rfl
    | _ => rw [hinner]; simp [Value.equalWith, same]
  | @map ds r vs hcell hvs =>
    cases hw with
    | @map es q ws hcell' hws =>
      by_cases hrq : r = q
      · subst hrq
        have heq := (Describes.map hcell hvs).unique (.map hcell' hws)
        rw [(Value.equalWithin_self s n r).2, ← heq, hd.same_self]
      · obtain ⟨k, rfl⟩ : ∃ k, n = k + 1 := ⟨n - 1, by rw [depth] at hdn; omega⟩
        have hr : s.entries r = vs := by rw [Store.entries, hcell]
        have hq : s.entries q = ws := by rw [Store.entries, hcell']
        rw [Value.equalWithin_map s k hrq, hr, hq, same]
        cases hd with | map _ hdk hdv =>
        cases he with | map _ hek hev =>
        -- keys and values are compared the other way round, which both sizes together do not notice
        refine entriesEqual_eq hvs hws (fun d hdm e hem v w hv hw => ?_)
          fun d hdm e hem v w hv hw => ?_
        · have hdn' := depth_lt_map hdm
          have hen' := depth_lt_map hem
          have hds := sizeOf_key_lt hdm
          have hes := sizeOf_key_lt hem
          exact ih _ (by omega) hw hv (hek e hem) (hdk d hdm) (by omega) (by omega) rfl
        · have hdn' := depth_lt_map hdm
          have hen' := depth_lt_map hem
          have hds := sizeOf_value_lt hdm
          have hes := sizeOf_value_lt hem
          exact ih _ (by omega) hw hv (hev e hem) (hdv d hdm) (by omega) (by omega) rfl
    | _ => rw [hinner]; simp [Value.equalWith, same]

theorem Describes.equal? {s : Store} {d e : Data} {v w : Value} (hv : Describes s d v)
    (hw : Describes s e w) (hd : d.Sound) (he : e.Sound) : v.equal? s w = some (same d e) :=
  have hsize := Nat.le_mul_self s.size
  hv.equalWithin hw hd he (Nat.le_trans hv.depth_le hsize) (Nat.le_trans hw.depth_le hsize)

/-! ## Values that say something -/

/-- Values without floating-point numbers, functions and cycles, of which everything can be written: no
integer is the least one, every character of a text is written as itself or by a short escape, and no
two keys of a map are equal. -/
inductive Value.IsData (s : Store) : Value → Prop
  | int {n : Int64} (h : n ≠ Int64.minValue) : IsData s (.int n)
  | bool (b : Bool) : IsData s (.bool b)
  | none : IsData s .none
  | string {content : String} (h : ∀ c ∈ content.toList, Text.Quoted.Readable c) :
    IsData s (.string content)
  | tuple {items : List Value} (h : ∀ v ∈ items, IsData s v) : IsData s (.tuple items)
  | array {r : Ref} {items : List Value} (hcell : s.cells[r.index]? = some (.array items))
    (h : ∀ v ∈ items, IsData s v) : IsData s (.array r)
  | map {r : Ref} {entries : Entries} (hcell : s.cells[r.index]? = some (.map entries))
    (hkeys : entries.Pairwise fun e f => e.1.equal? s f.1 ≠ some true)
    (hkey : ∀ e ∈ entries, IsData s e.1) (hvalue : ∀ e ∈ entries, IsData s e.2) :
    IsData s (.map r)

/-- Keys that are not equal are of data that is not the same. -/
theorem keys_differ {s : Store} {ds : List (Data × Data)} {es : Entries}
    (h : List.Forall₂ (DescribesEntry s) ds es) (hds : ∀ d ∈ ds, d.1.Sound)
    (hkeys : es.Pairwise fun e f => e.1.equal? s f.1 ≠ some true) :
    ds.Pairwise fun d e => same d.1 e.1 = false := by
  induction h with
  | nil => exact .nil
  | @cons d e ds es hde hrest ih =>
    rw [List.pairwise_cons] at hkeys ⊢
    rw [List.forall_mem_cons] at hds
    refine ⟨fun d' hd' => ?_, ih hds.2 hkeys.2⟩
    obtain ⟨e', he', hde'⟩ := exists_of_forall₂ hrest hd'
    have hne := hkeys.1 e' he'
    rw [hde.key.equal? hde'.key hds.1 (hds.2 d' hd')] at hne
    exact Bool.eq_false_iff.2 fun hsame => hne (congrArg some hsame)

/-- Such a value says something that can be written and read. -/
theorem Value.IsData.describes {s : Store} {v : Value} (h : v.IsData s) :
    ∃ d, Describes s d v ∧ d.Sound := by
  induction h with
  | @int n h => exact ⟨.int n, .int n, .int h⟩
  | bool b => exact ⟨.bool b, .bool b, .bool b⟩
  | none => exact ⟨.none, .none, .none⟩
  | @string content h => exact ⟨.string content, .string content, .string h⟩
  | tuple h ih =>
    obtain ⟨ds, hds, hsound⟩ := exists_forall₂ ih
    exact ⟨.tuple ds, .tuple hds, .tuple hsound⟩
  | array hcell h ih =>
    obtain ⟨ds, hds, hsound⟩ := exists_forall₂ ih
    exact ⟨.array ds, .array hcell hds, .array hsound⟩
  | map hcell hkeys hkey hvalue ihKey ihValue =>
    -- keys that differ as values differ as data only once both are known to be sound
    have hentry : ∀ e ∈ ‹Entries›, ∃ d, DescribesEntry s d e ∧ d.1.Sound ∧ d.2.Sound := by
      intro e he
      obtain ⟨k, hk, hks⟩ := ihKey e he
      obtain ⟨x, hx, hxs⟩ := ihValue e he
      exact ⟨(k, x), .mk hk hx, hks, hxs⟩
    obtain ⟨ds, hds, hsound⟩ := exists_forall₂ hentry
    have hdiffer := keys_differ hds (fun d hd => (hsound d hd).1) hkeys
    exact ⟨.map ds, .map hcell hds,
      .map hdiffer (fun d hd => (hsound d hd).1) fun d hd => (hsound d hd).2⟩

end Nikl
