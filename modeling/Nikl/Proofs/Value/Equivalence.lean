import Mathlib
import Nikl.Proofs.Value.Nesting

/-
Equality as an equivalence. In an acyclic store every comparison is settled, and equality is reflexive,
symmetric and transitive on values in which there is no number that is not a number and no map with two
equal keys (`equality_is_equivalence`).

All three laws are proved together, one depth after the other (`EquivalenceOn`), since maps mix them.
One map has all entries of another if for each of these the first stored key that is equal to its key
comes with an equal value. That the first such key is the only one takes symmetry and transitivity for
the keys; that the other map has all entries of this one takes counting: no two entries find the same
one, there are equally many, so none is left over.
-/

set_option autoImplicit false

namespace Nikl

theorem float_beq_self {x : Float} (h : x.isNaN = false) : (x == x) = true :=
  Float.beq_self_iff.2 (of_decide_eq_false (Float.isNaN_eq_decide_eq_nan.symm.trans h))

/-! ## Counting -/

/-- If there are no more on the right than on the left, each on the left has one on the right, and no two
have the same one, then each on the right is had. -/
theorem found_of_length_le {α β : Type} {R : α → β → Prop} {as : List α} {bs : List β}
    (hlen : bs.length ≤ as.length) (hfound : ∀ a ∈ as, ∃ b ∈ bs, R a b)
    (hone : as.Pairwise fun a a' => ∀ b ∈ bs, R a b → ¬ R a' b) : ∀ b ∈ bs, ∃ a ∈ as, R a b := by
  induction as generalizing bs with
  | nil =>
    intro b hb
    rw [List.eq_nil_of_length_eq_zero (Nat.le_zero.1 hlen)] at hb
    cases hb
  | cons a as ih =>
    rw [List.forall_mem_cons] at hfound
    rw [List.pairwise_cons] at hone
    obtain ⟨c, hc, hac⟩ := hfound.1
    obtain ⟨front, back, rfl⟩ := List.append_of_mem hc
    have hmem : ∀ b, b ∈ front ++ c :: back ↔ b = c ∨ b ∈ front ++ back := fun b =>
      List.perm_middle.mem_iff.trans List.mem_cons
    -- what the first one has, none of the others has, so they find theirs among the rest
    have hrest : ∀ b ∈ front ++ back, ∃ a' ∈ as, R a' b := by
      refine ih ?_ (fun a' ha' => ?_) (hone.2.imp fun h b hb => h b ((hmem b).2 (.inr hb)))
      · simp only [List.length_append, List.length_cons] at hlen ⊢
        omega
      · obtain ⟨b, hb, hab⟩ := hfound.2 a' ha'
        rcases (hmem b).1 hb with rfl | hb
        · exact absurd hab (hone.1 a' ha' b hc hac)
        · exact ⟨b, hb, hab⟩
    intro b hb
    rcases (hmem b).1 hb with rfl | hb
    · exact ⟨a, List.mem_cons_self, hac⟩
    · obtain ⟨a', ha', hab⟩ := hrest b hb
      exact ⟨a', List.mem_cons_of_mem _ ha', hab⟩

/-! ## Settled and equal contents -/

section Contents

variable {f : Value → Value → Settled Bool}

theorem itemsEqual_eq_true_iff {vs ws : List Value} : itemsEqual f vs ws = some true ↔
    vs.length = ws.length ∧
      ∀ (i : Nat) (h : i < vs.length) (h' : i < ws.length), f vs[i] ws[i] = some true := by
  have hgo : vs.length = ws.length → (itemsEqual.go f vs ws = some true ↔
      List.Forall₂ (fun v w => f v w = some true) vs ws) := by
    intro hlen
    induction vs generalizing ws with
    | nil =>
      rw [List.eq_nil_of_length_eq_zero hlen.symm]
      exact ⟨fun _ => .nil, fun _ => rfl⟩
    | cons v vs ih =>
      cases ws with
      | nil => cases hlen
      | cons w ws =>
        rw [go_cons_cons, List.forall₂_cons, ← ih (Nat.succ.inj hlen), Option.bind_eq_some_iff]
        constructor
        · rintro ⟨same, hsame, hrest⟩
          cases same with
          | false => cases hrest
          | true => exact ⟨hsame, hrest⟩
        · rintro ⟨hsame, hrest⟩
          exact ⟨true, hsame, hrest⟩
  unfold itemsEqual
  split
  · next hlen =>
    rw [hgo hlen, List.forall₂_iff_get]
    rfl
  · next hlen => exact ⟨nofun, fun h => absurd h.1 hlen⟩

theorem isSome_itemsEqual {vs ws : List Value} (h : ∀ v ∈ vs, ∀ w ∈ ws, (f v w).isSome) :
    (itemsEqual f vs ws).isSome := by
  have hgo : (itemsEqual.go f vs ws).isSome := by
    induction vs generalizing ws with
    | nil => rfl
    | cons v vs ih =>
      cases ws with
      | nil => rfl
      | cons w ws =>
        obtain ⟨same, hsame⟩ := Option.isSome_iff_exists.1 (h v List.mem_cons_self w List.mem_cons_self)
        rw [go_cons_cons, hsame]
        cases same with
        | false => rfl
        | true =>
          exact ih fun v hv w hw => h v (List.mem_cons_of_mem _ hv) w (List.mem_cons_of_mem _ hw)
  unfold itemsEqual
  split
  · exact hgo
  · rfl

theorem isSome_get? {key : Value} {es : Entries} (h : ∀ e ∈ es, (f e.1 key).isSome) :
    (es.get? f key).isSome := by
  induction es with
  | nil => rfl
  | cons e es ih =>
    rw [List.forall_mem_cons] at h
    obtain ⟨same, hsame⟩ := Option.isSome_iff_exists.1 h.1
    rw [get?_cons, hsame]
    cases same with
    | false => exact ih h.2
    | true => rfl

theorem isSome_entriesEqual {es fs : Entries} (hkey : ∀ d ∈ fs, ∀ e ∈ es, (f d.1 e.1).isSome)
    (hvalue : ∀ d ∈ fs, ∀ e ∈ es, (f d.2 e.2).isSome) : (entriesEqual f es fs).isSome := by
  have hincludes : (fs.includes f es).isSome := by
    induction es with
    | nil => rfl
    | cons e es ih =>
      have hrest := ih (fun d hd e he => hkey d hd e (List.mem_cons_of_mem _ he))
        fun d hd e he => hvalue d hd e (List.mem_cons_of_mem _ he)
      obtain ⟨found, hfound⟩ :=
        Option.isSome_iff_exists.1 (isSome_get? fun d hd => hkey d hd e List.mem_cons_self)
      rw [includes_cons, hfound]
      cases found with
      | none => rfl
      | some x =>
        obtain ⟨d, hd, -, rfl⟩ := mem_of_get? hfound
        obtain ⟨same, hsame⟩ := Option.isSome_iff_exists.1 (hvalue d hd e List.mem_cons_self)
        simp only [Option.bind_some, hsame]
        cases same with
        | false => rfl
        | true => exact hrest
  unfold entriesEqual
  split
  · exact hincludes
  · rfl

theorem entriesEqual_eq_true_iff {es fs : Entries} : entriesEqual f es fs = some true ↔
    es.length = fs.length ∧
      ∀ e ∈ es, ∃ x, fs.get? f e.1 = some (some x) ∧ f x e.2 = some true := by
  have hincludes : fs.includes f es = some true ↔
      ∀ e ∈ es, ∃ x, fs.get? f e.1 = some (some x) ∧ f x e.2 = some true := by
    induction es with
    | nil => exact ⟨fun _ => nofun, fun _ => rfl⟩
    | cons e es ih =>
      rw [includes_cons, List.forall_mem_cons, ← ih, Option.bind_eq_some_iff]
      constructor
      · rintro ⟨found, hfound, hrest⟩
        cases found with
        | none => cases hrest
        | some x =>
          obtain ⟨same, hsame, hrest⟩ := Option.bind_eq_some_iff.1 hrest
          cases same with
          | false => cases hrest
          | true => exact ⟨⟨x, hfound, hsame⟩, hrest⟩
      · rintro ⟨⟨x, hfound, hsame⟩, hrest⟩
        refine ⟨some x, hfound, ?_⟩
        simp only [hsame, Option.bind_some, if_true]
        exact hrest
  unfold entriesEqual
  split
  · next hlen => rw [hincludes, and_iff_right hlen]
  · next hlen => exact ⟨nofun, fun h => absurd h.1 hlen⟩

/-- A key is found at the only entry that it can be found at. -/
theorem get?_eq_of_mem {key : Value} {es : Entries} {e : Value × Value}
    (hsome : ∀ d ∈ es, (f d.1 key).isSome) (hkeys : es.Pairwise fun d e => f d.1 e.1 ≠ some true)
    (hstep : ∀ d ∈ es, f d.1 key = some true → f d.1 e.1 = some true) (he : e ∈ es)
    (hkey : f e.1 key = some true) : es.get? f key = some (some e.2) := by
  induction es with
  | nil => cases he
  | cons d es ih =>
    rw [List.forall_mem_cons] at hsome hstep
    rw [List.pairwise_cons] at hkeys
    rcases List.mem_cons.1 he with rfl | he
    · rw [get?_cons, hkey]
      rfl
    · obtain ⟨same, hsame⟩ := Option.isSome_iff_exists.1 hsome.1
      rw [get?_cons, hsame]
      cases same with
      | false => exact ih hsome.2 hkeys.2 hstep.2 he
      | true => exact absurd (hstep.1 hsame) (hkeys.1 e he)

end Contents

/-! ## One level of equality -/

namespace Value

/-- Two values are equal in a store. -/
def Same (s : Store) (v w : Value) : Prop := v.equal? s w = some true

/-- Two lists are equal item by item. -/
def ItemsSame (s : Store) (vs ws : List Value) : Prop :=
  vs.length = ws.length ∧ ∀ (i : Nat) (h : i < vs.length) (h' : i < ws.length), Same s vs[i] ws[i]

/-- Two maps are as long, and what the second one has for each key of the first is equal to what the
first one has. -/
def EntriesSame (s : Store) (es fs : Entries) : Prop :=
  es.length = fs.length ∧
    ∀ e ∈ es, ∃ x, fs.get? (equal? s) e.1 = some (some x) ∧ Same s x e.2

/-- When two values are equal, by what they are. -/
inductive Alike (s : Store) : Value → Value → Prop
  | int (n : Int64) : Alike s (int n) (int n)
  | float {x y : Float} (h : (x == y) = true) : Alike s (float x) (float y)
  | bool (b : Bool) : Alike s (bool b) (bool b)
  | string (content : String) : Alike s (string content) (string content)
  | none : Alike s none none
  | function {f g : Closure} (h : f.id = g.id) : Alike s (function f) (function g)
  | builtin (b : Builtin) : Alike s (builtin b) (builtin b)
  | tuple {vs ws : List Value} (h : ItemsSame s vs ws) : Alike s (tuple vs) (tuple ws)
  | array {r q : Ref} (h : r = q ∨ ItemsSame s (s.items r) (s.items q)) : Alike s (array r) (array q)
  | map {r q : Ref} (h : r = q ∨ EntriesSame s (s.entries r) (s.entries q)) : Alike s (map r) (map q)

section Level

variable {s : Store} {v w : Value}

theorem equal?_tuple (s : Store) (vs ws : List Value) :
    equal? s (tuple vs) (tuple ws) = itemsEqual (equal? s) vs ws :=
  equalWithin_tuple s _ vs ws

theorem equal?_array (s : Store) {r q : Ref} (h : r ≠ q) :
    equal? s (array r) (array q) = itemsEqual (equal? s) (s.items r) (s.items q) :=
  (congrFun (congrFun (equal?_eq_equalWith s) _) _).trans (equalWith_array _ h)

theorem equal?_map (s : Store) {r q : Ref} (h : r ≠ q) :
    equal? s (map r) (map q) = entriesEqual (equal? s) (s.entries r) (s.entries q) :=
  (congrFun (congrFun (equal?_eq_equalWith s) _) _).trans (equalWith_map _ h)

theorem equal?_self (s : Store) (r : Ref) :
    equal? s (array r) (array r) = some true ∧ equal? s (map r) (map r) = some true :=
  equalWithin_self s _ r

theorem same_iff_equalWith : Same s v w ↔ equalWith s (equal? s) v w = some true := by
  rw [Same, congrFun (congrFun (equal?_eq_equalWith s) v) w]

theorem itemsSame_iff {vs ws : List Value} :
    itemsEqual (equal? s) vs ws = some true ↔ ItemsSame s vs ws := itemsEqual_eq_true_iff

theorem entriesSame_iff {es fs : Entries} :
    entriesEqual (equal? s) es fs = some true ↔ EntriesSame s es fs := entriesEqual_eq_true_iff

/-- **Equality, one level down**: what is equal is so by what it is. -/
theorem Same.alike (h : Same s v w) : Alike s v w := by
  have hlevel := same_iff_equalWith.1 h
  -- values of two kinds are not equal, so each kind meets only itself
  cases v with
  | tuple vs =>
    cases w with
    | tuple ws => exact .tuple (itemsSame_iff.1 ((equal?_tuple s vs ws).symm.trans h))
    | _ => cases hlevel
  | array r =>
    cases w with
    | array q =>
      refine .array (Classical.or_iff_not_imp_left.2 fun hrq => ?_)
      exact itemsSame_iff.1 ((equal?_array s hrq).symm.trans h)
    | _ => cases hlevel
  | map r =>
    cases w with
    | map q =>
      refine .map (Classical.or_iff_not_imp_left.2 fun hrq => ?_)
      exact entriesSame_iff.1 ((equal?_map s hrq).symm.trans h)
    | _ => cases hlevel
  | float x =>
    cases w with
    | float y => exact .float (Option.some.inj hlevel)
    | _ => cases hlevel
  | function f =>
    cases w with
    | function g => exact .function (eq_of_beq (Option.some.inj hlevel))
    | _ => cases hlevel
  | int a =>
    cases w with
    | int b => exact eq_of_beq (Option.some.inj hlevel) ▸ .int a
    | _ => cases hlevel
  | bool a =>
    cases w with
    | bool b => exact eq_of_beq (Option.some.inj hlevel) ▸ .bool a
    | _ => cases hlevel
  | string a =>
    cases w with
    | string b => exact eq_of_beq (Option.some.inj hlevel) ▸ .string a
    | _ => cases hlevel
  | builtin a =>
    cases w with
    | builtin b => exact eq_of_beq (Option.some.inj hlevel) ▸ .builtin a
    | _ => cases hlevel
  | none =>
    cases w with
    | none => exact .none
    | _ => cases hlevel

theorem Alike.same (h : Alike s v w) : Same s v w := by
  cases h with
  | tuple h => exact (equal?_tuple s _ _).trans (itemsSame_iff.2 h)
  | @array r q h =>
    by_cases hrq : r = q
    · rw [hrq]
      exact (equal?_self s q).1
    · exact (equal?_array s hrq).trans (itemsSame_iff.2 (h.resolve_left hrq))
  | @map r q h =>
    by_cases hrq : r = q
    · rw [hrq]
      exact (equal?_self s q).2
    · exact (equal?_map s hrq).trans (entriesSame_iff.2 (h.resolve_left hrq))
  | _ => rw [same_iff_equalWith]; simp_all [equalWith]

end Level

/-! ## Settled comparisons -/

/-- A comparison of two values that nest to some depth is settled. -/
theorem isSome_equal?_of_nests {s : Store} {n : Nat} {v w : Value} (hv : Nests s n v)
    (hw : Nests s n w) : (equal? s v w).isSome := by
  induction n generalizing v w with
  | zero => exact hv.elim
  | succ n ih =>
    have hlevel := congrFun (congrFun (equal?_eq_equalWith s) v) w
    cases v with
    | tuple vs =>
      cases w with
      | tuple ws =>
        rw [equal?_tuple]
        exact isSome_itemsEqual fun v hvs w hws => ih (hv v hvs) (hw w hws)
      | _ => rw [hlevel]; rfl
    | array r =>
      cases w with
      | array q =>
        by_cases hrq : r = q
        · rw [hrq, (equal?_self s q).1]
          rfl
        · rw [equal?_array s hrq]
          exact isSome_itemsEqual fun v hvs w hws => ih (hv v hvs) (hw w hws)
      | _ => rw [hlevel]; rfl
    | map r =>
      cases w with
      | map q =>
        by_cases hrq : r = q
        · rw [hrq, (equal?_self s q).2]
          rfl
        · rw [equal?_map s hrq]
          -- the stored keys and values come first in each comparison
          exact isSome_entriesEqual (fun d hd e he => ih (hw _ (held_key hd)) (hv _ (held_key he)))
            fun d hd e he => ih (hw _ (held_value hd)) (hv _ (held_value he))
      | _ => rw [hlevel]; rfl
    | _ => rw [hlevel]; cases w <;> rfl

/-! ## Equivalence, one depth after the other -/

/-- Nothing at the root of a value keeps equality from being an equivalence: it is no number that is not
a number, and no map with two equal keys. -/
def Regular (s : Store) : Value → Prop
  | float x => x.isNaN = false
  | map r => (s.entries r).Pairwise fun e f => ¬ Same s e.1 f.1
  | _ => True

/-- Nothing in a value keeps equality from being an equivalence. -/
def RegularThroughout (s : Store) (v : Value) : Prop :=
  ∀ w, Relation.ReflTransGen (Holds s) v w → w.Regular s

theorem RegularThroughout.root {s : Store} {v : Value} (h : v.RegularThroughout s) : v.Regular s :=
  h v .refl

theorem RegularThroughout.of_held {s : Store} {v w : Value} (h : v.RegularThroughout s)
    (hw : w ∈ v.held s) : w.RegularThroughout s := fun x hx => h x (.head hw hx)

theorem RegularThroughout.of_root {s : Store} {v : Value} (h : v.Regular s)
    (hheld : ∀ w ∈ v.held s, w.RegularThroughout s) : v.RegularThroughout s := by
  intro w hw
  rcases hw.cases_head with rfl | ⟨x, hx, hxw⟩
  · exact h
  · exact hheld x hx w hxw

instance decidableSame (s : Store) (v w : Value) : Decidable (Same s v w) :=
  inferInstanceAs (Decidable (_ = some true))

instance decidableRegular (s : Store) : (v : Value) → Decidable (v.Regular s)
  | float x => inferInstanceAs (Decidable (x.isNaN = false))
  | map r => inferInstanceAs (Decidable ((s.entries r).Pairwise fun e f => ¬ Same s e.1 f.1))
  | int _ | bool _ | string _ | array _ | tuple _ | function _ | builtin _ | none => .isTrue trivial

/-- A check that a value nests less than so deep and is regular throughout. -/
def isRegularWithin (s : Store) : Nat → Value → Bool
  | 0, _ => false
  | n + 1, v => decide (v.Regular s) && (v.held s).all (isRegularWithin s n)

theorem RegularThroughout.of_check {s : Store} {n : Nat} {v : Value}
    (h : isRegularWithin s n v = true) : v.RegularThroughout s := by
  induction n generalizing v with
  | zero => cases h
  | succ n ih =>
    rw [isRegularWithin, Bool.and_eq_true, decide_eq_true_iff, List.all_eq_true] at h
    exact .of_root h.1 fun w hw => ih (h.2 w hw)

/-- On some values, every comparison is settled and equality is an equivalence. -/
structure EquivalenceOn (s : Store) (P : Value → Prop) : Prop where
  settled {v w : Value} : P v → P w → (equal? s v w).isSome
  refl {v : Value} : P v → Same s v v
  symm {v w : Value} : P v → P w → Same s v w → Same s w v
  trans {u v w : Value} : P u → P v → P w → Same s u v → Same s v w → Same s u w

/-- The keys of some entries differ, and keys and values are all among some values. -/
structure EntriesOf (s : Store) (P : Value → Prop) (es : Entries) : Prop where
  key : ∀ e ∈ es, P e.1
  value : ∀ e ∈ es, P e.2
  differ : es.Pairwise fun e f => ¬ Same s e.1 f.1

theorem EntriesOf.of_map {s : Store} {P : Value → Prop} {r : Ref} (hregular : (map r).Regular s)
    (hheld : ∀ w ∈ (map r).held s, P w) : EntriesOf s P (s.entries r) where
  key _ he := hheld _ (held_key he)
  value _ he := hheld _ (held_value he)
  differ := hregular

namespace EquivalenceOn

variable {s : Store} {P : Value → Prop} (h : EquivalenceOn s P)

include h

section Items

variable {us vs ws : List Value}

theorem items_refl (hvs : ∀ v ∈ vs, P v) : ItemsSame s vs vs :=
  ⟨rfl, fun _ hi _ => h.refl (hvs _ (List.getElem_mem hi))⟩

theorem items_symm (hvs : ∀ v ∈ vs, P v) (hws : ∀ w ∈ ws, P w) (hsame : ItemsSame s vs ws) :
    ItemsSame s ws vs :=
  ⟨hsame.1.symm, fun i hw hv =>
    h.symm (hvs _ (List.getElem_mem hv)) (hws _ (List.getElem_mem hw)) (hsame.2 i hv hw)⟩

theorem items_trans (hus : ∀ u ∈ us, P u) (hvs : ∀ v ∈ vs, P v) (hws : ∀ w ∈ ws, P w)
    (hsame : ItemsSame s us vs) (hsame' : ItemsSame s vs ws) : ItemsSame s us ws := by
  refine ⟨hsame.1.trans hsame'.1, fun i hu hw => ?_⟩
  have hv : i < vs.length := hsame.1 ▸ hu
  exact h.trans (hus _ (List.getElem_mem hu)) (hvs _ (List.getElem_mem hv))
    (hws _ (List.getElem_mem hw)) (hsame.2 i hu hv) (hsame'.2 i hv hw)

end Items

section Entries

variable {es fs gs : Entries}

/-- Where keys differ, the first entry that can be found for a key is the only one. -/
theorem entriesSame_iff_found (hes : EntriesOf s P es) (hfs : EntriesOf s P fs) :
    EntriesSame s es fs ↔
      es.length = fs.length ∧ ∀ e ∈ es, ∃ d ∈ fs, Same s d.1 e.1 ∧ Same s d.2 e.2 := by
  refine and_congr_right fun _ => forall₂_congr fun e he => ?_
  constructor
  · rintro ⟨x, hfound, hsame⟩
    obtain ⟨d, hd, hkey, rfl⟩ := mem_of_get? hfound
    exact ⟨d, hd, hkey, hsame⟩
  · rintro ⟨d, hd, hkey, hvalue⟩
    refine ⟨d.2, get?_eq_of_mem ?_ hfs.differ ?_ hd hkey, hvalue⟩
    · exact fun d' hd' => h.settled (hfs.key d' hd') (hes.key e he)
    · intro d' hd' hkey'
      have hback := h.symm (hfs.key d hd) (hes.key e he) hkey
      exact h.trans (hfs.key d' hd') (hes.key e he) (hfs.key d hd) hkey' hback

theorem entries_refl (hes : EntriesOf s P es) : EntriesSame s es es := by
  rw [h.entriesSame_iff_found hes hes]
  exact ⟨rfl, fun e he => ⟨e, he, h.refl (hes.key e he), h.refl (hes.value e he)⟩⟩

theorem entries_symm (hes : EntriesOf s P es) (hfs : EntriesOf s P fs) (hsame : EntriesSame s es fs) :
    EntriesSame s fs es := by
  rw [h.entriesSame_iff_found hes hfs] at hsame
  rw [h.entriesSame_iff_found hfs hes]
  obtain ⟨hlen, hfound⟩ := hsame
  -- two entries that find the same one have equal keys
  have hone : es.Pairwise fun e e' => ∀ d ∈ fs, (Same s d.1 e.1 ∧ Same s d.2 e.2) →
      ¬ (Same s d.1 e'.1 ∧ Same s d.2 e'.2) := by
    refine hes.differ.imp_of_mem fun he he' hdiffer d hd hsame hsame' => hdiffer ?_
    have hback := h.symm (hfs.key d hd) (hes.key _ he) hsame.1
    exact h.trans (hes.key _ he) (hfs.key d hd) (hes.key _ he') hback hsame'.1
  refine ⟨hlen.symm, fun d hd => ?_⟩
  obtain ⟨e, he, hkey, hvalue⟩ := found_of_length_le hlen.ge hfound hone d hd
  exact ⟨e, he, h.symm (hfs.key d hd) (hes.key e he) hkey,
    h.symm (hfs.value d hd) (hes.value e he) hvalue⟩

theorem entries_trans (hes : EntriesOf s P es) (hfs : EntriesOf s P fs) (hgs : EntriesOf s P gs)
    (hsame : EntriesSame s es fs) (hsame' : EntriesSame s fs gs) : EntriesSame s es gs := by
  rw [h.entriesSame_iff_found hes hfs] at hsame
  rw [h.entriesSame_iff_found hfs hgs] at hsame'
  rw [h.entriesSame_iff_found hes hgs]
  refine ⟨hsame.1.trans hsame'.1, fun e he => ?_⟩
  obtain ⟨d, hd, hkey, hvalue⟩ := hsame.2 e he
  obtain ⟨c, hc, hkey', hvalue'⟩ := hsame'.2 d hd
  exact ⟨c, hc, h.trans (hgs.key c hc) (hfs.key d hd) (hes.key e he) hkey' hkey,
    h.trans (hgs.value c hc) (hfs.value d hd) (hes.value e he) hvalue' hvalue⟩

end Entries

section Level

variable {Q : Value → Prop} (hregular : ∀ v, Q v → v.Regular s)
  (hheld : ∀ v, Q v → ∀ w ∈ v.held s, P w)

include hregular hheld

theorem alike_refl {v : Value} (hv : Q v) : Alike s v v := by
  cases v with
  | float x => exact .float (float_beq_self (hregular _ hv))
  | tuple vs => exact .tuple (h.items_refl (hheld _ hv))
  | array r => exact .array (.inl rfl)
  | map r => exact .map (.inl rfl)
  | function f => exact .function rfl
  | _ => constructor

theorem alike_symm {v w : Value} (hv : Q v) (hw : Q w) (hsame : Alike s v w) : Alike s w v := by
  cases hsame with
  | float heq => exact .float (BEq.symm heq)
  | function heq => exact .function heq.symm
  | tuple heq => exact .tuple (h.items_symm (hheld _ hv) (hheld _ hw) heq)
  | array heq => exact .array (heq.imp Eq.symm (h.items_symm (hheld _ hv) (hheld _ hw)))
  | map heq =>
    have hes := EntriesOf.of_map (hregular _ hv) (hheld _ hv)
    have hfs := EntriesOf.of_map (hregular _ hw) (hheld _ hw)
    exact .map (heq.imp Eq.symm (h.entries_symm hes hfs))
  | _ => constructor

theorem alike_trans {u v w : Value} (hu : Q u) (hv : Q v) (hw : Q w) (hsame : Alike s u v)
    (hsame' : Alike s v w) : Alike s u w := by
  cases hsame with
  | float heq => cases hsame' with
    | float heq' => exact .float (BEq.trans heq heq')
  | function heq => cases hsame' with
    | function heq' => exact .function (heq.trans heq')
  | tuple heq => cases hsame' with
    | tuple heq' => exact .tuple (h.items_trans (hheld _ hu) (hheld _ hv) (hheld _ hw) heq heq')
  | @array r q heq => cases hsame' with
    | @array _ p heq' =>
      -- a collection that is one of its neighbours has what that one has
      rcases heq with rfl | heq
      · exact .array heq'
      rcases heq' with rfl | heq'
      · exact .array (.inr heq)
      · exact .array (.inr (h.items_trans (hheld _ hu) (hheld _ hv) (hheld _ hw) heq heq'))
  | @map r q heq => cases hsame' with
    | @map _ p heq' =>
      rcases heq with rfl | heq
      · exact .map heq'
      rcases heq' with rfl | heq'
      · exact .map (.inr heq)
      have hes := EntriesOf.of_map (hregular _ hu) (hheld _ hu)
      have hfs := EntriesOf.of_map (hregular _ hv) (hheld _ hv)
      have hgs := EntriesOf.of_map (hregular _ hw) (hheld _ hw)
      exact .map (.inr (h.entries_trans hes hfs hgs heq heq'))
  | _ => exact hsame'

/-- **One level more.** Equality is an equivalence on regular values if it is one on all that they
hold. -/
theorem next (hsettled : ∀ v w, Q v → Q w → (equal? s v w).isSome) : EquivalenceOn s Q where
  settled hv hw := hsettled _ _ hv hw
  refl hv := (h.alike_refl hregular hheld hv).same
  symm hv hw hsame := (h.alike_symm hregular hheld hv hw hsame.alike).same
  trans hu hv hw hsame hsame' :=
    (h.alike_trans hregular hheld hu hv hw hsame.alike hsame'.alike).same

end Level

end EquivalenceOn

/-- Equality is an equivalence on the regular values of each depth. -/
theorem equivalenceOn_nests (s : Store) (n : Nat) :
    EquivalenceOn s fun v => Nests s n v ∧ v.RegularThroughout s := by
  induction n with
  | zero => exact ⟨fun h => h.1.elim, fun h => h.1.elim, fun h => h.1.elim, fun h => h.1.elim⟩
  | succ n ih =>
    refine ih.next (fun v hv => hv.2.root) (fun v hv w hw => ⟨hv.1 w hw, hv.2.of_held hw⟩) ?_
    exact fun v w hv hw => isSome_equal?_of_nests hv.1 hw.1

/-! ## Without the shortcut -/

/-- Equality that looks into a collection even where it is compared with itself, and goes down at most
so many values. -/
def contentsEqualWithin (s : Store) : Nat → Value → Value → Settled Bool
  | 0, _, _ => Option.none
  | n + 1, tuple vs, tuple ws => itemsEqual (contentsEqualWithin s n) vs ws
  | n + 1, array r, array q => itemsEqual (contentsEqualWithin s n) (s.items r) (s.items q)
  | n + 1, map r, map q => entriesEqual (contentsEqualWithin s n) (s.entries r) (s.entries q)
  | _ + 1, v, w => equalWith s (fun _ _ => Option.none) v w

/-- A look into a collection that is compared with itself finds it equal. -/
theorem contentsEqualWithin_eq {s : Store} {n : Nat} {v w : Value} (hv : Nests s n v)
    (hw : Nests s n w) (hv' : v.RegularThroughout s) (hw' : w.RegularThroughout s) :
    contentsEqualWithin s n v w = equal? s v w := by
  induction n generalizing v w with
  | zero => exact hv.elim
  | succ n ih =>
    have level := equivalenceOn_nests s n
    have inside : ∀ x ∈ v.held s, Nests s n x ∧ x.RegularThroughout s := fun x hx =>
      ⟨hv x hx, hv'.of_held hx⟩
    have inside' : ∀ x ∈ w.held s, Nests s n x ∧ x.RegularThroughout s := fun x hx =>
      ⟨hw x hx, hw'.of_held hx⟩
    have answer : ∀ x ∈ v.held s, ∀ y ∈ w.held s, ∀ b, equal? s x y = some b →
        contentsEqualWithin s n x y = some b := fun x hx y hy b hb =>
      (ih (inside x hx).1 (inside' y hy).1 (inside x hx).2 (inside' y hy).2).trans hb
    have answer' : ∀ y ∈ w.held s, ∀ x ∈ v.held s, ∀ b, equal? s y x = some b →
        contentsEqualWithin s n y x = some b := fun y hy x hx b hb =>
      (ih (inside' y hy).1 (inside x hx).1 (inside' y hy).2 (inside x hx).2).trans hb
    obtain ⟨b, hb⟩ := Option.isSome_iff_exists.1 (isSome_equal?_of_nests hv hw)
    have hlevel := congrFun (congrFun (equal?_eq_equalWith s) v) w
    rw [hb]
    cases v with
    | tuple vs =>
      cases w with
      | tuple ws =>
        rw [equal?_tuple] at hb
        exact itemsEqual_extends answer hb
      | _ => rw [← hb, hlevel]; rfl
    | array r =>
      cases w with
      | array q =>
        refine itemsEqual_extends answer ?_
        by_cases hrq : r = q
        · subst hrq
          rw [(equal?_self s r).1] at hb
          exact (itemsSame_iff.2 (level.items_refl inside)).trans hb
        · rwa [equal?_array s hrq] at hb
      | _ => rw [← hb, hlevel]; rfl
    | map r =>
      cases w with
      | map q =>
        refine entriesEqual_extends (fun d hd e he => answer' _ (held_key hd) _ (held_key he))
          (fun d hd e he => answer' _ (held_value hd) _ (held_value he)) ?_
        by_cases hrq : r = q
        · subst hrq
          rw [(equal?_self s r).2] at hb
          exact (entriesSame_iff.2 (level.entries_refl (.of_map hv'.root inside))).trans hb
        · rwa [equal?_map s hrq] at hb
      | _ => rw [← hb, hlevel]; rfl
    | _ => rw [← hb, hlevel]; cases w <;> rfl

end Value

open Value

/-! ## The main statement -/

/-- **Equality is an equivalence.** In an acyclic store every comparison is settled, and on values without
numbers that are no numbers and without maps that have two equal keys equality is reflexive, symmetric
and transitive. There the shortcut for a collection that is compared with itself changes no answer: a
comparison that looks into every collection gives the same one, as soon as it goes down far enough. -/
theorem equality_is_equivalence (s : Store) (hs : s.Acyclic) :
    (∀ v w : Value, ∃ b, v.equal? s w = some b) ∧
    (∀ v : Value, v.RegularThroughout s → v.equal? s v = some true) ∧
    (∀ v w : Value, v.RegularThroughout s → w.RegularThroughout s → v.equal? s w = w.equal? s v) ∧
    (∀ u v w : Value, u.RegularThroughout s → v.RegularThroughout s → w.RegularThroughout s →
      u.equal? s v = some true → v.equal? s w = some true → u.equal? s w = some true) ∧
    ∀ v w : Value, v.RegularThroughout s → w.RegularThroughout s →
      ∃ depth, ∀ n, depth ≤ n → v.contentsEqualWithin s n w = v.equal? s w := by
  -- two or three values have a common depth, and at that depth all laws hold
  have common : ∀ u v w : Value, ∃ n, Nests s n u ∧ Nests s n v ∧ Nests s n w := by
    intro u v w
    obtain ⟨i, hi⟩ := hs.nests u
    obtain ⟨j, hj⟩ := hs.nests v
    obtain ⟨k, hk⟩ := hs.nests w
    exact ⟨max i (max j k), hi.mono (by omega), hj.mono (by omega), hk.mono (by omega)⟩
  have settled : ∀ v w : Value, ∃ b, v.equal? s w = some b := by
    intro v w
    obtain ⟨n, -, hv, hw⟩ := common v v w
    exact Option.isSome_iff_exists.1 (isSome_equal?_of_nests hv hw)
  have symm : ∀ v w : Value, v.RegularThroughout s → w.RegularThroughout s →
      v.equal? s w = some true → w.equal? s v = some true := by
    intro v w hv hw
    obtain ⟨n, -, hnv, hnw⟩ := common v v w
    exact (equivalenceOn_nests s n).symm ⟨hnv, hv⟩ ⟨hnw, hw⟩
  refine ⟨settled, fun v hv => ?_, fun v w hv hw => ?_, fun u v w hu hv hw => ?_, fun v w hv hw => ?_⟩
  · obtain ⟨n, hn, -⟩ := common v v v
    exact (equivalenceOn_nests s n).refl ⟨hn, hv⟩
  · -- both answers are there, and neither can be the only one that is true
    obtain ⟨b, hb⟩ := settled v w
    obtain ⟨c, hc⟩ := settled w v
    have hbc : b = true ↔ c = true := by
      constructor
      · rintro rfl
        exact Option.some.inj (hc.symm.trans (symm v w hv hw hb))
      · rintro rfl
        exact Option.some.inj (hb.symm.trans (symm w v hw hv hc))
    rw [hb, hc, Bool.eq_iff_iff.2 hbc]
  · obtain ⟨n, hnu, hnv, hnw⟩ := common u v w
    exact (equivalenceOn_nests s n).trans ⟨hnu, hu⟩ ⟨hnv, hv⟩ ⟨hnw, hw⟩
  · obtain ⟨n, -, hnv, hnw⟩ := common v v w
    exact ⟨n, fun k hk => contentsEqualWithin_eq (hnv.mono hk) (hnw.mono hk) hv hw⟩

/-- Two maps with the same entries in two orders, of which one key is an array that holds a tuple with a
floating-point number. -/
def twoOrders : Store :=
  let key : Value := .tuple [.int 1, .float (Float.ofBits 0x3FF8000000000000)]
  ⟨#[.array [key], .array [key],
    .map [(.array ⟨0⟩, .string "x"), (.none, .array ⟨1⟩)],
    .map [(.none, .array ⟨0⟩), (.array ⟨1⟩, .string "x")]]⟩

theorem acyclic_twoOrders : twoOrders.Acyclic := by
  rw [Store.acyclic_iff_nests]
  intro v
  induction v using inductTuple with
  | tuple items ih => exact nests_of_held ih
  | other v hv =>
    refine ⟨4, ?_⟩
    cases v with
    | tuple items => exact absurd rfl (hv items)
    -- there are four collections, and all others are empty
    | array r =>
      rcases r with ⟨_ | _ | _ | _ | i⟩
      · decide
      · decide
      · decide
      · decide
      · exact List.forall_mem_nil _
    | map r =>
      rcases r with ⟨_ | _ | _ | _ | i⟩
      · decide
      · decide
      · decide
      · decide
      · exact List.forall_mem_nil _
    | _ => exact List.forall_mem_nil _

/-- The two maps are equal, and so they are the other way round; each is equal to itself, also for a
comparison that looks. -/
theorem equality_is_equivalence_twoOrders :
    let v : Value := .map ⟨2⟩
    let w : Value := .map ⟨3⟩
    twoOrders.Acyclic ∧ v.RegularThroughout twoOrders ∧ w.RegularThroughout twoOrders ∧
      v.equal? twoOrders w = some true ∧ w.equal? twoOrders v = some true ∧
      v.equal? twoOrders v = some true ∧
      ∃ depth, ∀ n, depth ≤ n → v.contentsEqualWithin twoOrders n v = some true := by
  intro v w
  have hv : v.RegularThroughout twoOrders := .of_check (n := 4) (by decide)
  have hw : w.RegularThroughout twoOrders := .of_check (n := 4) (by decide)
  have hvw : v.equal? twoOrders w = some true := by decide
  obtain ⟨-, refl, symm, trans, contents⟩ := equality_is_equivalence twoOrders acyclic_twoOrders
  have hwv : w.equal? twoOrders v = some true := (symm v w hv hw).symm.trans hvw
  have hvv : v.equal? twoOrders v = some true := trans v w v hv hw hv hvw hwv
  refine ⟨acyclic_twoOrders, hv, hw, hvw, hwv, refl v hv, ?_⟩
  obtain ⟨depth, hdepth⟩ := contents v v hv hv
  exact ⟨depth, fun n hn => (hdepth n hn).trans hvv⟩

end Nikl
