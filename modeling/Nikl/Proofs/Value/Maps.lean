import Nikl.Proofs.Value.FirstWritten

/-
A map is what was written to it. There are two ways to write, one that searches and replaces in one go,
and one that looks for the place first; and there are many ways to read. All of them agree, whatever else
is done between two writes, as long as nothing inside a key is changed: neither by other work, nor by a
write to the map itself, which no key may reach for that reason.
-/

set_option autoImplicit false

namespace Nikl

open Value (Same Inside Unchanged EquivalenceOn equal? sameIn)

/-! ## What other work leaves alone -/

/-- Nothing inside the keys is other in another store. -/
def KeysKept (P : Value → Prop) (s t : Store) : Prop := ∀ k, P k → Unchanged s t k

/-- No key reaches a collection. -/
def NoKeyReaches (P : Value → Prop) (s : Store) (r : Ref) : Prop := ∀ k, P k → ¬ Inside s k r

section KeysKept

variable {s t : Store} {P : Value → Prop} {writes : List (Value × Value)} {r : Ref}

theorem NoKeyReaches.kept (h : NoKeyReaches P s r) (hst : KeysKept P s t) : NoKeyReaches P t r :=
  fun k hk hr => h k hk ((hst k hk).inside hr)

theorem NoKeyReaches.put (h : NoKeyReaches P s r) (c : Cell) : KeysKept P s (s.put r c) :=
  fun k hk => Value.unchanged_put (h k hk) c

variable (h : EquivalenceOn s P) (hst : KeysKept P s t)

include h hst

/-- Comparisons of keys come out as before. -/
theorem KeysKept.equal? {k k' : Value} (hk : P k) (hk' : P k') : equal? t k k' = equal? s k k' := by
  obtain ⟨b, hb⟩ := Option.isSome_iff_exists.1 (h.settled hk hk')
  rw [hb]
  exact Value.equal?_unchanged (hst k hk) (hst k' hk') hb

theorem KeysKept.same_iff {k k' : Value} (hk : P k) (hk' : P k') : Same t k k' ↔ Same s k k' := by
  rw [Same, Same, KeysKept.equal? h hst hk hk']

theorem KeysKept.equivalenceOn : EquivalenceOn t P where
  settled hv hw := KeysKept.equal? h hst hv hw ▸ h.settled hv hw
  refl hv := (KeysKept.same_iff h hst hv hv).2 (h.refl hv)
  symm hv hw hsame := by
    rw [KeysKept.same_iff h hst hv hw] at hsame
    exact (KeysKept.same_iff h hst hw hv).2 (h.symm hv hw hsame)
  trans hu hv hw huv hvw := by
    rw [KeysKept.same_iff h hst hu hv] at huv
    rw [KeysKept.same_iff h hst hv hw] at hvw
    exact (KeysKept.same_iff h hst hu hw).2 (h.trans hu hv hw huv hvw)

theorem KeysKept.firstWritten (hP : ∀ w ∈ writes, P w.1) :
    firstWritten t writes = firstWritten s writes := by
  refine List.filterMap_congr fun p hp => ?_
  obtain ⟨w, i⟩ := p
  have hw : P w.1 := hP w (List.fst_mem_of_mem_zipIdx hp)
  refine if_congr ?_ rfl rfl
  constructor
  · rintro ⟨v, hv, hsame⟩
    exact ⟨v, hv, (KeysKept.same_iff h hst (hP v (List.mem_of_mem_take hv)) hw).1 hsame⟩
  · rintro ⟨v, hv, hsame⟩
    exact ⟨v, hv, (KeysKept.same_iff h hst (hP v (List.mem_of_mem_take hv)) hw).2 hsame⟩

theorem KeysKept.lastWritten (hP : ∀ w ∈ writes, P w.1) {key : Value} (hkey : P key) :
    lastWritten t writes key = lastWritten s writes key := by
  refine congrArg (Option.map Prod.snd) (List.find?_congr fun w hw => ?_)
  rw [decide_eq_decide]
  exact KeysKept.same_iff h hst (hP w (List.mem_reverse.1 hw)) hkey

/-- Entries show what was written for as long as the keys are kept. -/
theorem KeysKept.show (hP : ∀ w ∈ writes, P w.1) {es : Entries} (hes : es.Show s writes) :
    es.Show t writes where
  keys := hes.keys.trans (KeysKept.firstWritten h hst hP).symm
  values e he := by
    rw [KeysKept.lastWritten h hst hP (hes.mem_keys hP e he), hes.values e he]

end KeysKept

/-- A new map is reached by none of the keys that there were before. -/
theorem keysKept_newMap {s : Store} {P : Value → Prop} (hs : s.Closed)
    (hP : ∀ k, P k → k.Stored s.size) (es : Entries) :
    KeysKept P s (s.push (.map es)) ∧ NoKeyReaches P (s.push (.map es)) s.next := by
  have hkept : KeysKept P s (s.push (.map es)) := by
    intro k hk r hr
    have hne : r ≠ s.next := by
      rintro rfl
      exact Nat.lt_irrefl _ (hr.index_lt hs (hP k hk))
    rw [s.cell_push, if_neg hne]
  exact ⟨hkept, fun k hk hr =>
    Nat.lt_irrefl _ (((hkept k hk).inside hr).index_lt hs (hP k hk))⟩

/-! ## Writing to a map -/

/-- Where a map is while it is written to: still on its own, or one of the collections. -/
inductive MapPlace where
  | apart (entries : Entries)
  | stored (r : Ref)

/-- A map and the collections that there are. -/
structure MapState where
  store : Store
  place : MapPlace

namespace MapState

def entries : MapState → Entries
  | ⟨_, .apart es⟩ => es
  | ⟨s, .stored r⟩ => s.entries r

/-- The map with other entries. -/
def withEntries (es : Entries) : MapState → MapState
  | ⟨s, .apart _⟩ => ⟨s, .apart es⟩
  | ⟨s, .stored r⟩ => ⟨s.put r (.map es), .stored r⟩

/-- Writes to a key by searching and replacing in one go, and tells which value it replaces. -/
def insert (key value : Value) (m : MapState) : Settled (Option Value × MapState) :=
  (m.entries.insert (sameIn m.store) key value).map fun (old, es) => (old, m.withEntries es)

end MapState

/-- A map to which was written what is told, and nothing else: by insertion while it was made and after,
by assignment to its items, and with other work in between. -/
inductive WrittenTo (P : Value → Prop) : List (Value × Value) → MapState → Prop
  | made {s : Store} : EquivalenceOn s P → WrittenTo P [] ⟨s, .apart []⟩
  | empty {s : Store} {r : Ref} : EquivalenceOn s P → s.cells[r.index]? = some (.map []) →
      NoKeyReaches P s r → WrittenTo P [] ⟨s, .stored r⟩
  | insert {writes : List (Value × Value)} {m n : MapState} {key value : Value} {old : Option Value} :
      WrittenTo P writes m → P key → m.insert key value = some (old, n) →
      WrittenTo P (writes ++ [(key, value)]) n
  | assign {writes : List (Value × Value)} {s t : Store} {r : Ref} {key value : Value} :
      WrittenTo P writes ⟨s, .stored r⟩ → P key → Value.assignIndex (.map r) key value s = .ok () t →
      WrittenTo P (writes ++ [(key, value)]) ⟨t, .stored r⟩
  | stored {writes : List (Value × Value)} {s t : Store} {r : Ref} {es : Entries} :
      WrittenTo P writes ⟨s, .apart es⟩ → StoreM.newMap es s = .ok (.map r) t → KeysKept P s t →
      NoKeyReaches P t r → WrittenTo P writes ⟨t, .stored r⟩
  | meanwhile {writes : List (Value × Value)} {s t : Store} {place : MapPlace} :
      WrittenTo P writes ⟨s, place⟩ → KeysKept P s t →
      (∀ r, place = .stored r → t.cells[r.index]? = s.cells[r.index]?) →
      WrittenTo P writes ⟨t, place⟩

/-- A map that shows what was written to it, and that no key reaches. -/
structure MapState.Sound (P : Value → Prop) (writes : List (Value × Value)) (m : MapState) : Prop where
  equivalence : EquivalenceOn m.store P
  keys : ∀ w ∈ writes, P w.1
  shown : m.entries.Show m.store writes
  stored : ∀ r, m.place = .stored r →
    m.store.cells[r.index]? = some (.map m.entries) ∧ NoKeyReaches P m.store r

section Sound

variable {P : Value → Prop} {writes : List (Value × Value)} {m : MapState} {key : Value} {s t : Store}
  {r : Ref}

theorem Store.cell_put_self {c c' : Cell} (h : s.cells[r.index]? = some c') :
    (s.put r c).cells[r.index]? = some c := by
  obtain ⟨hlt, -⟩ := Array.getElem?_eq_some_iff.1 h
  rw [s.cell_put r r c hlt, if_pos rfl]

/-- A map among the collections shows what was written. -/
theorem MapState.Sound.of_cell {es : Entries} (heq : EquivalenceOn s P) (hkeys : ∀ w ∈ writes, P w.1)
    (hshow : es.Show s writes) (hcell : s.cells[r.index]? = some (.map es)) (hreach : NoKeyReaches P s r) :
    MapState.Sound P writes ⟨s, .stored r⟩ := by
  have hentries : s.entries r = es := by rw [Store.entries, hcell]
  refine ⟨heq, hkeys, (congrArg (Entries.Show s writes) hentries).mpr hshow, ?_⟩
  rintro _ ⟨⟩
  exact ⟨hcell.trans (congrArg (fun es => some (Cell.map es)) hentries.symm), hreach⟩

/-- **The two ways to write agree.** An assignment to an item does what an insertion does. -/
theorem assignIndex_of_insert {value : Value} {old : Option Value} {after : Entries}
    (h : (s.entries r).insert (sameIn s) key value = some (old, after)) :
    Value.assignIndex (.map r) key value s = .ok () (s.put r (.map after)) := by
  rw [Entries.insert_eq_position?, Option.map_eq_some_iff] at h
  obtain ⟨place?, hplace, hafter⟩ := h
  simp only [Value.assignIndex, bind, EStateM.bind, get, getThe, MonadStateOf.get, EStateM.get,
    StoreM.ofSettled, hplace, pure, EStateM.pure]
  cases place? with
  | none =>
    obtain rfl : (s.entries r).append key value = after := congrArg Prod.snd hafter
    rfl
  | some place =>
    obtain rfl : ((s.entries r).replaceAt place value).2 = after := congrArg Prod.snd hafter
    rfl

/-- A write on either way succeeds, tells what was there before, and leaves a map behind that shows it
as well. -/
theorem MapState.Sound.write (h : m.Sound P writes) (hkey : P key) (value : Value) :
    ∃ n : MapState, m.insert key value = some (lastWritten m.store writes key, n) ∧
      n.Sound P (writes ++ [(key, value)]) ∧
      ∀ r, m.place = .stored r →
        Value.assignIndex (.map r) key value m.store = .ok () n.store ∧ n.place = .stored r := by
  obtain ⟨after, hafter, hshow⟩ := h.shown.insert h.equivalence h.keys hkey value
  have hkeys : ∀ w ∈ writes ++ [(key, value)], P w.1 := by
    intro w hw
    rcases List.mem_append.1 hw with hw | hw
    · exact h.keys w hw
    · exact List.mem_singleton.1 hw ▸ hkey
  have hinsert : m.insert key value = some (lastWritten m.store writes key, m.withEntries after) := by
    rw [MapState.insert, hafter]
    rfl
  refine ⟨m.withEntries after, hinsert, ?_⟩
  rcases m with ⟨s, _ | r⟩
  · exact ⟨⟨h.equivalence, hkeys, hshow, nofun⟩, nofun⟩
  · obtain ⟨hcell, hreach⟩ := h.stored r rfl
    have hkept : KeysKept P s (s.put r (.map after)) := hreach.put _
    refine ⟨.of_cell (hkept.equivalenceOn h.equivalence) hkeys
      (KeysKept.show h.equivalence hkept hkeys hshow) (Store.cell_put_self hcell) (hreach.kept hkept), ?_⟩
    rintro _ ⟨⟩
    exact ⟨assignIndex_of_insert hafter, rfl⟩

/-- What holds before a write holds after it, however it was done and whatever is done between writes. -/
theorem WrittenTo.sound (h : WrittenTo P writes m) : m.Sound P writes := by
  induction h with
  | made heq => exact ⟨heq, nofun, ⟨rfl, nofun⟩, nofun⟩
  | @empty s r heq hcell hreach =>
    have hshow : Entries.Show s [] [] := ⟨rfl, nofun⟩
    exact .of_cell heq nofun hshow hcell hreach
  | @insert writes m n key value old hm hkey hinsert ih =>
    obtain ⟨n', hinsert', hsound, -⟩ := ih.write hkey value
    obtain rfl : n' = n := (Prod.mk.inj (Option.some.inj (hinsert'.symm.trans hinsert))).2
    exact hsound
  | @assign writes s t r key value hm hkey hassign ih =>
    obtain ⟨⟨t', place⟩, -, hsound, hagrees⟩ := ih.write hkey value
    -- the two ways to write agree, so what holds after an insertion holds here
    obtain ⟨hassign', rfl⟩ := hagrees r rfl
    rw [hassign] at hassign'
    cases hassign'
    exact hsound
  | @stored writes s t r es hm hnew hkept hreach ih =>
    cases hnew
    refine .of_cell (hkept.equivalenceOn ih.equivalence) ih.keys
      (KeysKept.show ih.equivalence hkept ih.keys ih.shown) ?_ hreach
    exact (s.cell_push _ s.next).trans (if_pos rfl)
  | @meanwhile writes s t place hm hkept hcell ih =>
    have hshown := KeysKept.show ih.equivalence hkept ih.keys ih.shown
    cases place with
    | apart es => exact ⟨hkept.equivalenceOn ih.equivalence, ih.keys, hshown, nofun⟩
    | stored r =>
      obtain ⟨hcell', hreach⟩ := ih.stored r rfl
      exact .of_cell (hkept.equivalenceOn ih.equivalence) ih.keys hshown
        ((hcell r rfl).trans hcell') (hreach.kept hkept)

end Sound

/-! ## The main statement -/

/-- All ways to read a map tell what was written to it. -/
structure MapState.Reports (P : Value → Prop) (writes : List (Value × Value)) (m : MapState) : Prop where
  entries : m.entries.map (fun e => (e.1, some e.2)) =
    (firstWritten m.store writes).map fun k => (k, lastWritten m.store writes k)
  keys : m.entries.keys = firstWritten m.store writes
  length : m.entries.length = (firstWritten m.store writes).length
  get : ∀ key, P key → m.entries.get? (sameIn m.store) key = some (lastWritten m.store writes key)
  contains : ∀ key, P key →
    m.entries.contains? (sameIn m.store) key = some (lastWritten m.store writes key).isSome
  position : ∀ key, P key →
    m.entries.position? (sameIn m.store) key = some (firstPlace? m.store key (firstWritten m.store writes))

/-- All ways in which a program reads a map tell what was written to it. -/
structure MapState.ReportsStored (P : Value → Prop) (writes : List (Value × Value)) (m : MapState)
    (r : Ref) : Prop where
  length : Value.length? m.store (.map r) = some (firstWritten m.store writes).length
  rounds : Value.loopItems m.store false (.map r) =
    .ok ((firstWritten m.store writes).map fun k => ⟨k, none⟩)
  roundsOfPairs : Value.loopItems m.store true (.map r) =
    .ok ((firstWritten m.store writes).map fun k => ⟨k, lastWritten m.store writes k⟩)
  index : ∀ key, P key → Value.index (.map r) key m.store =
    match lastWritten m.store writes key with
    | some v => .ok v m.store
    | none => .error (.ofFault (.keyNotFound (key.text m.store))) m.store

section Reports

variable {P : Value → Prop} {writes : List (Value × Value)} {m : MapState} {key value : Value} {r : Ref}

theorem MapState.Sound.reports (h : m.Sound P writes) : m.Reports P writes where
  entries := by
    rw [← h.shown.keys, Entries.keys, List.map_map]
    refine List.map_congr_left fun e he => ?_
    rw [Function.comp_apply, h.shown.values e he]
  keys := h.shown.keys
  length := by rw [← h.shown.keys, Entries.keys, List.length_map]
  get _ hkey := h.shown.get? h.equivalence h.keys hkey
  contains _ hkey := h.shown.contains? h.equivalence h.keys hkey
  position _ hkey := h.shown.position? h.equivalence h.keys hkey

theorem MapState.Sound.reportsStored (h : m.Sound P writes) (hr : m.place = .stored r) :
    m.ReportsStored P writes r := by
  obtain ⟨s, place⟩ := m
  subst hr
  have hentries := h.reports.entries
  have hpairs : ∀ f : Value × Option Value → LoopItem,
      (s.entries r).map (fun e => f (e.1, some e.2)) =
        (firstWritten s writes).map fun k => f (k, lastWritten s writes k) := by
    intro f
    have := congrArg (List.map f) hentries
    rwa [List.map_map, List.map_map] at this
  refine ⟨congrArg some h.reports.length, ?_, ?_, fun key hkey => ?_⟩
  · exact congrArg Except.ok (hpairs fun e => ⟨e.1, none⟩)
  · exact congrArg Except.ok (hpairs fun e => ⟨e.1, e.2⟩)
  · have hget : (s.entries r).get? (sameIn s) key = _ := h.reports.get key hkey
    simp only [Value.index, bind, EStateM.bind, get, getThe, MonadStateOf.get, EStateM.get,
      StoreM.ofSettled, hget]
    cases lastWritten s writes key <;> rfl

end Reports

/-- **A map is what was written to it.** On some values equality is an equivalence, and these are the
keys of all writes to a map that was empty at first; nothing inside them changes, and they do not reach
the map. Then its keys are those that were written, each as it was first written and in that order, and
each has what was last written to it; all ways to read the map agree on that. The next write succeeds as
well, by insertion, which tells what was there before, and by assignment to an item, which does the
same. -/
theorem map_is_what_was_written {P : Value → Prop} {writes : List (Value × Value)} {m : MapState}
    (h : WrittenTo P writes m) :
    EquivalenceOn m.store P ∧ m.Reports P writes ∧
      (∀ r, m.place = .stored r → m.ReportsStored P writes r) ∧
      ∀ key value, P key → ∃ n : MapState,
        m.insert key value = some (lastWritten m.store writes key, n) ∧
        WrittenTo P (writes ++ [(key, value)]) n ∧
        ∀ r, m.place = .stored r →
          Value.assignIndex (.map r) key value m.store = .ok () n.store ∧ n.place = .stored r := by
  have hsound := h.sound
  refine ⟨hsound.equivalence, hsound.reports, fun r hr => hsound.reportsStored hr,
    fun key value hkey => ?_⟩
  obtain ⟨n, hinsert, -, hagrees⟩ := hsound.write hkey value
  exact ⟨n, hinsert, h.insert hkey hinsert, hagrees⟩

/-- Two arrays that are equal, and are not one. -/
def twoEqualKeys : Store := ⟨#[.array [.int 1], .array [.int 1]]⟩

def IsEqualKey (k : Value) : Prop := k = .array ⟨0⟩ ∨ k = .array ⟨1⟩

theorem equivalenceOn_isEqualKey : EquivalenceOn twoEqualKeys IsEqualKey := by
  have hsame : ∀ v w, IsEqualKey v → IsEqualKey w → Same twoEqualKeys v w := by
    rintro _ _ (rfl | rfl) (rfl | rfl) <;> decide
  exact ⟨fun hv hw => Option.isSome_iff_exists.2 ⟨true, hsame _ _ hv hw⟩, fun hv => hsame _ _ hv hv,
    fun hv hw _ => hsame _ _ hw hv, fun hu _ hw _ _ => hsame _ _ hu hw⟩

theorem closed_twoEqualKeys : twoEqualKeys.Closed := by
  rintro (_ | _ | i) c hc
  · cases hc
    exact fun v hv => List.mem_singleton.1 hv ▸ trivial
  · cases hc
    exact fun v hv => List.mem_singleton.1 hv ▸ trivial
  · cases hc

/-- A map is made with one array for a key and then assigned to with the other. It keeps the first one,
and has what was assigned. -/
theorem map_is_what_was_written_twoEqualKeys :
    ∃ m, WrittenTo IsEqualKey [(.array ⟨0⟩, .string "made"), (.array ⟨1⟩, .string "assigned")] m ∧
      m.place = .stored ⟨2⟩ ∧ m.entries.keys = [.array ⟨0⟩] ∧
      ∀ key, IsEqualKey key →
        m.entries.get? (sameIn m.store) key = some (some (.string "assigned")) := by
  have hstored : ∀ k, IsEqualKey k → k.Stored twoEqualKeys.size := by
    rintro _ (rfl | rfl)
    · exact Nat.zero_lt_two
    · exact Nat.one_lt_two
  let made : Entries := [(.array ⟨0⟩, .string "made")]
  have hmade : WrittenTo IsEqualKey made ⟨twoEqualKeys, .apart made⟩ :=
    .insert (.made equivalenceOn_isEqualKey) (.inl rfl) rfl
  obtain ⟨hkept, hreach⟩ := keysKept_newMap closed_twoEqualKeys hstored made
  let t : Store := (twoEqualKeys.push (.map made)).put ⟨2⟩ (.map [(.array ⟨0⟩, .string "assigned")])
  have hassigned : WrittenTo IsEqualKey (made ++ [(.array ⟨1⟩, .string "assigned")]) ⟨t, .stored ⟨2⟩⟩ :=
    .assign (hmade.stored rfl hkept hreach) (.inr rfl) rfl
  obtain ⟨-, hreports, -⟩ := map_is_what_was_written hassigned
  refine ⟨_, hassigned, rfl, hreports.keys, fun key hkey => (hreports.get key hkey).trans ?_⟩
  rcases hkey with rfl | rfl
  · rfl
  · rfl

end Nikl
