import Mathlib.Data.List.Pairwise
import Nikl.Proofs.Evaluation.SafeScripts
import Nikl.Session

/-
The keys of a map. A key is compared with those before it when it is written, and the map keeps it from
then on, whatever becomes of the collections that it is made of. So keys differ when they are written, at
every moment of every run (`keys_differ_until_changed`). Two keys can only have become equal if a
collection inside one of them has been changed since; for collections are shared, and changing one is no
business of the maps that have it for a key (`keys_not_always_distinct`).
-/

set_option autoImplicit false

namespace Nikl

open Value

/-! ## The number of distinct keys -/

/-- Keys of which no two are equal: of equal ones the last is taken. -/
def Entries.distinctKeys (s : Store) (entries : Entries) : List Value :=
  entries.keys.pwFilter fun k k' => k.equal? s k' ≠ some true

/-- A map whose keys differ has as many items as distinct keys. -/
theorem length?_of_differ {s : Store} {r : Ref}
    (h : (s.entries r).keys.Pairwise fun k k' => k.equal? s k' ≠ some true) :
    (map r).length? s = some ((s.entries r).distinctKeys s).length := by
  rw [Entries.distinctKeys, List.pwFilter_eq_self.2 h, Entries.keys, List.length_map]
  rfl

/-! ## What has changed since -/

/-- A collection inside a value of one store holds something else in another. -/
def Value.ChangedInside (s t : Store) (v : Value) : Prop :=
  ∃ r, Inside s v r ∧ r.index < s.size ∧ t.cells[r.index]? ≠ s.cells[r.index]?

theorem Value.unchanged_or_changedInside {s : Store} {v : Value} (hs : s.Closed)
    (hv : v.Stored s.size) (t : Store) : Unchanged s t v ∨ v.ChangedInside s t := by
  by_contra h
  rw [not_or] at h
  refine h.1 fun r hr => ?_
  by_contra hne
  exact h.2 ⟨r, hr, hr.index_lt hs hv, hne⟩

/-- A key that a search found to be different is different still, unless something inside one of the two
has changed. -/
theorem Miss.Sound.differ_unless_changed {x : Miss} (hx : x.Sound) {k : Value}
    (hk : k ∈ x.entries.keys) (t : Store) :
    k.equal? x.store x.key = some false ∧
      (k.equal? t x.key = some false ∨ k.ChangedInside x.store t ∨ x.key.ChangedInside x.store t) := by
  obtain ⟨e, he, rfl⟩ := List.mem_map.1 hk
  have hdiffer := hx.differ e he
  refine ⟨hdiffer, ?_⟩
  rcases unchanged_or_changedInside hx.closed (hx.entries e he) t with hsame | hchanged
  · rcases unchanged_or_changedInside hx.closed hx.key t with hsame' | hchanged
    · exact .inl (equal?_unchanged hsame hsame' hdiffer)
    · exact .inr (.inr hchanged)
  · exact .inr (.inl hchanged)

section Moments

variable {m : Moment} (hm : m.Sound) (r : Ref)

include hm

theorem Moment.Sound.keys_differ_unless_changed :
    (m.store.entries r).keys.Pairwise fun k k' =>
      ∃ x ∈ m.missed, x.key = k' ∧ k ∈ x.entries.keys ∧ k.equal? x.store k' = some false ∧
        (k.equal? m.store k' = some false ∨
          k.ChangedInside x.store m.store ∨ k'.ChangedInside x.store m.store) := by
  refine List.Pairwise.imp ?_ (hm.written r)
  rintro k k' ⟨x, hx, rfl, hk⟩
  exact ⟨x, hx, rfl, hk, (hm.missed x hx).differ_unless_changed hk m.store⟩

theorem Moment.Sound.length?_unless_changed :
    (map r).length? m.store = some ((m.store.entries r).distinctKeys m.store).length ∨
      ∃ x ∈ m.missed, ∃ k ∈ (m.store.entries r).keys, x.key ∈ (m.store.entries r).keys ∧
        k.equal? x.store x.key = some false ∧ k.equal? m.store x.key = some true ∧
        (k.ChangedInside x.store m.store ∨ x.key.ChangedInside x.store m.store) := by
  by_contra h
  rw [not_or] at h
  refine h.1 (length?_of_differ ?_)
  refine List.Pairwise.imp_of_mem ?_ (hm.keys_differ_unless_changed r)
  rintro k k' hk hk' ⟨x, hx, rfl, -, hthen, hstill | hchanged⟩ hequal
  · rw [hstill] at hequal
    cases hequal
  · exact h.2 ⟨x, hx, k, hk, hk', hthen, hequal, hchanged⟩

end Moments

/-! ## At every moment -/

/-- **What programs leave behind is sound, at every moment up to then.** -/
theorem Chronicle.Reached.sound {limit : Nat} {c : Chronicle} (h : c.Reached limit) : c.Sound := by
  induction h with
  | start => exact sound_ofLimit limit
  | @ran c d fuel program r _ hrun ih =>
    have hfulfils := Job.fulfils_of_safe Job.safe fuel (.stmts program.stmts) ih trivial
    rw [hrun] at hfulfils
    cases r with
    | error e => exact hfulfils.1
    | ok a => exact hfulfils.1.1
  | @stayed c d fuel program s v w _ hrun ih =>
    have hfulfils := Job.fulfils_of_safe Job.safe fuel (.stmts program.stmts) ih trivial
    rw [hrun] at hfulfils
    exact hfulfils.1
  | cleared _ ih => exact ⟨ih.env, ih.moments⟩

/-- A source that was run without a failure was a program that came to an end. -/
theorem Machine.ends_of_runSource {m : Machine} {source : String}
    (h : (m.runSource source).1.isOk = true) : ∃ program, m.Ends program (m.runSource source).2 := by
  unfold Machine.runSource at h ⊢
  cases hprogram : programOf source with
  | error f =>
    rw [hprogram] at h
    cases h
  | ok program =>
    simp only [hprogram] at h ⊢
    refine ⟨program, ?_⟩
    cases hrun : m.run program with
    | ok a n => exact .inl hrun
    | error stop n =>
      rw [hrun] at h
      cases h

/-- **The keys of a map differ until one is changed.** Programs that are run in turn have a chronicle, and
each of them comes to an end or to a comparison where it stays.
At each of its moments, between programs and in their midst, also where a program stays at a comparison
that has no answer, there was for any two keys of a map a search
for the later one among entries with the earlier one, in which the two were not equal. They are not equal
now, or else a collection inside one of them holds something else than it did then. And the length of a
map is the number of its distinct keys, unless two of them have become equal in this way. -/
theorem keys_differ_until_changed {limit : Nat} {c : Chronicle} (hc : c.Reached limit) :
    (∀ program, ∃ n, c.machine.Ends program n ∨ c.machine.Stays program n) ∧
    (∀ program n, c.machine.Ends program n ∨ c.machine.Stays program n →
      ∃ d : Chronicle, d.Reached limit ∧ d.machine = n) ∧
    ∀ m ∈ c.moments, ∀ r,
      ((m.store.entries r).keys.Pairwise fun k k' =>
        ∃ x ∈ m.missed, x.key = k' ∧ k ∈ x.entries.keys ∧ k.equal? x.store k' = some false ∧
          (k.equal? m.store k' = some false ∨
            k.ChangedInside x.store m.store ∨ k'.ChangedInside x.store m.store)) ∧
      ((map r).length? m.store = some ((m.store.entries r).distinctKeys m.store).length ∨
        ∃ x ∈ m.missed, ∃ k ∈ (m.store.entries r).keys, x.key ∈ (m.store.entries r).keys ∧
          k.equal? x.store x.key = some false ∧ k.equal? m.store x.key = some true ∧
          (k.ChangedInside x.store m.store ∨ x.key.ChangedInside x.store m.store)) := by
  refine ⟨c.machine.ends_or_stays, fun program n hn => hn.elim hc.run hc.stay, fun m hm r => ?_⟩
  have hsound := hc.sound.moments m hm
  exact ⟨hsound.keys_differ_unless_changed r, hsound.length?_unless_changed r⟩

/-! ## A key that is changed -/

/-- A map with two arrays for keys, one of which is then made equal to the other. -/
def changedKey : String := "let b = [2]\nlet m = \x7b[1]: 1, b: 2\x7d\nb[0] = 1\nprint(len(m))\n"

/-- The state that the change of a key leaves behind. -/
def changedKeyMachine : Machine := ((Machine.ofLimit 10000).runSource changedKey).2

theorem length_changedKeyMachine :
    changedKeyMachine.output = "2\n" ∧ (map ⟨2⟩).length? changedKeyMachine.store = some 2 ∧
      ((changedKeyMachine.store.entries ⟨2⟩).distinctKeys changedKeyMachine.store).length = 1 := by
  decide +kernel

/-- **Keys do not always stay distinct**: programs reach states in which two entries of a map have equal
keys, and the length of a map is not the number of its distinct keys. -/
theorem keys_not_always_distinct :
    (¬ ∀ (limit : Nat) (m : Machine), Machine.Reachable limit m → ∀ r,
      (m.store.entries r).keys.Pairwise fun k k' => k.equal? m.store k' ≠ some true) ∧
    ¬ ∀ (limit : Nat) (m : Machine), Machine.Reachable limit m → ∀ r,
      (map r).length? m.store = some ((m.store.entries r).distinctKeys m.store).length := by
  obtain ⟨-, hlength, hdistinct⟩ := length_changedKeyMachine
  have hreached : Machine.Reachable 10000 changedKeyMachine := .runSource changedKey .start
  have hne : (map ⟨2⟩).length? changedKeyMachine.store ≠
      some ((changedKeyMachine.store.entries ⟨2⟩).distinctKeys changedKeyMachine.store).length := by
    rw [hlength, hdistinct]
    nofun
  exact ⟨fun h => hne (length?_of_differ (h 10000 _ hreached ⟨2⟩)),
    fun h => hne (h 10000 _ hreached ⟨2⟩)⟩

/-- The two keys were not equal when they were written, and one of them has been changed since. -/
theorem keys_differ_until_changed_changedKey :
    ∃ c : Chronicle, c.Reached 10000 ∧ c.machine.output = "2\n" ∧
      ∃ x ∈ c.missed, ∃ k : Value, k.equal? x.store x.key = some false ∧
        k.equal? c.machine.store x.key = some true ∧
        (k.ChangedInside x.store c.machine.store ∨ x.key.ChangedInside x.store c.machine.store) := by
  obtain ⟨program, hends⟩ : ∃ program, (Machine.ofLimit 10000).Ends program changedKeyMachine :=
    Machine.ends_of_runSource (by decide +kernel)
  obtain ⟨c, hc, hmachine⟩ := (keys_differ_until_changed .start).2.1 program _ (.inl hends)
  have hnow := ((keys_differ_until_changed hc).2.2 c.now List.mem_cons_self ⟨2⟩).2
  have hstore : c.now.store = changedKeyMachine.store := congrArg Machine.store hmachine
  obtain ⟨houtput, hlength, hdistinct⟩ := length_changedKeyMachine
  rcases hnow with hcount | ⟨x, hx, k, -, -, hthen, hequal, hchanged⟩
  · rw [hstore, hlength, hdistinct] at hcount
    cases hcount
  · rw [← hmachine] at houtput
    exact ⟨c, hc, houtput, x, hx, k, hthen, hequal, hchanged⟩

end Nikl
