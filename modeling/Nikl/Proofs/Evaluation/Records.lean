import Nikl.Proofs.Evaluation.Chronicle
import Nikl.Proofs.Scope
import Nikl.Proofs.Value.Inside

/-
What chronicles keep. At every moment of a run the collections hold no reference that the store does not
know, and for any two keys of a map the later one was once looked for among entries that had the earlier
one, and not found (`Moment.Sound`). No state has less on record than one before it.

The way there is one condition for each action and one for each job: what it is carried out with, and
what it ends with. A script is safe if it keeps to these conditions (`Script.Safe`). If the script of
every job is, every run is, by induction on the fuel (`Job.fulfils`); that the scripts are safe is said
where the rules are gone through.
-/

set_option autoImplicit false

namespace Nikl

/-! ## Environments -/

/-- Every value that is bound in any scope is stored. -/
abbrev Environment.Stored (size : Nat) (env : Environment) : Prop := env.BindsOnly (·.Stored size)

namespace Environment

variable {env : Environment} {n k : Nat} {v : Value}

theorem Stored.mono (h : env.Stored n) (hk : n ≤ k) : env.Stored k :=
  BindsOnly.mono h fun _ hv => hv.mono hk

theorem stored_withBuiltins (n : Nat) : withBuiltins.Stored n := bindsOnly_withBuiltins fun _ => trivial

end Environment

/-! ## What is on record -/

/-- A key was looked for among entries that had another one, and not found. -/
def Parted (missed : List Miss) (earlier later : Value) : Prop :=
  ∃ x ∈ missed, x.key = later ∧ earlier ∈ x.entries.keys

/-- Each key of some entries was looked for among those before it, and not found. -/
def Entries.Written (missed : List Miss) (entries : Entries) : Prop :=
  entries.keys.Pairwise (Parted missed)

/-- A search that found nothing was one in a closed store, and the key differed from those it was
compared with. -/
structure Miss.Sound (x : Miss) : Prop where
  closed : x.store.Closed
  key : x.key.Stored x.store.size
  entries : ∀ e ∈ x.entries, e.1.Stored x.store.size
  differ : ∀ e ∈ x.entries, e.1.equal? x.store x.key = some false

/-- At a moment all that collections hold is stored, and all keys of maps were looked for before they
were written. -/
structure Moment.Sound (m : Moment) : Prop where
  closed : m.store.Closed
  missed : ∀ x ∈ m.missed, x.Sound
  written : ∀ r, (m.store.entries r).Written m.missed

namespace Chronicle

/-- What is bound is stored, and every moment up to now is sound. -/
structure Sound (c : Chronicle) : Prop where
  env : c.machine.env.Stored c.size
  moments : ∀ m ∈ c.moments, m.Sound

theorem Sound.now {c : Chronicle} (h : c.Sound) : c.now.Sound := h.moments c.now List.mem_cons_self

theorem Sound.closed {c : Chronicle} (h : c.Sound) : c.machine.store.Closed := h.now.closed

theorem Sound.written {c : Chronicle} (h : c.Sound) (r : Ref) :
    (c.machine.store.entries r).Written c.missed := h.now.written r

/-- Nothing is lost: collections stay in the store, and searches on record. -/
structure Later (c d : Chronicle) : Prop where
  size : c.size ≤ d.size
  missed : c.missed ⊆ d.missed

theorem Later.refl (c : Chronicle) : c.Later c := ⟨Nat.le_refl _, List.Subset.refl _⟩

theorem Later.trans {b c d : Chronicle} (h : b.Later c) (h' : c.Later d) : b.Later d :=
  ⟨Nat.le_trans h.size h'.size, List.Subset.trans h.missed h'.missed⟩

theorem sound_ofLimit (limit : Nat) : (ofLimit limit).Sound where
  env := Environment.stored_withBuiltins _
  moments := by
    rintro m hm
    rw [List.mem_singleton.1 hm]
    exact { closed := fun _ _ => nofun, missed := nofun, written := fun _ => List.Pairwise.nil }

end Chronicle

section Written

variable {missed missed' : List Miss} {es : Entries}

theorem Entries.Written.mono (h : es.Written missed) (hsub : missed ⊆ missed') : es.Written missed' :=
  List.Pairwise.imp (fun ⟨x, hx, hkey⟩ => ⟨x, hsub hx, hkey⟩) h

theorem Entries.Written.replaceAt (h : es.Written missed) (place : Nat) (value : Value) :
    Entries.Written missed (es.replaceAt place value).2 := by
  rw [Written, keys_replaceAt]
  exact h

/-- A key that was looked for among all entries may be written behind them. -/
theorem Entries.Written.append {key : Value} {s : Store} (h : es.Written missed)
    (hmissed : ⟨key, es, s⟩ ∈ missed) (value : Value) : (es.append key value).Written missed := by
  rw [Written, keys, Entries.append, List.map_append, List.pairwise_append]
  refine ⟨h, List.pairwise_singleton .., fun k hk k' hk' => ?_⟩
  rw [List.map_singleton, List.mem_singleton] at hk'
  exact ⟨_, hmissed, hk'.symm, hk⟩

theorem Moment.Sound.push {m : Moment} {c : Cell} (h : m.Sound) (hc : c.Stored m.store.size)
    (hwritten : c.entries.Written m.missed) : Moment.Sound ⟨m.store.push c, m.missed⟩ where
  closed := h.closed.push hc
  missed := h.missed
  written r := by
    rcases m.store.entries_push c r with hr | hr <;> rw [hr]
    · exact h.written r
    · exact hwritten

theorem Moment.Sound.put {m : Moment} {c : Cell} (h : m.Sound) (r : Ref) (hc : c.Stored m.store.size)
    (hwritten : c.entries.Written m.missed) : Moment.Sound ⟨m.store.put r c, m.missed⟩ where
  closed := h.closed.put hc r
  missed := h.missed
  written q := by
    rcases m.store.entries_put r q c with hq | hq <;> rw [hq]
    · exact h.written q
    · exact hwritten

end Written

/-! ## Actions -/

/-- What an action has to be carried out with. -/
def Action.Legal {α : Type} (c : Chronicle) : Action α → Prop
  | .put s => c.size ≤ s.size ∧ Moment.Sound ⟨s, c.missed⟩
  | .define _ v => v.Stored c.size
  | .assign _ v => v.Stored c.size
  | _ => True

namespace Chronicle

variable {c : Chronicle}

/-- A step that leaves the collections alone. -/
theorem Sound.step (h : c.Sound) {m : Machine} (hstore : m.store = c.machine.store)
    (henv : m.env.Stored c.size) : (c.step m).Sound ∧ c.Later (c.step m) := by
  have hnow : (c.step m).now = c.now := congrArg (Moment.mk · c.missed) hstore
  refine ⟨⟨?_, ?_⟩, ?_, List.Subset.refl _⟩
  · show m.env.Stored m.store.size
    rw [hstore]
    exact henv
  · intro x hx
    rcases List.mem_cons.1 hx with rfl | hx
    · rw [hnow]
      exact h.now
    · exact h.moments x hx
  · show c.size ≤ m.store.size
    rw [hstore]

/-- **A legal action keeps a chronicle sound.** -/
theorem Sound.act (h : c.Sound) {α : Type} {a : Action α} (ha : a.Legal c) :
    (host.act a c).2.Sound ∧ c.Later (host.act a c).2 := by
  cases a with
  | put s =>
    refine ⟨⟨h.env.mono ha.1, fun x hx => ?_⟩, ha.1, List.Subset.refl _⟩
    rcases List.mem_cons.1 hx with rfl | hx
    · exact ha.2
    · exact h.moments x hx
  | define x v => exact h.step rfl (h.env.define x ha)
  | assign x v => exact h.step rfl (h.env.assign x ha)
  | delete x => exact h.step rfl (h.env.delete x)
  | defineFunction d => exact h.step rfl (h.env.define d.name trivial)
  | openBlock => exact h.step rfl (h.env.openInside _)
  | openInside r => exact h.step rfl (h.env.openInside r)
  | enter frame =>
    cases hpush : c.machine.calls.push frame with
    | ok calls =>
      have hact : (host.act (.enter frame) c).2 = c.step { c.machine with calls := calls } := by
        simp only [host, Machine.host, hpush]
      rw [hact]
      exact h.step rfl h.env
    | error fault =>
      have hact : (host.act (.enter frame) c).2 = c.step c.machine := by
        simp only [host, Machine.host, hpush]
      rw [hact]
      exact h.step rfl h.env
  | look => exact h.step rfl h.env
  | write text => exact h.step rfl h.env
  | lookup x => exact h.step rfl h.env
  | close => exact h.step rfl h.env
  | leave => exact h.step rfl h.env

end Chronicle

/-! ## Jobs -/

/-- What a round of a loop binds is stored. -/
def LoopItem.Stored (size : Nat) (item : LoopItem) : Prop :=
  item.first.Stored size ∧ ∀ v, item.second = some v → v.Stored size

theorem LoopItem.Stored.mono {n k : Nat} {item : LoopItem} (h : item.Stored n) (hk : n ≤ k) :
    item.Stored k := ⟨h.1.mono hk, fun v hv => (h.2 v hv).mono hk⟩

namespace Job

variable {α : Type}

/-- What a job has to be carried out with. -/
def Pre (c : Chronicle) : Job α → Prop
  | mapEntries written _ => written.Stored c.size ∧ written.Written c.missed
  | find key entries => key.Stored c.size ∧ ∀ e ∈ entries, e.1.Stored c.size
  | round _ _ _ item => item.Stored c.size
  | rounds _ _ _ items => ∀ item ∈ items, item.Stored c.size
  | call _ args _ => ∀ v ∈ args, v.Stored c.size
  | bindAll arguments => ∀ a ∈ arguments, a.2.Stored c.size
  | _ => True

/-- What the script of a job ends with. -/
def Done (c : Chronicle) : Job α → α → Chronicle → Prop
  | expr _, v, d => v.Stored d.size
  | exprs _, vs, d => ∀ v ∈ vs, v.Stored d.size
  | mapEntries _ _, entries, d => entries.Stored d.size ∧ entries.Written d.missed
  | find key entries, place, d => d.machine.store = c.machine.store ∧
    (place = none → ∀ e ∈ entries, e.1.equal? d.machine.store key = some false)
  | call _ _ _, v, d => v.Stored d.size
  | bindAll _, _, _ => True
  | stmt _, a, d | stmts _, a, d | block _, a, d | round _ _ _ _, a, d | rounds _ _ _ _, a, d
  | body _, a, d => a.value.Stored d.size

/-- What a job ends with: a search that found nothing is on record. -/
def Post (c : Chronicle) : Job α → α → Chronicle → Prop
  | find key entries, place, d => d.machine.store = c.machine.store ∧
    (place = none → ⟨key, entries, d.machine.store⟩ ∈ d.missed)
  | j, a, d => j.Done c a d

/-- What the script of a job ends with is not touched by what becomes of scopes and calls. -/
theorem Done.of_same {c d d' : Chronicle} {j : Job α} {a : α} (h : j.Done c a d)
    (hstore : d'.machine.store = d.machine.store) (hmissed : d'.missed = d.missed) : j.Done c a d' := by
  cases j with
  | bindAll _ => trivial
  | _ => simpa only [Done, Chronicle.size, hstore, hmissed] using h

end Job

/-! ## Scripts -/

/-- What is known of how far a job or a script comes: an end is sound and has lost nothing, and a result
is as it should be. -/
def Progress.Fulfils {α : Type} (c : Chronicle) (Q : α → Chronicle → Prop) : Progress Chronicle α → Prop
  | ended (.ok a) d => (d.Sound ∧ c.Later d) ∧ Q a d
  | ended (.error _) d => d.Sound ∧ c.Later d
  | comparing _ _ _ d => d.Sound ∧ c.Later d
  | unfinished => True

namespace Script

variable {α β : Type}

/-- Actions and jobs of a script have what they have to be carried out with, and its result is as it
should be. -/
def Safe (Q : α → Chronicle → Prop) : Script α → Chronicle → Prop
  | give a, c => Q a c
  | fault _, _ => True
  | act action next, c => action.Legal c ∧ ((Chronicle.host.act action c).2.Sound →
      c.Later (Chronicle.host.act action c).2 →
      (next (Chronicle.host.act action c).1).Safe Q (Chronicle.host.act action c).2)
  | compare v w next, c => ∀ same, v.equal? c.machine.store w = some same →
      (Chronicle.host.act .look c).2.Sound → (next same).Safe Q (Chronicle.host.act .look c).2
  | perform j next, c => j.Pre c ∧
      ∀ b d, d.Sound → c.Later d → j.Post c b d → (next b).Safe Q d

section Rules

variable {c : Chronicle} {Q : β → Chronicle → Prop}

theorem Safe.bind {s : Script α} {t : α → Script β} (h : s.Safe (fun a d => (t a).Safe Q d) c) :
    (s >>= t).Safe Q c := by
  show (s.bind t).Safe Q c
  induction s generalizing c with
  | give a => exact h
  | fault f => trivial
  | act action next ih => exact ⟨h.1, fun hd hlater => ih _ (h.2 hd hlater)⟩
  | compare v w next ih => exact fun same hsame hd => ih _ (h same hsame hd)
  | perform j next ih => exact ⟨h.1, fun b d hd hlater hpost => ih b (h.2 b d hd hlater hpost)⟩

theorem Safe.mono {P : β → Chronicle → Prop} {s : Script β} (h : s.Safe P c)
    (hPQ : ∀ a d, P a d → Q a d) : s.Safe Q c := by
  induction s generalizing c with
  | give a => exact hPQ a c h
  | fault f => trivial
  | act action next ih => exact ⟨h.1, fun hd hlater => ih _ (h.2 hd hlater)⟩
  | compare v w next ih => exact fun same hsame hd => ih _ (h same hsame hd)
  | perform j next ih => exact ⟨h.1, fun b d hd hlater hpost => ih b (h.2 b d hd hlater hpost)⟩

end Rules

/-- **A safe script fulfils what is asked of it**, if the jobs that it asks for do. -/
theorem Safe.run {perform : {β : Type} → Job β → Chronicle → Progress Chronicle β}
    (hperform : ∀ {β : Type} (j : Job β) (c : Chronicle), c.Sound → j.Pre c →
      (perform j c).Fulfils c (j.Post c))
    (depth : Nat) {Q : α → Chronicle → Prop} {s : Script α} {b c : Chronicle} (hc : c.Sound)
    (hlater : b.Later c) (h : s.Safe Q c) :
    (s.run Chronicle.host perform depth c).Fulfils b Q := by
  induction s generalizing c with
  | give a => exact ⟨⟨hc, hlater⟩, h⟩
  | fault f => exact ⟨hc, hlater⟩
  | act action next ih =>
    obtain ⟨hd, hcd⟩ := hc.act h.1
    exact ih _ hd (hlater.trans hcd) (h.2 hd hcd)
  | compare v w next ih =>
    obtain ⟨hd, hcd⟩ := hc.act (a := .look) trivial
    have hlook : (Chronicle.host.act .look c).1 = c.machine.store := rfl
    simp only [Script.run]
    rw [hlook]
    cases hsame : v.equalWithin c.machine.store depth w with
    | none => exact ⟨hd, hlater.trans hcd⟩
    | some same =>
      have hequal := Value.equal?_eq_some_iff.2 ⟨depth, hsame⟩
      exact ih same hd (hlater.trans hcd) (h same hequal hd)
  | perform j next ih =>
    have hj := hperform j c hc h.1
    simp only [Script.run]
    rcases hrun : perform j c with ⟨e | a, d⟩ | _ | ⟨s, v, w, d⟩
    · rw [hrun] at hj
      exact ⟨hj.1, hlater.trans hj.2⟩
    · rw [hrun] at hj
      obtain ⟨⟨hd, hcd⟩, hpost⟩ := hj
      exact ih a hd (hlater.trans hcd) (h.2 a d hd hcd hpost)
    · trivial
    · rw [hrun] at hj
      exact ⟨hj.1, hlater.trans hj.2⟩

end Script

/-! ## Runs -/

section Runs

variable {α : Type} {j : Job α} {c : Chronicle} {p : Progress Chronicle α}

theorem Progress.Fulfils.closing (h : p.Fulfils c (j.Done c)) (closing : Closing) :
    (closing.apply Chronicle.host p).Fulfils c (j.Done c) := by
  rcases p with ⟨e | a, d⟩ | _ | ⟨s, v, w, d⟩
  · cases closing with
    | nothing => exact h
    | place span => exact h
    | block =>
      obtain ⟨hd, hlater⟩ := h.1.act (a := .close) trivial
      exact ⟨hd, h.2.trans hlater⟩
    | call =>
      obtain ⟨hd, hlater⟩ := h.1.act (a := .leave) trivial
      exact ⟨hd, h.2.trans hlater⟩
  · cases closing with
    | nothing => exact h
    | place span => exact h
    | block =>
      obtain ⟨hd, hlater⟩ := h.1.1.act (a := .close) trivial
      exact ⟨⟨hd, h.1.2.trans hlater⟩, h.2.of_same rfl rfl⟩
    | call =>
      obtain ⟨hd, hlater⟩ := h.1.1.act (a := .leave) trivial
      exact ⟨⟨hd, h.1.2.trans hlater⟩, h.2.of_same rfl rfl⟩
  · cases closing <;> trivial
  · cases closing <;> exact h

/-- A search that found nothing goes on record as it was. -/
theorem Chronicle.Sound.note {d : Chronicle} (hd : d.Sound) {key : Value} {entries : Entries}
    (hkey : key.Stored d.size) (hentries : ∀ e ∈ entries, e.1.Stored d.size)
    (hdiffer : ∀ e ∈ entries, e.1.equal? d.machine.store key = some false) :
    Sound { d with missed := ⟨key, entries, d.machine.store⟩ :: d.missed } := by
  have hmiss : Miss.Sound ⟨key, entries, d.machine.store⟩ := ⟨hd.closed, hkey, hentries, hdiffer⟩
  refine ⟨hd.env, fun m hm => ?_⟩
  rcases List.mem_cons.1 hm with rfl | hm
  · exact ⟨hd.closed, List.forall_mem_cons.2 ⟨hmiss, hd.now.missed⟩,
      fun r => (hd.written r).mono (List.subset_cons_self ..)⟩
  · exact hd.moments m (List.mem_cons_of_mem _ hm)

theorem Progress.Fulfils.noted (hpre : j.Pre c) (h : p.Fulfils c (j.Done c)) :
    (p.noted j).Fulfils c (j.Post c) := by
  rcases p with ⟨e | a, d⟩ | _ | ⟨s, v, w, d⟩
  · exact h
  · cases j with
    | find key entries =>
      obtain ⟨⟨hd, hlater⟩, hstore, hnone⟩ := h
      cases a with
      | some place => exact ⟨⟨hd, hlater⟩, hstore, nofun⟩
      | none =>
        have hsound := hd.note (hpre.1.mono hlater.size)
          (fun e he => (hpre.2 e he).mono hlater.size) (hnone rfl)
        exact ⟨⟨hsound, hlater.size, List.Subset.trans hlater.missed (List.subset_cons_self ..)⟩, hstore,
          fun _ => List.mem_cons_self⟩
    | _ => exact h
  · trivial
  · exact h

/-- **A run keeps chronicles sound** if the script of every job is safe. -/
theorem Job.fulfils_of_safe
    (hsafe : ∀ {β : Type} (j : Job β) (c : Chronicle), c.Sound → j.Pre c → j.script.Safe (j.Done c) c)
    (fuel : Nat) (j : Job α) {c : Chronicle} (hc : c.Sound) (hpre : j.Pre c) :
    (j.chronicle fuel c).Fulfils c (j.Post c) := by
  induction fuel generalizing α c with
  | zero => trivial
  | succ fuel ih =>
    have hscript := (hsafe j c hc hpre).run (fun j _ hc hpre => ih j hc hpre) fuel hc (.refl c)
    exact (hscript.closing j.closing).noted hpre

end Runs

end Nikl
