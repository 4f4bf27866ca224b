import Mathlib
import Nikl.Proofs.Evaluation.Discipline

/-
How collections change. An array keeps its length, and a map its keys in their order, behind which there
may be new ones (`Cell.Grows`). What is in a collection changes in one way only: an assignment to an item
writes to the collection that its target has come to. All else that a program does with collections reads
them, or makes new ones.

That is said of single actions first: one that belongs to no such assignment leaves all collections as
they are. A run is made of them, so where a collection has changed in the end, an assignment to an item of
it was passed.
-/

set_option autoImplicit false

namespace Nikl

/-! ## Growth -/

/-- What may become of a collection: an array keeps its length, a map its keys. -/
def Cell.Grows : Cell → Cell → Prop
  | array xs, array ys => ys.length = xs.length
  | map es, map fs => es.keys <+: fs.keys
  | _, _ => False

namespace Cell.Grows

variable {c d e : Cell}

theorem refl (c : Cell) : c.Grows c := by
  cases c with
  | array xs => exact Eq.refl xs.length
  | map es => exact List.prefix_rfl

theorem trans (h : c.Grows d) (h' : d.Grows e) : c.Grows e := by
  match c, d, e, h, h' with
  | array _, array _, array _, h, h' => exact Eq.trans h' h
  | map _, map _, map _, h, h' => exact List.IsPrefix.trans h h'

/-- An array stays an array, and a map a map. -/
theorem at_eq (h : c.Grows d) (r : Ref) : d.at r = c.at r := by
  match c, d, h with
  | array _, array _, _ => rfl
  | map _, map _, _ => rfl

end Cell.Grows

/-- From one moment to a later one every collection is there still, and has changed as it may. -/
def Store.Grown (before after : Store) : Prop :=
  ∀ (i : Nat) (c : Cell), before.cells[i]? = some c → ∃ d, after.cells[i]? = some d ∧ c.Grows d

/-- A value that is an array refers to an array, and one that is a map to a map; and so do those that it
has in its tuples. -/
def Value.Kinded (s : Store) (v : Value) : Prop :=
  v.Throughout fun w => ∀ r, w = .array r ∨ w = .map r →
    ∃ c : Cell, s.cells[r.index]? = some c ∧ c.at r = w

/-- All that collections hold is kinded. -/
abbrev Store.Kinded (s : Store) : Prop := s.HoldsOnly (·.Kinded s)

section Growth

variable {s t u : Store} {v : Value} {c d : Cell} {r : Ref}

theorem Store.Grown.refl (s : Store) : s.Grown s := fun _ c hc => ⟨c, hc, .refl c⟩

theorem Store.Grown.trans (h : s.Grown t) (h' : t.Grown u) : s.Grown u := by
  intro i c hc
  obtain ⟨d, hd, hcd⟩ := h i c hc
  obtain ⟨e, he, hde⟩ := h' i d hd
  exact ⟨e, he, hcd.trans hde⟩

theorem Value.Kinded.mono (h : v.Kinded s) (hst : s.Grown t) : v.Kinded t := by
  refine Throughout.mono h fun w hw r hr => ?_
  obtain ⟨c, hc, hat⟩ := hw r hr
  obtain ⟨d, hd, hcd⟩ := hst r.index c hc
  exact ⟨d, hd, (hcd.at_eq r).trans hat⟩

theorem Value.IsScalar.kinded (h : v.IsScalar) (s : Store) : v.Kinded s := by
  refine h.throughout fun r hr => ?_
  rcases hr with rfl | rfl <;> exact h.elim

theorem Store.grown_push (s : Store) (c : Cell) : s.Grown (s.push c) := by
  intro i d hd
  refine ⟨d, ?_, .refl d⟩
  have hlt : i < s.size := (Array.getElem?_eq_some_iff.1 hd).1
  rw [s.cell_push c ⟨i⟩, if_neg, hd]
  intro h
  exact Nat.ne_of_lt hlt (congrArg Ref.index h)

/-- A new collection of kinded values. -/
theorem Store.Kinded.push (hs : s.Kinded) (hc : ∀ v ∈ c.contents, v.Kinded s) :
    (s.push c).Kinded ∧ (c.at s.next).Kinded (s.push c) := by
  refine ⟨HoldsOnly.mono (HoldsOnly.push hs hc) fun _ hv => hv.mono (s.grown_push c), ?_⟩
  have hnext : (s.push c).cells[s.next.index]? = some c := by
    rw [s.cell_push c, if_pos rfl]
  cases c <;> exact fun r hr => by
    rcases hr with h | h <;> cases h
    exact ⟨_, hnext, rfl⟩

/-- What writing to an item makes of a collection. -/
theorem Store.Writes.grows {key value : Value} (h : s.Writes key value v t) (hv : v.Kinded s) :
    ∃ (r : Ref) (c d : Cell), c.at r = v ∧ s.cells[r.index]? = some c ∧ t = s.put r d ∧ c.Grows d ∧
      ∀ w ∈ d.contents, w ∈ c.contents ∨ w = key ∨ w = value := by
  have array_of : ∀ r, v = .array r → s.cells[r.index]? = some (.array (s.items r)) := by
    rintro r rfl
    obtain ⟨c | c, hc, hat⟩ := hv r (.inl rfl)
    · rw [Store.items, hc]
    · cases hat
  have map_of : ∀ r, v = .map r → s.cells[r.index]? = some (.map (s.entries r)) := by
    rintro r rfl
    obtain ⟨c | c, hc, hat⟩ := hv r (.inr rfl)
    · cases hat
    · rw [Store.entries, hc]
  have written : ∀ es : Entries,
      Entries.All (fun w => w ∈ (Cell.map es).contents ∨ w = key ∨ w = value) es :=
    fun es => Entries.All.iff_contents.2 fun w hw => .inl hw
  cases h with
  | @item r place hplace =>
    refine ⟨r, _, _, rfl, array_of r rfl, rfl, List.length_set, fun w hw => ?_⟩
    exact (List.mem_or_eq_of_mem_set hw).imp id .inr
  | @replace r place =>
    have hcontents := (written (s.entries r)).replaceAt (.inr (.inr rfl)) place
    refine ⟨r, _, _, rfl, map_of r rfl, rfl, ?_, Entries.All.iff_contents.1 hcontents⟩
    show (s.entries r).keys <+: Entries.keys _
    rw [Entries.keys_replaceAt]
  | @append r =>
    have hcontents := (written (s.entries r)).append (.inr (.inl rfl)) (.inr (.inr rfl))
    refine ⟨r, _, _, rfl, map_of r rfl, rfl, ?_, Entries.All.iff_contents.1 hcontents⟩
    show (s.entries r).keys <+: ((s.entries r) ++ [(key, value)]).map (·.1)
    rw [List.map_append]
    exact List.prefix_append _ _

/-- Other contents for a collection, which it may come to have. -/
theorem Store.grown_put (hr : s.cells[r.index]? = some c) (h : c.Grows d) : s.Grown (s.put r d) := by
  have hlt : r.index < s.size := (Array.getElem?_eq_some_iff.1 hr).1
  intro i e he
  rw [s.cell_put r ⟨i⟩ d hlt]
  by_cases hi : (⟨i⟩ : Ref) = r
  · obtain rfl : c = e := by
      subst hi
      exact Option.some.inj (hr.symm.trans he)
    exact ⟨d, if_pos hi, h⟩
  · exact ⟨e, (if_neg hi).trans he, .refl e⟩

/-- Writing to an item keeps what all collections hold kinded. -/
theorem Store.Kinded.write {key value : Value} (hs : s.Kinded) (hv : v.Kinded s) (hkey : key.Kinded s)
    (hvalue : value.Kinded s) (h : s.Writes key value v t) : t.Kinded ∧ s.Grown t := by
  obtain ⟨r, c, d, -, hc, rfl, hgrows, hcontents⟩ := h.grows hv
  have hgrown := Store.grown_put hc hgrows
  have hd : ∀ w ∈ d.contents, w.Kinded s := by
    intro w hw
    rcases hcontents w hw with hold | rfl | rfl
    · exact hs r.index c hc w hold
    · exact hkey
    · exact hvalue
  have hlt : r.index < s.size := (Array.getElem?_eq_some_iff.1 hc).1
  exact ⟨HoldsOnly.mono (HoldsOnly.put hs hlt hd) fun _ hv => hv.mono hgrown, hgrown⟩

end Growth

/-! ## The discipline of all programs -/

/-- What every program keeps of its collections. -/
def growing : Discipline where
  Sound := Store.Kinded
  Fit s v := v.Kinded s
  Later := Store.Grown
  Allows _ := True
  refl := .refl
  trans := .trans
  mono h hv := hv.mono h
  scalar h := h.kinded _
  builtin _ _ := nofun
  tuple h := Value.throughout_tuple.2 h
  function := ⟨fun _ _ _ => trivial, fun _ => nofun⟩
  held hs hv hw := hv.held hs hw
  make {s c} hs hc := ⟨(hs.push hc).1, s.grown_push c, (hs.push hc).2⟩
  write _ hs ht hkey hvalue h := hs.write ht hkey hvalue h
  part _ _ := trivial

/-- All that is bound in a state, and all that its collections hold, is kinded. So are all states that
programs come through. -/
abbrev Machine.Kinded (m : Machine) : Prop := growing.Keeps m

theorem growing_allowsAll (ss : List Stmt) : growing.AllowsAll ss := fun _ _ => trivial

theorem Machine.kinded_ofLimit (limit : Nat) : (ofLimit limit).Kinded :=
  growing.keeps_ofLimit (fun _ _ => nofun) limit

/-! ## Single actions -/

/-- The next thing in a script is to put other collections in the place of all. -/
def Script.Puts (s : Store) {α : Type} : Script α → Prop
  | act (.put t) _ => t = s
  | _ => False

/-- An assignment to an item of a collection is about to write to it: its target has come to this very
collection. -/
def Point.WritesTo (r : Ref) (p : Point) : Prop :=
  ∃ (t key value : Value) (s : Store), (t = .array r ∨ t = .map r) ∧ p.job.Targets p.start t ∧
    p.rest.Puts s ∧ p.state.store.Writes key value t s

section Actions

variable {m : Machine} {program : Block} (hm : m.Kinded) {α β : Type} {j : Job α} {start k : Machine}
  {a : Action β} {next : β → Script α}
  (h : (Job.stmts program.stmts).Passes m ⟨j, start, .act a next, k⟩)

include hm h

/-- **An action leaves a collection as it is, or writes to it for an assignment.** -/
theorem Point.writesTo_or_same {r : Ref} (hr : r.index < k.store.size) :
    (Machine.host.act a k).2.store.cells[r.index]? = k.store.cells[r.index]? ∨
      Point.WritesTo r ⟨j, start, .act a next, k⟩ := by
  obtain ⟨hk, hlegal⟩ := Discipline.legal hm (growing_allowsAll program.stmts) h
  cases a with
  | put s =>
    rcases hlegal with ⟨c, -, rfl⟩ | ⟨t, key, value, htargets, -, ht, -, -, hwrites⟩
    · left
      show (k.store.push c).cells[r.index]? = _
      rw [k.store.cell_push c r, if_neg]
      rintro rfl
      exact Nat.lt_irrefl _ hr
    · obtain ⟨q, c, d, hat, hc, hs, -, -⟩ := hwrites.grows ht
      by_cases hrq : r = q
      · subst hrq
        refine .inr ⟨t, key, value, s, ?_, htargets, rfl, hwrites⟩
        cases c
        · exact .inl hat.symm
        · exact .inr hat.symm
      · left
        show s.cells[r.index]? = _
        rw [hs, k.store.cell_put q r d (Array.getElem?_eq_some_iff.1 hc).1, if_neg hrq]
  | enter frame =>
    left
    simp only [Machine.host]
    cases k.calls.push frame <;> rfl
  | _ => exact .inl rfl

/-- An action changes collections as they may change. -/
theorem Point.grown : k.store.Grown (Machine.host.act a k).2.store := by
  obtain ⟨hk, hlegal⟩ := Discipline.legal hm (growing_allowsAll program.stmts) h
  exact (hk.act hlegal).2

end Actions

/-! ## Runs -/

theorem Store.Grown.index_lt {s t : Store} {r : Ref} (h : s.Grown t) (hr : r.index < s.size) :
    r.index < t.size := by
  obtain ⟨d, hd, -⟩ := h r.index _ (Array.getElem?_eq_getElem hr)
  exact (Array.getElem?_eq_some_iff.1 hd).1

/-- **Where a collection has changed, an assignment to an item of it was passed.** -/
theorem Machine.During.writesTo_or_same {m n : Machine} {program : Block} (h : m.During program n)
    (hm : m.Kinded) {r : Ref} (hr : r.index < m.store.size) :
    n.store.cells[r.index]? = m.store.cells[r.index]? ∨
      ∃ p, (Job.stmts program.stmts).Passes m p ∧ p.WritesTo r := by
  let Written : Prop := ∃ p, (Job.stmts program.stmts).Passes m p ∧ p.WritesTo r
  refine h.of_passes (R := fun k l => l.store.cells[r.index]? = k.store.cells[r.index]? ∨ Written)
    (fun _ => .inl rfl) (fun hkl hlo => ?_) (fun closing k => ?_) ?_
  · rcases hkl with hkl | hwritten
    · exact hlo.imp (·.trans hkl) id
    · exact .inr hwritten
  · cases closing <;> exact .inl rfl
  · intro γ β i start a next k hpass
    have hduring : m.During program k := .inl ⟨_, hpass, rfl⟩
    have hgrown : m.store.Grown k.store :=
      (Discipline.during hm (growing_allowsAll program.stmts) hduring).2
    exact (Point.writesTo_or_same hm hpass (hgrown.index_lt hr)).imp id fun hwrites =>
      ⟨_, hpass, hwrites⟩

/-! ## The main statement -/

/-- **Collections change by assignments to their items alone, and an array keeps its length and a map its
keys.** A program may be run from any state in which references to arrays refer to arrays and those to maps
to maps. At every moment an action leaves each collection that there is as it is, or it writes to one for
an assignment to an item whose target has come to this collection; so operators, loops, calls with their
arguments, comparisons and built-in functions leave all of them alone. From the beginning of a run to every
moment of it, and to its end, arrays have kept their length and maps their keys in order, and where a
collection has changed an assignment to an item of it was passed. What is neither an array nor a map
holds the same forever, and an assignment to an item of it fails. -/
theorem collections_change_by_assignment {m : Machine} (hm : m.Kinded) (program : Block) :
    (∀ {α β : Type} (j : Job α) (start : Machine) (a : Action β) (next : β → Script α) (k : Machine),
      (Job.stmts program.stmts).Passes m ⟨j, start, .act a next, k⟩ →
        k.store.Grown (Machine.host.act a k).2.store ∧
        ∀ r : Ref, r.index < k.store.size →
          (Machine.host.act a k).2.store.cells[r.index]? = k.store.cells[r.index]? ∨
            Point.WritesTo r ⟨j, start, .act a next, k⟩) ∧
    (∀ n, m.During program n → n.Kinded ∧ m.store.Grown n.store ∧
      ∀ r : Ref, r.index < m.store.size → n.store.cells[r.index]? = m.store.cells[r.index]? ∨
        ∃ p, (Job.stmts program.stmts).Passes m p ∧ p.WritesTo r) ∧
    ∀ t : Value, (∀ r, t ≠ .array r ∧ t ≠ .map r) →
      (∀ s s' : Store, t.held s' = t.held s ∧ t.length? s' = t.length? s) ∧
      ∀ index value s, ∃ fault, t.assignIndex index value s = .error (.ofFault fault) s := by
  refine ⟨fun j start a next k h => ?_, fun n h => ?_, fun t ht => ?_⟩
  · exact ⟨Point.grown hm h, fun r hr => Point.writesTo_or_same hm h hr⟩
  · obtain ⟨hn, hgrown⟩ := Discipline.during hm (growing_allowsAll program.stmts) h
    exact ⟨hn, hgrown, fun r hr => h.writesTo_or_same hm hr⟩
  · cases t with
    | array r => exact absurd rfl (ht r).1
    | map r => exact absurd rfl (ht r).2
    | _ => exact ⟨fun _ _ => ⟨rfl, rfl⟩, fun _ _ _ => ⟨_, rfl⟩⟩

/-- Makes an array, and a map that has it for a value. -/
def arrayInMap : Block :=
  let here := Span.nowhere
  let items : Expr := .array [.literal (.int 1) here, .literal (.int 2) here] here
  .mk [
    .define "a" none items here,
    .define "m" none (.map [(.literal (.string "k") here, .ident "a" here)] here) here] here

/-- Joins the array to itself, goes through it, compares it, takes its length, and puts the map into it. -/
def changesArray : Block :=
  let here := Span.nowhere
  let a : Expr := .ident "a" here
  let round : Block := .mk [.expr (.binary .equal (.ident "x" here) a here) here] here
  .mk [
    .define "b" none (.binary .add a a here) here,
    .forEach "x" none a round here,
    .expr (.call (.ident "len" here) [a] here) here,
    .assignIndex a (.literal (.int 0) here) (.ident "m" here) here] here

/-- The state between the two programs. -/
def arrayInMapMachine : Machine := (Machine.ofLimit 3).afterRun arrayInMap

/-- The state after them. -/
def changedArrayMachine : Machine := arrayInMapMachine.afterRun changesArray

/-- The array has changed in the end, so the program has passed the assignment to an item of it. -/
theorem collections_change_by_assignment_changesArray :
    arrayInMapMachine.Kinded ∧ arrayInMapMachine.store.Grown changedArrayMachine.store ∧
      (changedArrayMachine.store.items ⟨0⟩).map Value.kind = [.map, .int] ∧
      (changedArrayMachine.store.items ⟨2⟩).map Value.kind = [.int, .int, .int, .int] ∧
      ∃ p, (Job.stmts changesArray.stmts).Passes arrayInMapMachine p ∧ p.WritesTo ⟨0⟩ := by
  have hstart := Machine.kinded_ofLimit 3
  have hends : (Machine.ofLimit 3).Ends arrayInMap arrayInMapMachine := .inl rfl
  have hkinded := ((collections_change_by_assignment hstart arrayInMap).2.1 _ (.inr hends)).1
  have hends' : arrayInMapMachine.Ends changesArray changedArrayMachine := .inl (by cbv)
  obtain ⟨-, hgrown, hcells⟩ :=
    (collections_change_by_assignment hkinded changesArray).2.1 _ (.inr hends')
  have hbefore : (arrayInMapMachine.store.items ⟨0⟩).map Value.kind = [.int, .int] := by cbv
  have hafter : (changedArrayMachine.store.items ⟨0⟩).map Value.kind = [.map, .int] := by cbv
  have hjoined : (changedArrayMachine.store.items ⟨2⟩).map Value.kind = [.int, .int, .int, .int] := by cbv
  refine ⟨hkinded, hgrown, hafter, hjoined, (hcells ⟨0⟩ (by decide)).resolve_left fun hsame => ?_⟩
  rw [Store.items, hsame, ← Store.items, hbefore] at hafter
  cases hafter

end Nikl
