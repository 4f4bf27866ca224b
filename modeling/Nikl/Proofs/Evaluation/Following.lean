import Nikl.Proofs.Evaluation.Balance
import Nikl.Proofs.Evaluation.Rules
import Nikl.Proofs.Value.Comparison

/-
The scripts of the rules do what the evaluator does, and with enough fuel they come to its end. The
evaluator answers a comparison that never ends with a stop of its own; a script stays at that comparison
for good. Everywhere else the two end alike (`Told`).

The way through the tree is that of the evaluator, and goes through bodies by induction on the room for
calls. Two pieces of work in turn need the fuel of both, so "enough fuel" means all fuel from some amount
on, and no measure has to be computed.
-/

set_option autoImplicit false
set_option linter.unusedSectionVars false

namespace Nikl

/-! ## What the evaluator compares -/

namespace Eval

/-- Compares two values, in the collections as they are. -/
def comparing (v w : Value) : Eval Bool := fun m =>
  match v.equal? m.store w with
  | some same => .ok same m
  | none => .error .endless m

/-- Searches for the place of a key. -/
def searching (key : Value) (entries : Entries) : Eval (Option Nat) := fun m =>
  match entries.position? (Value.sameIn m.store) key with
  | some place => .ok place m
  | none => .error .endless m

theorem balanced_comparing (v w : Value) : Eval.Balanced (comparing v w) := by
  intro m
  unfold EvalOf.after comparing
  cases v.equal? m.store w <;> exact ⟨rfl, rfl⟩

theorem comparing_of_some {v w : Value} {m : Machine} {b : Bool} (h : v.equal? m.store w = some b) :
    comparing v w m = .ok b m := by
  rw [comparing, h]

theorem comparing_of_none {v w : Value} {m : Machine} (h : v.equal? m.store w = none) :
    comparing v w m = .error .endless m := by
  rw [comparing, h]

theorem searching_of_some {key : Value} {entries : Entries} {m : Machine} {place : Option Nat}
    (h : entries.position? (Value.sameIn m.store) key = some place) :
    searching key entries m = .ok place m := by
  rw [searching, h]

theorem searching_of_none {key : Value} {entries : Entries} {m : Machine}
    (h : entries.position? (Value.sameIn m.store) key = none) :
    searching key entries m = .error .endless m := by
  rw [searching, h]

/-- A search compares the first key, and goes on if that is another one. -/
theorem searching_cons (key : Value) (e : Value × Value) (entries : Entries) :
    searching key (e :: entries) = comparing e.1 key >>= fun found =>
      if found then pure (some 0)
      else searching key entries >>= fun place => pure (place.map (· + 1)) := by
  funext m
  have hcons := Entries.position?_cons (Value.sameIn m.store) key e entries
  cases hsame : e.1.equal? m.store key with
  | none =>
    rw [Value.sameIn, hsame] at hcons
    rw [searching_of_none hcons, bind_of_error (comparing_of_none hsame)]
  | some found =>
    rw [Value.sameIn, hsame] at hcons
    rw [bind_of_ok (comparing_of_some hsame)]
    cases found with
    | true => exact searching_of_some hcons
    | false =>
      cases hrest : entries.position? (Value.sameIn m.store) key with
      | none =>
        rw [hrest] at hcons
        rw [searching_of_none hcons]
        exact (bind_of_error (searching_of_none hrest)).symm
      | some place =>
        rw [hrest] at hcons
        have hgoes : (searching key entries >>= fun place => pure (place.map (· + 1))) m =
            .ok (place.map (· + 1)) m := bind_of_ok (searching_of_some hrest)
        rw [searching_of_some hcons]
        exact hgoes.symm

theorem addEntry_eq (entries : Entries) (key value : Value) :
    addEntry entries key value = searching key entries >>= fun
      | some place => pure (entries.replaceAt place value).2
      | none => pure (entries.append key value) := by
  funext m
  have hinsert := Entries.insert_eq_position? (Value.sameIn m.store) key value entries
  have hadd : addEntry entries key value m =
      onStore (StoreM.ofSettled ((entries.insert (Value.sameIn m.store) key value).map (·.2))) m := rfl
  rw [hadd, hinsert]
  cases hplace : entries.position? (Value.sameIn m.store) key with
  | none => exact (bind_of_error (searching_of_none hplace)).symm
  | some place =>
    rw [bind_of_ok (searching_of_some hplace)]
    cases place <;> rfl

/-- Work on the collections that ends with a comparison. -/
theorem onStore_compared {work : StoreM Value} {l r : Value} {f : Bool → Value}
    (hwork : ∀ m, onStore work m = onStore (do return f (← StoreM.ofSettled (l.equal? m.store r))) m) :
    onStore work = comparing l r >>= fun same => pure (f same) := by
  funext m
  rw [hwork]
  cases hsame : l.equal? m.store r with
  | none => exact (bind_of_error (comparing_of_none hsame)).symm
  | some same =>
    rw [bind_of_ok (comparing_of_some hsame)]
    rfl

theorem onStore_equal (l r : Value) :
    onStore (BinaryOp.equal.apply l r) = comparing l r >>= fun same => pure (.bool same) :=
  onStore_compared (f := Value.bool) fun _ => rfl

theorem onStore_notEqual (l r : Value) :
    onStore (BinaryOp.notEqual.apply l r) = comparing l r >>= fun same => pure (.bool !same) :=
  onStore_compared (f := fun same => .bool !same) fun _ => rfl

theorem onStore_index_map_get? {ν : Type} [DecidableEq ν] [Naming ν] (r : Ref) (key : Value ν)
    (m : Machine ν) :
    onStore ((Value.map r).index key) m = onStore (do
      match ← StoreM.ofSettled ((m.store.entries r).get? (Value.sameIn m.store) key) with
      | some v => return v
      | none => StoreM.fail (.keyNotFound (key.text m.store))) m := rfl

/-- Reading a map by a key searches for the place of the key. -/
theorem onStore_index_map (r : Ref) (key : Value) (m : Machine) :
    onStore ((Value.map r).index key) m = (searching key (m.store.entries r) >>= fun place =>
      match place.bind ((m.store.entries r)[·]?) with
      | some e => pure e.2
      | none => fail (.keyNotFound (key.text m.store))) m := by
  have hget := Entries.get?_eq_position? (Value.sameIn m.store) key (m.store.entries r)
  rw [onStore_index_map_get?, hget]
  cases hplace : (m.store.entries r).position? (Value.sameIn m.store) key with
  | none => exact (bind_of_error (searching_of_none hplace)).symm
  | some place =>
    rw [bind_of_ok (searching_of_some hplace)]
    rcases place with _ | place
    · rfl
    · simp only [Option.map_some, Option.bind_some]
      cases (m.store.entries r)[place]? <;> rfl

theorem onStore_assignIndex_array (r : Ref) (n : Int64) (value : Value) (m : Machine) :
    onStore ((Value.array r).assignIndex (.int n) value) m =
      (match placeOf? n (m.store.items r).length with
        | some place => modify fun l =>
            { l with store := m.store.put r (.array ((m.store.items r).set place value)) }
        | none => fail (.outOfBounds n (m.store.items r).length) : Eval Unit) m := by
  have hassign : onStore ((Value.array r).assignIndex (.int n) value) m =
      onStore (match placeOf? n (m.store.items r).length with
        | some place => modify fun s => s.put r (.array ((m.store.items r).set place value))
        | none => StoreM.fail (.outOfBounds n (m.store.items r).length)) m := by
    rfl
  rw [hassign]
  cases placeOf? n (m.store.items r).length <;> rfl

/-- Writing to a map by a key searches for the place of the key. -/
theorem onStore_assignIndex_map (r : Ref) (key value : Value) (m : Machine) :
    onStore ((Value.map r).assignIndex key value) m = (searching key (m.store.entries r) >>= fun
      | some place => modify fun n =>
          { n with store := m.store.put r (.map ((m.store.entries r).replaceAt place value).2) }
      | none => modify fun n =>
          { n with store := m.store.put r (.map ((m.store.entries r).append key value)) }) m := by
  have hassign : onStore ((Value.map r).assignIndex key value) m = onStore (do
      match ← StoreM.ofSettled ((m.store.entries r).position? (Value.sameIn m.store) key) with
      | some place =>
        modify fun s => s.put r (.map ((m.store.entries r).replaceAt place value).2)
      | none => modify fun s => s.put r (.map ((m.store.entries r).append key value))) m := by
    rfl
  rw [hassign]
  cases hplace : (m.store.entries r).position? (Value.sameIn m.store) key with
  | none => exact (bind_of_error (searching_of_none hplace)).symm
  | some place =>
    rw [bind_of_ok (searching_of_some hplace)]
    cases place <;> rfl

end Eval

/-! ## Scripts in turn -/

namespace Script

variable {σ α β : Type} {host : Host σ}

theorem run_bind (perform : {β : Type} → Job β → σ → Progress σ β) (depth : Nat) (s : Script α)
    (t : α → Script β) (m : σ) : (s >>= t).run host perform depth m =
      (s.run host perform depth m).andThen fun a n => (t a).run host perform depth n := by
  show (s.bind t).run host perform depth m = _
  induction s generalizing m with
  | give a => rfl
  | fault f => rfl
  | act action next ih => exact ih _ _
  | compare v w next ih =>
    simp only [Script.bind, run]
    cases v.equalWithin (host.act .look m).1 depth w with
    | none => rfl
    | some same => exact ih same _
  | perform job next ih =>
    simp only [Script.bind, run]
    rcases perform job m with ⟨e | b, n⟩ | _ | ⟨u, v, w⟩
    · rfl
    · exact ih b n
    · rfl
    · rfl

theorem run_job (perform : {β : Type} → Job β → σ → Progress σ β) (depth : Nat) (j : Job α) (m : σ) :
    (job j).run host perform depth m = perform j m := by
  simp only [job, run]
  rcases perform j m with ⟨e | b, n⟩ | _ | ⟨u, v, w⟩ <;> rfl

/-- With enough fuel a script comes so far. -/
def Comes (s : Script α) (m : Machine) (p : Progress Machine α) : Prop :=
  ∃ enough, ∀ fuel, enough ≤ fuel → s.run Machine.host (Job.run Machine.host fuel) fuel m = p

theorem comes_of_run {s : Script α} {m : Machine} {p : Progress Machine α}
    (h : ∀ fuel, s.run Machine.host (Job.run Machine.host fuel) fuel m = p) : s.Comes m p :=
  ⟨0, fun fuel _ => h fuel⟩

theorem Comes.bind {s : Script α} {t : α → Script β} {m n : Machine} {a : α} {p : Progress Machine β}
    (hs : s.Comes m (.ended (.ok a) n)) (ht : (t a).Comes n p) : (s >>= t).Comes m p := by
  obtain ⟨enough, hs⟩ := hs
  obtain ⟨enough', ht⟩ := ht
  refine ⟨max enough enough', fun fuel hfuel => ?_⟩
  rw [run_bind, hs fuel (by omega)]
  exact ht fuel (by omega)

/-- Where a script does not come to a result, nothing behind it begins. -/
theorem Comes.bind_of_andThen {s : Script α} {t : α → Script β} {m : Machine} {p : Progress Machine α}
    {q : Progress Machine β} (hs : s.Comes m p) (hp : ∀ next, p.andThen next = q) :
    (s >>= t).Comes m q := by
  obtain ⟨enough, hs⟩ := hs
  refine ⟨enough, fun fuel hfuel => ?_⟩
  rw [run_bind, hs fuel hfuel, hp]

/-- A job takes one unit of fuel more than what it is made of. -/
theorem Comes.job {j : Job α} {m : Machine} {p : Progress Machine α} (h : j.script.Comes m p) :
    (job j).Comes m (j.closing.apply Machine.host p) := by
  obtain ⟨enough, h⟩ := h
  refine ⟨enough + 1, fun fuel hfuel => ?_⟩
  obtain ⟨fuel, rfl⟩ : ∃ n, fuel = n + 1 := ⟨fuel - 1, by omega⟩
  rw [run_job, Job.run, h fuel (by omega)]

end Script

/-! ## The same end -/

/-- How an end of the evaluator is told by a script: by the same end, or by a comparison that has none. -/
inductive Told {α : Type} : EStateM.Result Stop Machine α → Progress Machine α → Prop where
  | ok (a : α) (m : Machine) : Told (.ok a m) (.ended (.ok a) m)
  | error (e : EvalError) (m : Machine) : Told (.error (.error e) m) (.ended (.error e) m)
  | endless (m n : Machine) {s : Store} {v w : Value} (h : ∀ depth, v.equalWithin s depth w = none) :
      Told (.error .endless m) (.comparing s v w n)

/-- A script does from a state what the evaluator does. -/
def Follows {α : Type} (s : Script α) (w : Eval α) (m : Machine) : Prop :=
  ∃ p, Told (w m) p ∧ s.Comes m p

namespace Follows

variable {α β : Type} {s : Script α} {w : Eval α} {m : Machine}

theorem intro {r : EStateM.Result Stop Machine α} {p : Progress Machine α} (hw : w m = r)
    (htold : Told r p) (hcomes : s.Comes m p) : Follows s w m :=
  ⟨p, hw ▸ htold, hcomes⟩

theorem of_ok {a : α} {n : Machine} (hw : w m = .ok a n)
    (hs : ∀ fuel, s.run Machine.host (Job.run Machine.host fuel) fuel m = .ended (.ok a) n) :
    Follows s w m :=
  intro hw (.ok a n) (Script.comes_of_run hs)

theorem of_error {e : EvalError} {n : Machine} (hw : w m = .error (.error e) n)
    (hs : ∀ fuel, s.run Machine.host (Job.run Machine.host fuel) fuel m = .ended (.error e) n) :
    Follows s w m :=
  intro hw (.error e n) (Script.comes_of_run hs)

theorem bind {t : α → Script β} {f : α → Eval β} (hs : Follows s w m)
    (ht : ∀ a n, w m = .ok a n → Follows (t a) (f a) n) : Follows (s >>= t) (w >>= f) m := by
  obtain ⟨p, htold, hcomes⟩ := hs
  cases hw : w m with
  | ok a n =>
    rw [hw] at htold
    cases htold
    obtain ⟨q, htold', hcomes'⟩ := ht a n hw
    exact intro (Eval.bind_of_ok hw) htold' (hcomes.bind hcomes')
  | error stop n =>
    rw [hw] at htold
    cases htold with
    | error e =>
      exact intro (Eval.bind_of_error hw) (.error e n) (hcomes.bind_of_andThen fun _ => rfl)
    | endless _ _ h =>
      exact intro (Eval.bind_of_error hw) (.endless n _ h) (hcomes.bind_of_andThen fun _ => rfl)

/-- A job that only gives errors a place. -/
theorem placed {j : Job α} {span : Span} (hj : j.closing = .place span) (h : Follows j.script w m) :
    Follows (Script.job j) (Eval.located span w) m := by
  obtain ⟨p, htold, hcomes⟩ := h
  have hjob := hj ▸ hcomes.job
  cases hw : w m with
  | ok a n =>
    rw [hw] at htold
    cases htold
    exact intro (Eval.located_of_ok hw) (.ok a n) hjob
  | error stop n =>
    rw [hw] at htold
    cases htold with
    | error e => exact intro (Eval.located_of_error hw) (.error _ n) hjob
    | endless _ _ h => exact intro (Eval.located_of_error hw) (.endless n _ h) hjob

/-- A job with nothing to do at its end. -/
theorem plain {j : Job α} (hj : j.closing = .nothing) (h : Follows j.script w m) :
    Follows (Script.job j) w m := by
  obtain ⟨p, htold, hcomes⟩ := h
  have hjob := hj ▸ hcomes.job
  exact ⟨p, htold, hjob⟩

/-- A job that opens a block at its beginning, and closes it at its end. -/
theorem inBlock {j : Job α} (hj : j.closing = .block)
    (hscript : j.script = Script.action .openBlock >>= fun _ => s)
    (h : Follows s w { m with env := m.env.openBlock }) :
    Follows (Script.job j) (Eval.inBlock w) m := by
  obtain ⟨p, htold, hcomes⟩ := h
  have hopen : (Script.action .openBlock).Comes m (.ended (.ok ()) { m with env := m.env.openBlock }) :=
    Script.comes_of_run fun _ => rfl
  have hjob := (hscript ▸ hopen.bind hcomes : j.script.Comes m p).job
  rw [hj] at hjob
  cases hw : w { m with env := m.env.openBlock } with
  | ok a n =>
    rw [hw] at htold
    cases htold
    exact intro (Eval.inBlock_of_ok hw) (.ok a _) hjob
  | error stop n =>
    rw [hw] at htold
    cases htold with
    | error e => exact intro (Eval.inBlock_of_error hw) (.error e _) hjob
    | endless _ _ h => exact intro (Eval.inBlock_of_error hw) (.endless _ _ h) hjob

end Follows

/-- A script does what the evaluator does, from all states with so much room for calls. -/
structure Carries {α : Type} (room : Nat) (s : Script α) (w : Eval α) : Prop where
  balanced : Eval.Balanced w
  follows (m : Machine) : m.calls.room = room → Follows s w m

namespace Carries

open Eval (steady_sameStacks balanced_callWithin after_of_ok comparing searching)

variable {α β : Type} {room : Nat} {s : Script α} {w : Eval α}

/-! ### Pieces of work -/

theorem bind {t : α → Script β} {f : α → Eval β} (hs : Carries room s w)
    (ht : ∀ a, Carries room (t a) (f a)) : Carries room (s >>= t) (w >>= f) := by
  refine ⟨steady_sameStacks.bind hs.balanced fun a => (ht a).balanced, fun m hroom => ?_⟩
  refine (hs.follows m hroom).bind fun a n hw => (ht a).follows n ?_
  -- the first piece of work gives back the room that it took
  have same := (hs.balanced m).calls
  rw [after_of_ok hw] at same
  rw [same, hroom]

theorem pure (a : α) : Carries room (Script.give a) (pure a) :=
  ⟨steady_sameStacks.congruent.pure a, fun _ _ => .of_ok rfl fun _ => rfl⟩

theorem fault (f : EvalFault) : Carries room (Script.fault f : Script α) (Eval.fail f) :=
  ⟨steady_sameStacks.congruent.fail f, fun _ _ => .of_error rfl fun _ => rfl⟩

theorem ofExcept (r : Except EvalFault α) : Carries room (Script.ofExcept r) (Eval.ofExcept r) := by
  cases r with
  | ok a => exact pure a
  | error f => exact fault f

/-- A single action does what a change of the state does. -/
theorem action {action : Action α} (balanced : Eval.Balanced w)
    (hw : ∀ m, w m = .ok (Machine.host.act action m).1 (Machine.host.act action m).2) :
    Carries room (Script.action action) w :=
  ⟨balanced, fun m _ => .of_ok (hw m) fun _ => rfl⟩

/-- What depends on the collections as they are. -/
theorem look {f : Store → Script α} {g : Store → Eval α} (hw : ∀ m, w m = g m.store m)
    (h : ∀ t, Carries room (f t) (g t)) : Carries room (Script.action .look >>= f) w := by
  refine ⟨fun m => ?_, fun m hroom => ?_⟩
  · have hafter : w.after m = (g m.store).after m := by rw [EvalOf.after, hw, EvalOf.after]
    rw [hafter]
    exact (h m.store).balanced m
  · obtain ⟨p, htold, hcomes⟩ := (h m.store).follows m hroom
    have hlook : (Script.action .look).Comes m (.ended (.ok m.store) m) :=
      Script.comes_of_run fun _ => rfl
    exact ⟨p, hw m ▸ htold, hlook.bind hcomes⟩

theorem placed {j : Job α} {span : Span} (hj : j.closing = .place span) (h : Carries room j.script w) :
    Carries room (Script.job j) (Eval.located span w) :=
  ⟨Eval.Steady.located span h.balanced, fun m hroom => (h.follows m hroom).placed hj⟩

theorem plain {j : Job α} (hj : j.closing = .nothing) (h : Carries room j.script w) :
    Carries room (Script.job j) w :=
  ⟨h.balanced, fun m hroom => (h.follows m hroom).plain hj⟩

theorem inBlock {j : Job α} (hj : j.closing = .block)
    (hscript : j.script = Script.action .openBlock >>= fun _ => s) (h : Carries room s w) :
    Carries room (Script.job j) (Eval.inBlock w) :=
  ⟨steady_sameStacks.inBlock w h.balanced, fun m hroom =>
    (h.follows { m with env := m.env.openBlock } hroom).inBlock hj hscript⟩

/-! ### Comparisons -/

/-- A comparison is answered at some depth, or at none and then never. -/
theorem same (v w : Value) : Carries room (Script.same v w) (comparing v w) := by
  refine ⟨Eval.balanced_comparing v w, fun m _ => ?_⟩
  cases hsame : v.equal? m.store w with
  | some b =>
    obtain ⟨depth, hdepth⟩ := Value.equal?_eq_some_iff.1 hsame
    refine ⟨.ended (.ok b) m, ?_, depth, fun fuel hfuel => ?_⟩
    · rw [Eval.comparing_of_some hsame]
      exact .ok b m
    · have hfuel := Value.equalWithin_mono m.store hfuel v w b hdepth
      simp only [Script.same, Script.run, Machine.host, hfuel]
  | none =>
    have hnever : ∀ depth, v.equalWithin m.store depth w = none := by
      intro depth
      cases hdepth : v.equalWithin m.store depth w with
      | none => rfl
      | some b => rw [Value.equal?_eq_some_iff.2 ⟨depth, hdepth⟩] at hsame; cases hsame
    refine ⟨.comparing m.store v w m, ?_, 0, fun fuel _ => ?_⟩
    · rw [Eval.comparing_of_none hsame]
      exact .endless m m hnever
    · simp only [Script.same, Script.run, Machine.host, hnever fuel]

theorem find (key : Value) (entries : Entries) :
    Carries room (Script.job (.find key entries)) (searching key entries) := by
  induction entries with
  | nil => exact .plain rfl (pure none)
  | cons e entries ih =>
    rw [Eval.searching_cons]
    refine .plain rfl ((same e.1 key).bind fun found => ?_)
    cases found with
    | true => exact pure (some 0)
    | false => exact ih.bind fun place => pure (place.map (· + 1))

/-! ### Rules -/

theorem newArray (items : List Value) :
    Carries room (Script.newArray items) (Eval.onStore (StoreM.newArray items)) :=
  ⟨steady_sameStacks.congruent.newArray items, fun _ _ => .of_ok rfl fun _ => rfl⟩

theorem newMap (entries : Entries) :
    Carries room (Script.newMap entries) (Eval.onStore (StoreM.newMap entries)) :=
  ⟨steady_sameStacks.congruent.newMap entries, fun _ _ => .of_ok rfl fun _ => rfl⟩

theorem run_ident (x : String) (span : Span) (fuel : Nat) (m : Machine) :
    (Script.expr (.ident x span)).run Machine.host (Job.run Machine.host fuel) fuel m =
      (match m.env.lookup x with
        | .ok v => Script.give v
        | .error .undefined => Script.fault (.undefined x)
        | .error .deleted => Script.fault (.deleted x)).run Machine.host
          (Job.run Machine.host fuel) fuel m := rfl

theorem nameValue (x : String) (span : Span) :
    Carries room (Script.expr (.ident x span)) (Eval.nameValue x) := by
  refine ⟨steady_sameStacks.congruent.nameValue x, fun m _ => ?_⟩
  have hw := Eval.nameValue_eq x m
  have hs := fun fuel => run_ident x span fuel m
  rcases hlookup : m.env.lookup x with (_ | _) | v <;> rw [hlookup] at hw hs
  · exact .of_error hw hs
  · exact .of_error hw hs
  · exact .of_ok hw hs

theorem deleteName (x : String) (span : Span) :
    Carries room (Script.stmt (.delete x span)) (Eval.deleteName x >>= fun _ => Pure.pure .fellThrough) := by
  have balanced := steady_sameStacks.congruent.deleteName x
  refine ⟨steady_sameStacks.bind balanced fun _ => steady_sameStacks.congruent.pure _, fun m _ => ?_⟩
  have hw := Eval.deleteName_eq x m
  have hs : ∀ fuel, (Script.stmt (.delete x span)).run Machine.host (Job.run Machine.host fuel) fuel m =
      (if (m.env.delete x).1 then Script.give Completion.fellThrough
        else Script.fault (.cannotDelete x)).run Machine.host (Job.run Machine.host fuel) fuel
          { m with env := (m.env.delete x).2 } := fun _ => rfl
  cases hdelete : (m.env.delete x).1 <;> rw [hdelete] at hw hs
  · exact .of_error (Eval.bind_of_error hw) hs
  · exact .of_ok (Eval.bind_of_ok hw) hs

theorem binary (op : BinaryOp) (l r : Value) :
    Carries room (Script.binary op l r) (Eval.onStore (op.apply l r)) := by
  by_cases hequal : op = .equal
  · subst hequal
    rw [Eval.onStore_equal]
    exact (same l r).bind fun b => pure (Value.bool b)
  by_cases hnotEqual : op = .notEqual
  · subst hnotEqual
    rw [Eval.onStore_notEqual]
    exact (same l r).bind fun b => pure (Value.bool !b)
  have balanced := steady_sameStacks.congruent.binary op l r
  rw [Script.binary, if_neg hequal, if_neg hnotEqual]
  cases hjoined : op.joined? l r with
  | none =>
    have happly : Eval.onStore (op.apply l r) = Eval.ofExcept (op.onScalars l r) := by
      funext m
      cases hscalars : op.onScalars l r <;>
      · simp only [Eval.onStore, BinaryOp.apply, if_neg hequal, if_neg hnotEqual, hjoined, hscalars]
        rfl
    rw [happly]
    exact ofExcept (op.onScalars l r)
  | some both =>
    have happly : ∀ m, Eval.onStore (op.apply l r) m =
        Eval.onStore (StoreM.newArray (m.store.items both.1 ++ m.store.items both.2)) m := by
      intro m
      simp only [Eval.onStore, BinaryOp.apply, if_neg hequal, if_neg hnotEqual, hjoined]
      rfl
    exact look happly fun t => newArray (t.items both.1 ++ t.items both.2)

theorem unary (op : UnaryOp) (v : Value) :
    Carries room (Script.unary op v) (Eval.onStore (op.apply v)) := by
  have balanced := steady_sameStacks.congruent.unary op v
  cases op with
  | not => exact ⟨balanced, fun _ _ => .of_ok rfl fun _ => rfl⟩
  | neg =>
    cases v with
    | int n =>
      have happly : (Eval.onStore (UnaryOp.neg.apply (.int n)) : Eval Value) =
          Eval.ofExcept (BinaryOp.checked .negation (Arithmetic.fit? (-n.toInt))) := by
        funext m
        simp only [Eval.onStore, UnaryOp.apply]
        cases Arithmetic.fit? (-n.toInt) <;> rfl
      rw [happly]
      exact ofExcept _
    | float x => exact ⟨balanced, fun _ _ => .of_ok rfl fun _ => rfl⟩
    | _ => exact ⟨balanced, fun _ _ => .of_error rfl fun _ => rfl⟩

theorem itemAt (items : List Value) (i : Int64) :
    Carries room (Script.itemAt items i) (Eval.onStore (Nikl.itemAt items i)) := by
  unfold Script.itemAt Nikl.itemAt
  cases (placeOf? i items.length).bind (items[·]?) with
  | none => exact fault _
  | some v => exact pure v

/-- An index that does not fit what it reaches into. -/
theorem index_mismatch {t i : Value} (hs : Script.index t i = Script.fault (.cannotIndex t.kind i.kind))
    (hw : Eval.onStore (t.index i) = Eval.fail (.cannotIndex t.kind i.kind)) :
    Carries room (Script.index t i) (Eval.onStore (t.index i)) := by
  rw [hs, hw]
  exact fault _

theorem index (t i : Value) : Carries room (Script.index t i) (Eval.onStore (t.index i)) := by
  cases t with
  | map r =>
    let found (t : Store) (place : Option Nat) : Eval Value :=
      match place.bind ((t.entries r)[·]?) with
      | some e => Pure.pure e.2
      | none => Eval.fail (.keyNotFound (i.text t))
    refine look (g := fun t => searching i (t.entries r) >>= found t) (Eval.onStore_index_map r i)
      fun t => (find i (t.entries r)).bind fun place => ?_
    unfold found
    cases place.bind ((t.entries r)[·]?) with
    | none => exact fault _
    | some e => exact pure e.2
  | array r =>
    cases i with
    | int n => exact look (fun _ => rfl) fun t => itemAt (t.items r) n
    | _ => exact index_mismatch rfl rfl
  | tuple items =>
    cases i with
    | int n => exact itemAt items n
    | _ => exact index_mismatch rfl rfl
  | string content =>
    cases i with
    | int n => exact itemAt (Value.letters content) n
    | _ => exact index_mismatch rfl rfl
  | _ => exact index_mismatch rfl rfl

/-- New contents for a collection. -/
theorem put (t : Store) : Carries room (Script.action (.put t)) (modify fun m => { m with store := t }) :=
  action (fun _ => ⟨rfl, rfl⟩) fun _ => rfl

theorem assignIndex (t i v : Value) :
    Carries room (Script.assignIndex t i v) (Eval.onStore (t.assignIndex i v)) := by
  cases t with
  | map r =>
    let write (t : Store) : Option Nat → Eval Unit
      | some place => modify fun n =>
        { n with store := t.put r (.map ((t.entries r).replaceAt place v).2) }
      | none => modify fun n => { n with store := t.put r (.map ((t.entries r).append i v)) }
    refine look (g := fun t => searching i (t.entries r) >>= write t) (Eval.onStore_assignIndex_map r i v)
      fun t => (find i (t.entries r)).bind fun place => ?_
    cases place with
    | none => exact put _
    | some place => exact put _
  | array r =>
    cases i with
    | int n =>
      let write (t : Store) : Eval Unit :=
        match placeOf? n (t.items r).length with
        | some place => modify fun m => { m with store := t.put r (.array ((t.items r).set place v)) }
        | none => Eval.fail (.outOfBounds n (t.items r).length)
      refine look (g := write) (Eval.onStore_assignIndex_array r n v) fun t => ?_
      unfold write
      cases placeOf? n (t.items r).length with
      | none => exact fault _
      | some place => exact put _
    | _ => exact fault _
  | tuple items => exact fault _
  | _ => exact fault _

theorem addEntry (entries : Entries) (key value : Value) :
    Carries room (Script.addEntry entries key value) (Eval.addEntry entries key value) := by
  rw [Eval.addEntry_eq]
  refine (find key entries).bind fun place => ?_
  cases place with
  | none => exact pure _
  | some place => exact pure _

theorem callBuiltin (b : Builtin) (args : List Value) (span : Span) :
    Carries room (Script.callValue (.builtin b) args span) (Eval.callBuiltin b args) := by
  let answer (result : Except EvalFault (String × Value)) : Eval Value := do
    let answered ← Eval.ofExcept result
    modify fun m => { m with output := m.output ++ answered.1 }
    return answered.2
  refine look (g := fun t => answer (b.apply t args)) (fun _ => rfl) fun t => ?_
  refine (ofExcept (b.apply t args)).bind fun answered => ?_
  exact (action (steady_sameStacks.congruent.write answered.1) fun _ => rfl).bind
    fun _ => pure answered.2

theorem bindItem (first : String) (second : Option String) (item : LoopItem) :
    Carries room (Script.bindItem first second item) (Eval.bindItem first second item) := by
  refine ⟨steady_sameStacks.congruent.bindItem first second item, fun m _ => ?_⟩
  refine .of_ok rfl fun fuel => ?_
  rcases item with ⟨v, _ | w⟩ <;> cases second <;> rfl

/-- The rounds of a loop whose body does what the evaluator does. -/
theorem rounds {ss : List Stmt} {w : Eval Completion} (hbody : Carries room (Script.job (.stmts ss)) w)
    (first : String) (second : Option String) (items : List LoopItem) :
    Carries room (Script.job (.rounds first second ss items))
      (Eval.forEach (fun item => Eval.inBlock do
        Eval.bindItem first second item
        w) items) := by
  induction items with
  | nil => exact plain rfl (pure Completion.fellThrough)
  | cons item rest ih =>
    have hround : Carries room (Script.job (.round first second ss item)) (Eval.inBlock do
        Eval.bindItem first second item
        w) :=
      inBlock rfl rfl ((bindItem first second item).bind fun _ => hbody)
    refine plain rfl (hround.bind fun c => ?_)
    cases c with
    | fellThrough => exact ih
    | returned v => exact pure (Completion.returned v)

/-! ### Expressions and statements -/

section Tree

variable {call : Call}
  (hc : ∀ f args span, Carries room (Script.job (.call f args span)) (call f args span))

include hc

theorem callValue (callee : Value) (args : List Value) (span : Span) :
    Carries room (Script.callValue callee args span) (Eval.callValue call callee args span) := by
  cases callee with
  | function f => exact hc f args span
  | builtin b => exact callBuiltin b args span
  | _ => exact fault _

mutual

theorem expr : (e : Expr) → Carries room (Script.job (.expr e)) (Eval.expr call e)
  | .literal v _ => placed rfl (pure (Value.ofLiteral v))
  | .ident x span => placed rfl (nameValue x span)
  | .array items _ => placed rfl ((exprs items).bind fun vs => newArray vs)
  | .tuple items _ => placed rfl ((exprs items).bind fun vs => pure (Value.tuple vs))
  | .map entries _ => placed rfl ((mapEntries [] entries).bind fun es => newMap es)
  | .binary op left right _ =>
    placed rfl ((expr left).bind fun l => (expr right).bind fun r => binary op l r)
  | .unary op operand _ => placed rfl ((expr operand).bind fun v => unary op v)
  | .call callee args span =>
    placed rfl ((expr callee).bind fun f => (exprs args).bind fun vs => callValue hc f vs span)
  | .index target i _ =>
    placed rfl ((expr target).bind fun t => (expr i).bind fun i => index t i)

theorem exprs : (es : List Expr) → Carries room (Script.job (.exprs es)) (Eval.exprs call es)
  | [] => plain rfl (pure [])
  | e :: rest => plain rfl ((expr e).bind fun v => (exprs rest).bind fun vs => pure (v :: vs))

theorem mapEntries (written : Entries) : (es : List (Expr × Expr)) →
    Carries room (Script.job (.mapEntries written es)) (Eval.mapEntries call written es)
  | [] => plain rfl (pure written)
  | (key, value) :: rest => plain rfl ((expr key).bind fun k => (expr value).bind fun v =>
      (addEntry written k v).bind fun es => mapEntries es rest)

end

mutual

theorem stmt : (s : Stmt) → Carries room (Script.job (.stmt s)) (Eval.stmt call s)
  | .expr e _ => placed rfl ((expr hc e).bind fun _ => pure _)
  | .define x _ value _ => placed rfl ((expr hc value).bind fun v =>
      (action (steady_sameStacks.congruent.define x v) fun _ => rfl).bind fun _ => pure _)
  | .assign x value _ => placed rfl ((expr hc value).bind fun v =>
      (action (steady_sameStacks.congruent.assign x v) fun _ => rfl).bind fun _ => pure _)
  | .assignIndex target i value _ => placed rfl ((expr hc target).bind fun t =>
      (expr hc i).bind fun i => (expr hc value).bind fun v =>
        (assignIndex t i v).bind fun _ => pure _)
  | .delete x span => placed rfl (deleteName x span)
  | .function d span => show Carries room _ (Eval.located span (do
        modify (Machine.defineFunction d)
        return Completion.fellThrough)) from
      placed rfl ((action (steady_sameStacks.congruent.defineFunction d) fun _ => rfl).bind
        fun _ => pure _)
  | .ifThen condition thenBranch _ => placed rfl ((expr hc condition).bind fun c =>
      look (f := fun t => if c.isTruthy t then Script.job (.block thenBranch.stmts) else .give _)
        (g := fun t => if c.isTruthy t then Eval.block call thenBranch else Pure.pure _)
        (fun _ => rfl) fun t => by
          cases c.isTruthy t with
          | true => exact block thenBranch
          | false => exact pure Completion.fellThrough)
  | .ifElse condition thenBranch elseBranch _ => placed rfl ((expr hc condition).bind fun c =>
      look (f := fun t => if c.isTruthy t then Script.job (.block thenBranch.stmts)
          else Script.job (.block elseBranch.stmts))
        (g := fun t => if c.isTruthy t then Eval.block call thenBranch else Eval.block call elseBranch)
        (fun _ => rfl) fun t => by
          cases c.isTruthy t with
          | true => exact block thenBranch
          | false => exact block elseBranch)
  | .forEach first second iterable (.mk body _) _ => placed rfl ((expr hc iterable).bind fun v =>
      look (g := fun t => Eval.ofExcept (v.loopItems t second.isSome) >>= _) (fun _ => rfl) fun t =>
        (ofExcept (v.loopItems t second.isSome)).bind fun items =>
          rounds (stmts body) first second items)
  | .giveBack none span => show Carries room _ (Eval.located span (Pure.pure (Completion.returned .none)))
      from placed rfl (pure _)
  | .giveBack (some e) _ => placed rfl ((expr hc e).bind fun v => pure (Completion.returned v))

theorem stmts : (ss : List Stmt) → Carries room (Script.job (.stmts ss)) (Eval.stmts call ss)
  | [] => plain rfl (pure Completion.fellThrough)
  | s :: rest => plain rfl ((stmt s).bind fun c =>
      match c with
      | .fellThrough => stmts rest
      | .returned v => pure (Completion.returned v))

theorem block : (b : Block) → Carries room (Script.job (.block b.stmts)) (Eval.block call b)
  | .mk body _ => inBlock rfl rfl (stmts body)

end

end Tree

/-! ### Calls -/

/-- Parameters are bound one after another. -/
theorem comes_bindAll (bindings : List (Param × Value)) (m : Machine) :
    (Script.job (.bindAll bindings)).Comes m (.ended (.ok ())
      { m with env := bindings.foldl (fun env (p, v) => env.define p.name v) m.env }) := by
  induction bindings generalizing m with
  | nil => exact (Script.comes_of_run fun _ => rfl : (Job.bindAll []).script.Comes m _).job
  | cons binding rest ih =>
    have first : (Script.action (.define binding.1.name binding.2)).Comes m
        (.ended (.ok ()) { m with env := m.env.define binding.1.name binding.2 }) :=
      Script.comes_of_run fun _ => rfl
    have hscript : (Job.bindAll (binding :: rest)).script.Comes m _ := first.bind (ih _)
    exact hscript.job

theorem follows_call_of_arity {f : Closure} {args : List Value} {span : Span} {body : Eval Completion}
    {m : Machine} (harity : args.length ≠ f.arity) :
    Follows (Script.job (.call f args span)) (Eval.duringCall f args span body) m := by
  have hscript : (Job.call f args span).script = .fault (.wrongArity f.name f.arity args.length) :=
    if_pos harity
  refine .plain rfl ?_
  rw [hscript]
  exact .of_error (Eval.duringCall_of_arity harity) fun _ => rfl

/-- A call that finds no room does not begin. -/
theorem follows_call_of_full {f : Closure} {args : List Value} {span : Span} {body : Eval Completion}
    {m : Machine} {fault : EvalFault} (harity : args.length = f.arity)
    (hpush : m.calls.push ⟨f.name, some span⟩ = .error fault) :
    Follows (Script.job (.call f args span)) (Eval.duringCall f args span body) m := by
  refine .plain rfl (.of_error (Eval.duringCall_of_full harity hpush) fun fuel => ?_)
  show (Script.call f args span).run _ _ _ _ = _
  rw [Script.call, if_neg (Decidable.not_not.2 harity), Script.run_bind]
  simp only [Script.action, Script.run, Machine.host, hpush]
  rfl

/-- A call that finds room enters its function, and all that is left is the body. -/
theorem comes_call {f : Closure} {args : List Value} {span : Span} {calls : CallStack} {m : Machine}
    {p : Progress Machine Value} (harity : args.length = f.arity)
    (hpush : m.calls.push ⟨f.name, some span⟩ = .ok calls)
    (hbody : (Script.job (.body f.definition) >>= fun c => Script.give c.value).Comes
      (Eval.entered f args calls m) p) : (Script.job (.call f args span)).Comes m p := by
  have henter : (Script.action (.enter ⟨f.name, some span⟩)).Comes m
      (.ended (.ok (.ok ())) { m with calls := calls }) :=
    Script.comes_of_run fun _ => by simp only [Script.action, Script.run, Machine.host, hpush]
  have hallowed : (Script.ofExcept (.ok ())).Comes { m with calls := calls }
      (.ended (.ok ()) { m with calls := calls }) := Script.comes_of_run fun _ => rfl
  have hopen : (Script.action (.openInside f.scope)).Comes { m with calls := calls }
      (.ended (.ok ()) { m with calls := calls, env := m.env.openInside f.scope }) :=
    Script.comes_of_run fun _ => rfl
  have hbind := comes_bindAll (f.definition.params.zip args)
    { m with calls := calls, env := m.env.openInside f.scope }
  have hscript : (Job.call f args span).script =
      (Script.action (.enter ⟨f.name, some span⟩) >>= fun r =>
        Script.ofExcept r >>= fun _ => Script.action (.openInside f.scope) >>= fun _ =>
          Script.job (.bindAll (f.definition.params.zip args)) >>= fun _ =>
            Script.job (.body f.definition) >>= fun c => Script.give c.value) := by
    show Script.call f args span = _
    rw [Script.call, if_neg (Decidable.not_not.2 harity)]
    rfl
  have hcall : (Job.call f args span).script.Comes m p := by
    rw [hscript]
    exact henter.bind (hallowed.bind (hopen.bind (hbind.bind hbody)))
  exact hcall.job

/-- A call that finds room ends as the body does. -/
theorem follows_call {f : Closure} {args : List Value} {span : Span} {body : Eval Completion}
    {calls : CallStack} {m : Machine} (harity : args.length = f.arity)
    (hpush : m.calls.push ⟨f.name, some span⟩ = .ok calls)
    (hbody : Follows (Script.job (.stmts f.definition.body.stmts)) body (Eval.entered f args calls m)) :
    Follows (Script.job (.call f args span)) (Eval.duringCall f args span body) m := by
  obtain ⟨p, htold, hcomes⟩ := hbody
  have hrest : (Job.body f.definition).script.Comes (Eval.entered f args calls m) p := hcomes
  cases hw : body (Eval.entered f args calls m) with
  | ok c n =>
    rw [hw] at htold
    cases htold
    have hgive : (Script.give c.value).Comes n.leaveCall (.ended (.ok c.value) n.leaveCall) :=
      Script.comes_of_run fun _ => rfl
    exact .intro (by rw [Eval.duringCall_of_push harity hpush, hw]) (.ok c.value n.leaveCall)
      (comes_call harity hpush (hrest.job.bind hgive))
  | error stop n =>
    rw [hw] at htold
    cases htold with
    | error e =>
      exact .intro (by rw [Eval.duringCall_of_push harity hpush, hw]; rfl) (.error _ n.leaveCall)
        (comes_call harity hpush (hrest.job.bind_of_andThen fun _ => rfl))
    | endless _ _ h =>
      exact .intro (by rw [Eval.duringCall_of_push harity hpush, hw]; rfl) (.endless n.leaveCall _ h)
        (comes_call harity hpush (hrest.job.bind_of_andThen fun _ => rfl))

/-- A call does what the evaluator does that has so much room for calls. -/
theorem call (room : Nat) (f : Closure) (args : List Value) (span : Span) :
    Carries room (Script.job (.call f args span)) (Eval.callWithin room f args span) := by
  induction room generalizing f args span with
  | zero =>
    refine ⟨balanced_callWithin 0 f args span, fun m hroom => ?_⟩
    rw [Eval.callWithin_eq]
    by_cases harity : args.length = f.arity
    · have hpush : m.calls.push ⟨f.name, some span⟩ = .error (.tooDeep m.calls.limit) := by
        simp only [CallStack.push, hroom]
      exact follows_call_of_full harity hpush
    · exact follows_call_of_arity harity
  | succ room ih =>
    refine ⟨balanced_callWithin (room + 1) f args span, fun m hroom => ?_⟩
    rw [Eval.callWithin_eq, Eval.bodyWithin_succ]
    by_cases harity : args.length = f.arity
    · have hpush : m.calls.push ⟨f.name, some span⟩ =
          .ok ⟨⟨f.name, some span⟩ :: m.calls.frames, room⟩ := by
        simp only [CallStack.push, hroom]
      exact follows_call harity hpush ((stmts ih f.definition.body.stmts).follows _ rfl)
    · exact follows_call_of_arity harity

end Carries

end Nikl
