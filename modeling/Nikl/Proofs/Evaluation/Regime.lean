import Nikl.Proofs.Evaluation.Course
import Nikl.Proofs.Scope
import Nikl.Proofs.Syntax.Tree
import Nikl.Proofs.Value.Scalars

/-
What programs keep of their values and collections. A regime says which values there may be, which
statements may be carried out, which functions may be made, and what holds of the collections at every
moment. That is all it has to say: that collections may be made of such values, that items of such
collections are such values, and what an assignment to an item does.

From that every run keeps the regime (`Regime.kept`). Values come from literals, names, items, operators,
functions and results of calls; collections change where one is made, and where a statement assigns to an
item of one. The rules are gone through here, once for all regimes.
-/

set_option autoImplicit false

namespace Nikl

/-! ## Changes of collections -/

/-- Writing a value to an item of a collection: to a place of an array, to the place of a key of a map, or
to a new key behind all others. -/
inductive Store.Writes (s : Store) (key value : Value) : Value → Store → Prop
  | item {r : Ref} {place : Nat} (h : place < (s.items r).length) :
      Writes s key value (.array r) (s.put r (.array ((s.items r).set place value)))
  | replace {r : Ref} (place : Nat) :
      Writes s key value (.map r) (s.put r (.map ((s.entries r).replaceAt place value).2))
  | append {r : Ref} : Writes s key value (.map r) (s.put r (.map ((s.entries r).append key value)))

/-- A job is an assignment to an item, and its target has come to a value. -/
def Job.Targets (start : Machine) (t : Value) {α : Type} : Job α → Prop
  | stmt (.assignIndex target _ _ _) => ∃ n, (Job.expr target).Ends start (.ok t) n
  | _ => False

/-! ## Regimes -/

/-- What a program keeps of its values, its statements, its functions and its collections. -/
structure Regime where
  /-- What holds of the collections at every moment. -/
  Sound : Store → Prop
  /-- Which values there may be, with the collections as they are. -/
  Fit : Store → Value → Prop
  /-- How the collections are related to those at every later moment. -/
  Later : Store → Store → Prop
  /-- Which statements may be carried out. -/
  Allows : Stmt → Prop
  /-- Which functions may be made. -/
  Makes : FunctionDef → Prop
  refl (s : Store) : Later s s
  trans {s t u : Store} : Later s t → Later t u → Later s u
  mono {s t : Store} {v : Value} : Later s t → Fit s v → Fit t v
  scalar {s : Store} {v : Value} : v.IsScalar → Fit s v
  builtin (s : Store) (b : Builtin) : Fit s (.builtin b)
  tuple {s : Store} {vs : List Value} : (∀ v ∈ vs, Fit s v) → Fit s (.tuple vs)
  function {s : Store} {f : Closure} : Fit s (.function f) ↔ Makes f.definition
  held {s : Store} {v w : Value} : Sound s → Fit s v → w ∈ v.held s → Fit s w
  make {s : Store} {c : Cell} : Sound s → (∀ v ∈ c.contents, Fit s v) →
    Sound (s.push c) ∧ Later s (s.push c) ∧ Fit (s.push c) (c.at s.next)
  write {s s' : Store} {e i o : Expr} {span : Span} {t key value : Value} :
    Allows (.assignIndex e i o span) → Sound s → Fit s t → Fit s key → Fit s value →
      s.Writes key value t s' → Sound s' ∧ Later s s'
  part {s t : Stmt} : Allows s → .stmt t ∈ (Node.stmt s).children → Allows t
  made {d : FunctionDef} {span : Span} : Allows (.function d span) → Makes d
  body {d : FunctionDef} : Makes d → ∀ t ∈ d.body.stmts, Allows t

namespace Regime

variable (R : Regime)

/-- A state keeps a regime: the collections are sound, and only fit values are bound. -/
def Keeps (m : Machine) : Prop := R.Sound m.store ∧ m.env.BindsOnly (R.Fit m.store)

/-- Statements that may be carried out. -/
def AllowsAll (ss : List Stmt) : Prop := ∀ s ∈ ss, R.Allows s

/-- All keys and values are fit. -/
abbrev FitEntries (s : Store) (entries : Entries) : Prop := Entries.All (R.Fit s) entries

/-- What a job has to begin with. -/
def Pre (m : Machine) {α : Type} : Job α → Prop
  | .mapEntries written _ => R.FitEntries m.store written
  | .stmt s => R.Allows s
  | .stmts ss | .block ss => R.AllowsAll ss
  | .round _ _ ss item => R.AllowsAll ss ∧ item.All (R.Fit m.store)
  | .rounds _ _ ss items => R.AllowsAll ss ∧ ∀ item ∈ items, item.All (R.Fit m.store)
  | .call f args _ => R.Fit m.store (.function f) ∧ ∀ v ∈ args, R.Fit m.store v
  | .bindAll arguments => ∀ a ∈ arguments, R.Fit m.store a.2
  | .body d => R.Makes d
  | _ => True

/-- What a job ends with. A search changes nothing. -/
def Post (m : Machine) {α : Type} : Job α → α → Machine → Prop
  | .expr _, v, n => R.Fit n.store v
  | .exprs _, vs, n => ∀ v ∈ vs, R.Fit n.store v
  | .mapEntries _ _, entries, n => R.FitEntries n.store entries
  | .find _ _, _, n => n.store = m.store
  | .call _ _ _, v, n => R.Fit n.store v
  | .bindAll _, _, _ => True
  | .stmt _, a, n | .stmts _, a, n | .block _, a, n | .round _ _ _ _, a, n | .rounds _ _ _ _, a, n
  | .body _, a, n => R.Fit n.store a.value

/-- What an action of a job has to be carried out with. Collections change in two ways only. -/
def Legal {α : Type} (j : Job α) (start m : Machine) {β : Type} : Action β → Prop
  | .put s => (∃ c : Cell, (∀ v ∈ c.contents, R.Fit m.store v) ∧ s = m.store.push c) ∨
      ∃ t key value, j.Targets start t ∧ (∃ e i o span, R.Allows (.assignIndex e i o span)) ∧
        R.Fit m.store t ∧ R.Fit m.store key ∧ R.Fit m.store value ∧ m.store.Writes key value t s
  | .write text => ∃ (b : Builtin) (args : List Value) (v : Value),
      b.apply m.store args = .ok (text, v) ∧ ∀ a ∈ args, R.Fit m.store a
  | .define _ v => R.Fit m.store v
  | .assign _ v => R.Fit m.store v
  | .defineFunction d => R.Makes d
  | _ => True

variable {R}

theorem Keeps.env {m : Machine} (h : R.Keeps m) {env : Environment}
    (henv : env.BindsOnly (R.Fit m.store)) : R.Keeps { m with env := env } := ⟨h.1, henv⟩

/-- Other collections, of which all that is fit now is fit. -/
theorem Keeps.put {m : Machine} (h : R.Keeps m) {s : Store} (hs : R.Sound s)
    (hlater : R.Later m.store s) : R.Keeps { m with store := s } :=
  ⟨hs, h.2.mono fun _ hv => R.mono hlater hv⟩

/-- A new interpreter keeps every regime. -/
theorem keeps_ofLimit (R : Regime) (h : R.Sound {}) (limit : Nat) : R.Keeps (.ofLimit limit) :=
  ⟨h, Environment.bindsOnly_withBuiltins (R.builtin {})⟩

/-- A legal action keeps the regime. -/
theorem Keeps.act {m : Machine} (h : R.Keeps m) {α β : Type} {j : Job α} {start : Machine}
    {a : Action β} (ha : R.Legal j start m a) :
    R.Keeps (Machine.host.act a m).2 ∧ R.Later m.store (Machine.host.act a m).2.store := by
  have same := R.refl m.store
  cases a with
  | put s =>
    rcases ha with ⟨c, hc, rfl⟩ | ⟨t, key, value, -, ⟨e, i, o, span, hallows⟩, ht, hkey, hvalue, hwrites⟩
    · obtain ⟨hsound, hlater, -⟩ := R.make h.1 hc
      exact ⟨h.put hsound hlater, hlater⟩
    · obtain ⟨hsound, hlater⟩ := R.write hallows h.1 ht hkey hvalue hwrites
      exact ⟨h.put hsound hlater, hlater⟩
  | define x v => exact ⟨h.env (h.2.define x ha), same⟩
  | assign x v => exact ⟨h.env (h.2.assign x ha), same⟩
  | delete x => exact ⟨h.env (h.2.delete x), same⟩
  | defineFunction d => exact ⟨⟨h.1, h.2.define d.name (R.function.2 ha)⟩, same⟩
  | openBlock => exact ⟨h.env (h.2.openInside _), same⟩
  | openInside r => exact ⟨h.env (h.2.openInside r), same⟩
  | enter frame =>
    simp only [Machine.host]
    cases m.calls.push frame <;> exact ⟨h, same⟩
  | _ => exact ⟨h, same⟩

variable (R)

/-- The contract of a regime. -/
def contract : Contract where
  Inv := R.Keeps
  Later m n := R.Later m.store n.store
  Pre j m := R.Pre m j
  Post j m a n := R.Post m j a n
  Legal j start a m := R.Legal j start m a
  refl m := R.refl m.store
  trans := R.trans
  act hm ha := hm.act ha
  leave closing hm := by
    cases closing <;> exact ⟨hm, R.refl _⟩

variable {R}

theorem FitEntries.mono {s t : Store} {entries : Entries} (h : R.FitEntries s entries)
    (hst : R.Later s t) : R.FitEntries t entries :=
  fun e he => ⟨R.mono hst (h e he).1, R.mono hst (h e he).2⟩

end Regime

/-! ## Scripts -/

namespace Script

variable {R : Regime} {α : Type} {j : Job α} {start m : Machine}

/-- A script keeps a regime, and its result is fit. -/
abbrev Yields (R : Regime) (j : Job α) (start m : Machine) (s : Script Value) : Prop :=
  s.Abides R.contract j start (fun v n => R.Fit n.store v) m

theorem yields_make (cell : Cell) (hm : R.Keeps m) (h : ∀ v ∈ cell.contents, R.Fit m.store v) :
    Yields R j start m (do
      let s ← action .look
      action (.put (s.push cell))
      return cell.at s.next) :=
  abides_look_bind trivial (abides_action_bind (.inl ⟨cell, h, rfl⟩) fun _ _ => (R.make hm.1 h).2.2)

theorem yields_newArray {items : List Value} (hm : R.Keeps m) (h : ∀ v ∈ items, R.Fit m.store v) :
    Yields R j start m (newArray items) :=
  yields_make (.array items) hm h

theorem yields_newMap {entries : Entries} (hm : R.Keeps m) (h : R.FitEntries m.store entries) :
    Yields R j start m (newMap entries) :=
  yields_make (.map entries) hm (Entries.All.iff_contents.1 h)

theorem yields_itemAt {items : List Value} (h : ∀ v ∈ items, R.Fit m.store v) (i : Int64) :
    Yields R j start m (Script.itemAt items i) := by
  unfold Script.itemAt
  cases hitem : (placeOf? i items.length).bind (items[·]?) with
  | none => exact abides_fault _
  | some v =>
    obtain ⟨place, -, hplace⟩ := Option.bind_eq_some_iff.1 hitem
    exact abides_pure (h v (List.mem_of_getElem? hplace))

theorem yields_binary (hm : R.Keeps m) (op : BinaryOp) {l r : Value} (hl : R.Fit m.store l)
    (hr : R.Fit m.store r) : Yields R j start m (binary op l r) := by
  unfold binary
  split
  · exact abides_same_bind fun _ _ => abides_pure (R.scalar trivial)
  split
  · exact abides_same_bind fun _ _ => abides_pure (R.scalar trivial)
  cases hjoined : op.joined? l r with
  | none => exact abides_ofExcept fun v hv => R.scalar (Value.isScalar_of_onScalars hv)
  | some refs =>
    obtain ⟨rfl, rfl⟩ : l = .array refs.1 ∧ r = .array refs.2 := by
      unfold BinaryOp.joined? at hjoined
      split at hjoined
      · split at hjoined
        · cases hjoined
          exact ⟨rfl, rfl⟩
        · cases hjoined
      · cases hjoined
    refine abides_look_bind trivial (yields_newArray hm fun v hv => ?_)
    rcases List.mem_append.1 hv with hv | hv
    · exact R.held hm.1 hl hv
    · exact R.held hm.1 hr hv

theorem yields_unary (op : UnaryOp) (v : Value) : Yields R j start m (unary op v) := by
  cases op with
  | not => exact abides_look_bind trivial (abides_pure (R.scalar trivial))
  | neg =>
    cases v with
    | int n => exact abides_ofExcept fun v hv => R.scalar (Value.isScalar_of_checked hv)
    | float x => exact abides_pure (R.scalar trivial)
    | _ => exact abides_fault _

theorem yields_index (hm : R.Keeps m) {t : Value} (ht : R.Fit m.store t) (i : Value) :
    Yields R j start m (index t i) := by
  cases t with
  | array r =>
    cases i with
    | int n => exact abides_look_bind trivial (yields_itemAt (fun v hv => R.held hm.1 ht hv) n)
    | _ => exact abides_fault _
  | tuple items =>
    cases i with
    | int n => exact yields_itemAt (fun v hv => R.held hm.1 ht hv) n
    | _ => exact abides_fault _
  | string content =>
    cases i with
    | int n =>
      exact yields_itemAt (fun v hv => R.scalar (Value.isScalar_letters content v hv)) n
    | _ => exact abides_fault _
  | map r =>
    refine abides_look_bind trivial (abides_job_bind trivial fun place n _ _ _ hstore => ?_)
    cases hfound : place.bind ((m.store.entries r)[·]?) with
    | none => exact abides_fault _
    | some e =>
      obtain ⟨k, -, hk⟩ := Option.bind_eq_some_iff.1 hfound
      have he := R.held hm.1 ht (Value.held_value (List.mem_of_getElem? hk))
      refine abides_pure ?_
      rw [show n.store = m.store from hstore]
      exact he
  | _ => exact abides_fault _

/-- An assignment to an item puts nothing into the store but what it writes to its target. -/
theorem keeps_assignIndex {t i v : Value} (ht : R.Fit m.store t) (hi : R.Fit m.store i)
    (hv : R.Fit m.store v) (htargets : j.Targets start t)
    (hallows : ∃ e i o span, R.Allows (.assignIndex e i o span)) :
    (assignIndex t i v).Abides R.contract j start (fun _ _ => True) m := by
  have legal : ∀ {n : Machine} {s : Store}, n.store = m.store → m.store.Writes i v t s →
      R.Legal j start n (.put s) := by
    intro n s hstore hwrites
    rw [← hstore] at ht hi hv hwrites
    exact .inr ⟨t, i, v, htargets, hallows, ht, hi, hv, hwrites⟩
  cases t with
  | array r =>
    cases i with
    | int n =>
      refine abides_look_bind trivial ?_
      cases hplace : placeOf? n (m.store.items r).length with
      | none => exact abides_fault _
      | some place =>
        have hlt : place < (m.store.items r).length := by
          unfold placeOf? at hplace
          split at hplace
          · cases hplace
            omega
          · cases hplace
        exact abides_action_bind (t := give) (legal rfl (.item hlt)) fun _ _ => trivial
    | _ => exact abides_fault _
  | map r =>
    refine abides_look_bind trivial (abides_job_bind trivial fun place n _ _ _ hstore => ?_)
    cases place with
    | some place =>
      exact abides_action_bind (t := give) (legal hstore (.replace place)) fun _ _ => trivial
    | none => exact abides_action_bind (t := give) (legal hstore .append) fun _ _ => trivial
  | tuple items => exact abides_fault _
  | _ => exact abides_fault _

theorem keeps_addEntry {entries : Entries} {key value : Value} (h : R.FitEntries m.store entries)
    (hkey : R.Fit m.store key) (hvalue : R.Fit m.store value) :
    (addEntry entries key value).Abides R.contract j start (fun es n => R.FitEntries n.store es) m := by
  refine abides_job_bind trivial fun place n _ _ _ hstore => ?_
  rw [← show n.store = m.store from hstore] at h hkey hvalue
  cases place with
  | some place => exact abides_pure (Entries.All.replaceAt h hvalue place)
  | none => exact abides_pure (Entries.All.append h hkey hvalue)

theorem yields_callValue {callee : Value} {args : List Value} (span : Span)
    (hcallee : R.Fit m.store callee) (hargs : ∀ v ∈ args, R.Fit m.store v) :
    Yields R j start m (callValue callee args span) := by
  cases callee with
  | function f => exact abides_job ⟨hcallee, hargs⟩ fun v n _ _ _ hv => hv
  | builtin b =>
    refine abides_look_bind trivial (abides_ofExcept_bind fun answered hanswered => ?_)
    exact abides_action_bind ⟨b, args, answered.2, hanswered, hargs⟩ fun _ _ =>
      abides_pure (R.scalar (Value.isScalar_of_apply hanswered))
  | _ => exact abides_fault _

theorem yields_expr (hm : R.Keeps m) (e : Expr) : Yields R j start m (expr e) := by
  cases e with
  | literal l span => exact abides_pure (R.scalar (Value.isScalar_ofLiteral l))
  | ident x span =>
    refine abides_action_bind trivial fun _ _ => ?_
    have hfound : (Machine.host.act (.lookup x) m).1 = m.env.lookup x := rfl
    rw [hfound]
    cases hlookup : m.env.lookup x with
    | ok v => exact abides_pure (hm.2.lookup hlookup)
    | error f => cases f <;> exact abides_fault _
  | array items span => exact abides_job_bind trivial fun vs n _ hn _ hvs => yields_newArray hn hvs
  | tuple items span => exact abides_job_bind trivial fun vs n _ _ _ hvs => abides_pure (R.tuple hvs)
  | map entries span => exact abides_job_bind nofun fun es n _ hn _ hes => yields_newMap hn hes
  | binary op left right span =>
    exact abides_job_bind trivial fun l _ _ _ _ hl => abides_job_bind trivial fun r n _ hn hlater hr =>
      yields_binary hn op (R.mono hlater hl) hr
  | unary op operand span => exact abides_job_bind trivial fun v _ _ _ _ _ => yields_unary op v
  | call callee args span =>
    exact abides_job_bind trivial fun f _ _ _ _ hf => abides_job_bind trivial fun vs n _ _ hlater hvs =>
      yields_callValue span (R.mono hlater hf) hvs
  | index target i span =>
    exact abides_job_bind trivial fun t _ _ _ _ ht => abides_job_bind trivial fun i n _ hn hlater _ =>
      yields_index hn (R.mono hlater ht) i

/-- A script keeps a regime, and what it gives back is fit. -/
abbrev Completes (R : Regime) (j : Job α) (start m : Machine) (s : Script Completion) : Prop :=
  s.Abides R.contract j start (fun a n => R.Fit n.store a.value) m

theorem keeps_bindItem {item : LoopItem} (h : item.All (R.Fit m.store)) (first : String)
    (second : Option String) :
    (bindItem first second item).Abides R.contract j start (fun _ _ => True) m := by
  refine abides_action_bind h.1 fun _ _ => ?_
  rcases hsecond : item.second with _ | v <;> rcases second with _ | x
  · exact abides_pure trivial
  · exact abides_pure trivial
  · exact abides_pure trivial
  · exact abides_action_bind (t := give) (h.2 v hsecond) fun _ _ => trivial

theorem returns_stmt {s : Stmt} (hs : R.Allows s) :
    Completes R (.stmt s) m m (stmt s) := by
  have fell : ∀ n : Machine, R.Fit n.store Completion.fellThrough.value := fun n => R.scalar trivial
  cases s with
  | expr e span => exact abides_job_bind trivial fun _ n _ _ _ _ => abides_pure (fell n)
  | define x type value span =>
    exact abides_job_bind trivial fun v n _ _ _ hv =>
      abides_action_bind hv fun _ _ => abides_pure (fell _)
  | assign x value span =>
    exact abides_job_bind trivial fun v n _ _ _ hv =>
      abides_action_bind hv fun _ _ => abides_pure (fell _)
  | assignIndex target i value span =>
    refine abides_job_bind trivial fun t _ hends _ _ ht => abides_job_bind trivial fun k _ _ _ htk hk =>
      abides_job_bind trivial fun v n _ _ hkv hv => Abides.bind ?_
    have htargets : (Job.stmt (.assignIndex target i value span)).Targets m t := ⟨_, hends⟩
    have hassign := keeps_assignIndex (R.mono hkv (R.mono htk ht)) (R.mono hkv hk) hv htargets
      ⟨_, _, _, _, hs⟩
    exact hassign.mono fun _ n _ => abides_pure (fell n)
  | delete x span =>
    refine abides_action_bind trivial fun _ _ => ?_
    split
    · exact abides_pure (fell _)
    · exact abides_fault _
  | function d span =>
    exact abides_action_bind (R.made hs) fun _ _ => abides_pure (fell _)
  | ifThen condition thenBranch span =>
    have hbranch : R.AllowsAll thenBranch.stmts := fun t ht =>
      R.part hs (List.mem_cons_of_mem _ (List.mem_map_of_mem ht))
    refine abides_job_bind trivial fun c n _ _ _ _ => abides_look_bind trivial ?_
    split
    · exact abides_job hbranch fun _ _ _ _ _ ha => ha
    · exact abides_pure (fell n)
  | ifElse condition thenBranch elseBranch span =>
    have hthen : R.AllowsAll thenBranch.stmts := fun t ht =>
      R.part hs (List.mem_cons_of_mem _ (List.mem_append_left _ (List.mem_map_of_mem ht)))
    have helse : R.AllowsAll elseBranch.stmts := fun t ht =>
      R.part hs (List.mem_cons_of_mem _ (List.mem_append_right _ (List.mem_map_of_mem ht)))
    refine abides_job_bind trivial fun c n _ _ _ _ => abides_look_bind trivial ?_
    split
    · exact abides_job hthen fun _ _ _ _ _ ha => ha
    · exact abides_job helse fun _ _ _ _ _ ha => ha
  | forEach first second iterable body span =>
    have hbody : R.AllowsAll body.stmts := fun t ht =>
      R.part hs (List.mem_cons_of_mem _ (List.mem_map_of_mem ht))
    refine abides_job_bind trivial fun v n _ hn _ hv => abides_look_bind trivial
      (abides_ofExcept_bind fun items hitems => ?_)
    have hall := LoopItem.all_of_loopItems (fun _ _ hv hw => R.held hn.1 hv hw)
      (fun _ hv => R.scalar hv) hv hitems
    exact abides_job ⟨hbody, hall⟩ fun _ _ _ _ _ ha => ha
  | giveBack value span =>
    cases value with
    | none => exact abides_pure (R.scalar trivial)
    | some e => exact abides_job_bind trivial fun v n _ _ _ hv => abides_pure hv

theorem yields_call {f : Closure} {args : List Value} (hf : R.Fit m.store (.function f))
    (hargs : ∀ v ∈ args, R.Fit m.store v) (span : Span) : Yields R j start m (call f args span) := by
  unfold call
  split
  · exact abides_fault _
  refine abides_action_bind trivial fun hinv hentered => abides_ofExcept_bind fun _ _ =>
    abides_action_bind trivial fun _ hopened => ?_
  have hlater := R.trans hentered hopened
  refine abides_job_bind (fun a ha => R.mono hlater (hargs a.2 (List.of_mem_zip ha).2)) ?_
  intro _ n _ _ _ _
  exact abides_job_bind (R.function.1 hf) fun _ _ _ _ _ ha => abides_pure ha

end Script

/-! ## Jobs -/

/-- **Every run keeps the regime.** -/
theorem Regime.kept (R : Regime) : R.contract.Kept := by
  open Script in
  intro α j m hm hpre
  cases j with
  | expr e => exact yields_expr hm e
  | exprs es =>
    cases es with
    | nil => exact abides_pure nofun
    | cons e rest =>
      exact abides_job_bind trivial fun v _ _ _ _ hv => abides_job_bind trivial fun vs _ _ _ hlater hvs =>
        abides_pure (List.forall_mem_cons.2 ⟨R.mono hlater hv, hvs⟩)
  | mapEntries written es =>
    cases es with
    | nil => exact abides_pure hpre
    | cons e rest =>
      refine abides_job_bind trivial fun k _ _ _ hfirst hk => abides_job_bind trivial fun v n _ _ hkv hv =>
        Abides.bind ?_
      have hwritten := FitEntries.mono (FitEntries.mono hpre hfirst) hkv
      refine (keeps_addEntry hwritten (R.mono hkv hk) hv).mono fun entries n hentries => ?_
      exact abides_job hentries fun _ _ _ _ _ hpost => hpost
  | find key entries =>
    cases entries with
    | nil => exact abides_pure rfl
    | cons e rest =>
      refine abides_same_bind fun same _ => ?_
      split
      · exact abides_pure rfl
      · exact abides_job_bind trivial fun _ n _ _ _ hstore => abides_pure hstore
  | stmt s => exact returns_stmt hpre
  | stmts ss =>
    cases ss with
    | nil => exact abides_pure (R.scalar trivial)
    | cons s rest =>
      obtain ⟨hs, hrest⟩ := List.forall_mem_cons.1 hpre
      refine abides_job_bind hs fun a _ _ _ _ ha => ?_
      cases a with
      | fellThrough => exact abides_job hrest fun _ _ _ _ _ ha => ha
      | returned v => exact abides_pure ha
  | block ss => exact abides_action_bind trivial fun _ _ => abides_job hpre fun _ _ _ _ _ ha => ha
  | round first second ss item =>
    refine abides_action_bind trivial fun _ _ => Abides.bind ?_
    refine (keeps_bindItem (m := (Machine.host.act .openBlock m).2) hpre.2 first second).mono
      fun _ _ _ => ?_
    exact abides_job hpre.1 fun _ _ _ _ _ ha => ha
  | rounds first second ss items =>
    cases items with
    | nil => exact abides_pure (R.scalar trivial)
    | cons item rest =>
      obtain ⟨hbody, hitems⟩ := hpre
      obtain ⟨hitem, hrest⟩ := List.forall_mem_cons.1 hitems
      refine abides_job_bind ⟨hbody, hitem⟩ fun a _ _ _ hlater ha => ?_
      cases a with
      | fellThrough =>
        refine abides_job ⟨hbody, fun item hi => ⟨?_, fun v hv => ?_⟩⟩ fun _ _ _ _ _ ha => ha
        · exact R.mono hlater (hrest item hi).1
        · exact R.mono hlater ((hrest item hi).2 v hv)
      | returned v => exact abides_pure ha
  | call f args span => exact yields_call hpre.1 hpre.2 span
  | bindAll arguments =>
    cases arguments with
    | nil => exact abides_pure trivial
    | cons a rest =>
      obtain ⟨ha, hrest⟩ := List.forall_mem_cons.1 hpre
      exact abides_action_bind ha fun _ _ => abides_job hrest fun _ _ _ _ _ _ => trivial
  | body d => exact abides_job (R.body hpre) fun _ _ _ _ _ ha => ha

namespace Regime

variable {R : Regime} {m : Machine} {program : Block} (hm : R.Keeps m)
  (hprogram : R.AllowsAll program.stmts)

include hm hprogram

/-- A program that may be carried out keeps the regime all the while. -/
theorem during {n : Machine} (h : m.During program n) : R.Keeps n ∧ R.Later m.store n.store :=
  have hpre : R.contract.Pre (.stmts program.stmts) m := hprogram
  Contract.during R.kept hm hpre h

/-- All actions of a program that may be carried out are legal. -/
theorem legal {α β : Type} {j : Job α} {start k : Machine} {a : Action β} {next : β → Script α}
    (h : (Job.stmts program.stmts).Passes m ⟨j, start, .act a next, k⟩) :
    R.Keeps k ∧ R.Legal j start k a :=
  have hpre : R.contract.Pre (.stmts program.stmts) m := hprogram
  Contract.legal R.kept hm hpre h

end Regime

end Nikl
