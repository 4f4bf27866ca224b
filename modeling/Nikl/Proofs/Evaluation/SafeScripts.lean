import Nikl.Proofs.Evaluation.Records
import Nikl.Proofs.Value.Scalars

/-
The script of every job is safe. The rules are gone through once: what each construct asks for it has, and
what it ends with is stored. Collections change in four places only, where arrays and maps are made and
where an item is given another value, and the entries of a map come from one place, behind a search for
the key among those that are there.
-/

set_option autoImplicit false

namespace Nikl

/-- The items of a loop over a stored value are stored. -/
theorem LoopItem.stored_of_loopItems {s : Store} {v : Value} {pairs : Bool} {items : List LoopItem}
    (hs : s.Closed) (hv : v.Stored s.size) (h : v.loopItems s pairs = .ok items) :
    ∀ item ∈ items, item.Stored s.size :=
  all_of_loopItems (fun _ _ hv hw => hv.of_held hs hw) (fun _ hv => hv.stored _) hv h

namespace Script

variable {α β : Type} {c : Chronicle}

/-! ## One thing after another -/

section Steps

variable {Q : β → Chronicle → Prop}

theorem safe_pure {b : β} (h : Q b c) : (pure b : Script β).Safe Q c := h

theorem safe_fault (f : EvalFault) : (fault f).Safe Q c := trivial

theorem safe_job {j : Job β} (hpre : j.Pre c)
    (h : ∀ b d, d.Sound → c.Later d → j.Post c b d → Q b d) : (job j).Safe Q c := ⟨hpre, h⟩

theorem safe_job_bind {j : Job α} {t : α → Script β} (hpre : j.Pre c)
    (h : ∀ a d, d.Sound → c.Later d → j.Post c a d → (t a).Safe Q d) : (job j >>= t).Safe Q c :=
  ⟨hpre, h⟩

theorem safe_action_bind {a : Action α} {t : α → Script β} (hlegal : a.Legal c)
    (h : (Chronicle.host.act a c).2.Sound → c.Later (Chronicle.host.act a c).2 →
      (t (Chronicle.host.act a c).1).Safe Q (Chronicle.host.act a c).2) :
    (action a >>= t).Safe Q c :=
  ⟨hlegal, h⟩

theorem safe_look_bind {t : Store → Script β}
    (h : (c.step c.machine).Sound → (t c.machine.store).Safe Q (c.step c.machine)) :
    (action .look >>= t).Safe Q c :=
  ⟨trivial, fun hd _ => h hd⟩

theorem safe_same_bind {v w : Value} {t : Bool → Script β}
    (h : ∀ same, v.equal? c.machine.store w = some same → (c.step c.machine).Sound →
      (t same).Safe Q (c.step c.machine)) : (same v w >>= t).Safe Q c := h

theorem safe_ofExcept {r : Except EvalFault β} (h : ∀ b, r = .ok b → Q b c) : (ofExcept r).Safe Q c := by
  cases r with
  | error f => trivial
  | ok b => exact h b rfl

theorem safe_ofExcept_bind {r : Except EvalFault α} {t : α → Script β}
    (h : ∀ a, r = .ok a → (t a).Safe Q c) : (ofExcept r >>= t).Safe Q c := by
  cases r with
  | error f => trivial
  | ok a => exact h a rfl

end Steps

/-- A result is stored. -/
abbrev Stores (v : Value) (d : Chronicle) : Prop := v.Stored d.size

/-! ## Operators and items -/

/-- A new collection that holds what is stored, with keys that may be written, may be made. -/
theorem safe_make {cell : Cell} {v : Store → Value} (h : cell.Stored c.size)
    (hwritten : cell.entries.Written c.missed)
    (hv : (v c.machine.store).Stored (c.size + 1)) :
    (do
      let s ← action .look
      action (.put (s.push cell))
      return v s : Script Value).Safe Stores c := by
  refine safe_look_bind fun hd => safe_action_bind ⟨?_, hd.now.push h hwritten⟩ fun _ _ => safe_pure ?_
  · rw [Store.size_push]
    exact Nat.le_succ _
  · show (v c.machine.store).Stored (c.machine.store.push cell).size
    rw [Store.size_push]
    exact hv

theorem safe_newArray {items : List Value} (h : ∀ v ∈ items, v.Stored c.size) :
    (newArray items).Safe Stores c :=
  safe_make h List.Pairwise.nil (Nat.lt_succ_self _)

theorem safe_newMap {entries : Entries} (h : entries.Stored c.size)
    (hwritten : entries.Written c.missed) : (newMap entries).Safe Stores c :=
  safe_make h hwritten (Nat.lt_succ_self _)

/-- Other contents for a collection may be put in its place. -/
theorem safe_put (hc : c.Sound) {s : Store} (hs : c.machine.store = s) (r : Ref) (cell : Cell)
    (h : cell.Stored s.size) (hwritten : cell.entries.Written c.missed) :
    (action (.put (s.put r cell))).Safe (fun _ _ => True) c := by
  subst hs
  refine safe_action_bind (t := give) ⟨?_, hc.now.put r h hwritten⟩ fun _ _ => trivial
  rw [Store.size_put]

theorem safe_itemAt {items : List Value} (h : ∀ v ∈ items, v.Stored c.size) (i : Int64) :
    (itemAt items i).Safe Stores c := by
  unfold itemAt
  cases hitem : (placeOf? i items.length).bind (items[·]?) with
  | none => exact safe_fault _
  | some v =>
    obtain ⟨place, -, hplace⟩ := Option.bind_eq_some_iff.1 hitem
    exact safe_pure (h v (List.mem_of_getElem? hplace))

section Parts

variable (hc : c.Sound)

include hc

theorem safe_binary (op : BinaryOp) (l r : Value) : (binary op l r).Safe Stores c := by
  unfold binary
  by_cases heq : op = .equal
  · rw [if_pos heq]
    exact safe_same_bind fun _ _ _ => safe_pure trivial
  by_cases hne : op = .notEqual
  · rw [if_neg heq, if_pos hne]
    exact safe_same_bind fun _ _ _ => safe_pure trivial
  rw [if_neg heq, if_neg hne]
  cases op.joined? l r with
  | none => exact safe_ofExcept fun v hv => (Value.isScalar_of_onScalars hv).stored _
  | some refs =>
    refine safe_look_bind fun hd => safe_newArray fun v hv => ?_
    rcases List.mem_append.1 hv with hv | hv
    · exact hc.closed.items refs.1 v hv
    · exact hc.closed.items refs.2 v hv

omit hc in
theorem safe_unary (op : UnaryOp) (v : Value) : (unary op v).Safe Stores c := by
  cases op with
  | not => exact safe_look_bind fun _ => safe_pure trivial
  | neg =>
    cases v with
    | int n => exact safe_ofExcept fun v hv => (Value.isScalar_of_checked hv).stored _
    | float x => exact safe_pure trivial
    | _ => exact safe_fault _

/-- What is found in a map is stored. -/
theorem safe_index {t i : Value} (ht : t.Stored c.size)
    (hi : i.Stored c.size) : (index t i).Safe Stores c := by
  cases t with
  | array r =>
    cases i with
    | int n => exact safe_look_bind fun hd => safe_itemAt (hd.closed.items r) n
    | _ => exact safe_fault _
  | tuple items =>
    cases i with
    | int n => exact safe_itemAt (Value.stored_tuple.1 ht) n
    | _ => exact safe_fault _
  | string content =>
    cases i with
    | int n => exact safe_itemAt (fun v hv => (Value.isScalar_letters content v hv).stored _) n
    | _ => exact safe_fault _
  | map r =>
    have hentries := hc.closed.entries r
    refine safe_look_bind fun _ => safe_job_bind ⟨hi, fun e he => (hentries e he).1⟩ fun place d _ hd _ => ?_
    cases hfound : place.bind ((c.machine.store.entries r)[·]?) with
    | none => exact safe_fault _
    | some e =>
      obtain ⟨n, -, hn⟩ := Option.bind_eq_some_iff.1 hfound
      exact safe_pure ((hentries e (List.mem_of_getElem? hn)).2.mono hd.size)
  | _ => exact safe_fault _

/-- **An entry is added to a map behind a search for its key**, or the value of one is changed. -/
theorem safe_assignIndex {t i v : Value} (hi : i.Stored c.size)
    (hv : v.Stored c.size) : (assignIndex t i v).Safe (fun _ _ => True) c := by
  cases t with
  | array r =>
    cases i with
    | int n =>
      refine safe_look_bind fun hd => ?_
      cases placeOf? n (c.machine.store.items r).length with
      | none => exact safe_fault _
      | some place =>
        refine safe_put hd rfl r (.array _) (fun w hw => ?_) List.Pairwise.nil
        rcases List.mem_or_eq_of_mem_set hw with hw | rfl
        · exact hc.closed.items r w hw
        · exact hv
    | _ => exact safe_fault _
  | map r =>
    have hentries := hc.closed.entries r
    have hwritten := hc.written r
    refine safe_look_bind fun _ => safe_job_bind ⟨hi, fun e he => (hentries e he).1⟩
      fun place d hd hlater hpost => ?_
    have hstill := hwritten.mono hlater.missed
    cases place with
    | some place =>
      exact safe_put hd hpost.1 r (.map _) (hentries.replaceAt hv place)
        (hstill.replaceAt place v)
    | none =>
      exact safe_put hd hpost.1 r (.map _) (hentries.append hi hv)
        (hstill.append (hpost.2 rfl) v)
  | tuple items => exact safe_fault _
  | _ => exact safe_fault _

omit hc in
theorem safe_addEntry {entries : Entries} {key value : Value}
    (hentries : entries.Stored c.size) (hwritten : entries.Written c.missed)
    (hkey : key.Stored c.size) (hvalue : value.Stored c.size) :
    (addEntry entries key value).Safe
      (fun es d => d.Sound ∧ c.Later d ∧ es.Stored d.size ∧ es.Written d.missed) c := by
  refine safe_job_bind ⟨hkey, fun e he => (hentries e he).1⟩ fun place d hd hlater hpost => ?_
  have hsize := hlater.size
  cases place with
  | some place =>
    exact safe_pure ⟨hd, hlater, (hentries.mono hsize).replaceAt (hvalue.mono hsize) place,
      (hwritten.mono hlater.missed).replaceAt place value⟩
  | none =>
    exact safe_pure ⟨hd, hlater, (hentries.mono hsize).append (hkey.mono hsize) (hvalue.mono hsize),
      (hwritten.mono hlater.missed).append (hpost.2 rfl) value⟩

omit hc in
theorem safe_callValue {callee : Value} {args : List Value} (span : Span)
    (hargs : ∀ v ∈ args, v.Stored c.size) :
    (callValue callee args span).Safe Stores c := by
  cases callee with
  | function f => exact safe_job hargs fun v d _ _ hv => hv
  | builtin b =>
    refine safe_look_bind fun _ => safe_ofExcept_bind fun answered hanswered => ?_
    exact safe_action_bind trivial fun _ _ => safe_pure ((Value.isScalar_of_apply hanswered).stored _)
  | _ => exact safe_fault _

/-! ## Expressions and statements -/

theorem safe_expr (e : Expr) : (expr e).Safe Stores c := by
  cases e with
  | literal l span => exact safe_pure ((Value.isScalar_ofLiteral l).stored _)
  | ident x span =>
    refine safe_action_bind trivial fun _ _ => ?_
    have hfound : (Chronicle.host.act (.lookup x) c).1 = c.machine.env.lookup x := rfl
    rw [hfound]
    cases hlookup : c.machine.env.lookup x with
    | ok v => exact safe_pure (hc.env.lookup hlookup)
    | error f => cases f <;> exact safe_fault _
  | array items span => exact safe_job_bind trivial fun vs d _ _ hvs => safe_newArray hvs
  | tuple items span =>
    exact safe_job_bind trivial fun vs d _ _ hvs => safe_pure (Value.stored_tuple.2 hvs)
  | map entries span =>
    exact safe_job_bind ⟨List.forall_mem_nil _, List.Pairwise.nil⟩ fun es d _ _ hes => safe_newMap hes.1 hes.2
  | binary op left right span =>
    exact safe_job_bind trivial fun l _ _ _ _ => safe_job_bind trivial fun r d hd _ _ =>
      safe_binary hd op l r
  | unary op operand span => exact safe_job_bind trivial fun v _ _ _ _ => safe_unary op v
  | call callee args span =>
    exact safe_job_bind trivial fun f _ _ _ _ => safe_job_bind trivial fun vs d _ _ hvs =>
      safe_callValue span hvs
  | index target i span =>
    exact safe_job_bind trivial fun t _ _ _ ht => safe_job_bind trivial fun i d hd hlater hi =>
      safe_index hd (Value.Stored.mono ht hlater.size) hi

end Parts

/-- What a statement gives back is stored. -/
abbrev Returns (a : Completion) (d : Chronicle) : Prop := a.value.Stored d.size

theorem safe_bindItem {item : LoopItem} (h : item.Stored c.size) (first : String)
    (second : Option String) : (bindItem first second item).Safe (fun _ _ => True) c := by
  refine safe_action_bind h.1 fun _ _ => ?_
  rcases hsecond : item.second with _ | v <;> rcases second with _ | x
  · exact safe_pure trivial
  · exact safe_pure trivial
  · exact safe_pure trivial
  · exact safe_action_bind (t := give) (h.2 v hsecond) fun _ _ => trivial

theorem safe_stmt (s : Stmt) : (stmt s).Safe Returns c := by
  cases s with
  | expr e span => exact safe_job_bind trivial fun _ _ _ _ _ => safe_pure trivial
  | define x type value span =>
    exact safe_job_bind trivial fun v d _ _ hv => safe_action_bind hv fun _ _ => safe_pure trivial
  | assign x value span =>
    exact safe_job_bind trivial fun v d _ _ hv => safe_action_bind hv fun _ _ => safe_pure trivial
  | assignIndex target i value span =>
    refine safe_job_bind trivial fun t _ _ _ _ => safe_job_bind trivial fun i _ _ _ hi =>
      safe_job_bind trivial fun v d hd hlater hv => Safe.bind ?_
    refine (safe_assignIndex hd (Value.Stored.mono hi hlater.size) hv).mono fun _ _ _ => ?_
    exact safe_pure trivial
  | delete x span =>
    refine safe_action_bind trivial fun _ _ => ?_
    split
    · exact safe_pure trivial
    · exact safe_fault _
  | function d span => exact safe_action_bind trivial fun _ _ => safe_pure trivial
  | ifThen condition thenBranch span =>
    refine safe_job_bind trivial fun v d _ _ _ => safe_look_bind fun _ => ?_
    split
    · exact safe_job trivial fun _ _ _ _ ha => ha
    · exact safe_pure trivial
  | ifElse condition thenBranch elseBranch span =>
    refine safe_job_bind trivial fun v d _ _ _ => safe_look_bind fun _ => ?_
    split
    · exact safe_job trivial fun _ _ _ _ ha => ha
    · exact safe_job trivial fun _ _ _ _ ha => ha
  | forEach first second iterable body span =>
    refine safe_job_bind trivial fun v d hd _ hv => safe_look_bind fun _ =>
      safe_ofExcept_bind fun items hitems => ?_
    exact safe_job (LoopItem.stored_of_loopItems hd.closed hv hitems) fun _ _ _ _ ha => ha
  | giveBack value span =>
    cases value with
    | none => exact safe_pure trivial
    | some e => exact safe_job_bind trivial fun v d _ _ hv => safe_pure hv

theorem safe_call {args : List Value} (h : ∀ v ∈ args, v.Stored c.size) (f : Closure)
    (span : Span) : (call f args span).Safe Stores c := by
  unfold call
  split
  · exact safe_fault _
  refine safe_action_bind trivial fun _ hentered => safe_ofExcept_bind fun _ _ =>
    safe_action_bind trivial fun _ hopened => ?_
  have hbound : ∀ a ∈ f.definition.params.zip args, a.2.Stored c.size :=
    fun a ha => h a.2 (List.of_mem_zip ha).2
  have hsize := (hentered.trans hopened).size
  refine safe_job_bind (fun a ha => (hbound a ha).mono hsize) fun _ _ _ _ _ => ?_
  exact safe_job_bind trivial fun _ _ _ _ ha => safe_pure ha

end Script

/-! ## Jobs -/

/-- **The script of every job is safe.** -/
theorem Job.safe {α : Type} (j : Job α) (c : Chronicle) (hc : c.Sound) (hpre : j.Pre c) :
    j.script.Safe (j.Done c) c := by
  open Script in
  cases j with
  | expr e => exact safe_expr hc e
  | exprs es =>
    cases es with
    | nil => exact safe_pure nofun
    | cons e rest =>
      exact safe_job_bind trivial fun v _ _ _ hv => safe_job_bind trivial fun vs _ _ hlater hvs =>
        safe_pure (List.forall_mem_cons.2 ⟨Value.Stored.mono hv hlater.size, hvs⟩)
  | mapEntries written es =>
    cases es with
    | nil => exact safe_pure hpre
    | cons e rest =>
      refine safe_job_bind trivial fun k _ _ hck hk => safe_job_bind trivial fun v d hd hkv hv => ?_
      have hlater := hck.trans hkv
      have hadd := safe_addEntry (hpre.1.mono hlater.size) (hpre.2.mono hlater.missed)
        (Value.Stored.mono hk hkv.size) hv
      exact Safe.bind (hadd.mono fun entries d hentries =>
        safe_job hentries.2.2 fun _ _ _ _ hpost => hpost)
  | find key entries =>
    cases entries with
    | nil => exact safe_pure ⟨rfl, fun _ => nofun⟩
    | cons e rest =>
      obtain ⟨-, hrest⟩ := List.forall_mem_cons.1 hpre.2
      refine safe_same_bind fun same hsame hlooked => ?_
      cases same with
      | true => exact safe_pure ⟨rfl, nofun⟩
      | false =>
        refine safe_job_bind ⟨hpre.1, hrest⟩ fun place d hd _ hpost => safe_pure ⟨hpost.1, fun hnone => ?_⟩
        -- the search through the rest is on record, and what is on record differed
        have hmiss := hd.now.missed _ (hpost.2 (Option.map_eq_none_iff.1 hnone))
        refine List.forall_mem_cons.2 ⟨?_, hmiss.differ⟩
        rw [hpost.1]
        exact hsame
  | stmt s => exact safe_stmt s
  | stmts ss =>
    cases ss with
    | nil => exact safe_pure trivial
    | cons s rest =>
      refine safe_job_bind trivial fun a _ _ _ ha => ?_
      cases a with
      | fellThrough => exact safe_job trivial fun _ _ _ _ ha => ha
      | returned v => exact safe_pure ha
  | block ss => exact safe_action_bind trivial fun _ _ => safe_job trivial fun _ _ _ _ ha => ha
  | round first second ss item =>
    have hitem : item.Stored (Chronicle.host.act .openBlock c).2.machine.store.size := hpre
    refine safe_action_bind trivial fun _ _ => Safe.bind ?_
    refine (safe_bindItem hitem first second).mono fun _ _ _ => ?_
    exact safe_job trivial fun _ _ _ _ ha => ha
  | rounds first second ss items =>
    cases items with
    | nil => exact safe_pure trivial
    | cons item rest =>
      obtain ⟨hitem, hrest⟩ := List.forall_mem_cons.1 hpre
      refine safe_job_bind hitem fun a _ _ hlater ha => ?_
      cases a with
      | fellThrough =>
        exact safe_job (fun item hi => (hrest item hi).mono hlater.size) fun _ _ _ _ ha => ha
      | returned v => exact safe_pure ha
  | call f args span => exact safe_call hpre f span
  | bindAll arguments =>
    cases arguments with
    | nil => exact safe_pure trivial
    | cons a rest =>
      obtain ⟨ha, hrest⟩ := List.forall_mem_cons.1 hpre
      exact safe_action_bind ha fun _ _ => safe_job hrest fun _ _ _ _ _ => trivial
  | body d => exact safe_job trivial fun _ _ _ _ ha => ha

end Nikl
