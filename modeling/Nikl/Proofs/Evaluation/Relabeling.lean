import Nikl.Proofs.Evaluation.Balance
import Nikl.Proofs.Value.Relabeling

/-
Programs with other names and in other places. The evaluator passes places on, to errors and to the frames
of calls, and looks at none of them: which place an error takes depends on whether it has one, not on which
one it is. Of names it asks whether two are the same, and it tells the text of one. So if the other names
stand for the same texts, a relabeled program does what the program does, and leaves behind the relabeled
state (`Machine.run_relabel`).

`Moves f move move' w w'` says that of two pieces of work, the second of which is the first relabeled; it
tells what becomes of a state and of a result. It is kept by each way of putting work together, and the way
through the tree and through the bodies of functions is that of the evaluator.
-/

set_option autoImplicit false
set_option linter.unusedSectionVars false

namespace Nikl

/-! ## Relabeled states -/

section

variable {ν μ : Type} (f : Relabeling ν μ)

def Bindings.relabel (bs : Bindings ν) : Bindings μ := bs.map fun b => (f.name b.1, b.2.relabel f)

/-- The scope with the names and values in it relabeled. -/
def Scope.relabel (scope : Scope ν) : Scope μ :=
  ⟨scope.bindings.relabel f, scope.deleted.map f.name, scope.outer⟩

/-- The scopes, relabeled. -/
def Environment.relabel (env : Environment ν) : Environment μ :=
  ⟨env.scopes.map (·.relabel f), env.inner⟩

def Frame.relabel (frame : Frame ν) : Frame μ := ⟨f.name frame.name, frame.span.map f.span⟩

def CallStack.relabel (calls : CallStack ν) : CallStack μ := ⟨calls.frames.map (·.relabel f), calls.room⟩

/-- The state with all names and places in it relabeled. -/
def Machine.relabel (m : Machine ν) : Machine μ :=
  ⟨m.env.relabel f, m.store.relabel f, m.calls.relabel f, m.output, m.closures⟩

def Completion.relabel : Completion ν → Completion μ
  | fellThrough => fellThrough
  | returned v => returned (v.relabel f)

theorem Completion.value_relabel (c : Completion ν) : (c.relabel f).value = c.value.relabel f := by
  cases c <;> rfl

end

/-- The call in another place. -/
def Frame.mapSpans (f : Span → Span) (frame : Frame) : Frame := { frame with span := frame.span.map f }

/-- The error with something done to its span and to those of its backtrace. -/
def EvalError.mapSpans (f : Span → Span) (e : EvalError) : EvalError :=
  ⟨e.fault, e.span.map f, e.backtrace.map (List.map (·.mapSpans f))⟩

/-- An error takes a place where it has none, whatever place that is. -/
theorem EvalError.orSpan_mapSpans (f : Span → Span) (span : Span) (e : EvalError) :
    (e.orSpan span).mapSpans f = (e.mapSpans f).orSpan (f span) := by
  rcases e with ⟨fault, _ | place, backtrace⟩ <;> rfl

/-! ## Scopes -/

section

variable {ν μ : Type} [DecidableEq ν] [DecidableEq μ] (f : Relabeling ν μ)

namespace Bindings

variable (bs : Bindings ν) (x : ν)

theorem get?_relabel : (bs.relabel f).get? (f.name x) = (bs.get? x).map (·.relabel f) := by
  induction bs with
  | nil => rfl
  | cons b bs ih =>
    show List.lookup (f.name x) ((f.name b.1, b.2.relabel f) :: Bindings.relabel f bs) =
      (List.lookup x (b :: bs)).map _
    rw [List.lookup_cons, List.lookup_cons, f.beq_name]
    cases x == b.1 with
    | true => rfl
    | false => exact ih

theorem contains_relabel : (bs.relabel f).contains (f.name x) = bs.contains x := by
  rw [contains, contains, get?_relabel, Option.isSome_map]

theorem erase_relabel : (bs.relabel f).erase (f.name x) = Bindings.relabel f (bs.erase x) := by
  rw [erase, erase, relabel, relabel, List.filter_map]
  exact congrArg _ (List.filter_congr fun b _ => f.bne_name b.1 x)

theorem set_relabel (v : Value ν) :
    (bs.relabel f).set (f.name x) (v.relabel f) = Bindings.relabel f (bs.set x v) := by
  rw [set, erase_relabel]
  rfl

end Bindings

namespace Scope

variable (scope : Scope ν) (x : ν) (v : Value ν)

theorem define_relabel :
    (scope.define x v).relabel f = (scope.relabel f).define (f.name x) (v.relabel f) := by
  have hdeleted : (scope.deleted.map f.name).filter (· != f.name x) =
      (scope.deleted.filter (· != x)).map f.name := by
    rw [List.filter_map]
    exact congrArg _ (List.filter_congr fun y _ => f.bne_name y x)
  exact congrArg₂ (Scope.mk · · _) (Bindings.set_relabel f _ x v).symm hdeleted.symm

theorem rebind_relabel :
    (scope.rebind x v).relabel f = (scope.relabel f).rebind (f.name x) (v.relabel f) :=
  congrArg (fun bs => Scope.mk bs _ _) (Bindings.set_relabel f _ x v).symm

theorem remove_relabel : (scope.remove x).relabel f = (scope.relabel f).remove (f.name x) :=
  congrArg (fun bs => Scope.mk bs _ _) (Bindings.erase_relabel f _ x).symm

theorem binds_relabel : (scope.relabel f).binds (f.name x) = scope.binds x :=
  scope.bindings.contains_relabel f x

theorem contains_deleted_relabel :
    (scope.relabel f).deleted.contains (f.name x) = scope.deleted.contains x :=
  f.contains_map scope.deleted x

end Scope

namespace Environment

variable (env : Environment ν) (x : ν) (v : Value ν)

@[simp] theorem scope_relabel (r : ScopeRef) : (env.relabel f).scope r = (env.scope r).relabel f := by
  simp only [scope, relabel, Array.getD_eq_getD_getElem?, Array.getElem?_map]
  cases env.scopes[r.index]? <;> rfl

@[simp] theorem chain_relabel (r : ScopeRef) : (env.relabel f).chain r = env.chain r := by
  rw [chain, chain, scope_relabel]
  rfl

theorem modifyScope_relabel (r : ScopeRef) {g : Scope ν → Scope ν} {g' : Scope μ → Scope μ}
    (h : ∀ scope, (g scope).relabel f = g' (scope.relabel f)) :
    (env.modifyScope r g).relabel f = (env.relabel f).modifyScope r g' := by
  refine congrArg (Environment.mk · env.inner) (Array.ext_getElem? fun i => ?_)
  simp only [relabel, modifyScope, Array.getElem?_map, Array.getElem?_modify]
  split
  · cases env.scopes[i]? with
    | none => rfl
    | some scope => exact congrArg some (h scope)
  · rfl

theorem openInside_relabel (r : ScopeRef) :
    (env.openInside r).relabel f = (env.relabel f).openInside r := by
  have hnext : (env.relabel f).next = env.next := congrArg ScopeRef.mk Array.size_map
  simp only [openInside, relabel, Array.map_push] at hnext ⊢
  rw [hnext]
  have hchain := chain_relabel f env r
  rw [relabel] at hchain
  rw [hchain]
  rfl

theorem binder?_relabel (chain : List ScopeRef) :
    (env.relabel f).binder? (f.name x) chain = env.binder? x chain := by
  have hbinds : ∀ r, ((env.relabel f).scope r).binds (f.name x) = (env.scope r).binds x := by
    intro r
    rw [scope_relabel, Scope.binds_relabel]
  simp only [binder?, hbinds]

theorem lookup_relabel :
    (env.relabel f).lookup (f.name x) = (env.lookup x).map (·.relabel f) := by
  have along : ∀ chain, (env.relabel f).lookupIn (f.name x) chain =
      (env.lookupIn x chain).map (·.relabel f) := by
    intro chain
    induction chain with
    | nil => rfl
    | cons r outer ih =>
      have hget : ((env.relabel f).scope r).bindings.get? (f.name x) =
          ((env.scope r).bindings.get? x).map (·.relabel f) := by
        rw [scope_relabel]
        exact Bindings.get?_relabel f _ x
      rw [lookupIn, lookupIn, hget, ih, scope_relabel, Scope.contains_deleted_relabel]
      cases (env.scope r).bindings.get? x with
      | some v => rfl
      | none => rcases env.lookupIn x outer with (_ | _) | _ <;> rfl
  rw [lookup, lookup, lookupFrom, lookupFrom, chain_relabel]
  exact along _

theorem define_relabel :
    (env.define x v).relabel f = (env.relabel f).define (f.name x) (v.relabel f) :=
  env.modifyScope_relabel f _ fun scope => scope.define_relabel f x v

theorem defineGlobal_relabel :
    (env.defineGlobal x v).relabel f = (env.relabel f).defineGlobal (f.name x) (v.relabel f) :=
  env.modifyScope_relabel f _ fun scope => scope.define_relabel f x v

theorem assign_relabel :
    (env.assign x v).relabel f = (env.relabel f).assign (f.name x) (v.relabel f) := by
  have hcurrent : (env.relabel f).current = env.current := rfl
  rw [assign, assign, assignFrom, assignFrom, hcurrent, chain_relabel, binder?_relabel]
  cases env.binder? x (env.chain env.current) with
  | none => exact env.defineGlobal_relabel f x v
  | some r => exact env.modifyScope_relabel f r fun scope => scope.rebind_relabel f x v

theorem delete_relabel :
    (env.relabel f).delete (f.name x) = ((env.delete x).1, (env.delete x).2.relabel f) := by
  have hcurrent : (env.relabel f).current = env.current := rfl
  have hbinds : ((env.relabel f).scope env.current).binds (f.name x) =
      (env.scope env.current).binds x := by
    rw [scope_relabel, Scope.binds_relabel]
  rw [delete, delete, removeFrom, removeFrom, hcurrent, hbinds]
  split
  · rw [env.modifyScope_relabel f env.current fun scope => scope.remove_relabel f x]
  · rfl

end Environment

end

/-! ## Calls and states -/

section

variable {ν μ : Type} (f : Relabeling ν μ)

namespace CallStack

variable (calls : CallStack ν)

theorem limit_relabel : (calls.relabel f).limit = calls.limit := by
  rw [limit, limit, depth, depth, relabel, List.length_map]

theorem push_relabel (frame : Frame ν) :
    (calls.relabel f).push (frame.relabel f) = (calls.push frame).map (·.relabel f) := by
  have hlimit := calls.limit_relabel f
  rcases calls with ⟨frames, _ | room⟩
  · exact congrArg (fun n => Except.error (EvalFault.tooDeep n)) hlimit
  · rfl

/-- The call of a relabeled function begins, or fails to, as that of the function does. -/
theorem push_call_relabel (c : Closure ν) (span : Span) :
    (calls.relabel f).push ⟨(c.relabel f).definition.name, some (f.span span)⟩ =
      (calls.push ⟨c.definition.name, some span⟩).map (·.relabel f) := by
  have hframe : Frame.relabel f ⟨c.definition.name, some span⟩ =
      ⟨(c.relabel f).definition.name, some (f.span span)⟩ := by
    show _ = Frame.mk (c.definition.relabel f).name _
    rw [FunctionDef.name_relabel]
    rfl
  rw [← hframe]
  exact calls.push_relabel f _

theorem pop_relabel : (calls.relabel f).pop = calls.pop.relabel f := by
  rcases calls with ⟨_ | ⟨frame, frames⟩, room⟩ <;> rfl

end CallStack

namespace Machine

variable [DecidableEq ν] [DecidableEq μ]

theorem defineFunction_relabel (d : FunctionDef ν) (m : Machine ν) :
    (m.defineFunction d).relabel f = (m.relabel f).defineFunction (d.relabel f) := by
  have hdefine := Environment.define_relabel f m.env d.name (.function ⟨m.closures, d, m.env.current⟩)
  have hname : (d.relabel f).name = f.name d.name := d.name_relabel f
  rw [defineFunction, defineFunction, hname]
  exact congrArg (fun env => Machine.mk env _ _ _ _) hdefine

theorem bindAll_relabel (params : List (Param ν)) (args : List (Value ν)) (env : Environment ν) :
    (bindAll params args env).relabel f =
      bindAll (params.map (·.relabel f)) (args.map (·.relabel f)) (env.relabel f) := by
  rw [bindAll, bindAll, List.zip_map]
  induction params.zip args generalizing env with
  | nil => rfl
  | cons binding rest ih =>
    rw [List.map_cons, List.foldl_cons, List.foldl_cons, ih, Environment.define_relabel]
    rfl

theorem entered_relabel (c : Closure ν) (args : List (Value ν)) (calls : CallStack ν) (m : Machine ν) :
    Eval.entered (c.relabel f) (args.map (·.relabel f)) (calls.relabel f) (m.relabel f) =
      (Eval.entered c args calls m).relabel f := by
  have henv := bindAll_relabel f c.definition.params args (m.env.openInside c.scope)
  rw [← FunctionDef.params_relabel, Environment.openInside_relabel] at henv
  exact congrArg (fun env => Machine.mk env _ _ _ _) henv.symm

omit [DecidableEq ν] [DecidableEq μ] in
/-- A state in which nothing is bound has no names and no places. -/
theorem relabel_blank (limit : Nat) :
    ({ env := {}, calls := .ofLimit limit } : Machine ν).relabel f = { env := {}, calls := .ofLimit limit } := by
  simp [relabel, Environment.relabel, Scope.relabel, Bindings.relabel, Store.relabel, CallStack.relabel,
    CallStack.ofLimit]

theorem leaveCall_relabel (m : Machine ν) : m.leaveCall.relabel f = (m.relabel f).leaveCall :=
  congrArg (fun calls => Machine.mk _ _ calls _ _) (m.calls.pop_relabel f).symm

end Machine

end

/-! ## Errors -/

section

variable {ν μ : Type} [Naming ν] [Naming μ] {f : Relabeling ν μ} (hf : f.KeepsText)

include hf

/-- A call is told with the same name. -/
theorem Frame.told_relabel (frame : Frame ν) : (frame.relabel f).told = frame.told.mapSpans f.span :=
  congrArg (Frame.mk · _) (hf frame.name)

/-- An error takes the same calls along, in other places. -/
theorem CallStack.attach_relabel (calls : CallStack ν) (e : EvalError) :
    (calls.relabel f).attach (e.mapSpans f.span) = (calls.attach e).mapSpans f.span := by
  rcases calls with ⟨_ | ⟨frame, frames⟩, room⟩
  · rfl
  · rcases e with ⟨fault, span, _ | backtrace⟩
    · have htold : ((frame :: frames).map (·.relabel f)).map Frame.told =
          ((frame :: frames).map Frame.told).map (·.mapSpans f.span) := by
        rw [List.map_map, List.map_map]
        exact List.map_congr_left fun frame _ => frame.told_relabel hf
      exact congrArg (fun told => EvalError.mk fault _ (some told)) htold
    · rfl

end

/-! ## Work -/

section

variable {σ σ' α β : Type} (f : Span → Span)

/-- An end with something done to the state and the result, and to the spans of an error. -/
def moved (move : σ → σ') (g : α → β) : EStateM.Result Stop σ α → EStateM.Result Stop σ' β
  | .ok a s => .ok (g a) (move s)
  | .error stop s => .error (stop.mapError (·.mapSpans f)) (move s)

/-- One piece of work is another one relabeled: begun in the relabeled state, it ends as the other does,
relabeled. `g` is what becomes of a result. -/
def Moves (move : σ → σ') (g : α → β) (w : EStateM Stop σ α) (w' : EStateM Stop σ' β) : Prop :=
  ∀ s, w' (move s) = moved f move g (w s)

end

/-! ### Operations whose way depends on what they find -/

section

variable {ν : Type}

theorem UnaryOp.neg_int (n : Int64) : UnaryOp.neg.apply (.int n : Value ν) =
    match Arithmetic.fit? (-n.toInt) with
    | some m => pure (.int m)
    | none => StoreM.fail (.overflow .negation) := rfl

theorem Value.index_map [Naming ν] (r : Ref) (key : Value ν) : (Value.map r).index key =
    get >>= fun s => StoreM.ofSettled ((s.entries r).get? (Value.sameIn s) key) >>= fun
      | some v => pure v
      | Option.none => StoreM.fail (.keyNotFound (key.text s)) := rfl

theorem Value.assignIndex_map (r : Ref) (key value : Value ν) : (Value.map r).assignIndex key value =
    get >>= fun s => StoreM.ofSettled ((s.entries r).position? (Value.sameIn s) key) >>= fun
      | some place => modify fun t => t.put r (.map ((s.entries r).replaceAt place value).2)
      | Option.none => modify fun t => t.put r (.map ((s.entries r).append key value)) := rfl

theorem Value.assignIndex_array (r : Ref) (i : Int64) (value : Value ν) :
    (Value.array r).assignIndex (.int i) value = get >>= fun s =>
      match placeOf? i (s.items r).length with
      | some place => modify fun t => t.put r (.array ((s.items r).set place value))
      | Option.none => StoreM.fail (.outOfBounds i (s.items r).length) := rfl

end

namespace Moves

section

variable {f : Span → Span} {σ σ' α α' β β' : Type} {move : σ → σ'} {g : α → α'} {g' : β → β'}

/-! ### Any state -/

theorem pure (a : α) : Moves f move g (pure a) (pure (g a)) := fun _ => rfl

theorem fault (fault : EvalFault) : Moves f move g (throw (.ofFault fault)) (throw (.ofFault fault)) :=
  fun _ => rfl

theorem bind {w : EStateM Stop σ α} {w' : EStateM Stop σ' α'} {next : α → EStateM Stop σ β}
    {next' : α' → EStateM Stop σ' β'} (hw : Moves f move g w w')
    (hnext : ∀ a, Moves f move g' (next a) (next' (g a))) :
    Moves f move g' (w >>= next) (w' >>= next') := by
  intro s
  have hs := hw s
  cases hr : w s with
  | ok a t =>
    rw [hr] at hs
    simp only [Bind.bind, EStateM.bind, hr, hs]
    exact hnext a t
  | error stop t =>
    rw [hr] at hs
    simp only [Bind.bind, EStateM.bind, hr, hs]
    rfl

/-- Work that depends on the state it begins in. -/
theorem looking {p : σ → EStateM Stop σ β} {q : σ' → EStateM Stop σ' β'}
    (h : ∀ s, Moves f move g' (p s) (q (move s))) :
    Moves f move g' (get >>= p) (get >>= q) := fun s => h s s

theorem changing {change : σ → σ} {change' : σ' → σ'}
    (hchange : ∀ s, move (change s) = change' (move s)) :
    Moves f move id (modify change) (modify change') :=
  fun s => congrArg (EStateM.Result.ok ()) (hchange s).symm

end

/-! ### Collections -/

section Collections

variable {ν μ : Type} (f : Relabeling ν μ) {α β : Type} {g : α → β}

theorem ofSettled (a : Settled α) :
    Moves f.span (Store.relabel f) g (StoreM.ofSettled a) (StoreM.ofSettled (a.map g)) := by
  intro s
  cases a <;> rfl

/-- An answer in which there are no places. -/
theorem answer (a : Settled α) : Moves f.span (Store.relabel f) id (StoreM.ofSettled a) (StoreM.ofSettled a) := by
  intro s
  cases a <;> rfl

theorem newArray (items : List (Value ν)) : Moves f.span (Store.relabel f) (Value.relabel f)
    (StoreM.newArray items) (StoreM.newArray (items.map (·.relabel f))) := by
  intro s
  show EStateM.Result.ok (Value.array (s.relabel f).next) ((s.relabel f).push _) =
    .ok (.array s.next) ((s.push (.array items)).relabel f)
  rw [Store.next_relabel, Store.push_relabel]
  rfl

theorem newMap (entries : Entries ν) : Moves f.span (Store.relabel f) (Value.relabel f)
    (StoreM.newMap entries) (StoreM.newMap (entries.relabel f)) := by
  intro s
  show EStateM.Result.ok (Value.map (s.relabel f).next) ((s.relabel f).push _) =
    .ok (.map s.next) ((s.push (.map entries)).relabel f)
  rw [Store.next_relabel, Store.push_relabel]
  rfl

theorem binary (op : BinaryOp) (l r : Value ν) : Moves f.span (Store.relabel f) (Value.relabel f)
    (op.apply l r) (op.apply (l.relabel f) (r.relabel f)) := by
  have hsame : ∀ s : Store ν, Moves f.span (Store.relabel f) id (StoreM.ofSettled (l.equal? s r))
      (StoreM.ofSettled ((l.relabel f).equal? (s.relabel f) (r.relabel f))) := by
    intro s
    rw [Value.equal?_relabel]
    exact answer f _
  unfold BinaryOp.apply
  refine looking fun s => ?_
  by_cases heq : op = .equal
  · rw [if_pos heq, if_pos heq]
    exact (hsame s).bind fun b => pure (Value.bool b)
  by_cases hne : op = .notEqual
  · rw [if_neg heq, if_neg heq, if_pos hne, if_pos hne]
    exact (hsame s).bind fun b => pure (Value.bool !b)
  rw [if_neg heq, if_neg heq, if_neg hne, if_neg hne, BinaryOp.joined?_relabel,
    BinaryOp.onScalars_relabel]
  cases op.joined? l r with
  | some refs =>
    have hnew := newArray f (s.items refs.1 ++ s.items refs.2)
    rw [List.map_append, ← Store.items_relabel, ← Store.items_relabel] at hnew
    exact hnew
  | none =>
    cases op.onScalars l r with
    | ok v => exact pure v
    | error fault => exact Moves.fault fault

theorem unary (op : UnaryOp) (v : Value ν) : Moves f.span (Store.relabel f) (Value.relabel f)
    (op.apply v) (op.apply (v.relabel f)) := by
  cases op with
  | not =>
    refine looking fun s => ?_
    rw [Value.isTruthy_relabel]
    exact pure (Value.bool !v.isTruthy s)
  | neg =>
    cases v with
    | int n =>
      show Moves f.span _ _ (UnaryOp.neg.apply (.int n)) (UnaryOp.neg.apply (.int n))
      rw [UnaryOp.neg_int, UnaryOp.neg_int]
      cases Arithmetic.fit? (-n.toInt) with
      | some m => exact pure (Value.int m)
      | none => exact fault _
    | float x => exact pure (Value.float (-x))
    | tuple items =>
      rw [Value.relabel_tuple]
      exact fault _
    | _ => exact fault _

theorem itemAt (items : List (Value ν)) (i : Int64) : Moves f.span (Store.relabel f) (Value.relabel f)
    (itemAt items i) (itemAt (items.map (·.relabel f)) i) := by
  have hitem : (placeOf? i items.length).bind ((items.map (·.relabel f))[·]?) =
      ((placeOf? i items.length).bind (items[·]?)).map (·.relabel f) := by
    cases placeOf? i items.length with
    | none => rfl
    | some place => exact List.getElem?_map
  unfold Nikl.itemAt
  rw [List.length_map, hitem]
  cases (placeOf? i items.length).bind (items[·]?) with
  | some v => exact pure v
  | none => exact fault _

/-- An index that does not fit what it reaches into. -/
theorem index_mismatch [Naming ν] [Naming μ] {t i : Value ν} (h : t.index i = StoreM.fail (.cannotIndex t.kind i.kind))
    (h' : (t.relabel f).index (i.relabel f) =
      StoreM.fail (.cannotIndex (t.relabel f).kind (i.relabel f).kind)) :
    Moves f.span (Store.relabel f) (Value.relabel f) (t.index i)
      ((t.relabel f).index (i.relabel f)) := by
  rw [h, h', Value.kind_relabel, Value.kind_relabel]
  exact fault _

theorem index [Naming ν] [Naming μ] {f : Relabeling ν μ} (hf : f.KeepsText) (t i : Value ν) : Moves f.span (Store.relabel f) (Value.relabel f)
    (t.index i) ((t.relabel f).index (i.relabel f)) := by
  cases t with
  | map r =>
    show Moves f.span _ _ ((Value.map r).index i) ((Value.map r).index (i.relabel f))
    rw [Value.index_map, Value.index_map]
    refine looking fun s => ?_
    rw [Store.entries_relabel, Value.text_relabel hf,
      Entries.get?_relabel (Value.sameIn_relabel f s)]
    refine (ofSettled f _).bind fun found => ?_
    cases found with
    | some v => exact pure v
    | none => exact fault _
  | array r =>
    cases i with
    | int n =>
      refine looking (p := fun s => Nikl.itemAt (s.items r) n)
        (q := fun s => Nikl.itemAt (s.items r) n) fun s => ?_
      rw [Store.items_relabel]
      exact itemAt f (s.items r) n
    | _ => exact index_mismatch f rfl rfl
  | tuple items =>
    cases i with
    | int n =>
      rw [Value.relabel_tuple]
      exact itemAt f items n
    | _ => exact index_mismatch f rfl rfl
  | string content =>
    cases i with
    | int n =>
      have hitem := itemAt f (Value.letters content) n
      rw [Value.letters_relabel] at hitem
      exact hitem
    | _ => exact index_mismatch f rfl rfl
  | _ => exact index_mismatch f rfl rfl

/-- New contents for a collection. -/
theorem put (r : Ref) (c : Cell ν) : Moves f.span (Store.relabel f) id
    (modify fun s => s.put r c) (modify fun s => s.put r (c.relabel f)) :=
  changing fun s => s.put_relabel f r c

theorem assignIndex (t i v : Value ν) : Moves f.span (Store.relabel f) id
    (t.assignIndex i v) ((t.relabel f).assignIndex (i.relabel f) (v.relabel f)) := by
  cases t with
  | map r =>
    show Moves f.span _ _ ((Value.map r).assignIndex i v)
      ((Value.map r).assignIndex (i.relabel f) (v.relabel f))
    rw [Value.assignIndex_map, Value.assignIndex_map]
    refine looking fun s => ?_
    rw [Store.entries_relabel, Entries.position?_relabel (Value.sameIn_relabel f s)]
    refine (answer f _).bind fun place => ?_
    cases place with
    | some place =>
      have hput := put f r (.map ((s.entries r).replaceAt place v).2)
      rw [Cell.relabel, ← Entries.replaceAt_relabel] at hput
      exact hput
    | none =>
      have hput := put f r (.map ((s.entries r).append i v))
      rw [Cell.relabel, ← Entries.append_relabel] at hput
      exact hput
  | array r =>
    cases i with
    | int n =>
      show Moves f.span _ _ ((Value.array r).assignIndex (.int n) v)
        ((Value.array r).assignIndex (.int n) (v.relabel f))
      rw [Value.assignIndex_array, Value.assignIndex_array]
      refine looking fun s => ?_
      rw [Store.items_relabel, List.length_map]
      cases placeOf? n (s.items r).length with
      | some place =>
        have hput := put f r (.array ((s.items r).set place v))
        rw [Cell.relabel, List.map_set] at hput
        exact hput
      | none => exact fault _
    | tuple items => exact fault _
    | _ => exact fault _
  | tuple items => exact fault _
  | _ => exact fault _

end Collections

/-! ### Programs -/

section Programs

variable {ν μ : Type} [DecidableEq ν] [DecidableEq μ] [Naming ν] [Naming μ] {f : Relabeling ν μ}
  {α β : Type} {g : α → β} {w : EvalOf ν α} {w' : EvalOf μ β}

theorem located (hw : Moves f.span (Machine.relabel f) g w w') (span : Span) :
    Moves f.span (Machine.relabel f) g (Eval.located span w) (Eval.located (f.span span) w') := by
  intro m
  have hm := hw m
  cases hr : w m with
  | ok a n =>
    rw [hr] at hm
    rw [Eval.located_of_ok hr, Eval.located_of_ok hm]
    rfl
  | error stop n =>
    rw [hr] at hm
    rw [Eval.located_of_error hr, Eval.located_of_error hm]
    cases stop with
    | endless => rfl
    | error e =>
      have hplace := e.orSpan_mapSpans f.span span
      exact congrArg (fun e => EStateM.Result.error (Stop.error e) _) hplace.symm

theorem inBlock (hw : Moves f.span (Machine.relabel f) g w w') :
    Moves f.span (Machine.relabel f) g (Eval.inBlock w) (Eval.inBlock w') := by
  intro m
  have hm := hw { m with env := m.env.openBlock }
  have hopen : Machine.relabel f { m with env := m.env.openBlock } =
      { m.relabel f with env := (m.relabel f).env.openBlock } :=
    congrArg (fun env => { m.relabel f with env := env }) (m.env.openInside_relabel f _)
  rw [hopen] at hm
  cases hr : w { m with env := m.env.openBlock } with
  | ok a n =>
    rw [hr] at hm
    rw [Eval.inBlock_of_ok hr, Eval.inBlock_of_ok hm]
    rfl
  | error stop n =>
    rw [hr] at hm
    rw [Eval.inBlock_of_error hr, Eval.inBlock_of_error hm]
    rfl

theorem onStore {work : StoreMOf ν α} {work' : StoreMOf μ β} (hwork : Moves f.span (Store.relabel f) g work work') :
    Moves f.span (Machine.relabel f) g (Eval.onStore work) (Eval.onStore work') := by
  intro m
  have hs := hwork m.store
  rcases m with ⟨env, s, calls, output, closures⟩
  simp only [Machine.relabel, Eval.onStore] at hs ⊢
  rw [hs]
  cases work s <;> rfl

variable (f)

theorem ofExcept (a : Except EvalFault α) :
    Moves f.span (Machine.relabel f) g (Eval.ofExcept a) (Eval.ofExcept (a.map g)) := by
  cases a with
  | ok a => exact pure a
  | error fault => exact Moves.fault fault

theorem define (x : ν) (v : Value ν) : Moves f.span (Machine.relabel f) id
    (modify fun m => { m with env := m.env.define x v })
    (modify fun m => { m with env := m.env.define (f.name x) (v.relabel f) }) :=
  changing fun m => congrArg (fun env => { m.relabel f with env := env }) (m.env.define_relabel f x v)

theorem assign (x : ν) (v : Value ν) : Moves f.span (Machine.relabel f) id
    (modify fun m => { m with env := m.env.assign x v })
    (modify fun m => { m with env := m.env.assign (f.name x) (v.relabel f) }) :=
  changing fun m => congrArg (fun env => { m.relabel f with env := env }) (m.env.assign_relabel f x v)

theorem bindItem (first : ν) (second : Option ν) (item : LoopItem ν) :
    Moves f.span (Machine.relabel f) id (Eval.bindItem first second item)
      (Eval.bindItem (f.name first) (second.map f.name) (item.relabel f)) := by
  refine changing fun m => congrArg (fun env => { m.relabel f with env := env }) ?_
  have hfirst := m.env.define_relabel f first item.first
  rcases item with ⟨v, _ | w⟩ <;> rcases second with _ | x
  · exact hfirst
  · exact hfirst
  · exact hfirst
  · show ((m.env.define first v).define x w).relabel f = _
    rw [Environment.define_relabel, hfirst]
    rfl

theorem addEntry (entries : Entries ν) (key value : Value ν) :
    Moves f.span (Machine.relabel f) (Entries.relabel f) (Eval.addEntry entries key value)
      (Eval.addEntry (entries.relabel f) (key.relabel f) (value.relabel f)) := by
  let written {κ : Type} (key value : Value κ) (entries : Entries κ) (s : Store κ) :
      Settled (Entries κ) := (entries.insert (Value.sameIn s) key value).map (·.2)
  refine looking (p := fun m => Eval.onStore (StoreM.ofSettled (written key value entries m.store)))
    (q := fun m => Eval.onStore (StoreM.ofSettled (written (key.relabel f) (value.relabel f)
      (entries.relabel f) m.store))) fun m => ?_
  have hwritten : written (key.relabel f) (value.relabel f) (entries.relabel f) (m.relabel f).store =
      (written key value entries m.store).map (Entries.relabel f) := by
    unfold written
    rw [Option.map_map]
    refine (congrArg _ (Entries.insert_relabel (Value.sameIn_relabel f m.store) key value entries)).trans ?_
    rw [Option.map_map]
    rfl
  rw [hwritten]
  exact onStore (ofSettled f _)

variable {f}

theorem nameValue (hf : f.KeepsText) (x : ν) :
    Moves f.span (Machine.relabel f) (Value.relabel f) (Eval.nameValue x) (Eval.nameValue (f.name x)) := by
  intro m
  have hlookup : (m.relabel f).env.lookup (f.name x) = _ := m.env.lookup_relabel f x
  rw [Eval.nameValue_eq, Eval.nameValue_eq, hlookup]
  have htext := hf x
  rcases m.env.lookup x with (_ | _) | v
  · simp only [Except.map, htext]
    rfl
  · simp only [Except.map, htext]
    rfl
  · rfl

theorem deleteName (hf : f.KeepsText) (x : ν) :
    Moves f.span (Machine.relabel f) id (Eval.deleteName x) (Eval.deleteName (f.name x)) := by
  intro m
  have hdelete : (m.relabel f).env.delete (f.name x) = _ := m.env.delete_relabel f x
  rw [Eval.deleteName_eq, Eval.deleteName_eq, hdelete, hf]
  split <;> rfl

theorem callBuiltin (hf : f.KeepsText) (b : Builtin) (args : List (Value ν)) :
    Moves f.span (Machine.relabel f) (Value.relabel f) (Eval.callBuiltin b args)
      (Eval.callBuiltin b (args.map (·.relabel f))) := by
  intro m
  have happly : b.apply (m.relabel f).store (args.map (·.relabel f)) = _ :=
    b.apply_relabel hf m.store args
  rw [Eval.callBuiltin_eq, Eval.callBuiltin_eq, happly]
  cases b.apply m.store args <;> rfl

theorem forEach {round : LoopItem ν → EvalOf ν (Completion ν)}
    {round' : LoopItem μ → EvalOf μ (Completion μ)}
    (hround : ∀ item, Moves f.span (Machine.relabel f) (Completion.relabel f) (round item)
      (round' (item.relabel f))) (items : List (LoopItem ν)) :
    Moves f.span (Machine.relabel f) (Completion.relabel f) (Eval.forEach round items)
      (Eval.forEach round' (items.map (·.relabel f))) := by
  induction items with
  | nil => exact pure Completion.fellThrough
  | cons item rest ih =>
    refine (hround item).bind fun c => ?_
    cases c with
    | fellThrough => exact ih
    | returned v => exact pure (Completion.returned v)

/-- A branch that is chosen by whether a value counts as true. -/
theorem branch {v : Value ν} {w z : EvalOf ν (Completion ν)} {w' z' : EvalOf μ (Completion μ)}
    (hw : Moves f.span (Machine.relabel f) (Completion.relabel f) w w')
    (hz : Moves f.span (Machine.relabel f) (Completion.relabel f) z z') :
    Moves f.span (Machine.relabel f) (Completion.relabel f)
      (do if v.isTruthy (← get).store then w else z)
      (do if (v.relabel f).isTruthy (← get).store then w' else z') := by
  refine looking fun m => ?_
  have htruthy : (v.relabel f).isTruthy (m.relabel f).store = v.isTruthy m.store :=
    v.isTruthy_relabel f m.store
  rw [htruthy]
  split
  · exact hw
  · exact hz

/-- A call in another place: the place is that of its frame. -/
theorem duringCall (hf : f.KeepsText) {body : EvalOf ν (Completion ν)}
    {body' : EvalOf μ (Completion μ)}
    (hbody : Moves f.span (Machine.relabel f) (Completion.relabel f) body body')
    (c : Closure ν) (args : List (Value ν)) (span : Span) :
    Moves f.span (Machine.relabel f) (Value.relabel f) (Eval.duringCall c args span body)
      (Eval.duringCall (c.relabel f) (args.map (·.relabel f)) (f.span span) body') := by
  intro m
  have hargs : (args.map (·.relabel f)).length = args.length := List.length_map ..
  by_cases harity : args.length = c.arity
  · have harity' : (args.map (·.relabel f)).length = (c.relabel f).arity := by
      rw [hargs, Closure.arity_relabel, harity]
    have hpush := m.calls.push_call_relabel f c span
    cases hcalls : m.calls.push ⟨c.definition.name, some span⟩ with
    | error fault =>
      rw [hcalls] at hpush
      rw [Eval.duringCall_of_full harity hcalls, Eval.duringCall_of_full harity' hpush]
      rfl
    | ok calls =>
      rw [hcalls] at hpush
      have hentered := Machine.entered_relabel f c args calls m
      have hm := hbody (Eval.entered c args calls m)
      rw [Eval.duringCall_of_push harity hcalls, Eval.duringCall_of_push harity' hpush, hentered, hm]
      cases body (Eval.entered c args calls m) with
      | ok completion n =>
        show EStateM.Result.ok (completion.relabel f).value (n.relabel f).leaveCall = .ok _ _
        rw [Completion.value_relabel, ← Machine.leaveCall_relabel]
      | error stop n =>
        -- the calls are told by the texts of their names, which are kept
        show EStateM.Result.error ((stop.mapError _).mapError (n.relabel f).calls.attach) _ = .error _ _
        rw [← Machine.leaveCall_relabel]
        cases stop with
        | endless => rfl
        | error e =>
          have hattach := n.calls.attach_relabel hf e
          exact congrArg (fun e => EStateM.Result.error (Stop.error e) _) hattach
  · have harity' : (args.map (·.relabel f)).length ≠ (c.relabel f).arity := by
      rwa [hargs, Closure.arity_relabel]
    rw [Eval.duringCall_of_arity harity, Eval.duringCall_of_arity harity', hargs,
      Closure.arity_relabel, Closure.name_relabel hf]
    rfl

/-! ### Expressions and statements -/

variable (hf : f.KeepsText) {call : CallOf ν} {call' : CallOf μ}
  (hcall : ∀ c args span, Moves f.span (Machine.relabel f) (Value.relabel f) (call c args span)
    (call' (c.relabel f) (args.map (·.relabel f)) (f.span span)))

include hf hcall

theorem callValue (callee : Value ν) (args : List (Value ν)) (span : Span) :
    Moves f.span (Machine.relabel f) (Value.relabel f) (Eval.callValue call callee args span)
      (Eval.callValue call' (callee.relabel f) (args.map (·.relabel f)) (f.span span)) := by
  cases callee with
  | function c => exact hcall c args span
  | builtin b => exact callBuiltin hf b args
  | tuple items =>
    rw [Value.relabel_tuple]
    exact fault _
  | _ => exact fault _

mutual

theorem expr : (e : Expr ν) → Moves f.span (Machine.relabel f) (Value.relabel f) (Eval.expr call e)
    (Eval.expr call' (e.relabel f))
  | .literal v span => located (by
      rw [Value.ofLiteral_rename hf]
      exact pure (Value.ofLiteral v)) span
  | .ident x span => located (nameValue hf x) span
  | .array items span => located ((exprs items).bind fun vs => onStore (newArray f vs)) span
  | .tuple items span => located ((exprs items).bind fun vs => by
      rw [← Value.relabel_tuple]
      exact pure (Value.tuple vs)) span
  | .map entries span => located ((mapEntries [] entries).bind fun es => onStore (newMap f es)) span
  | .binary op left right span =>
    located ((expr left).bind fun l => (expr right).bind fun r => onStore (binary f op l r)) span
  | .unary op operand span => located ((expr operand).bind fun v => onStore (unary f op v)) span
  | .call callee args span => located ((expr callee).bind fun c => (exprs args).bind fun vs =>
      callValue hf hcall c vs span) span
  | .index target i span =>
    located ((expr target).bind fun t => (expr i).bind fun i => onStore (index hf t i)) span

theorem exprs : (es : List (Expr ν)) → Moves f.span (Machine.relabel f) (List.map (·.relabel f))
    (Eval.exprs call es) (Eval.exprs call' (Expr.relabelAll f es))
  | [] => pure []
  | e :: rest => (expr e).bind fun v => (exprs rest).bind fun vs => pure (v :: vs)

theorem mapEntries (written : Entries ν) : (es : List (Expr ν × Expr ν)) →
    Moves f.span (Machine.relabel f) (Entries.relabel f) (Eval.mapEntries call written es)
      (Eval.mapEntries call' (written.relabel f) (Expr.relabelEntries f es))
  | [] => pure written
  | (key, value) :: rest => (expr key).bind fun k => (expr value).bind fun v =>
      (addEntry f written k v).bind fun es => mapEntries es rest

end

mutual

theorem stmt : (s : Stmt ν) → Moves f.span (Machine.relabel f) (Completion.relabel f) (Eval.stmt call s)
    (Eval.stmt call' (s.relabel f))
  | .expr e span => located ((expr hf hcall e).bind fun _ => pure Completion.fellThrough) span
  | .define x _ value span => located ((expr hf hcall value).bind fun v => (define f x v).bind fun _ =>
      pure Completion.fellThrough) span
  | .assign x value span => located ((expr hf hcall value).bind fun v => (assign f x v).bind fun _ =>
      pure Completion.fellThrough) span
  | .assignIndex target i value span => located ((expr hf hcall target).bind fun t =>
      (expr hf hcall i).bind fun i => (expr hf hcall value).bind fun v =>
        (onStore (assignIndex f t i v)).bind fun _ => pure Completion.fellThrough) span
  | .delete x span => located ((deleteName hf x).bind fun _ => pure Completion.fellThrough) span
  | .function d span => show Moves f.span _ (Completion.relabel f)
        (Eval.located span do
          modify (Machine.defineFunction d)
          return Completion.fellThrough)
        (Eval.located (f.span span) do
          modify (Machine.defineFunction (d.relabel f))
          return Completion.fellThrough) from
      located ((changing (Machine.defineFunction_relabel f d)).bind fun _ =>
        pure Completion.fellThrough) span
  | .ifThen condition thenBranch span => located ((expr hf hcall condition).bind fun _ =>
      branch (block thenBranch) (pure Completion.fellThrough)) span
  | .ifElse condition thenBranch elseBranch span => located ((expr hf hcall condition).bind fun _ =>
      branch (block thenBranch) (block elseBranch)) span
  | .forEach first second iterable (.mk body _) span => located ((expr hf hcall iterable).bind fun v =>
      looking fun m => by
        have hitems : (v.relabel f).loopItems (m.relabel f).store second.isSome = _ :=
          v.loopItems_relabel f m.store second.isSome
        rw [Option.isSome_map, hitems]
        exact (ofExcept f _).bind fun items => forEach (fun item =>
          inBlock ((bindItem f first second item).bind fun _ => stmts body)) items) span
  | .giveBack none span => located (pure (Completion.returned .none)) span
  | .giveBack (some e) span => located ((expr hf hcall e).bind fun v => pure (Completion.returned v)) span

theorem stmts : (ss : List (Stmt ν)) → Moves f.span (Machine.relabel f) (Completion.relabel f)
    (Eval.stmts call ss) (Eval.stmts call' (Stmt.relabelAll f ss))
  | [] => pure Completion.fellThrough
  | s :: rest => (stmt s).bind fun c =>
      match c with
      | .fellThrough => stmts rest
      | .returned v => pure (Completion.returned v)

theorem block : (b : Block ν) → Moves f.span (Machine.relabel f) (Completion.relabel f)
    (Eval.block call b) (Eval.block call' (b.relabel f))
  | .mk body _ => inBlock (stmts body)

end

end Programs

end Moves

/-! ## Whole programs -/

section

variable {ν μ : Type} [DecidableEq ν] [DecidableEq μ] [Naming ν] [Naming μ] {f : Relabeling ν μ}
  (hf : f.KeepsText)

include hf


/-- A call in another place does what the call does. -/
theorem moves_callWithin (room : Nat) (c : Closure ν) (args : List (Value ν)) (span : Span) :
    Moves f.span (Machine.relabel f) (Value.relabel f) (Eval.callWithin room c args span)
      (Eval.callWithin room (c.relabel f) (args.map (·.relabel f)) (f.span span)) := by
  induction room generalizing c args span with
  | zero =>
    rw [Eval.callWithin_eq, Eval.callWithin_eq]
    refine Moves.duringCall hf (fun m => ?_) c args span
    show EStateM.Result.error (Stop.ofFault (.tooDeep (m.calls.relabel f).limit)) _ = _
    rw [CallStack.limit_relabel]
    rfl
  | succ room ih =>
    rw [Eval.callWithin_eq, Eval.callWithin_eq, Eval.bodyWithin_succ, Eval.bodyWithin_succ]
    refine Moves.duringCall hf ?_ c args span
    have hbody := Moves.stmts hf ih c.definition.body.stmts
    rw [Stmt.relabelAll_eq, ← Block.stmts_relabel, ← FunctionDef.body_relabel] at hbody
    exact hbody

/-- **A program in another place does what the program does.** -/
theorem Machine.run_relabel (m : Machine ν) (program : Block ν) :
    (m.relabel f).run (program.relabel f) = moved f.span (Machine.relabel f) id (m.run program) := by
  have hstmts := Moves.stmts hf (moves_callWithin hf m.calls.room) program.stmts m
  rw [Stmt.relabelAll_eq, ← Block.stmts_relabel] at hstmts
  have hroom : (m.relabel f).calls.room = m.calls.room := rfl
  rw [run, run, hroom, hstmts]
  cases Eval.stmts (Eval.callWithin m.calls.room) program.stmts m <;> rfl

end

/-! ## Two relabelings in turn -/

section

variable {ν μ κ : Type} (q : Relabeling ν μ) (r : Relabeling μ κ)

theorem Scope.relabel_trans (scope : Scope ν) :
    scope.relabel (q.trans r) = (scope.relabel q).relabel r := by
  have hbindings : scope.bindings.relabel (q.trans r) = (scope.bindings.relabel q).relabel r := by
    rw [Bindings.relabel, Bindings.relabel, Bindings.relabel, List.map_map]
    exact List.map_congr_left fun b _ => congrArg (Prod.mk _) (b.2.relabel_trans q r)
  have hdeleted : scope.deleted.map (q.trans r).name = (scope.deleted.map q.name).map r.name := by
    rw [List.map_map]
    rfl
  exact congrArg₂ (Scope.mk · · _) hbindings hdeleted

theorem Environment.relabel_trans (env : Environment ν) :
    env.relabel (q.trans r) = (env.relabel q).relabel r := by
  refine congrArg (Environment.mk · _) ?_
  show _ = (env.scopes.map _).map _
  rw [Array.map_map]
  exact Array.map_congr_left fun scope _ => scope.relabel_trans q r

theorem CallStack.relabel_trans (calls : CallStack ν) :
    calls.relabel (q.trans r) = (calls.relabel q).relabel r := by
  refine congrArg (CallStack.mk · _) ?_
  show _ = (calls.frames.map _).map _
  rw [List.map_map]
  refine List.map_congr_left fun frame _ => congrArg (Frame.mk _) ?_
  show _ = (frame.span.map _).map _
  rw [Option.map_map]
  rfl

/-- A state that is relabeled twice is relabeled by the one relabeling after the other. -/
theorem Machine.relabel_trans (m : Machine ν) : m.relabel (q.trans r) = (m.relabel q).relabel r := by
  rcases m with ⟨env, store, calls, output, closures⟩
  show Machine.mk _ _ _ _ _ = Machine.mk _ _ _ _ _
  rw [Environment.relabel_trans, Store.relabel_trans, CallStack.relabel_trans]
  rfl

end

end Nikl
