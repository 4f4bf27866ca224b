import Nikl.Proofs.Evaluation.Definitions
import Nikl.Proofs.Evaluation.Faults

/-
What an error blames. On its way outward it takes the place of the innermost expression or statement
around the fault, and the calls that were under way where the fault was found. Both are filled in once:
the place by whatever has one first, and the calls by the innermost body that the error leaves.

So the calls under way are followed together with the code that is being carried out. They lead from the
code of the program to it: each call stands in the code that the calls before it lead to, and leads to the
body of the function that is called (`Leads`). An error that comes out of code, on which no call inside
has left its mark, lies in that very code, and the next body outward gives it those calls. The way through
the tree is that of the evaluator; through bodies it goes by induction on the room for calls.
-/

set_option autoImplicit false

namespace Nikl

/-! ## Calls that lead to code -/

/-- Calls that are under way, the latest first, lead from the code of a program to other code. The
functions that are called are made from such definitions. -/
inductive Leads (K : FunctionDef → Prop) (top : Block) : List Frame → Block → Prop where
  | top : Leads K top [] top
  | call {frames : List Frame} {code : Block} {callee : Expr} {args : List Expr} {span : Span}
      {d : FunctionDef} (h : Leads K top frames code)
      (hcall : code.HasOwnNode (.expr (.call callee args span))) (hd : K d) :
      Leads K top (⟨d.name, some span⟩ :: frames) d.body

namespace EvalError

/-- An error has the place of a node of some code, outside of the definitions in it. -/
def LiesIn (e : EvalError) (code : Block) : Prop :=
  ∃ n, code.HasOwnNode n ∧ (∀ d, ¬ n.Defines d) ∧ e.span = some n.span

/-- An error has not been given any calls. It is for want of room only if there is none. -/
structure Bare (calls : CallStack) (e : EvalError) : Prop where
  backtrace : e.backtrace = none
  overflow : e.fault.faultClass = .stackOverflow → calls.room = 0

/-- An error has come out of calls: they lead to where it lies, and if it is for want of room they are as
many as may nest. -/
structure CameThrough (K : FunctionDef → Prop) (top : Block) (limit : Nat) (e : EvalError)
    (frames : List Frame) (code : Block) : Prop where
  backtrace : e.backtrace = some frames
  nonempty : frames ≠ []
  length_le : frames.length ≤ limit
  overflow : e.fault.faultClass = .stackOverflow → frames.length = limit
  leads : Leads K top frames code
  liesIn : e.LiesIn code

variable (K : FunctionDef → Prop) (top : Block) (calls : CallStack) (code : Block)

/-- An error that comes out of an expression or a statement of some code: it lies in the code, or has come
out of calls made from it. -/
def Placed (e : EvalError) : Prop :=
  e.Bare calls ∧ e.LiesIn code ∨ ∃ frames inner, e.CameThrough K top calls.limit frames inner

/-- An error that may not have a place yet. -/
def Loose (e : EvalError) : Prop :=
  e.Bare calls ∧ (e.span = none ∨ e.LiesIn code) ∨
    ∃ frames inner, e.CameThrough K top calls.limit frames inner

variable {K top calls code} {e : EvalError}

theorem LiesIn.span (h : e.LiesIn code) : ∃ span, e.span = some span := by
  obtain ⟨n, -, -, hspan⟩ := h
  exact ⟨n.span, hspan⟩

theorem Placed.loose (h : e.Placed K top calls code) : e.Loose K top calls code :=
  h.imp (And.imp id .inr) id

theorem Fresh.loose (h : e.Fresh) : e.Loose K top calls code :=
  .inl ⟨⟨h.backtrace, fun hover => absurd hover h.fault⟩, .inl h.span⟩

/-- A node gives an error its place if no node inside has. -/
theorem Loose.orSpan {n : Node} (h : e.Loose K top calls code) (hn : code.HasOwnNode n)
    (hplain : ∀ d, ¬ n.Defines d) : (e.orSpan n.span).Placed K top calls code := by
  rcases h with ⟨hbare, hspan⟩ | ⟨frames, inner, h⟩
  · refine .inl ⟨⟨hbare.backtrace, hbare.overflow⟩, ?_⟩
    rcases hspan with hnone | ⟨m, hm, hm', hsome⟩
    · exact ⟨n, hn, hplain, by rw [EvalError.orSpan, hnone, Option.getD_none]⟩
    · exact ⟨m, hm, hm', by rw [EvalError.orSpan, hsome, Option.getD_some]⟩
  · obtain ⟨m, hm, hm', hsome⟩ := h.liesIn
    have hplace : (e.orSpan n.span).LiesIn inner :=
      ⟨m, hm, hm', by rw [EvalError.orSpan, hsome, Option.getD_some]⟩
    exact .inr ⟨frames, inner, { h with backtrace := h.backtrace, liesIn := hplace }⟩

/-- The body of a function gives an error the calls under way, if no body inside has. -/
theorem Placed.attach {frame : Frame} {inner : CallStack} (h : e.Placed K top inner code)
    (hpush : calls.push frame = .ok inner) (hleads : Leads K top inner.frames code) :
    ∃ frames inner', (inner.attach e).CameThrough K top calls.limit frames inner' := by
  have hlimit : inner.limit = calls.limit := CallStack.limit_of_push hpush
  have hsome : inner.frames ≠ [] := by
    unfold CallStack.push at hpush
    split at hpush <;> cases hpush
    exact List.cons_ne_nil _ _
  rcases h with ⟨hbare, hplace⟩ | ⟨frames, innermost, h⟩
  · -- no body inside has left a mark, so the calls under way here are the backtrace
    have hattach : inner.attach e = { e with backtrace := some inner.frames } := by
      rw [CallStack.attach, hbare.backtrace, List.isEmpty_eq_false_iff.2 hsome, Frame.map_told]
      rfl
    rw [hattach]
    refine ⟨inner.frames, code, rfl, hsome, ?_, fun hover => ?_, hleads, hplace⟩
    · rw [← hlimit]
      exact Nat.le_add_right _ _
    · rw [← hlimit, CallStack.limit, hbare.overflow hover]
      rfl
  · -- a backtrace that is there already stays, and the limit is the same for all calls
    have hattach : inner.attach e = e := by
      rw [CallStack.attach, h.backtrace, Option.isSome_some, Bool.or_true]
      rfl
    rw [hattach, ← hlimit]
    exact ⟨frames, innermost, h⟩

end EvalError

/-! ## States in which code is carried out -/

namespace Eval

variable {m n : Machine}

/-- An entry that is written to a map being made changes nothing else. -/
theorem all_of_addEntry {P : Value → Prop} {entries written : Entries} {key value : Value}
    (h : Entries.All P entries) (hkey : P key) (hvalue : P value)
    (hw : Eval.addEntry entries key value m = .ok written n) : n = m ∧ Entries.All P written := by
  rw [Eval.addEntry_eq] at hw
  cases hplace : entries.position? (Value.sameIn m.store) key with
  | none =>
    rw [Eval.bind_of_error (Eval.searching_of_none hplace)] at hw
    cases hw
  | some place =>
    rw [Eval.bind_of_ok (Eval.searching_of_some hplace)] at hw
    cases place with
    | none =>
      cases hw
      exact ⟨rfl, h.append hkey hvalue⟩
    | some place =>
      cases hw
      exact ⟨rfl, h.replaceAt hvalue place⟩

theorem ofExcept_eq_ok {α : Type} {r : Except EvalFault α} {a : α} (hw : Eval.ofExcept r m = .ok a n) :
    r = .ok a ∧ n = m := by
  cases r with
  | error fault => cases hw
  | ok b =>
    cases hw
    exact ⟨rfl, rfl⟩

end Eval

/-- All functions that there are have known definitions, and these calls are under way. -/
structure Underway (K : FunctionDef → Prop) (hK : DefinitionsClosed K) (calls : CallStack)
    (m : Machine) : Prop where
  keeps : (knowing K hK).Keeps m
  calls : m.calls = calls

namespace Underway

variable {K : FunctionDef → Prop} {hK : DefinitionsClosed K} {calls : CallStack} {m n : Machine}

theorem openBlock (hm : Underway K hK calls m) :
    Underway K hK calls { m with env := m.env.openBlock } :=
  ⟨hm.keeps.env (hm.keeps.2.openInside _), hm.calls⟩

/-- What a job has come to, and the state that it leaves. -/
theorem job {α : Type} {j : Job α} {w : Eval α} {a : α} (hm : Underway K hK calls m)
    (hcarries : Carries calls.room (Script.job j) w) (hpre : (knowing K hK).Pre m j)
    (hw : w m = .ok a n) : Underway K hK calls n ∧ (knowing K hK).Post m j a n := by
  have hroom : m.calls.room = calls.room := by rw [hm.calls]
  have hends : j.Ends m (.ok a) n := (hcarries.follows m hroom).ends_of_ok hw
  obtain ⟨⟨hkeeps, -⟩, hpost⟩ := Contract.ends (knowing K hK).kept hm.keeps hpre hends
  have hsame := (hcarries.balanced m).calls
  rw [Eval.after_of_ok hw] at hsame
  exact ⟨⟨hkeeps, hsame.trans hm.calls⟩, hpost a rfl⟩

theorem bindItem {first : String} {second : Option String} {item : LoopItem}
    (hm : Underway K hK calls m) (hitem : item.All (Value.MadeFrom K)) {u : Unit}
    (hw : Eval.bindItem first second item m = .ok u n) : Underway K hK calls n := by
  cases hw
  have hfirst := hm.keeps.2.define first hitem.1
  refine ⟨hm.keeps.env ?_, hm.calls⟩
  rcases hsecond : item.second with _ | v <;> rcases second with _ | x
  · exact hfirst
  · exact hfirst
  · exact hfirst
  · exact hfirst.define x (hitem.2 v hsecond)

theorem loopItems {v : Value} {pairs : Bool} {items : List LoopItem} (hm : Underway K hK calls m)
    (hv : v.MadeFrom K) (h : v.loopItems m.store pairs = .ok items) :
    ∀ item ∈ items, item.All (Value.MadeFrom K) :=
  LoopItem.all_of_loopItems (fun _ _ hv hw => Value.Throughout.held hm.keeps.1 hv hw)
    (fun _ hv => hv.madeFrom) hv h

/-- The state in which the body of a function begins. -/
theorem entered {f : Closure} {args : List Value} {inner : CallStack} (hm : Underway K hK calls m)
    (hargs : ∀ v ∈ args, v.MadeFrom K) : Underway K hK inner (Eval.entered f args inner m) := by
  -- the parameters are bound one after the other, in a scope inside that of the function
  have bound : ∀ (bindings : List (Param × Value)) (env : Environment),
      (∀ b ∈ bindings, b.2.MadeFrom K) → env.BindsOnly (Value.MadeFrom K) →
      (bindings.foldl (fun env b => env.define b.1.name b.2) env).BindsOnly (Value.MadeFrom K) := by
    intro bindings
    induction bindings with
    | nil => exact fun _ _ henv => henv
    | cons b rest ih =>
      intro env hall henv
      obtain ⟨hb, hrest⟩ := List.forall_mem_cons.1 hall
      exact ih _ hrest (henv.define _ hb)
  refine ⟨⟨hm.keeps.1, bound _ _ (fun b hb => ?_) (hm.keeps.2.openInside f.scope)⟩, rfl⟩
  exact hargs b.2 (List.of_mem_zip hb).2

end Underway

/-! ## Work that fails -/

/-- Each error of some work has a property. -/
def Fails {α : Type} (E : EvalError → Prop) (w : Eval α) (m : Machine) : Prop :=
  ∀ e n, w m = .error (.error e) n → E e

section Fails

variable {α β : Type} {E E' : EvalError → Prop} {w : Eval α} {f : α → Eval β} {m : Machine}

theorem Fails.mono (h : Fails E w m) (hE : ∀ e, E e → E' e) : Fails E' w m :=
  fun e n hw => hE e (h e n hw)

theorem fails_pure (a : α) : Fails E (pure a) m := by
  rintro e n ⟨⟩

theorem fails_modify (g : Machine → Machine) : Fails E (modify g : Eval Unit) m := by
  rintro e n ⟨⟩

theorem Fails.bind (hw : Fails E w m) (hf : ∀ a n, w m = .ok a n → Fails E (f a) n) :
    Fails E (w >>= f) m := by
  intro e n h
  cases hr : w m with
  | ok a k =>
    rw [Eval.bind_of_ok hr] at h
    exact hf a k hr e n h
  | error stop k =>
    rw [Eval.bind_of_error hr] at h
    cases h
    exact hw e n hr

theorem Fails.get_bind {f : Machine → Eval β} (h : Fails E (f m) m) : Fails E (get >>= f) m := h

theorem Fails.inBlock (h : Fails E w { m with env := m.env.openBlock }) :
    Fails E (Eval.inBlock w) m := by
  intro e n hrun
  unfold Eval.inBlock at hrun
  split at hrun
  · cases hrun
  · next hw =>
    cases hrun
    exact h _ _ hw

variable {K : FunctionDef → Prop} {top : Block} {calls : CallStack} {code : Block}

theorem FailsFresh.loose (h : FailsFresh w) : Fails (EvalError.Loose K top calls code) w m :=
  fun e n hw => (h m e n hw).loose

theorem Fails.located {node : Node} (hnode : code.HasOwnNode node) (hplain : ∀ d, ¬ node.Defines d)
    (h : Fails (EvalError.Loose K top calls code) w m) :
    Fails (EvalError.Placed K top calls code) (Eval.located node.span w) m := by
  intro e n hrun
  cases hw : w m with
  | ok a k =>
    rw [Eval.located_of_ok hw] at hrun
    cases hrun
  | error stop k =>
    rw [Eval.located_of_error hw] at hrun
    cases stop with
    | error found =>
      cases hrun
      exact (h found n hw).orSpan hnode hplain
    | endless => cases hrun

theorem Fails.located_expr {e : Expr} (he : code.HasOwnNode (.expr e))
    (h : Fails (EvalError.Loose K top calls code) w m) :
    Fails (EvalError.Placed K top calls code) (Eval.located e.span w) m :=
  .located he (Node.not_defines_expr e) h

end Fails

/-! ## The tree -/

section Tree

variable {K : FunctionDef → Prop} {hK : DefinitionsClosed K} {top code : Block} {calls : CallStack}

/-- Calls from some code, by an evaluator that has so much room, blame as they should. -/
def CallsBlame (K : FunctionDef → Prop) (hK : DefinitionsClosed K) (top code : Block)
    (calls : CallStack) : Prop :=
  ∀ (f : Closure) (args : List Value) (callee : Expr) (written : List Expr) (span : Span) (m : Machine),
    Underway K hK calls m → K f.definition → (∀ v ∈ args, v.MadeFrom K) →
      code.HasOwnNode (.expr (.call callee written span)) →
        Fails (EvalError.Loose K top calls code) (Eval.callWithin calls.room f args span) m

/-- Each error of some work is one that comes out of code. -/
abbrev FailsPlaced (K : FunctionDef → Prop) (top : Block) (calls : CallStack) (code : Block) {α : Type}
    (w : Eval α) (m : Machine) : Prop := Fails (EvalError.Placed K top calls code) w m

/-- Each error of some work is one that comes out of code, or has no place yet. -/
abbrev FailsLoose (K : FunctionDef → Prop) (top : Block) (calls : CallStack) (code : Block) {α : Type}
    (w : Eval α) (m : Machine) : Prop := Fails (EvalError.Loose K top calls code) w m

variable {α β : Type} {w : Eval α} {f : α → Eval β} {m : Machine} {E : EvalError → Prop}

theorem FailsPlaced.loose (h : FailsPlaced K top calls code w m) : FailsLoose K top calls code w m :=
  h.mono fun _ => EvalError.Placed.loose

open Eval (callWithin)

/-- Behind a piece of work the functions that there are have known definitions, and the same calls are
under way. -/
theorem Fails.bind_job {j : Job α} (hm : Underway K hK calls m)
    (hcarries : Carries calls.room (Script.job j) w) (hpre : (knowing K hK).Pre m j) (hw : Fails E w m)
    (hf : ∀ a n, Underway K hK calls n → (knowing K hK).Post m j a n → Fails E (f a) n) :
    Fails E (w >>= f) m :=
  hw.bind fun a n h =>
    have ⟨hn, hpost⟩ := hm.job hcarries hpre h
    hf a n hn hpost

/-- Behind an expression. -/
theorem FailsPlaced.bind_expr {e : Expr} {f : Value → Eval β} (hm : Underway K hK calls m)
    (he : FailsPlaced K top calls code (Eval.expr (callWithin calls.room) e) m)
    (hf : ∀ v n, Underway K hK calls n → v.MadeFrom K → FailsLoose K top calls code (f v) n) :
    FailsLoose K top calls code (Eval.expr (callWithin calls.room) e >>= f) m :=
  Fails.bind_job hm (Carries.expr (Carries.call calls.room) e) trivial he.loose hf

/-- Behind expressions in order. -/
theorem FailsPlaced.bind_exprs {es : List Expr} {f : List Value → Eval β} (hm : Underway K hK calls m)
    (hes : FailsPlaced K top calls code (Eval.exprs (callWithin calls.room) es) m)
    (hf : ∀ vs n, Underway K hK calls n → (∀ v ∈ vs, v.MadeFrom K) → FailsLoose K top calls code (f vs) n) :
    FailsLoose K top calls code (Eval.exprs (callWithin calls.room) es >>= f) m :=
  Fails.bind_job hm (Carries.exprs (Carries.call calls.room) es) trivial hes.loose hf

theorem fails_callValue (hc : CallsBlame K hK top code calls) {callee : Value} {args : List Value}
    {e : Expr} {written : List Expr} {span : Span} (hm : Underway K hK calls m)
    (hcallee : callee.MadeFrom K) (hargs : ∀ v ∈ args, v.MadeFrom K)
    (hnode : code.HasOwnNode (.expr (.call e written span))) :
    FailsLoose K top calls code (Eval.callValue (callWithin calls.room) callee args span) m := by
  cases callee with
  | function f => exact hc f args e written span m hm (hcallee f rfl) hargs hnode
  | builtin b => exact (Eval.failsFresh_callBuiltin b args).loose
  | _ => exact FailsFresh.loose (failsFresh_fault nofun)

open Eval in
mutual

theorem fails_expr (hc : CallsBlame K hK top code calls) : (e : Expr) → code.HasOwnNode (.expr e) →
    ∀ m, Underway K hK calls m → FailsPlaced K top calls code (expr (callWithin calls.room) e) m
  | .literal _ _, he, _, _ => .located_expr he (failsFresh_pure _).loose
  | .ident x _, he, _, _ => .located_expr he (failsFresh_nameValue x).loose
  | .array items _, he, m, hm => .located_expr he <|
      (fails_exprs hc items (fun _ hi => he.ofExpr (List.mem_map_of_mem hi)) m hm).bind_exprs hm
        fun _ _ _ _ => (failsFresh_onStore (failsFresh_modifyGet _)).loose
  | .tuple items _, he, m, hm => .located_expr he <|
      (fails_exprs hc items (fun _ hi => he.ofExpr (List.mem_map_of_mem hi)) m hm).bind_exprs hm
        fun _ _ _ _ => (failsFresh_pure _).loose
  | .map entries _, he, m, hm => .located_expr he <|
      (fails_mapEntries hc [] (List.forall_mem_nil _) entries (fun _ hn => he.ofExpr hn) m hm).bind
        fun _ _ _ => (failsFresh_onStore (failsFresh_modifyGet _)).loose
  | .binary op left right _, he, m, hm => .located_expr he <|
      (fails_expr hc left (he.ofExpr (by simp [Node.children])) m hm).bind_expr hm fun l n hn _ =>
        (fails_expr hc right (he.ofExpr (by simp [Node.children])) n hn).bind_expr hn fun r _ _ _ =>
          (failsFresh_onStore (StoreM.failsFresh_binary op l r)).loose
  | .unary op operand _, he, m, hm => .located_expr he <|
      (fails_expr hc operand (he.ofExpr (by simp [Node.children])) m hm).bind_expr hm fun v _ _ _ =>
        (failsFresh_onStore (StoreM.failsFresh_unary op v)).loose
  | .call callee args span, he, m, hm => .located_expr he <|
      (fails_expr hc callee (he.ofExpr (by simp [Node.children])) m hm).bind_expr hm fun f n hn hf =>
        (fails_exprs hc args (fun _ ha => he.ofExpr (List.mem_cons_of_mem _ (List.mem_map_of_mem ha)))
          n hn).bind_exprs hn fun vs _ hk hvs => fails_callValue hc hk hf hvs he
  | .index target i _, he, m, hm => .located_expr he <|
      (fails_expr hc target (he.ofExpr (by simp [Node.children])) m hm).bind_expr hm fun t n hn _ =>
        (fails_expr hc i (he.ofExpr (by simp [Node.children])) n hn).bind_expr hn fun i _ _ _ =>
          (failsFresh_onStore (StoreM.failsFresh_index t i)).loose

theorem fails_exprs (hc : CallsBlame K hK top code calls) : (es : List Expr) →
    (∀ e ∈ es, code.HasOwnNode (.expr e)) → ∀ m, Underway K hK calls m →
    FailsPlaced K top calls code (exprs (callWithin calls.room) es) m
  | [], _, _, _ => fails_pure []
  | e :: rest, hes, m, hm =>
    have ⟨he, hrest⟩ := List.forall_mem_cons.1 hes
    .bind_job hm (Carries.expr (Carries.call calls.room) e) trivial (fails_expr hc e he m hm)
      fun v n hn _ => (fails_exprs hc rest hrest n hn).bind fun vs _ _ => fails_pure (v :: vs)

theorem fails_mapEntries (hc : CallsBlame K hK top code calls) (written : Entries)
    (hwritten : Entries.All (Value.MadeFrom K) written) : (es : List (Expr × Expr)) →
    (∀ n ∈ es.flatMap fun kv => [Node.expr kv.1, Node.expr kv.2], code.HasOwnNode n) →
    ∀ m, Underway K hK calls m →
    FailsLoose K top calls code (mapEntries (callWithin calls.room) written es) m
  | [], _, _, _ => fails_pure written
  | (key, value) :: rest, hes, m, hm =>
    have hkey := hes (.expr key) (by simp)
    have hvalue := hes (.expr value) (by simp)
    (fails_expr hc key hkey m hm).bind_expr hm fun k n hn hk =>
      (fails_expr hc value hvalue n hn).bind_expr hn fun v l hl hv =>
        .bind (failsFresh_addEntry written k v).loose fun entries o ho =>
          have ⟨hsame, hentries⟩ := Eval.all_of_addEntry hwritten hk hv ho
          fails_mapEntries hc entries hentries rest
            (fun n hn => hes n (List.mem_append_right _ hn)) o (hsame ▸ hl)

end

/-- Behind an expression that stands in a statement. -/
theorem fails_part {s : Stmt} {e : Expr} {f : Value → Eval β} (hc : CallsBlame K hK top code calls)
    (hs : code.HasOwnNode (.stmt s)) (hplain : ∀ d, ¬ (Node.stmt s).Defines d)
    (hm : Underway K hK calls m) (he : Node.expr e ∈ (Node.stmt s).children)
    (hf : ∀ v n, Underway K hK calls n → v.MadeFrom K → FailsLoose K top calls code (f v) n) :
    FailsLoose K top calls code (Eval.expr (callWithin calls.room) e >>= f) m :=
  (fails_expr hc e (hs.child hplain he) m hm).bind_expr hm hf

/-- The rounds of a loop, whose body blames as it should. -/
theorem fails_rounds {body : List Stmt} (hdefines : ∀ s ∈ body, s.DefinesOnly K)
    (hbody : ∀ m, Underway K hK calls m →
      FailsPlaced K top calls code (Eval.stmts (callWithin calls.room) body) m)
    (first : String) (second : Option String) {items : List LoopItem}
    (hitems : ∀ item ∈ items, item.All (Value.MadeFrom K)) (hm : Underway K hK calls m) :
    FailsPlaced K top calls code (Eval.forEach (fun item => Eval.inBlock do
      Eval.bindItem first second item
      Eval.stmts (callWithin calls.room) body) items) m := by
  induction items generalizing m with
  | nil => exact fails_pure _
  | cons item rest ih =>
    obtain ⟨hitem, hrest⟩ := List.forall_mem_cons.1 hitems
    have hcarries : Carries calls.room (Script.job (.round first second body item)) (Eval.inBlock do
        Eval.bindItem first second item
        Eval.stmts (callWithin calls.room) body) :=
      .inBlock rfl rfl ((Carries.bindItem first second item).bind fun _ =>
        Carries.stmts (Carries.call calls.room) body)
    refine .bind_job hm hcarries ⟨hdefines, hitem⟩ ?_ fun c n hn _ => ?_
    · exact .inBlock ((fails_modify _).bind fun _ n hbound => hbody n (hm.openBlock.bindItem hitem hbound))
    · cases c with
      | fellThrough => exact ih hrest hn
      | returned v => exact fails_pure _

/-- A definition does not fail. -/
theorem fails_function {call : Call} (d : FunctionDef) (span : Span) :
    Fails E (Eval.stmt call (.function d span)) m := by
  have hdefines : Eval.stmt call (.function d span) m = .ok .fellThrough (m.defineFunction d) := rfl
  intro e n h
  rw [hdefines] at h
  cases h

/-- All functions that are defined in some code are known, so those in a statement of it are. -/
theorem Block.HasOwnNode.definesOnly (hcode : ∀ d, code.Defines d → K d) {s : Stmt}
    (hs : code.HasOwnNode (.stmt s)) : s.DefinesOnly K := by
  intro n d hn hd
  obtain ⟨root, hroot, hwithin⟩ := hs.hasNode
  exact hcode d ⟨n, ⟨root, hroot, hwithin.trans hn⟩, hd⟩

open Eval in
mutual

theorem fails_stmt (hc : CallsBlame K hK top code calls) (hcode : ∀ d, code.Defines d → K d) :
    (s : Stmt) → code.HasOwnNode (.stmt s) → ∀ m, Underway K hK calls m →
    FailsPlaced K top calls code (stmt (callWithin calls.room) s) m
  | .expr e _, hs, m, hm => .located hs nofun <|
      fails_part hc hs nofun hm (by simp [Node.children]) fun _ _ _ _ => fails_pure _
  | .define x _ value _, hs, m, hm => .located hs nofun <|
      fails_part hc hs nofun hm (by simp [Node.children]) fun _ _ _ _ =>
        (fails_modify _).bind fun _ _ _ => fails_pure _
  | .assign x value _, hs, m, hm => .located hs nofun <|
      fails_part hc hs nofun hm (by simp [Node.children]) fun _ _ _ _ =>
        (fails_modify _).bind fun _ _ _ => fails_pure _
  | .assignIndex target i value _, hs, m, hm => .located hs nofun <|
      fails_part hc hs nofun hm (by simp [Node.children]) fun t n hn _ =>
        fails_part hc hs nofun hn (by simp [Node.children]) fun i k hk _ =>
          fails_part hc hs nofun hk (by simp [Node.children])
            fun v _ _ _ => (failsFresh_onStore (StoreM.failsFresh_assignIndex t i v)).loose.bind
              fun _ _ _ => fails_pure _
  | .delete x _, hs, m, _ => .located hs nofun <|
      (failsFresh_deleteName x).loose.bind fun _ _ _ => fails_pure _
  | .function d span, _, _, _ => fails_function d span
  | .ifThen condition thenBranch _, hs, m, hm => .located hs nofun <|
      fails_part hc hs nofun hm (by simp [Node.children]) fun c n hn _ => .get_bind (by
        split
        · exact (fails_block hc hcode thenBranch
            (fun t ht => hs.child nofun (by simp [Node.children, ht])) n hn).loose
        · exact fails_pure _)
  | .ifElse condition thenBranch elseBranch _, hs, m, hm => .located hs nofun <|
      fails_part hc hs nofun hm (by simp [Node.children]) fun c n hn _ => .get_bind (by
        split
        · exact (fails_block hc hcode thenBranch
            (fun t ht => hs.child nofun (by simp [Node.children, ht])) n hn).loose
        · exact (fails_block hc hcode elseBranch
            (fun t ht => hs.child nofun (by simp [Node.children, ht])) n hn).loose)
  | .forEach first second iterable (.mk body _) _, hs, m, hm => .located hs nofun <|
      fails_part hc hs nofun hm (by simp [Node.children]) fun v n hn hv => .get_bind <|
        (failsFresh_ofExcept (faultsPlain_loopItems _ _ v)).loose.bind fun items k hitems =>
          have ⟨hlisted, hsame⟩ := Eval.ofExcept_eq_ok hitems
          have hown : ∀ t ∈ body, code.HasOwnNode (.stmt t) :=
            fun t ht => hs.child nofun (by simp [Node.children, Block.stmts, ht])
          (fails_rounds (fun t ht => (hown t ht).definesOnly hcode)
            (fun m hm => fails_stmts hc hcode body hown m hm) first second
            (hn.loopItems hv hlisted) (hsame ▸ hn)).loose
  | .giveBack none _, hs, m, _ => .located hs nofun (fails_pure _)
  | .giveBack (some e) _, hs, m, hm => .located hs nofun <|
      fails_part hc hs nofun hm (by simp [Node.children]) fun _ _ _ _ => fails_pure _

theorem fails_stmts (hc : CallsBlame K hK top code calls) (hcode : ∀ d, code.Defines d → K d) :
    (ss : List Stmt) → (∀ s ∈ ss, code.HasOwnNode (.stmt s)) → ∀ m, Underway K hK calls m →
    FailsPlaced K top calls code (stmts (callWithin calls.room) ss) m
  | [], _, _, _ => fails_pure _
  | s :: rest, hss, m, hm =>
    have ⟨hs, hrest⟩ := List.forall_mem_cons.1 hss
    .bind_job hm (Carries.stmt (Carries.call calls.room) s) (hs.definesOnly hcode)
      (fails_stmt hc hcode s hs m hm) fun c n hn _ =>
        match c with
        | .fellThrough => fails_stmts hc hcode rest hrest n hn
        | .returned _ => fails_pure _

theorem fails_block (hc : CallsBlame K hK top code calls) (hcode : ∀ d, code.Defines d → K d) :
    (b : Block) → (∀ s ∈ b.stmts, code.HasOwnNode (.stmt s)) → ∀ m, Underway K hK calls m →
    FailsPlaced K top calls code (block (callWithin calls.room) b) m
  | .mk body _, hss, _, hm => .inBlock (fails_stmts hc hcode body hss _ hm.openBlock)

end

end Tree

/-! ## Calls -/

section Calls

open Eval (callWithin)

variable {K : FunctionDef → Prop} {hK : DefinitionsClosed K} {top code : Block} {calls inner : CallStack}
  {m : Machine}

/-- An error that a call gives before the body begins. -/
theorem fails_unbegun {f : Closure} {args : List Value} {span : Span} {body : Eval Completion}
    {fault : EvalFault} (hcall : Eval.duringCall f args span body m = .error (.ofFault fault) m)
    (hfault : fault.faultClass = .stackOverflow → calls.room = 0) :
    FailsLoose K top calls code (Eval.duringCall f args span body) m := by
  intro e n h
  rw [hcall] at h
  cases h
  exact .inl ⟨⟨rfl, hfault⟩, .inl rfl⟩

/-- An error that leaves a body takes the calls under way with it. -/
theorem fails_begun {f : Closure} {args : List Value} {span : Span} {body : Eval Completion}
    (harity : args.length = f.arity) (hm : m.calls = calls)
    (hpush : calls.push ⟨f.name, some span⟩ = .ok inner)
    (hleads : Leads K top inner.frames f.definition.body) (hbalanced : Eval.Balanced body)
    (hbody : FailsPlaced K top inner f.definition.body body (Eval.entered f args inner m)) :
    FailsLoose K top calls code (Eval.duringCall f args span body) m := by
  intro e n h
  rw [Eval.duringCall_of_push harity (hm ▸ hpush)] at h
  cases hr : body (Eval.entered f args inner m) with
  | ok c k =>
    rw [hr] at h
    cases h
  | error stop k =>
    have hcalls := (hbalanced (Eval.entered f args inner m)).calls
    rw [Eval.after_of_error hr] at hcalls
    rw [hr] at h
    cases stop with
    | endless => cases h
    | error found =>
      cases h
      rw [show k.calls = inner from hcalls]
      exact .inr ((hbody found k hr).attach hpush hleads)

/-- **Calls blame as they should**, with any room. -/
theorem callsBlame (hcode : Leads K top calls.frames code) : CallsBlame K hK top code calls := by
  -- the body of a function is carried out with one level less of room
  obtain ⟨frames, room⟩ := calls
  induction room generalizing frames code with
  | zero =>
    intro f args callee written span m hm hf hargs hnode
    rw [Eval.callWithin_eq]
    by_cases harity : args.length = f.arity
    · -- without room the call fails before anything of the function is carried out
      have hpush : m.calls.push ⟨f.name, some span⟩ = .error (.tooDeep m.calls.limit) := by
        rw [hm.calls]
        rfl
      exact fails_unbegun (Eval.duringCall_of_full harity hpush) fun _ => rfl
    · exact fails_unbegun (Eval.duringCall_of_arity harity) nofun
  | succ room ih =>
    intro f args callee written span m hm hf hargs hnode
    rw [Eval.callWithin_eq, Eval.bodyWithin_succ]
    by_cases harity : args.length = f.arity
    · have hleads : Leads K top (⟨f.name, some span⟩ :: frames) f.definition.body := .call hcode hnode hf
      refine fails_begun harity hm.calls rfl hleads ?_ ?_
      · exact Eval.steady_sameStacks.stmts (Eval.balanced_callWithin room) f.definition.body.stmts
      · exact fails_stmts (ih (⟨f.name, some span⟩ :: frames) hleads) (fun d hd => hK _ d hf hd)
          f.definition.body.stmts (fun s hs => Block.hasOwnNode_of_mem hs) _ (hm.entered hargs)
    · exact fails_unbegun (Eval.duringCall_of_arity harity) nofun

end Calls

end Nikl
