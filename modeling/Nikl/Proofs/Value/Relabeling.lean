import Nikl.Evaluation.Indexing
import Nikl.Proofs.Syntax.Relabeling
import Nikl.Proofs.Value.Writing

/-
Values with other names and in other places. A function keeps its definition, and with it the names in it
and the places that it was read from; no other value has any. Nothing that is done with values looks at a
place or at more of a name than its text: relabeled values compare as before and make what they made
before, relabeled, and if the other names stand for the same texts, they are written as before.
-/

set_option autoImplicit false

namespace Nikl

/-! ## Values and collections -/

variable {ν μ κ : Type}

/-- The function with its definition relabeled. -/
def Closure.relabel (f : Relabeling ν μ) (c : Closure ν) : Closure μ :=
  ⟨c.id, c.definition.relabel f, c.scope⟩

mutual

/-- The value with the functions in it relabeled. -/
def Value.relabel (f : Relabeling ν μ) : Value ν → Value μ
  | .int n => .int n
  | .float x => .float x
  | .bool b => .bool b
  | .string content => .string content
  | .array r => .array r
  | .map r => .map r
  | .tuple items => .tuple (Value.relabelAll f items)
  | .function c => .function (c.relabel f)
  | .builtin b => .builtin b
  | .none => .none
termination_by structural v => v

def Value.relabelAll (f : Relabeling ν μ) : List (Value ν) → List (Value μ)
  | [] => []
  | v :: rest => v.relabel f :: Value.relabelAll f rest
termination_by structural vs => vs

end

/-- The entries, relabeled. -/
def Entries.relabel (f : Relabeling ν μ) (es : Entries ν) : Entries μ :=
  es.map fun e => (e.1.relabel f, e.2.relabel f)

def Cell.relabel (f : Relabeling ν μ) : Cell ν → Cell μ
  | array items => array (items.map (·.relabel f))
  | map es => map (es.relabel f)

/-- The collections, relabeled. -/
def Store.relabel (f : Relabeling ν μ) (s : Store ν) : Store μ := ⟨s.cells.map (·.relabel f)⟩

def LoopItem.relabel (f : Relabeling ν μ) (item : LoopItem ν) : LoopItem μ :=
  ⟨item.first.relabel f, item.second.map (·.relabel f)⟩

section

variable (f : Relabeling ν μ)

@[simp] theorem FunctionDef.name_relabel (d : FunctionDef ν) : (d.relabel f).name = f.name d.name := by
  cases d
  rfl

@[simp] theorem FunctionDef.params_relabel (d : FunctionDef ν) :
    (d.relabel f).params = d.params.map (·.relabel f) := by
  cases d
  rfl

@[simp] theorem FunctionDef.body_relabel (d : FunctionDef ν) : (d.relabel f).body = d.body.relabel f := by
  cases d
  rfl

@[simp] theorem Block.stmts_relabel (b : Block ν) : (b.relabel f).stmts = b.stmts.map (·.relabel f) := by
  cases b
  exact Stmt.relabelAll_eq f _

@[simp] theorem Closure.arity_relabel (c : Closure ν) : (c.relabel f).arity = c.arity := by
  show (c.definition.relabel f).params.length = c.definition.params.length
  rw [FunctionDef.params_relabel, List.length_map]

@[simp] theorem Value.relabel_tuple (items : List (Value ν)) :
    (Value.tuple items).relabel f = .tuple (items.map (·.relabel f)) := by
  have hall : ∀ vs : List (Value ν), Value.relabelAll f vs = vs.map (·.relabel f) := by
    intro vs
    induction vs with
    | nil => rfl
    | cons v rest ih => rw [Value.relabelAll, ih, List.map_cons]
  exact congrArg Value.tuple (hall items)

@[simp] theorem Value.kind_relabel (v : Value ν) : (v.relabel f).kind = v.kind := by
  cases v <;> rfl

theorem Value.letters_relabel (content : String) :
    (letters content).map (·.relabel f) = letters content := by
  rw [letters, letters, List.map_map]
  rfl

/-! ## What is read from the store -/

namespace Store

variable (s : Store ν)

@[simp] theorem size_relabel : (s.relabel f).size = s.size := Array.size_map

@[simp] theorem next_relabel : (s.relabel f).next = s.next := congrArg Ref.mk (s.size_relabel f)

theorem cell_relabel (i : Nat) : (s.relabel f).cells[i]? = s.cells[i]?.map (·.relabel f) :=
  Array.getElem?_map

@[simp] theorem items_relabel (r : Ref) : (s.relabel f).items r = (s.items r).map (·.relabel f) := by
  rw [items, items, cell_relabel]
  rcases s.cells[r.index]? with _ | _ | _ <;> rfl

@[simp] theorem entries_relabel (r : Ref) : (s.relabel f).entries r = (s.entries r).relabel f := by
  rw [entries, entries, cell_relabel]
  rcases s.cells[r.index]? with _ | _ | _ <;> rfl

theorem push_relabel (c : Cell ν) : (s.push c).relabel f = (s.relabel f).push (c.relabel f) :=
  congrArg Store.mk Array.map_push

theorem put_relabel (r : Ref) (c : Cell ν) :
    (s.put r c).relabel f = (s.relabel f).put r (c.relabel f) :=
  congrArg Store.mk (Array.map_setIfInBounds ..)

end Store

namespace Value

variable (s : Store ν) (v : Value ν)

theorem length?_relabel : (v.relabel f).length? (s.relabel f) = v.length? s := by
  cases v with
  | tuple items => simp [length?]
  | array r => simp [length?, relabel]
  | map r => simp [length?, relabel, Entries.relabel]
  | _ => rfl

theorem isTruthy_relabel : (v.relabel f).isTruthy (s.relabel f) = v.isTruthy s := by
  cases v with
  | tuple items => simp [isTruthy]
  | array r => simp [isTruthy, relabel]
  | map r => simp [isTruthy, relabel, Entries.relabel]
  | _ => rfl

end Value

/-! ## Comparing -/

section Comparing

variable {f} {same : Value ν → Value ν → Settled Bool} {same' : Value μ → Value μ → Settled Bool}

theorem itemsEqual_relabel {vs : List (Value ν)}
    (h : ∀ v ∈ vs, ∀ w, same' (v.relabel f) (w.relabel f) = same v w) (ws : List (Value ν)) :
    itemsEqual same' (vs.map (·.relabel f)) (ws.map (·.relabel f)) = itemsEqual same vs ws := by
  have hgo : itemsEqual.go same' (vs.map (·.relabel f)) (ws.map (·.relabel f)) =
      itemsEqual.go same vs ws := by
    induction vs generalizing ws with
    | nil => rfl
    | cons v vs ih =>
      cases ws with
      | nil => rfl
      | cons w ws =>
        obtain ⟨hv, hvs⟩ := List.forall_mem_cons.1 h
        rw [List.map_cons, List.map_cons, go_cons_cons, go_cons_cons, hv, ih hvs]
  rw [itemsEqual, itemsEqual, List.length_map, List.length_map, hgo]

variable (h : ∀ v w, same' (v.relabel f) (w.relabel f) = same v w)

include h

theorem Entries.get?_relabel (key : Value ν) (es : Entries ν) :
    (es.relabel f).get? same' (key.relabel f) = (es.get? same key).map (Option.map (·.relabel f)) := by
  induction es with
  | nil => rfl
  | cons e es ih =>
    show Entries.get? same' _ ((e.1.relabel f, e.2.relabel f) :: Entries.relabel f es) = _
    rw [get?_cons, get?_cons, h, ih]
    rcases same e.1 key with _ | _ | _ <;> rfl

theorem Entries.position?_relabel (key : Value ν) (es : Entries ν) :
    (es.relabel f).position? same' (key.relabel f) = es.position? same key := by
  induction es with
  | nil => rfl
  | cons e es ih =>
    show (same' (e.1.relabel f) (key.relabel f)).bind (fun found => if found then some (some 0)
      else (Entries.position? same' (key.relabel f) (Entries.relabel f es)).bind fun place =>
        some (place.map (· + 1))) = _
    rw [h, ih]
    rfl

theorem Entries.insert_relabel (key value : Value ν) (es : Entries ν) :
    (es.relabel f).insert same' (key.relabel f) (value.relabel f) =
      (es.insert same key value).map fun written =>
        (written.1.map (·.relabel f), Entries.relabel f written.2) := by
  induction es with
  | nil => rfl
  | cons e es ih =>
    show (same' (e.1.relabel f) (key.relabel f)).bind (fun found => if found then
        some (some (e.2.relabel f), (e.1.relabel f, value.relabel f) :: Entries.relabel f es)
      else (Entries.insert same' (key.relabel f) (value.relabel f) (Entries.relabel f es)).bind
        fun written => some (written.1, (e.1.relabel f, e.2.relabel f) :: written.2)) =
      ((same e.1 key).bind fun found => if found then some (some e.2, (e.1, value) :: es)
        else (Entries.insert same key value es).bind fun written => some (written.1, e :: written.2)).map _
    rw [h, ih]
    rcases same e.1 key with _ | _ | _
    · rfl
    · rcases Entries.insert same key value es with _ | _ <;> rfl
    · rfl

theorem Entries.includes_relabel (es rest : Entries ν) :
    (es.relabel f).includes same' (rest.relabel f) = es.includes same rest := by
  induction rest with
  | nil => rfl
  | cons e rest ih =>
    show Entries.includes same' _ ((e.1.relabel f, e.2.relabel f) :: Entries.relabel f rest) = _
    rw [includes_cons, includes_cons, Entries.get?_relabel h]
    rcases es.get? same e.1 with _ | _ | x
    · rfl
    · rfl
    · show (same' (x.relabel f) (e.2.relabel f)).bind _ = (same x e.2).bind _
      rw [h, ih]

theorem Value.equalWith_relabel (s : Store ν) (v w : Value ν) :
    equalWith (s.relabel f) same' (v.relabel f) (w.relabel f) = equalWith s same v w := by
  induction v using inductTuple generalizing w with
  | tuple items ih =>
    cases w with
    | tuple items' =>
      rw [relabel_tuple, relabel_tuple, equalWith_tuple, equalWith_tuple, itemsEqual_relabel ih]
    | _ =>
      rw [relabel_tuple]
      rfl
  | other v hv =>
    cases v with
    | tuple items => exact absurd rfl (hv items)
    | array r =>
      cases w with
      | array q =>
        show (if r = q then _ else itemsEqual same' _ _) = if r = q then _ else itemsEqual same _ _
        rw [Store.items_relabel, Store.items_relabel, itemsEqual_relabel fun v _ => h v]
      | tuple items =>
        rw [relabel_tuple]
        rfl
      | _ => rfl
    | map r =>
      cases w with
      | map q =>
        show (if r = q then _ else entriesEqual same' _ _) = if r = q then _ else entriesEqual same _ _
        rw [Store.entries_relabel, Store.entries_relabel, entriesEqual, entriesEqual,
          Entries.includes_relabel h, Entries.relabel, Entries.relabel, List.length_map,
          List.length_map]
      | tuple items =>
        rw [relabel_tuple]
        rfl
      | _ => rfl
    | _ =>
      cases w with
      | tuple items =>
        rw [relabel_tuple]
        rfl
      | _ => rfl

end Comparing

namespace Value

/-- **Values in other places compare as they did.** -/
theorem equal?_relabel (s : Store ν) (v w : Value ν) :
    (v.relabel f).equal? (s.relabel f) (w.relabel f) = v.equal? s w := by
  have hwithin : ∀ (n : Nat) (v w : Value ν),
      (v.relabel f).equalWithin (s.relabel f) n (w.relabel f) = v.equalWithin s n w := by
    intro n
    induction n with
    | zero => exact equalWith_relabel (fun _ _ => rfl) s
    | succ n ih => exact equalWith_relabel ih s
  rw [equal?, equal?, Store.size_relabel, hwithin]

theorem sameIn_relabel (s : Store ν) (v w : Value ν) :
    sameIn (s.relabel f) (v.relabel f) (w.relabel f) = sameIn s v w := equal?_relabel f s v w

end Value

/-! ## Operators and items -/

theorem Entries.replaceAt_relabel (place : Nat) (value : Value ν) (es : Entries ν) :
    ((es.relabel f).replaceAt place (value.relabel f)).2 =
      Entries.relabel f (es.replaceAt place value).2 := by
  induction es generalizing place with
  | nil => cases place <;> rfl
  | cons e es ih =>
    cases place with
    | zero => rfl
    | succ place => exact congrArg ((e.1.relabel f, e.2.relabel f) :: ·) (ih place)

theorem Entries.append_relabel (key value : Value ν) (es : Entries ν) :
    (es.relabel f).append (key.relabel f) (value.relabel f) =
      Entries.relabel f (es.append key value) := by
  rw [append, append, relabel, relabel, List.map_append]
  rfl

namespace BinaryOp

variable (op : BinaryOp)

theorem checked_relabel (operation : Arithmetic) (n : Option Int64) :
    checked operation n = (checked operation n).map (Value.relabel f) := by
  cases n <;> rfl

theorem onInts_relabel (a b : Int64) : op.onInts a b = (op.onInts a b).map (Value.relabel f) := by
  cases op with
  | add => exact checked_relabel f ..
  | sub => exact checked_relabel f ..
  | mul => exact checked_relabel f ..
  | div =>
    show (if b = 0 then _ else _) = Except.map _ (if b = 0 then _ else _)
    split
    · rfl
    · exact checked_relabel f ..
  | mod =>
    show (if b = 0 then _ else _) = Except.map _ (if b = 0 then _ else _)
    split
    · rfl
    · exact checked_relabel f ..
  | _ => rfl

theorem onFloats_relabel (a b : Float) :
    op.onFloats a b = (op.onFloats a b).map (Value.relabel f) := by
  cases op with
  | div =>
    show (if b == 0 then _ else _) = Except.map _ (if b == 0 then _ else _)
    split <;> rfl
  | mod =>
    show (if b == 0 then _ else _) = Except.map _ (if b == 0 then _ else _)
    split <;> rfl
  | _ => rfl

theorem onStrings_relabel (a b : String) :
    op.onStrings a b = (op.onStrings a b).map (Value.relabel f) := by
  rw [onStrings, onStrings, apply_ite (Except.map _), apply_ite (Except.map _)]
  rfl

/-- What an operator makes of two scalars has no names and no places. -/
theorem onScalars_relabel (l r : Value ν) :
    op.onScalars (l.relabel f) (r.relabel f) = (op.onScalars l r).map (Value.relabel f) := by
  cases l with
  | tuple items =>
    rw [Value.relabel_tuple]
    show Except.error (op.mismatch .tuple (r.relabel f).kind) = Except.error (op.mismatch .tuple r.kind)
    rw [Value.kind_relabel]
  | function c =>
    show Except.error (op.mismatch .function (r.relabel f).kind) =
      Except.error (op.mismatch .function r.kind)
    rw [Value.kind_relabel]
  | int a =>
    cases r with
    | int b => exact onInts_relabel f op a b
    | float b => exact onFloats_relabel f op a.toFloat b
    | _ => rfl
  | float a =>
    cases r with
    | int b => exact onFloats_relabel f op a b.toFloat
    | float b => exact onFloats_relabel f op a b
    | _ => rfl
  | string a =>
    cases r with
    | string b => exact onStrings_relabel f op a b
    | _ => rfl
  | _ => cases r <;> rfl

end BinaryOp

theorem BinaryOp.joined?_relabel (op : BinaryOp) (l r : Value ν) :
    op.joined? (l.relabel f) (r.relabel f) = op.joined? l r := by
  cases l with
  | array q =>
    cases r with
    | tuple items =>
      rw [Value.relabel_tuple]
      rfl
    | _ => rfl
  | tuple items =>
    rw [Value.relabel_tuple]
    rfl
  | _ => rfl

theorem Value.pair?_relabel (s : Store ν) (v : Value ν) :
    (v.relabel f).pair? (s.relabel f) = (v.pair? s).map (·.relabel f) := by
  cases v with
  | tuple items =>
    rw [relabel_tuple]
    rcases items with _ | ⟨a, _ | ⟨b, _ | ⟨c, rest⟩⟩⟩
    · rfl
    · rfl
    · rfl
    · show Except.error (EvalFault.cannotUnpack .tuple
        (some ((a :: b :: c :: rest).map (·.relabel f)).length)) = _
      rw [List.length_map]
      rfl
  | array r =>
    have hr : (array r).relabel f = array r := rfl
    rw [hr, pair?, pair?, Store.items_relabel]
    rcases s.items r with _ | ⟨a, _ | ⟨b, _ | ⟨c, rest⟩⟩⟩
    · rfl
    · rfl
    · rfl
    · show Except.error (EvalFault.cannotUnpack .array
        (some ((a :: b :: c :: rest).map (·.relabel f)).length)) = _
      rw [List.length_map]
      rfl
  | _ => rfl

/-- **A loop over a value in another place goes through the same items in other places.** -/
theorem Value.mapM_pair?_relabel (s : Store ν) (vs : List (Value ν)) :
    (vs.map (·.relabel f)).mapM (pair? (s.relabel f)) = (vs.mapM (pair? s)).map (List.map (·.relabel f)) := by
  induction vs with
  | nil => rfl
  | cons v vs ih =>
    rw [List.map_cons, List.mapM_cons, List.mapM_cons, pair?_relabel, ih]
    rcases v.pair? s with _ | item
    · rfl
    · rcases vs.mapM (pair? s) with _ | items <;> rfl

theorem Value.loopItems_relabel (s : Store ν) (pairs : Bool) (v : Value ν) :
    (v.relabel f).loopItems (s.relabel f) pairs =
      (v.loopItems s pairs).map (List.map (·.relabel f)) := by
  have heach : ∀ vs : List (Value ν),
      (if pairs then (vs.map (·.relabel f)).mapM (pair? (s.relabel f))
        else .ok ((vs.map (·.relabel f)).map fun v => ⟨v, Option.none⟩)) =
      Except.map (List.map (LoopItem.relabel f))
        (if pairs then vs.mapM (pair? s) else .ok (vs.map fun v => ⟨v, Option.none⟩)) := by
    intro vs
    cases pairs with
    | true => exact mapM_pair?_relabel f s vs
    | false =>
      show Except.ok _ = Except.ok _
      rw [List.map_map, List.map_map]
      rfl
  cases v with
  | map r =>
    show Except.ok _ = Except.ok _
    rw [Store.entries_relabel, Entries.relabel, List.map_map, List.map_map]
    cases pairs <;> rfl
  | array r =>
    show (if pairs then ((s.relabel f).items r).mapM _ else _) = _
    rw [Store.items_relabel]
    exact heach (s.items r)
  | tuple items =>
    rw [relabel_tuple]
    exact heach items
  | string content =>
    have hletters := heach (letters content)
    rw [letters_relabel] at hletters
    exact hletters
  | _ => rfl

/-! ## Texts

Other names that stand for the same texts are written as before. -/

section Texts

variable [Naming ν] [Naming μ] {f} (hf : f.KeepsText)

include hf

theorem Closure.name_relabel (c : Closure ν) : (c.relabel f).name = c.name := by
  show Naming.text (c.definition.relabel f).name = _
  rw [FunctionDef.name_relabel, hf]
  rfl

/-- A literal stands for the same value, whatever names are. -/
theorem Value.ofLiteral_rename (l : Literal ν) :
    ofLiteral (l.rename f.name) = (ofLiteral l).relabel f := by
  cases l with
  | string x => exact congrArg Value.string (hf x)
  | _ => rfl

namespace Value

theorem textWith_relabel {inner : List Ref → Value ν → List Char} {inner' : List Ref → Value μ → List Char}
    (h : ∀ opened v, inner' opened (v.relabel f) = inner opened v) (s : Store ν) (opened : List Ref)
    (v : Value ν) : textWith (s.relabel f) inner' opened (v.relabel f) = textWith s inner opened v := by
  induction v using inductTuple with
  | tuple items ih =>
    rw [relabel_tuple, textWith_tuple, textWith_tuple, List.map_map]
    exact congrArg tupleText (List.map_congr_left ih)
  | other v hv =>
    cases v with
    | tuple items => exact absurd rfl (hv items)
    | array r =>
      show textWith (s.relabel f) inner' opened (.array r) = _
      by_cases hr : r ∈ opened
      · rw [textWith_array_opened _ _ hr, textWith_array_opened _ _ hr]
      · have hitems : ((s.relabel f).items r).map (inner' (r :: opened)) =
            (s.items r).map (inner (r :: opened)) := by
          rw [Store.items_relabel, List.map_map]
          exact List.map_congr_left fun v _ => h (r :: opened) v
        rw [textWith_array _ _ hr, textWith_array _ _ hr, hitems]
    | map r =>
      show textWith (s.relabel f) inner' opened (.map r) = _
      by_cases hr : r ∈ opened
      · rw [textWith_map_opened _ _ hr, textWith_map_opened _ _ hr]
      · have hentries : (((s.relabel f).entries r).map fun e =>
            entryText (inner' (r :: opened) e.1) (inner' (r :: opened) e.2)) =
            (s.entries r).map fun e => entryText (inner (r :: opened) e.1) (inner (r :: opened) e.2) := by
          rw [Store.entries_relabel, Entries.relabel, List.map_map]
          refine List.map_congr_left fun e _ => ?_
          show entryText (inner' _ (e.1.relabel f)) (inner' _ (e.2.relabel f)) = _
          rw [h, h]
        rw [textWith_map _ _ hr, textWith_map _ _ hr, hentries]
    | function c =>
      show "<fn ".toList ++ (c.relabel f).name.toList ++ ['>'] = _
      rw [Closure.name_relabel hf]
      rfl
    | _ => rfl

/-- **Values in other places and with other names for the same texts are written as they were.** -/
theorem chars_relabel (s : Store ν) (opened : List Ref) (v : Value ν) :
    (v.relabel f).chars (s.relabel f) opened = v.chars s opened := by
  have hwithin : ∀ (n : Nat) (opened : List Ref) (v : Value ν),
      (v.relabel f).textWithin (s.relabel f) n opened = v.textWithin s n opened := by
    intro n
    induction n with
    | zero => exact textWith_relabel hf (fun _ _ => rfl) s
    | succ n ih => exact textWith_relabel hf ih s
  rw [chars, chars, Store.size_relabel, hwithin]

theorem text_relabel (s : Store ν) (v : Value ν) : (v.relabel f).text (s.relabel f) = v.text s :=
  congrArg String.ofList (chars_relabel hf s [] v)

theorem printed_relabel (s : Store ν) (v : Value ν) : (v.relabel f).printed (s.relabel f) = v.printed s := by
  cases v with
  | string content => rfl
  | tuple items =>
    have htext := text_relabel hf s (.tuple items)
    rw [relabel_tuple] at htext ⊢
    exact htext
  | _ => exact text_relabel hf s _

end Value

/-- What a built-in function does with values does not depend on names and places. -/
theorem Builtin.apply_relabel (s : Store ν) (b : Builtin) (args : List (Value ν)) :
    b.apply (s.relabel f) (args.map (·.relabel f)) =
      (b.apply s args).map fun given => (given.1, given.2.relabel f) := by
  cases b with
  | print =>
    have hprinted : (args.map (·.relabel f)).map (Value.printed (s.relabel f)) =
        args.map (Value.printed s) := by
      rw [List.map_map]
      exact List.map_congr_left fun v _ => Value.printed_relabel hf s v
    exact congrArg (fun texts => Except.ok (String.intercalate " " texts ++ "\n", Value.none)) hprinted
  | len =>
    rcases args with _ | ⟨v, _ | ⟨w, rest⟩⟩
    · rfl
    · rw [List.map_cons, List.map_nil, Builtin.apply, Builtin.apply, Value.length?_relabel,
        Value.kind_relabel]
      cases v.length? s <;> rfl
    · show Except.error (EvalFault.wrongArity _ 1 (((v :: w :: rest).map (·.relabel f)).length)) = _
      rw [List.length_map]
      rfl

end Texts

end

/-! ## Two relabelings in turn -/

section

variable (q : Relabeling ν μ) (r : Relabeling μ κ)

theorem Closure.relabel_trans (c : Closure ν) : c.relabel (q.trans r) = (c.relabel q).relabel r :=
  congrArg (Closure.mk c.id · c.scope) (c.definition.relabel_trans q r)

theorem Value.relabel_trans (v : Value ν) : v.relabel (q.trans r) = (v.relabel q).relabel r := by
  induction v using inductTuple with
  | tuple items ih =>
    rw [relabel_tuple, relabel_tuple, relabel_tuple, List.map_map]
    exact congrArg Value.tuple (List.map_congr_left ih)
  | other v hv =>
    cases v with
    | tuple items => exact absurd rfl (hv items)
    | function c => exact congrArg Value.function (c.relabel_trans q r)
    | _ => rfl

theorem Cell.relabel_trans (c : Cell ν) : c.relabel (q.trans r) = (c.relabel q).relabel r := by
  cases c with
  | array items =>
    show array _ = array ((items.map _).map _)
    rw [List.map_map]
    exact congrArg array (List.map_congr_left fun v _ => v.relabel_trans q r)
  | map es =>
    show map (List.map _ es) = map (List.map _ (List.map _ es))
    rw [List.map_map]
    refine congrArg map (List.map_congr_left fun e _ => ?_)
    exact congrArg₂ Prod.mk (e.1.relabel_trans q r) (e.2.relabel_trans q r)

theorem Store.relabel_trans (s : Store ν) : s.relabel (q.trans r) = (s.relabel q).relabel r := by
  refine congrArg Store.mk ?_
  show _ = (s.cells.map _).map _
  rw [Array.map_map]
  exact Array.map_congr_left fun c _ => c.relabel_trans q r

end

end Nikl
