import Nikl.Proofs.Evaluation.Effect
import Nikl.Proofs.Syntax.StatementReading
import Nikl.Proofs.Value.Sameness
import Nikl.Session

/-
Printed data reads back. The text of data is that of an expression (`Data.expr`): it is read as the
tokens of that expression, the tokens are read as the expression, and the expression evaluates to a
value that says the same. The four stages meet in two trees, the data and its expression, so each of
them is followed on its own.
-/

set_option autoImplicit false

namespace Nikl

namespace Data

/-- The expression that data is written as. Negative numbers are signs before literals. -/
def expr : Data → Expr
  | .int n =>
    let literal : Expr := .literal (.int (Int64.ofNat n.toInt.natAbs)) Span.nowhere
    if n.toInt < 0 then .unary .neg literal Span.nowhere else literal
  | .bool b => .literal (.bool b) Span.nowhere
  | .none => .literal .none Span.nowhere
  | .string content => .literal (.string content) Span.nowhere
  | .tuple items => .tuple (items.map expr) Span.nowhere
  | .array items => .array (items.map expr) Span.nowhere
  | .map entries => .map (entries.map fun e => (e.1.expr, e.2.expr)) Span.nowhere
decreasing_by
  all_goals first | exact sizeOf_key_lt ‹_› | exact sizeOf_value_lt ‹_› | decreasing_tactic

/-! ## From the text to the tokens -/

open LexemeKind

theorem int_chars (n : Int) :
    (toString n).toList = (if n < 0 then ['-'] else []) ++ Nat.toDigits 10 n.natAbs := by
  rcases n with n | n
  · show (Nat.repr n).toList = _
    rw [Nat.toList_repr]
    rfl
  · show ("-" ++ Nat.repr (n + 1)).toList = _
    rw [String.toList_append, Nat.toList_repr, if_pos (Int.negSucc_lt_zero n)]
    rfl

/-- The text of data begins with no space. -/
theorem chars_begin (d : Data) : ∃ c cs, d.chars = c :: cs ∧ isSpace c = false := by
  cases d with
  | int n =>
    obtain ⟨c, cs, hcs, hc⟩ := toDigits_begin n.toInt.natAbs
    rw [chars, int_chars, hcs]
    split
    · exact ⟨_, _, rfl, rfl⟩
    · refine ⟨c, cs, rfl, isSpace_eq_false ⟨?_, ?_, ?_, ?_⟩⟩ <;> (rintro rfl; cases hc)
  | bool b => cases b <;> (rw [chars]; exact ⟨_, _, rfl, rfl⟩)
  | _ => rw [chars]; exact ⟨_, _, rfl, rfl⟩

/-- What stands behind a part ends it. -/
theorem apart_some {c : Char} (h : continuesWord c = false ∧ c ≠ '.') : Spells.Apart (some c) := by
  rintro _ ⟨⟩
  exact h

/-- Parts with commas between them, read as their tokens with commas between them. -/
theorem spells_separated {β : Type} (text : β → List Char) (toks : β → List TokenKind)
    (parts : List β) (h : ∀ b ∈ parts, Spells (text b) (toks b) Spells.Apart)
    (hbegin : ∀ b ∈ parts, ∃ c cs, text b = c :: cs ∧ isSpace c = false) :
    Spells (Value.separated (parts.map text)) (Written.separated (parts.map toks)) Spells.Apart := by
  induction parts with
  | nil => exact Spells.nil
  | cons b rest ih =>
    rw [List.forall_mem_cons] at h hbegin
    have hrest := ih h.2 hbegin.2
    cases rest with
    | nil => simpa [Value.separated, Written.separated] using h.1
    | cons b' rest =>
      obtain ⟨c, cs, hb', hc⟩ := hbegin.2 b' List.mem_cons_self
      -- a comma, a space and the next part: the space is all there is of it, since no part begins
      -- with one
      have htext : Value.separated ((b :: b' :: rest).map text) =
          text b ++ (([','] ++ [' ']) ++ Value.separated ((b' :: rest).map text)) := by
        simp [Value.separated, List.intercalate]
      have hhead : (Value.separated ((b' :: rest).map text)).head? = some c := by
        cases rest <;> simp [Value.separated, List.intercalate, hb']
      have hcomma := (Spells.mark (c := ',') (s := .comma) (by decide)).append Spells.space
        fun _ _ => trivial
      have hks : Written.separated ((b :: b' :: rest).map toks) =
          toks b ++ (([TokenKind.symbol .comma] ++ []) ++ Written.separated ((b' :: rest).map toks)) := by
        rw [List.map_cons, List.map_cons, Parser.separated_cons_cons]
        rfl
      rw [htext, hks]
      refine h.1.append (hcomma.append hrest fun next _ => ?_) fun next _ => apart_some (by decide)
      rw [hhead]
      rintro _ ⟨⟩
      exact hc

/-- A text between two delimiters. -/
theorem spells_enclosed {o c : Char} {opener close : Symbol} {text : List Char}
    {ks : List TokenKind} (ho : (o, opener) ∈ Spells.marks) (hc : (c, close) ∈ Spells.marks)
    (hend : continuesWord c = false ∧ c ≠ '.') (h : Spells text ks Spells.Apart)
    {F : Option Char → Prop} :
    Spells (o :: text ++ [c]) (Written.enclosed opener close ks) F := by
  have hclose := (Spells.mark hc).weaken (G := F) fun _ _ => trivial
  exact (Spells.mark ho).append (h.append hclose fun _ _ => apart_some hend) fun _ _ => trivial

/-- Without its sign, an integer that is not the least one can be written as a literal. -/
theorem natAbs_le_maxInt {n : Int64} (hn : n ≠ Int64.minValue) : n.toInt.natAbs ≤ maxInt := by
  have hlow := n.le_toInt
  have hhigh := n.toInt_lt
  have hne : n.toInt ≠ -2 ^ 63 := by
    rw [← Int64.toInt_minValue]
    exact fun h => hn (Int64.toInt_inj.1 h)
  rw [maxInt]
  omega

theorem spells_int {n : Int64} (hn : n ≠ Int64.minValue) :
    Spells (int n).chars (int n).expr.tokens Spells.Apart := by
  have hnumber := Spells.number (natAbs_le_maxInt hn)
  rw [chars, int_chars, expr]
  split
  -- a digit follows the sign, so the sign is not the front of an arrow
  · refine Spells.minus.append hnumber fun next _ => ?_
    obtain ⟨c, cs, hcs, hc⟩ := toDigits_begin n.toInt.natAbs
    rw [hcs]
    rintro _ ⟨⟩ rfl
    cases hc
  · exact hnumber

/-- A reserved word. -/
theorem spells_word {s : String} {k : TokenKind} {c : Char} {cs : List Char}
    (hs : s.toList = c :: cs) (hc : beginsWord c = true)
    (hcs : s.toList.all continuesWord = true) (hk : wordKind s = k) :
    Spells s.toList [k] Spells.Apart := by
  have hword := Spells.word hs hc (List.all_eq_true.1 hcs)
  rwa [String.ofList_toList, hk] at hword

/-- A key and its value. -/
theorem spells_entry {k v : Data} (hk : Spells k.chars k.expr.tokens Spells.Apart)
    (hv : Spells v.chars v.expr.tokens Spells.Apart) :
    Spells (Value.entryText k.chars v.chars) (Expr.entryTokens (k.expr, v.expr)) Spells.Apart := by
  obtain ⟨c, cs, hcs, hc⟩ := v.chars_begin
  have hcolon := (Spells.mark (c := ':') (s := .colon) (by decide)).append Spells.space
    fun _ _ => trivial
  have hrest := hcolon.append hv fun next _ => by
    rw [hcs]
    rintro _ ⟨⟩
    exact hc
  have hentry := hk.append hrest fun _ _ => apart_some (by decide)
  rw [← List.append_assoc] at hentry
  exact hentry

/-- **The text of data is read as the tokens of its expression.** -/
theorem Sound.spells {d : Data} (h : d.Sound) : Spells d.chars d.expr.tokens Spells.Apart := by
  induction d using Data.induct with
  | int n =>
    cases h with
    | int hn => exact spells_int hn
  | bool b =>
    rw [chars, expr]
    cases b
    · exact spells_word (s := "False") rfl rfl rfl rfl
    · exact spells_word (s := "True") rfl rfl rfl rfl
  | none =>
    rw [chars, expr]
    exact spells_word (s := "None") rfl rfl rfl rfl
  | string content =>
    cases h with
    | string h =>
      have hstring := (Spells.string h).weaken (G := Spells.Apart) fun _ _ => trivial
      rw [String.ofList_toList] at hstring
      rw [chars, expr]
      exact hstring
  | tuple items ih =>
    cases h with
    | tuple h =>
      have hitems := spells_separated chars (fun d => d.expr.tokens) items
        (fun d hd => ih d hd (h d hd)) fun d _ => d.chars_begin
      -- the comma behind a single item stands in the text and among the tokens alike
      have hcomma : Spells (if items.length = 1 then [','] else [])
          (if items.length = 1 then [TokenKind.symbol .comma] else []) Spells.Apart := by
        split
        · exact (Spells.mark (by decide)).weaken fun _ _ => trivial
        · exact Spells.nil
      rw [chars, expr, Expr.tokens, Expr.tokensAll_eq, List.map_map, List.length_map, Value.tupleText,
        List.length_map]
      refine spells_enclosed (by decide) (by decide) (by decide) (hitems.append hcomma fun next hn => ?_)
      split
      · exact apart_some (by decide)
      · exact hn
  | array items ih =>
    cases h with
    | array h =>
      have hitems := spells_separated chars (fun d => d.expr.tokens) items
        (fun d hd => ih d hd (h d hd)) fun d _ => d.chars_begin
      rw [chars, expr, Expr.tokens, Expr.tokensAll_eq, List.map_map]
      exact spells_enclosed (by decide) (by decide) (by decide) hitems
  | map entries ihKey ihValue =>
    cases h with
    | map _ hkey hvalue =>
      have hentry : ∀ e ∈ entries, Spells (Value.entryText e.1.chars e.2.chars)
          (Expr.entryTokens (e.1.expr, e.2.expr)) Spells.Apart := fun e he =>
        spells_entry (ihKey e he (hkey e he)) (ihValue e he (hvalue e he))
      have hentries := spells_separated _ _ entries hentry fun e _ => ?_
      · rw [chars, expr, Expr.tokens, Expr.tokensEntries_eq, List.map_map]
        exact spells_enclosed (by decide) (by decide) (by decide) hentries
      · obtain ⟨c, cs, hcs, hc⟩ := e.1.chars_begin
        exact ⟨c, _, by rw [Value.entryText, hcs]; rfl, hc⟩

/-! ## From the tokens to the expression -/

/-- The text of data is a program of one statement, its expression. -/
theorem Sound.programOf {d : Data} (h : d.Sound) :
    ∃ b, programOf (String.ofList d.chars) = .ok b ∧
      ∃ e span, b.stmts = [.expr e span] ∧ e.bare = d.expr.bare := by
  obtain ⟨ts, offset, hkinds, hline, hlex⟩ := h.spells 0 [] nofun
  -- behind the text of the data there is nothing but the end of the program
  have hend : lexFrom offset false [] = .ok [Token.endAt offset false] := by
    rw [lexFrom_eq]
    rfl
  have htokens : lex (String.ofList d.chars) = .ok (ts ++ [Token.endAt offset false]) := by
    rw [lex, String.toList_ofList, ← List.append_nil d.chars, hlex, hend]
    rfl
  obtain ⟨b, hparse, hb⟩ := parse_expressionTokens d.expr (ts ++ [Token.endAt offset false])
    (by rw [List.map_append, hkinds]; rfl)
    (fun t ht => by
      rcases List.mem_append.1 ht with ht | ht
      · exact hline t ht
      · rw [List.mem_singleton.1 ht]
        rfl)
  refine ⟨b, ?_, hb⟩
  rw [Nikl.programOf, tokensOf, htokens]
  show (parse (ts ++ [Token.endAt offset false])).mapError Failure.parse = _
  rw [hparse]
  rfl

/-! ## From the expression to the value -/

end Data

theorem Store.grows_refl (s : Store) : s.Grows s := fun _ _ h => h

theorem Store.Grows.trans {s s' s'' : Store} (h : s.Grows s') (h' : s'.Grows s'') : s.Grows s'' :=
  fun i c hc => h' i c (h i c hc)

/-- A store with one more collection. -/
theorem Store.grows_push (s : Store) (c : Cell) : s.Grows (s.push c) := by
  intro i c' hi
  have hlt : i < s.cells.size := (Array.getElem?_eq_some_iff.1 hi).1
  rw [Store.push, Array.getElem?_push, if_neg (by omega), hi]

theorem Store.push_next (s : Store) (c : Cell) : (s.push c).cells[s.next.index]? = some c := by
  rw [Store.cell_push, if_pos rfl]

/-- Evaluating an expression gives a value that says what some data says, and does nothing but make
collections. -/
def Makes (call : Call) (e : Expr) (d : Data) : Prop :=
  ∀ m : Machine, ∃ v s, Eval.expr call e m = .ok v { m with store := s } ∧ m.store.Grows s ∧
    Describes s d v

section Making

variable {call : Call}

/-- Items are made in turn, and those made first stay what they are. -/
theorem makes_items {es : List Expr} {ds : List Data} (h : List.Forall₂ (Makes call) es ds)
    (m : Machine) :
    ∃ vs s, Eval.exprs call es m = .ok vs { m with store := s } ∧ m.store.Grows s ∧
      List.Forall₂ (Describes s) ds vs := by
  induction h generalizing m with
  | nil => exact ⟨[], m.store, rfl, m.store.grows_refl, .nil⟩
  | cons hhead _ ih =>
    obtain ⟨v, s, heval, hs, hv⟩ := hhead m
    obtain ⟨vs, s', hevals, hs', hvs⟩ := ih { m with store := s }
    refine ⟨v :: vs, s', ?_, hs.trans hs', .cons (hv.grows hs') hvs⟩
    rw [Eval.exprs, Eval.bind_of_ok heval, Eval.bind_of_ok hevals]
    rfl

theorem makes_tuple {es : List Expr} {ds : List Data} (h : List.Forall₂ (Makes call) es ds)
    (span : Span) : Makes call (.tuple es span) (.tuple ds) := by
  intro m
  obtain ⟨vs, s, hevals, hs, hvs⟩ := makes_items h m
  refine ⟨.tuple vs, s, ?_, hs, .tuple hvs⟩
  rw [Eval.expr]
  refine Eval.located_of_ok ?_
  rw [Eval.bind_of_ok hevals]
  rfl

theorem makes_array {es : List Expr} {ds : List Data} (h : List.Forall₂ (Makes call) es ds)
    (span : Span) : Makes call (.array es span) (.array ds) := by
  intro m
  obtain ⟨vs, s, hevals, hs, hvs⟩ := makes_items h m
  have hpush := s.grows_push (.array vs)
  refine ⟨.array s.next, s.push (.array vs), ?_, hs.trans hpush,
    .array (s.push_next _) (forall₂_of_mem hvs fun _ _ _ hv => hv.grows hpush)⟩
  rw [Eval.expr]
  refine Eval.located_of_ok ?_
  rw [Eval.bind_of_ok hevals]
  exact Eval.onStore_of_ok rfl

/-- A key that no entry has is put behind all entries. -/
theorem insert_eq_append {same' : Value → Value → Settled Bool} {key value : Value} {es : Entries}
    (h : ∀ e ∈ es, same' e.1 key = some false) :
    Entries.insert same' key value es = some (none, es ++ [(key, value)]) := by
  induction es with
  | nil => rfl
  | cons e rest ih =>
    rw [List.forall_mem_cons] at h
    rw [Entries.insert, h.1, ih h.2]
    rfl

/-- An entry whose key differs from those before it is added behind them. -/
theorem addEntry_of_differ {ds : List (Data × Data)} {es : Entries} {d : Data} {k v : Value}
    {m : Machine} (hes : List.Forall₂ (DescribesEntry m.store) ds es) (hk : Describes m.store d k)
    (hds : ∀ e ∈ ds, e.1.Sound) (hd : d.Sound) (hdiffer : ∀ e ∈ ds, Data.same e.1 d = false) :
    Eval.addEntry es k v m = .ok (es ++ [(k, v)]) m := by
  have hkeys : ∀ e ∈ es, Value.sameIn m.store e.1 k = some false := by
    intro e he
    obtain ⟨d', hd', hde⟩ := exists_of_forall₂ (List.Forall₂.flip hes) he
    have hequal := (DescribesEntry.key hde).equal? hk (hds d' hd') hd
    rw [hdiffer d' hd'] at hequal
    exact hequal
  have hget : (get : Eval Machine) m = .ok m m := rfl
  rw [Eval.addEntry, Eval.bind_of_ok hget, insert_eq_append hkeys]
  exact Eval.onStore_of_ok rfl

/-- Entries are made and added in turn: those made first stay what they are, and their keys still
differ from the ones made later. -/
theorem makes_entries {es : List (Expr × Expr)} {ds : List (Data × Data)}
    (h : List.Forall₂ (fun e d => Makes call e.1 d.1 ∧ Makes call e.2 d.2) es ds)
    {done : List (Data × Data)} {made : Entries} (m : Machine)
    (hmade : List.Forall₂ (DescribesEntry m.store) done made)
    (hsound : ∀ d ∈ done ++ ds, d.1.Sound)
    (hkeys : (done ++ ds).Pairwise fun d e => Data.same d.1 e.1 = false) :
    ∃ made' s, Eval.mapEntries call made es m = .ok made' { m with store := s } ∧ m.store.Grows s ∧
      List.Forall₂ (DescribesEntry s) (done ++ ds) made' := by
  induction h generalizing done made m with
  | nil =>
    rw [List.append_nil]
    exact ⟨made, m.store, rfl, m.store.grows_refl, hmade⟩
  | @cons e d es ds hhead _ ih =>
    obtain ⟨k, s, hkey, hs, hk⟩ := hhead.1 m
    obtain ⟨v, s', hvalue, hs', hv⟩ := hhead.2 { m with store := s }
    -- making the key and the value may have made collections, but changed none
    have hmade' : List.Forall₂ (DescribesEntry s') done made :=
      forall₂_of_mem hmade fun _ _ _ he => .mk (he.key.grows (hs.trans hs')) (he.value.grows (hs.trans hs'))
    have hdiffer : ∀ d' ∈ done, Data.same d'.1 d.1 = false := fun d' hd' =>
      (List.pairwise_append.1 hkeys).2.2 d' hd' d List.mem_cons_self
    have hadd : Eval.addEntry made k v { m with store := s' } =
        .ok (made ++ [(k, v)]) { m with store := s' } :=
      addEntry_of_differ hmade' (hk.grows hs')
        (fun d' hd' => hsound d' (List.mem_append_left _ hd'))
        (hsound d (List.mem_append_right _ List.mem_cons_self)) hdiffer
    -- from here on the new entry is one of those made before
    rw [List.append_cons] at hsound hkeys ⊢
    have hadded := List.rel_append hmade' (.cons (.mk (hk.grows hs') hv) .nil)
    obtain ⟨made', s'', hrest, hs'', hmade''⟩ := ih { m with store := s' } hadded hsound hkeys
    refine ⟨made', s'', ?_, (hs.trans hs').trans hs'', hmade''⟩
    rw [Eval.mapEntries, Eval.bind_of_ok hkey, Eval.bind_of_ok hvalue, Eval.bind_of_ok hadd]
    exact hrest

theorem makes_map {es : List (Expr × Expr)} {ds : List (Data × Data)}
    (h : List.Forall₂ (fun e d => Makes call e.1 d.1 ∧ Makes call e.2 d.2) es ds)
    (hsound : ∀ d ∈ ds, d.1.Sound) (hkeys : ds.Pairwise fun d e => Data.same d.1 e.1 = false)
    (span : Span) : Makes call (.map es span) (.map ds) := by
  intro m
  have hnone : List.Forall₂ (DescribesEntry m.store) [] [] := .nil
  obtain ⟨made, s, hentries, hs, hmade⟩ := makes_entries h m hnone hsound hkeys
  have hpush := s.grows_push (.map made)
  refine ⟨.map s.next, s.push (.map made), ?_, hs.trans hpush,
    .map (s.push_next _) (forall₂_of_mem hmade fun _ _ _ he =>
      .mk (he.key.grows hpush) (he.value.grows hpush))⟩
  rw [Eval.expr]
  refine Eval.located_of_ok ?_
  rw [Eval.bind_of_ok hentries]
  exact Eval.onStore_of_ok rfl

theorem apply_neg_of_fit {n k : Int64} {s : Store} (h : Arithmetic.fit? (-k.toInt) = some n) :
    UnaryOp.neg.apply (.int k) s = .ok (.int n) s := by
  simp only [UnaryOp.apply, h]
  rfl

/-- A sign before the literal of a negative number gives that number. -/
theorem makes_int {n : Int64} (hn : n ≠ Int64.minValue) {e : Expr}
    (he : e.bare = (Data.int n).expr.bare) : Makes call e (.int n) := by
  have hliteral : (Int64.ofNat n.toInt.natAbs).toInt = n.toInt.natAbs :=
    Int64.toInt_ofNat_of_lt (Nat.lt_succ_of_le (Data.natAbs_le_maxInt hn))
  intro m
  rw [Data.expr] at he
  by_cases hneg : n.toInt < 0
  · rw [if_pos hneg] at he
    obtain ⟨operand, span, rfl, hoperand⟩ := Expr.bare_eq_unary he
    obtain ⟨span', rfl⟩ := Expr.bare_eq_literal hoperand
    -- the sign is applied to the literal, and what it gives is in range again
    have hfit : Arithmetic.fit? (-(Int64.ofNat n.toInt.natAbs).toInt) = some n := by
      have hsame : -(n.toInt.natAbs : Int) = n.toInt := by omega
      rw [hliteral, hsame, Arithmetic.fit?, if_pos ⟨n.minValue_le_toInt, n.toInt_le⟩, Int64.ofInt_toInt]
    refine ⟨.int n, m.store, ?_, m.store.grows_refl, .int n⟩
    have hoperand : Eval.expr call (.literal (.int (Int64.ofNat n.toInt.natAbs)) span') m =
        .ok (.int (Int64.ofNat n.toInt.natAbs)) m := rfl
    rw [Eval.expr]
    refine Eval.located_of_ok ?_
    rw [Eval.bind_of_ok hoperand]
    exact Eval.onStore_of_ok (apply_neg_of_fit hfit)
  · rw [if_neg hneg] at he
    obtain ⟨span, rfl⟩ := Expr.bare_eq_literal he
    have hsame : Int64.ofNat n.toInt.natAbs = n := by
      rw [← Int64.toInt_inj, hliteral]
      omega
    refine ⟨.int n, m.store, ?_, m.store.grows_refl, .int n⟩
    rw [Eval.expr, hsame]
    rfl

/-- **The expression of data makes that data**, wherever in a text it stands. -/
theorem Data.Sound.makes {d : Data} (h : d.Sound) {e : Expr} (he : e.bare = d.expr.bare) :
    Makes call e d := by
  induction d using Data.induct generalizing e with
  | int n =>
    cases h with
    | int hn => exact makes_int hn he
  | bool b =>
    rw [Data.expr] at he
    obtain ⟨span, rfl⟩ := Expr.bare_eq_literal he
    exact fun m => ⟨.bool b, m.store, rfl, m.store.grows_refl, .bool b⟩
  | none =>
    rw [Data.expr] at he
    obtain ⟨span, rfl⟩ := Expr.bare_eq_literal he
    exact fun m => ⟨.none, m.store, rfl, m.store.grows_refl, .none⟩
  | string content =>
    rw [Data.expr] at he
    obtain ⟨span, rfl⟩ := Expr.bare_eq_literal he
    exact fun m => ⟨.string content, m.store, rfl, m.store.grows_refl, .string content⟩
  | tuple items ih =>
    rw [Data.expr, Expr.bare_tuple, List.map_map] at he
    obtain ⟨items', span, rfl, hitems⟩ := Expr.bare_eq_tuple he
    cases h with
    | tuple h => exact makes_tuple (forall₂_of_map_eq hitems fun e d hd => ih d hd (h d hd)) span
  | array items ih =>
    rw [Data.expr, Expr.bare_array, List.map_map] at he
    obtain ⟨items', span, rfl, hitems⟩ := Expr.bare_eq_array he
    cases h with
    | array h => exact makes_array (forall₂_of_map_eq hitems fun e d hd => ih d hd (h d hd)) span
  | map entries ihKey ihValue =>
    rw [Data.expr, Expr.bare_map, List.map_map] at he
    obtain ⟨entries', span, rfl, hentries⟩ := Expr.bare_eq_map he
    cases h with
    | map hkeys hkey hvalue =>
      refine makes_map (forall₂_of_map_eq hentries fun e d hd hed => ?_) hkey hkeys span
      obtain ⟨hk, hv⟩ := Prod.mk.inj hed
      exact ⟨ihKey d hd (hkey d hd) hk, ihValue d hd (hvalue d hd) hv⟩

end Making

/-! ## All four stages -/

/-- **Printed data reads back.** The text of a value that is data is a program of one expression, and
evaluating it succeeds, in any state that holds the value. It changes nothing but the collections, of
which it makes new ones, and gives a value that is equal to the one printed and has the same text. -/
theorem text_reads_back (m : Machine) (call : Call) (v : Value) (h : v.IsData m.store) :
    ∃ program e span, programOf (v.text m.store) = .ok program ∧ program.stmts = [.expr e span] ∧
      ∃ v' s, Eval.expr call e m = .ok v' { m with store := s } ∧
        v'.equal? s v = some true ∧ v'.text s = v.text m.store := by
  obtain ⟨d, hv, hsound⟩ := h.describes
  have htext := hv.text
  obtain ⟨program, hprogram, e, span, hstmts, he⟩ := hsound.programOf
  have hmakes : Makes call e d := hsound.makes he
  obtain ⟨v', s, heval, hs, hv'⟩ := hmakes m
  refine ⟨program, e, span, by rw [htext, hprogram], hstmts, v', s, heval, ?_, ?_⟩
  · rw [hv'.equal? (hv.grows hs) hsound hsound, hsound.same_self]
  · rw [hv'.text, htext]

theorem readable_of_all {text : List Char}
    (h : text.all (fun c => decide (Text.Quoted.Readable c)) = true) :
    ∀ c ∈ text, Text.Quoted.Readable c := fun c hc => of_decide_eq_true (List.all_eq_true.1 h c hc)

/-- A state with collections in collections, one of them held twice. -/
def sharingMachine : Machine :=
  { Machine.ofLimit 1 with
    store := ⟨#[
      .map [(.string "say \"hi\"\n", .tuple [.int (-7)]), (.array ⟨2⟩, .map ⟨1⟩), (.tuple [], .array ⟨2⟩)],
      .map [],
      .array [.none, .bool true, .tuple [.int 0, .string "\\"]]]⟩ }

theorem text_reads_back_sharing :
    (Value.map ⟨0⟩).IsData sharingMachine.store ∧
      ∃ program e span, programOf ((Value.map ⟨0⟩).text sharingMachine.store) = .ok program ∧
        program.stmts = [.expr e span] ∧
        ∃ v s, Eval.expr (Eval.callWithin 1) e sharingMachine =
            .ok v { sharingMachine with store := s } ∧
          v.equal? s (.map ⟨0⟩) = some true ∧
          v.text s = (Value.map ⟨0⟩).text sharingMachine.store := by
  have hitems : (Value.array ⟨2⟩).IsData sharingMachine.store := by
    refine .array rfl ?_
    simp only [List.forall_mem_cons, List.not_mem_nil, false_implies, implies_true, and_true]
    refine ⟨.none, .bool true, .tuple ?_⟩
    simp only [List.forall_mem_cons, List.not_mem_nil, false_implies, implies_true, and_true]
    exact ⟨.int (by decide), .string (readable_of_all rfl)⟩
  have hempty : (Value.map ⟨1⟩).IsData sharingMachine.store := .map rfl .nil nofun nofun
  have hdata : (Value.map ⟨0⟩).IsData sharingMachine.store := by
    refine .map rfl (by decide) ?_ ?_
    · simp only [List.forall_mem_cons, List.not_mem_nil, false_implies, implies_true, and_true]
      exact ⟨.string (readable_of_all rfl), hitems, .tuple nofun⟩
    · simp only [List.forall_mem_cons, List.not_mem_nil, false_implies, implies_true, and_true]
      refine ⟨.tuple ?_, hempty, hitems⟩
      simp only [List.forall_mem_cons, List.not_mem_nil, false_implies, implies_true, and_true]
      exact .int (by decide)
  exact ⟨hdata, text_reads_back sharingMachine (Eval.callWithin 1) (.map ⟨0⟩) hdata⟩

end Nikl
