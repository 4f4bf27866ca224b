import Nikl.Proofs.Syntax.Reading
import Nikl.Syntax.Expression

/-
The reader of expressions gives back every expression that is written. The readers of binary operators
and of calls and indices are loops that join what they read to what stands on the left, while a tree
nests to the left: the innermost operand is read first, and the loop goes on from there. So what is
proved about them is not that they read an expression, but that they get to the point where the whole
expression stands on the left (`ChainLeads`, `SuffixLeads`), whatever the loop reads from then on.

An expression is written without parentheses at its own level and at every looser one, and in
parentheses at every tighter one. Parentheses make a primary form, so the tighter levels come from the
loosest one, and the looser ones from the expression's own (`Leads`).
-/

set_option autoImplicit false

namespace Nikl

open Written

/-! ## Levels and first tokens -/

theorem BinaryOp.level_lt (op : BinaryOp) : op.level < 3 := by cases op <;> decide

theorem Expr.level_le (e : Expr) : e.level ≤ 4 := by
  cases e with
  | binary op _ _ _ =>
    have hop := op.level_lt
    show op.level ≤ 4
    omega
  | _ => simp [Expr.level]

/-- Tokens that an expression may begin with. -/
def TokenKind.beginsExpr : TokenKind → Bool
  | int _ | float _ | string _ | ident _ => true
  | keyword .trueWord | keyword .falseWord | keyword .noneWord => true
  | symbol .leftParen | symbol .leftBracket | symbol .leftBrace => true
  | symbol .minus | symbol .bang => true
  | _ => false

/-- A text in parentheses begins with one, and any other text as it does without them. -/
theorem grouped_begin {needed : Prop} [Decidable needed] {ks : List TokenKind} (behind : List TokenKind)
    (h : ∃ k ks', ks = k :: ks' ∧ k.beginsExpr = true) :
    ∃ k ks', grouped needed ks ++ behind = k :: ks' ∧ k.beginsExpr = true := by
  obtain ⟨k, ks', rfl, hk⟩ := h
  rw [grouped]
  split
  · exact ⟨_, _, rfl, rfl⟩
  · exact ⟨k, _, rfl, hk⟩

theorem Expr.tokens_begin : (e : Expr) → ∃ k ks, e.tokens = k :: ks ∧ k.beginsExpr = true
  | .literal v _ => by
    refine ⟨v.token, [], rfl, ?_⟩
    rcases v with _ | _ | _ | (_ | _) | _ <;> rfl
  | .ident .. | .array .. | .map .. | .tuple .. => ⟨_, _, rfl, rfl⟩
  | .unary op _ _ => by
    refine ⟨op.token, _, rfl, ?_⟩
    cases op <;> rfl
  | .binary _ left _ _ => grouped_begin _ left.tokens_begin
  | .call f _ _ | .index f _ _ => grouped_begin _ f.tokens_begin

theorem Expr.tokens_length_pos (e : Expr) : 0 < e.tokens.length := by
  obtain ⟨k, ks, he, -⟩ := e.tokens_begin
  rw [he]
  exact Nat.succ_pos _

namespace Parser

/-! ## Readers by level -/

/-- The operator a token stands for at a level of binary operators. -/
def opAt : Nat → TokenKind → Option BinaryOp
  | 0 => comparisonOp?
  | 1 => additiveOp?
  | _ => multiplicativeOp?

/-- The reader of expressions that hang together at least so strongly. -/
def readerAt (inner : Parser Expr) : Nat → Parser Expr
  | 0 => comparison inner
  | 1 => additive inner
  | 2 => multiplicative inner
  | 3 => unary inner
  | _ => suffixed inner

theorem readerAt_eq_chain (inner : Parser Expr) {L : Nat} (hL : L < 3) :
    readerAt inner L = chain (opAt L) (readerAt inner (L + 1)) := by
  obtain rfl | rfl | rfl : L = 0 ∨ L = 1 ∨ L = 2 := by omega
  all_goals rfl

/-- Tokens at which an expression of a level has come to its end: none of them makes it go on. -/
structure Stops (L : Nat) (k : TokenKind) : Prop where
  paren : k ≠ .symbol .leftParen
  bracket : k ≠ .symbol .leftBracket
  operator : ∀ L', L ≤ L' → L' < 3 → opAt L' k = none

theorem Stops.mono {L M : Nat} {k : TokenKind} (h : Stops L k) (hLM : L ≤ M) : Stops M k :=
  ⟨h.paren, h.bracket, fun L' hL' => h.operator L' (Nat.le_trans hLM hL')⟩

/-- An operator ends its left operand. -/
theorem stops_operator (op : BinaryOp) : Stops (op.level + 1) op.token := by
  refine ⟨?_, ?_, fun L hL hlt => ?_⟩
  · cases op <;> simp [BinaryOp.token]
  · cases op <;> simp [BinaryOp.token]
  · obtain rfl | rfl | rfl : L = 0 ∨ L = 1 ∨ L = 2 := by omega
    all_goals cases op <;> first | rfl | simp [BinaryOp.level] at hL

theorem opAt_token (op : BinaryOp) : opAt op.level op.token = some op := by cases op <;> rfl

theorem token_ne_eof (op : BinaryOp) : op.token ≠ .eof := by cases op <;> simp [BinaryOp.token]

/-- The marks that stand behind a whole expression. -/
theorem stops_mark {s : Symbol}
    (hs : s ∈ [Symbol.comma, .colon, .semicolon, .assign, .rightParen, .rightBracket, .rightBrace,
      .leftBrace]) : Stops 0 (.symbol s) := by
  simp only [List.mem_cons, List.not_mem_nil, or_false] at hs
  refine ⟨?_, ?_, fun L _ hlt => ?_⟩
  · rintro ⟨⟩
    simp at hs
  · rintro ⟨⟩
    simp at hs
  · obtain rfl | rfl | rfl : L = 0 ∨ L = 1 ∨ L = 2 := by omega
    all_goals rcases hs with rfl | rfl | rfl | rfl | rfl | rfl | rfl | rfl <;> rfl

/-! ## Leading to an expression -/

/-- The reader of a level of binary operators comes to the point where `e` stands on the left. -/
def ChainLeads (inner : Parser Expr) (L : Nat) (ks : List TokenKind) (e : Expr) : Prop :=
  ∀ (ks₂ : List TokenKind) (G : TokenKind → Prop) (R : Expr → Prop),
    (∀ k, G k → Stops (L + 1) (ks₂.headD k)) →
    (∀ e' rounds, e'.bare = e.bare → ks₂.length ≤ rounds.length →
      Reads (chainFrom (opAt L) (readerAt inner (L + 1)) rounds e') ks₂ G R) →
    Reads (readerAt inner L) (ks ++ ks₂) G R

/-- The reader of signs and negations reads `e`. -/
def SignReads (inner : Parser Expr) (ks : List TokenKind) (e : Expr) : Prop :=
  ∀ rounds : List Token, ks.length ≤ rounds.length →
    Reads (unaryFrom inner rounds) ks (Stops 3) (fun e' => e'.bare = e.bare)

/-- The reader of calls and indices comes to the point where `e` is what the next one applies to. -/
structure SuffixLeads (inner : Parser Expr) (ks : List TokenKind) (e : Expr) : Prop where
  begins : ∃ k ks', ks = k :: ks' ∧ unaryOp? k = none
  leads : ∀ (ks₂ : List TokenKind) (G : TokenKind → Prop) (R : Expr → Prop),
    (∀ e' rounds, e'.bare = e.bare → ks₂.length ≤ rounds.length →
      Reads (suffixesFrom inner rounds e') ks₂ G R) →
    Reads (suffixed inner) (ks ++ ks₂) G R

/-- The reader of a level leads to `e`. -/
def Leads (inner : Parser Expr) (ks : List TokenKind) (e : Expr) (L : Nat) : Prop :=
  if L < 3 then ChainLeads inner L ks e
  else if L = 3 then SignReads inner ks e
  else SuffixLeads inner ks e

section Levels

variable {inner : Parser Expr} {ks : List TokenKind} {e : Expr} {L : Nat}

theorem leads_chain (hL : L < 3) : Leads inner ks e L ↔ ChainLeads inner L ks e := by
  rw [Leads, if_pos hL]

theorem leads_three : Leads inner ks e 3 ↔ SignReads inner ks e := Iff.rfl

theorem leads_four : Leads inner ks e 4 ↔ SuffixLeads inner ks e := Iff.rfl

/-- Behind the last operator of a level, the expression is read. -/
theorem ChainLeads.reads (hL : L < 3) (h : ChainLeads inner L ks e) :
    Reads (readerAt inner L) ks (Stops L) (fun e' => e'.bare = e.bare) := by
  have hread := h [] (Stops L) (fun e' => e'.bare = e.bare) (fun k hk => hk.mono (Nat.le_succ L)) ?_
  · rwa [List.append_nil] at hread
  · intro e' rounds he' _
    cases rounds with
    | nil => exact Reads.pure he'
    | cons t rounds =>
      refine Reads.get_nil fun c hc => ?_
      rw [hc.operator L (Nat.le_refl L) hL]
      exact Reads.pure he'

theorem SignReads.reads (h : SignReads inner ks e) :
    Reads (unary inner) ks (Stops 3) (fun e' => e'.bare = e.bare) :=
  Reads.get_rest fun c hlen => h c.rest hlen

/-- Behind the last call or index, the expression is read. -/
theorem SuffixLeads.reads (h : SuffixLeads inner ks e) :
    Reads (suffixed inner) ks (Stops 4) (fun e' => e'.bare = e.bare) := by
  have hread := h.leads [] (Stops 4) (fun e' => e'.bare = e.bare) ?_
  · rwa [List.append_nil] at hread
  · intro e' rounds he' _
    cases rounds with
    | nil => exact Reads.pure he'
    | cons t rounds =>
      -- neither a call nor an index follows, be it on this line or the next
      refine Reads.get_nil fun c hc => ?_
      have hparen : c.check (.symbol .leftParen) = false := by simpa using hc.paren
      have hbracket : c.check (.symbol .leftBracket) = false := by simpa using hc.bracket
      rw [hparen, hbracket]
      split
      · exact Reads.pure he'
      · exact Reads.pure he'

/-- What a level leads to is read at that level. -/
theorem Leads.reads (hL : L ≤ 4) (h : Leads inner ks e L) :
    Reads (readerAt inner L) ks (Stops L) (fun e' => e'.bare = e.bare) := by
  obtain hlt | rfl | rfl : L < 3 ∨ L = 3 ∨ L = 4 := by omega
  · exact ((leads_chain hlt).1 h).reads hlt
  · exact (leads_three.1 h).reads
  · exact (leads_four.1 h).reads

/-- No sign comes before what takes no parentheses. -/
theorem SuffixLeads.signReads (h : SuffixLeads inner ks e) : SignReads inner ks e := by
  have hread : Reads (suffixed inner) ks (Stops 3) (fun e' => e'.bare = e.bare) :=
    h.reads.weaken (fun k hk => hk.mono (by decide)) fun _ he => he
  intro rounds _
  cases rounds with
  | nil => exact hread
  | cons t rounds =>
    obtain ⟨k, ks', hks, hk⟩ := h.begins
    refine Reads.get_cons hks fun c hc _ _ => ?_
    rw [hc, hk]
    exact hread

/-- The first operand of a chain. -/
theorem chainLeads_of_reads (hL : L < 3)
    (h : Reads (readerAt inner (L + 1)) ks (Stops (L + 1)) (fun e' => e'.bare = e.bare)) :
    ChainLeads inner L ks e := by
  intro ks₂ G R hnext hrest
  rw [readerAt_eq_chain inner hL]
  refine h.bind hnext fun e' he' => ?_
  exact Reads.get_rest fun c hlen => hrest e' c.rest he' hlen

/-- What a level leads to, the next looser one does too. -/
theorem Leads.looser (hL : L < 4) (h : Leads inner ks e (L + 1)) : Leads inner ks e L := by
  by_cases hlt : L < 3
  · exact (leads_chain hlt).2 (chainLeads_of_reads hlt (h.reads (by omega)))
  · obtain rfl : L = 3 := by omega
    exact leads_three.2 (leads_four.1 h).signReads

theorem Leads.mono {M : Nat} (hM : M ≤ 4) (h : Leads inner ks e M) (hLM : L ≤ M) :
    Leads inner ks e L := by
  induction M with
  | zero =>
    obtain rfl : L = 0 := by omega
    exact h
  | succ M ih =>
    by_cases heq : L = M + 1
    · exact heq ▸ h
    · exact ih (by omega) (h.looser (by omega)) (by omega)

/-- A primary form stands on the left of the calls and indices behind it. -/
theorem suffixLeads_of_primary (hbegin : ∃ k ks', ks = k :: ks' ∧ unaryOp? k = none)
    (h : Reads (primary inner) ks (fun _ => True) (fun e' => e'.bare = e.bare)) :
    SuffixLeads inner ks e := by
  refine ⟨hbegin, fun ks₂ G R hrest => ?_⟩
  refine h.bind (fun _ _ => trivial) fun e' he' => ?_
  exact Reads.get_rest fun c hlen => hrest e' c.rest he' hlen

end Levels

/-! ## Forms between delimiters -/

/-- `inner` reads every expression of fewer than `n` tokens. -/
def ReadsShort (inner : Parser Expr) (n : Nat) : Prop :=
  ∀ e : Expr, e.tokens.length < n →
    Reads inner e.tokens (Stops 0) (fun e' => e'.bare = e.bare)

/-- A list is as long as each of its items at least. -/
theorem length_le_separated {a : List TokenKind} {parts : List (List TokenKind)} (h : a ∈ parts) :
    a.length ≤ (separated parts).length := by
  induction parts with
  | nil => cases h
  | cons b rest ih =>
    cases rest with
    | nil =>
      obtain rfl : a = b := by simpa using h
      exact Nat.le_of_eq (by rw [separated_singleton])
    | cons c rest =>
      rw [separated_cons_cons, List.length_append, List.length_cons]
      rcases List.mem_cons.1 h with rfl | h
      · omega
      · have hle := ih h
        omega

theorem beginsExpr_ne_eof {k : TokenKind} (hk : k.beginsExpr = true) : k ≠ .eof := by
  rintro rfl
  cases hk

/-- No expression begins with a token that none may begin with. -/
theorem beginsExpr_ne {k k' : TokenKind} (hk : k.beginsExpr = true) (hk' : k'.beginsExpr = false) :
    k ≠ k' := by
  rintro rfl
  rw [hk] at hk'
  cases hk'

section Delimited

variable {inner : Parser Expr} {n : Nat}

/-- A list of short expressions up to the delimiter that closes it. -/
theorem ReadsShort.commaSeparated (short : ReadsShort inner n) {opener : Span}
    {F : TokenKind → Prop} {close : Symbol}
    (hclose : close ∈ [Symbol.rightParen, .rightBracket]) (es : List Expr)
    (hlen : (separated (es.map Expr.tokens)).length < n) :
    Reads (Parser.commaSeparated opener (.symbol close) inner)
      (separated (es.map Expr.tokens) ++ [.symbol close]) F
      (fun r => r.1.map Expr.bare = es.map Expr.bare) := by
  have hstops : ∀ k, k = .symbol .comma ∨ k = .symbol close → Stops 0 k := by
    rintro k (rfl | rfl)
    · exact stops_mark (by decide)
    · refine stops_mark ?_
      simp only [List.mem_cons, List.not_mem_nil, or_false] at hclose
      rcases hclose with rfl | rfl <;> decide
  have hbegins : (TokenKind.symbol close).beginsExpr = false := by
    simp only [List.mem_cons, List.not_mem_nil, or_false] at hclose
    rcases hclose with rfl | rfl <;> rfl
  refine reads_commaSeparated (by rintro rfl; simp at hclose) es (fun e he => ?_) fun e _ => ?_
  · have hle := length_le_separated (List.mem_map_of_mem (f := Expr.tokens) he)
    exact (short e (by omega)).weaken hstops fun _ h => h
  · obtain ⟨k, ks, hks, hk⟩ := e.tokens_begin
    exact ⟨k, ks, hks, beginsExpr_ne hk hbegins, beginsExpr_ne_eof hk⟩

/-- A key and its value. -/
theorem ReadsShort.entry (short : ReadsShort inner n) (kv : Expr × Expr)
    (hlen : (Expr.entryTokens kv).length < n) {F : TokenKind → Prop} (hF : ∀ k, F k → Stops 0 k) :
    Reads (entry inner) (Expr.entryTokens kv) F
      (fun kv' => Expr.bareEntry kv' = Expr.bareEntry kv) := by
  rw [Expr.entryTokens, List.length_append, List.length_cons] at hlen
  refine (short kv.1 (by omega)).bind (fun _ _ => stops_mark (by decide)) fun key hkey => ?_
  refine Reads.expect (by simp) (by simp) fun _ _ => ?_
  refine (short kv.2 (by omega)).bind_last hF fun value hvalue => ?_
  exact Reads.pure (Prod.ext hkey hvalue)

theorem entryTokens_begin (kv : Expr × Expr) :
    ∃ k ks, Expr.entryTokens kv = k :: ks ∧ k.beginsExpr = true := by
  obtain ⟨k, ks, hks, hk⟩ := kv.1.tokens_begin
  exact ⟨k, _, by rw [Expr.entryTokens, hks]; rfl, hk⟩

/-- Short entries up to the brace that closes them. -/
theorem ReadsShort.entries (short : ReadsShort inner n) {opener : Span} {F : TokenKind → Prop}
    (kvs : List (Expr × Expr)) (hlen : (separated (kvs.map Expr.entryTokens)).length < n) :
    Reads (Parser.commaSeparated opener (.symbol .rightBrace) (Parser.entry inner))
      (separated (kvs.map Expr.entryTokens) ++ [.symbol .rightBrace]) F
      (fun r => r.1.map Expr.bareEntry = kvs.map Expr.bareEntry) := by
  have hstops : ∀ k, k = .symbol .comma ∨ k = .symbol .rightBrace → Stops 0 k := by
    rintro k (rfl | rfl) <;> exact stops_mark (by decide)
  refine reads_commaSeparated (by decide) kvs (fun kv hkv => ?_) fun kv _ => ?_
  · have hle := length_le_separated (List.mem_map_of_mem (f := Expr.entryTokens) hkv)
    exact short.entry kv (by omega) hstops
  · obtain ⟨k, ks, hks, hk⟩ := entryTokens_begin kv
    exact ⟨k, ks, hks, beginsExpr_ne hk rfl, beginsExpr_ne_eof hk⟩

/-- A token that is an expression on its own. -/
theorem reads_atom {k : TokenKind} {e : Expr} (hk : k ≠ .eof)
    (hatom : ∀ span, (atom? k span).map Expr.bare = some e.bare) :
    Reads (primary inner) [k] (fun _ => True) (fun e' => e'.bare = e.bare) := by
  refine Reads.get_cons rfl fun c hc _ _ => ?_
  obtain ⟨e', hsome, hbare⟩ := Option.map_eq_some_iff.1 (hatom c.span)
  rw [hc, hsome]
  exact Reads.advance hk fun _ _ => Reads.pure hbare

/-- What begins with a parenthesis. -/
theorem reads_parenOrTuple {ks : List TokenKind} {P : Expr → Prop}
    (h : Reads (parenOrTuple inner) (.symbol .leftParen :: ks) (fun _ => True) P) :
    Reads (primary inner) (.symbol .leftParen :: ks) (fun _ => True) P := by
  refine Reads.get_cons rfl fun c hc _ _ => ?_
  rw [hc]
  exact h

/-- An expression in parentheses. -/
theorem ReadsShort.group (short : ReadsShort inner n) (e : Expr) (hlen : e.tokens.length < n) :
    Reads (primary inner) (enclosed .leftParen .rightParen e.tokens) (fun _ => True)
      (fun e' => e'.bare = e.bare) := by
  obtain ⟨k, ks, hks, hk⟩ := e.tokens_begin
  have hnext : e.tokens ++ [TokenKind.symbol .rightParen] =
      k :: (ks ++ [TokenKind.symbol .rightParen]) := by
    rw [hks]
    rfl
  refine reads_parenOrTuple (Reads.advance (by simp) fun t _ => ?_)
  refine Reads.get_cons hnext fun c hc _ _ => ?_
  -- something stands between the parentheses, so they are not an empty tuple
  have hitem : c.check (.symbol .rightParen) = false := by
    rw [check_symbol, hc]
    exact decide_eq_false (beginsExpr_ne hk rfl)
  rw [hitem]
  refine (short e hlen).bind (fun _ _ => stops_mark (by decide)) fun e' he' => ?_
  refine Reads.eat_other (fun _ _ => rfl) ?_
  refine Reads.expectClosing (by simp) (by simp) fun span => Reads.pure ?_
  rw [Expr.bare_withSpan, he']

/-- Items in parentheses. -/
theorem ReadsShort.tuple (short : ReadsShort inner n) (es : List Expr) (s : Span)
    (hlen : (Expr.tuple es s).tokens.length ≤ n) :
    Reads (primary inner) (Expr.tuple es s).tokens (fun _ => True)
      (fun e' => e'.bare = (Expr.tuple es s).bare) := by
  rw [Expr.tokens, enclosed, Expr.tokensAll_eq] at hlen ⊢
  refine reads_parenOrTuple (Reads.advance (by simp) fun t _ => ?_)
  cases es with
  | nil =>
    refine Reads.get_cons rfl fun c hc _ _ => ?_
    rw [check_symbol, hc]
    exact Reads.advance (by simp) fun _ _ => Reads.pure rfl
  | cons first rest =>
    -- a comma follows the first item, be it the only one or not
    have hitems : separated ((first :: rest).map Expr.tokens) ++
          (if (first :: rest).length = 1 then [TokenKind.symbol .comma] else []) =
        first.tokens ++ .symbol .comma :: separated (rest.map Expr.tokens) := by
      cases rest with
      | nil => simp [separated]
      | cons second rest => simp [separated_cons_cons]
    rw [hitems, List.append_assoc, List.cons_append] at hlen ⊢
    simp only [List.length_cons, List.length_append, List.length_nil] at hlen
    obtain ⟨k, ks, hks, hk⟩ := first.tokens_begin
    refine Reads.get_cons (by rw [hks, List.cons_append]) fun c hc _ _ => ?_
    have hitem : c.check (.symbol .rightParen) = false := by
      rw [check_symbol, hc]
      exact decide_eq_false (beginsExpr_ne hk rfl)
    rw [hitem]
    refine (short first (by omega)).bind (fun _ _ => stops_mark (by decide)) fun e' he' => ?_
    refine Reads.eat (by simp) (by simp) (Reads.within ?_)
    refine (short.commaSeparated (F := fun _ => True) (by decide) rest (by omega)).bind_last
      (fun _ _ => trivial) fun r hr => Reads.pure ?_
    rw [Expr.bare_tuple, Expr.bare_tuple, List.map_cons, List.map_cons, he', hr]

/-- Items in brackets. -/
theorem ReadsShort.array (short : ReadsShort inner n) (es : List Expr) (s : Span)
    (hlen : (Expr.array es s).tokens.length ≤ n) :
    Reads (primary inner) (Expr.array es s).tokens (fun _ => True)
      (fun e' => e'.bare = (Expr.array es s).bare) := by
  rw [Expr.tokens, enclosed, Expr.tokensAll_eq] at hlen ⊢
  simp only [List.length_cons, List.length_append, List.length_nil] at hlen
  refine Reads.get_cons rfl fun c hc _ _ => ?_
  rw [hc]
  refine Reads.within (Reads.advance (by simp) fun t _ => ?_)
  refine (short.commaSeparated (F := fun _ => True) (by decide) es (by omega)).bind_last
    (fun _ _ => trivial) fun r hr => Reads.pure ?_
  rw [Expr.bare_array, Expr.bare_array, hr]

/-- Entries in braces. -/
theorem ReadsShort.map (short : ReadsShort inner n) (kvs : List (Expr × Expr)) (s : Span)
    (hlen : (Expr.map kvs s).tokens.length ≤ n) :
    Reads (primary inner) (Expr.map kvs s).tokens (fun _ => True)
      (fun e' => e'.bare = (Expr.map kvs s).bare) := by
  rw [Expr.tokens, enclosed, Expr.tokensEntries_eq] at hlen ⊢
  simp only [List.length_cons, List.length_append, List.length_nil] at hlen
  refine Reads.get_cons rfl fun c hc _ _ => ?_
  rw [hc]
  refine Reads.within (Reads.advance (by simp) fun t _ => ?_)
  refine (short.entries (F := fun _ => True) kvs (by omega)).bind_last (fun _ _ => trivial) fun r hr =>
    Reads.pure ?_
  rw [Expr.bare_map, Expr.bare_map, hr]

end Delimited

/-! ## Every form of expression -/

section Forms

variable {inner : Parser Expr} {n : Nat}

/-- The operators of a level go on to join their right operands. -/
theorem chainLeads_binary (op : BinaryOp) (left right : Expr) (s : Span)
    (hleft : ChainLeads inner op.level (left.tokensAt op.level) left)
    (hright : Reads (readerAt inner (op.level + 1)) (right.tokensAt (op.level + 1))
      (Stops (op.level + 1)) (fun e => e.bare = right.bare)) :
    ChainLeads inner op.level
      (left.tokensAt op.level ++ op.token :: right.tokensAt (op.level + 1))
      (.binary op left right s) := by
  intro ks₂ G R hnext hrest
  rw [List.append_assoc]
  refine hleft _ G R (fun _ _ => stops_operator op) fun left' rounds hleft' hlen => ?_
  rw [List.cons_append] at hlen ⊢
  cases rounds with
  | nil => simp at hlen
  | cons t rounds =>
    rw [List.length_cons, List.length_append, List.length_cons] at hlen
    refine Reads.get_cons rfl fun c hc _ _ => ?_
    rw [hc, opAt_token]
    refine Reads.advance (token_ne_eof op) fun _ _ => ?_
    -- with its right operand the whole expression stands on the left, and the loop goes on from there
    refine hright.bind hnext fun right' hright' => hrest _ rounds ?_ (by omega)
    rw [Parser.binary, Expr.bare_binary, Expr.bare_binary, hleft', hright']

/-- A sign before an operand. -/
theorem signReads_unary (op : UnaryOp) (operand : Expr) (s : Span)
    (h : SignReads inner (operand.tokensAt 3) operand) :
    SignReads inner (op.token :: operand.tokensAt 3) (.unary op operand s) := by
  intro rounds hlen
  cases rounds with
  | nil => simp at hlen
  | cons t rounds =>
    have hop : unaryOp? op.token = some op := by cases op <;> rfl
    refine Reads.get_cons rfl fun c hc _ _ => ?_
    rw [hc, hop]
    refine Reads.advance (by cases op <;> simp [UnaryOp.token]) fun _ _ => ?_
    refine (h rounds (Nat.le_of_succ_le_succ hlen)).bind_last (fun _ hk => hk) fun operand' ho =>
      Reads.pure ?_
    rw [Expr.bare_unary, Expr.bare_unary, ho]

/-- One more call behind what is called. -/
theorem ReadsShort.suffixLeads_call (short : ReadsShort inner n) (callee : Expr) (args : List Expr)
    (s : Span) (hcallee : SuffixLeads inner (callee.tokensAt 4) callee)
    (hlen : (separated (args.map Expr.tokens)).length < n) :
    SuffixLeads inner
      (callee.tokensAt 4 ++ enclosed .leftParen .rightParen (separated (args.map Expr.tokens)))
      (.call callee args s) := by
  obtain ⟨k, ks, hks, hk⟩ := hcallee.begins
  refine ⟨⟨k, _, by rw [hks, List.cons_append], hk⟩, fun ks₂ G R hrest => ?_⟩
  rw [List.append_assoc]
  refine hcallee.leads _ G R fun callee' rounds hcallee' hrounds => ?_
  rw [enclosed, List.cons_append] at hrounds ⊢
  cases rounds with
  | nil => simp at hrounds
  | cons t rounds =>
    simp only [List.length_cons, List.length_append, List.length_nil] at hrounds
    -- a parenthesis on the same line makes it a call
    refine Reads.get_cons rfl fun c hc hline _ => ?_
    rw [hline, check_symbol, hc]
    have hcall : Reads (Parser.call inner callee')
        (.symbol .leftParen :: (separated (args.map Expr.tokens) ++ [TokenKind.symbol .rightParen]))
        (fun _ => True) (fun e => e.bare = (Expr.call callee args s).bare) := by
      refine Reads.advance (by simp) fun _ _ => ?_
      refine (short.commaSeparated (F := fun _ => True) (by decide) args hlen).bind_last
        (fun _ _ => trivial) fun r hr => Reads.pure ?_
      rw [Expr.bare_call, Expr.bare_call, hcallee', hr]
    exact hcall.within.bind (fun _ _ => trivial) fun e he => hrest e rounds he (by omega)

/-- One more index behind what is indexed. -/
theorem ReadsShort.suffixLeads_index (short : ReadsShort inner n) (target place : Expr) (s : Span)
    (htarget : SuffixLeads inner (target.tokensAt 4) target) (hlen : place.tokens.length < n) :
    SuffixLeads inner (target.tokensAt 4 ++ enclosed .leftBracket .rightBracket place.tokens)
      (.index target place s) := by
  obtain ⟨k, ks, hks, hk⟩ := htarget.begins
  refine ⟨⟨k, _, by rw [hks, List.cons_append], hk⟩, fun ks₂ G R hrest => ?_⟩
  rw [List.append_assoc]
  refine htarget.leads _ G R fun target' rounds htarget' hrounds => ?_
  rw [enclosed, List.cons_append] at hrounds ⊢
  cases rounds with
  | nil => simp at hrounds
  | cons t rounds =>
    simp only [List.length_cons, List.length_append, List.length_nil] at hrounds
    refine Reads.get_cons rfl fun c hc hline _ => ?_
    rw [hline, check_symbol, check_symbol, hc]
    have hindex : Reads (Parser.index inner target')
        (.symbol .leftBracket :: (place.tokens ++ [TokenKind.symbol .rightBracket]))
        (fun _ => True) (fun e => e.bare = (Expr.index target place s).bare) := by
      refine Reads.advance (by simp) fun _ _ => ?_
      refine (short place hlen).bind (fun _ _ => stops_mark (by decide)) fun place' hplace => ?_
      refine Reads.expectClosing (by simp) (by simp) fun _ => Reads.pure ?_
      rw [Expr.bare_index, Expr.bare_index, htarget', hplace]
    exact hindex.within.bind (fun _ _ => trivial) fun e he => hrest e rounds he (by omega)

/-- What an expression's own level leads to, every level does that asks for as few tokens: in
parentheses where it asks for a tighter one. -/
theorem ReadsShort.leads_tokensAt (short : ReadsShort inner n) {e : Expr} {L : Nat} (hL : L ≤ 4)
    (hlen : (e.tokensAt L).length ≤ n)
    (h : e.tokens.length ≤ n → Leads inner e.tokens e e.level) :
    Leads inner (e.tokensAt L) e L := by
  rw [Expr.tokensAt, grouped] at hlen ⊢
  -- in parentheses it is a primary form, which every level leads to
  split at hlen
  · next hweak =>
    rw [if_pos hweak]
    rw [enclosed, List.length_cons, List.length_append] at hlen
    have hgroup := suffixLeads_of_primary ⟨_, _, rfl, rfl⟩ (short.group e (by omega))
    exact (leads_four.2 hgroup).mono (Nat.le_refl 4) hL
  -- without them its own level is no looser than the one that is asked for
  · next hstrong =>
    rw [if_neg hstrong]
    exact (h hlen).mono e.level_le (by omega)

/-- The readers of all levels lead to an expression, where what stands between delimiters is read. -/
theorem ReadsShort.leads (short : ReadsShort inner n) :
    (e : Expr) → e.tokens.length ≤ n → Leads inner e.tokens e e.level
  | .literal v _, _ => by
    have hatom : ∀ span s', (atom? v.token span).map Expr.bare = some (Expr.literal v s').bare := by
      intro span s'
      rcases v with _ | _ | _ | (_ | _) | _ <;> rfl
    have hsign : unaryOp? v.token = none := by rcases v with _ | _ | _ | (_ | _) | _ <;> rfl
    have hend : v.token ≠ .eof := by rcases v with _ | _ | _ | (_ | _) | _ <;> simp [Literal.token]
    exact suffixLeads_of_primary ⟨v.token, [], rfl, hsign⟩ (reads_atom hend fun span => hatom span _)
  | .ident name _, _ =>
    suffixLeads_of_primary ⟨_, _, rfl, rfl⟩ (reads_atom (by simp) fun _ => rfl)
  | .array items s, hlen => suffixLeads_of_primary ⟨_, _, rfl, rfl⟩ (short.array items s hlen)
  | .map entries s, hlen => suffixLeads_of_primary ⟨_, _, rfl, rfl⟩ (short.map entries s hlen)
  | .tuple items s, hlen => suffixLeads_of_primary ⟨_, _, rfl, rfl⟩ (short.tuple items s hlen)
  -- operands outside delimiters are part of the same text, so the recursion goes into them
  | .unary op operand s, hlen => by
    have hoperand := short.leads_tokensAt (e := operand) (L := 3) (by decide)
      (Nat.le_of_succ_le hlen) (short.leads operand)
    exact signReads_unary op operand s hoperand
  | .binary op left right s, hlen => by
    have hop := op.level_lt
    have htokens : (Expr.binary op left right s).tokens =
      left.tokensAt op.level ++ op.token :: right.tokensAt (op.level + 1) := by
      rw [Expr.tokens, Expr.tokensAt, Expr.tokensAt]
      simp only [Nat.lt_succ_iff]
    rw [htokens] at hlen ⊢
    rw [List.length_append, List.length_cons] at hlen
    have hleft := short.leads_tokensAt (e := left) (L := op.level) (by omega) (by omega)
      (short.leads left)
    have hright := short.leads_tokensAt (e := right) (L := op.level + 1) (by omega) (by omega)
      (short.leads right)
    exact (leads_chain hop).2
      (chainLeads_binary op left right s ((leads_chain hop).1 hleft) (hright.reads (by omega)))
  | .call callee args s, hlen => by
    rw [Expr.tokens, Expr.tokensAll_eq] at hlen ⊢
    rw [List.length_append, enclosed, List.length_cons, List.length_append] at hlen
    have hcallee := short.leads_tokensAt (e := callee) (L := 4) (by omega)
      (Nat.le_trans (Nat.le_add_right _ _) hlen) (short.leads callee)
    exact short.suffixLeads_call callee args s hcallee (by omega)
  | .index target place s, hlen => by
    rw [Expr.tokens] at hlen ⊢
    rw [List.length_append, enclosed, List.length_cons, List.length_append] at hlen
    have htarget := short.leads_tokensAt (e := target) (L := 4) (by omega)
      (Nat.le_trans (Nat.le_add_right _ _) hlen) (short.leads target)
    exact short.suffixLeads_index target place s htarget (by omega)

end Forms

/-! ## Expressions -/

/-- **The reader of expressions gives back what is written**: with as many levels of nesting as there
are tokens, it reads the tokens of an expression, and gives that expression up to spans. -/
theorem reads_expressionWithin (depth : List Token) :
    ReadsShort (expressionWithin depth) (depth.length + 1) := by
  induction depth with
  | nil =>
    intro e hlen
    have hpos := e.tokens_length_pos
    rw [List.length_nil] at hlen
    omega
  | cons t depth ih =>
    intro e hlen
    have hleads := (ih.leads e (Nat.le_of_lt_succ hlen)).mono e.level_le (Nat.zero_le e.level)
    exact hleads.reads (Nat.zero_le 4)

theorem reads_expression (e : Expr) :
    Reads expression e.tokens (Stops 0) (fun e' => e'.bare = e.bare) :=
  Reads.get_rest fun c hlen => reads_expressionWithin c.rest e (Nat.lt_succ_of_le hlen)

end Parser
end Nikl
