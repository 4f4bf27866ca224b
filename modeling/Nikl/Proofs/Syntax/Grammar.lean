import Nikl.Proofs.Syntax.ExpressionReading
import Nikl.Syntax.Statement

/-
The grammar of the language, as relations between tokens and the trees that they make. They say with
which tokens a tree is written and which bytes its nodes cover, and nothing of how it is read: lists
are lists and not loops, and a chain of operators nests to the left by itself.

Where an expression ends is nowhere said in the grammar of expressions: the tokens of an expression are
one, whatever stands behind them. Statements have no mark at their end, so what follows a statement
must not go on with it, and each statement is related to the token behind it as well as to its own.
-/

set_option autoImplicit false

namespace Nikl

open Nikl.Parser

/-! ## Lists -/

/-- The tokens of parts with a comma between any two of them. A comma may stand behind the last. -/
inductive Listed {α : Type} : List (List Token × α) → List Token → Prop where
  | nil : Listed [] []
  | last (part : List Token × α) : Listed [part] part.1
  | cons {parts : List (List Token × α)} {ts : List Token} {comma : Token} (part : List Token × α)
    (hcomma : comma.kind = .symbol .comma) :
    Listed parts ts → Listed (part :: parts) (part.1 ++ comma :: ts)

/-! ## Expressions -/

/-- A key, a colon and a value. -/
structure EntryPart where
  key : List Token × Expr
  colon : Token
  value : List Token × Expr

/-- An entry with all its tokens. -/
def EntryPart.whole (p : EntryPart) : List Token × (Expr × Expr) :=
  (p.key.1 ++ p.colon :: p.value.1, (p.key.2, p.value.2))

/-- Tokens that make an expression which hangs together at least as strongly as a level asks: the
levels of binary operators are 0 to 2, that of signs is 3, that of calls and indices 4, and 5 that of
the primary forms. -/
inductive IsExpr : Nat → List Token → Expr → Prop where
  | atom {t : Token} {e : Expr} (h : atom? t.kind t.span = some e) : IsExpr 5 [t] e
  /-- Parentheses leave an expression as it is, but it covers them. -/
  | group {opening closing : Token} {ts : List Token} {e : Expr}
    (hopening : opening.kind = .symbol .leftParen) (hclosing : closing.kind = .symbol .rightParen)
    (h : IsExpr 0 ts e) :
    IsExpr 5 (opening :: (ts ++ [closing])) (e.withSpan (opening.span.merge closing.span))
  | unit {opening closing : Token} (hopening : opening.kind = .symbol .leftParen)
    (hclosing : closing.kind = .symbol .rightParen) :
    IsExpr 5 [opening, closing] (.tuple [] (opening.span.merge closing.span))
  | tuple {opening comma closing : Token} {ts ts' : List Token} {first : Expr}
    {parts : List (List Token × Expr)} (hopening : opening.kind = .symbol .leftParen)
    (hcomma : comma.kind = .symbol .comma) (hclosing : closing.kind = .symbol .rightParen)
    (hfirst : IsExpr 0 ts first) (hparts : ∀ p ∈ parts, IsExpr 0 p.1 p.2) (hlist : Listed parts ts') :
    IsExpr 5 (opening :: (ts ++ comma :: (ts' ++ [closing])))
      (.tuple (first :: parts.map (·.2)) (opening.span.merge closing.span))
  | array {opening closing : Token} {ts : List Token} {parts : List (List Token × Expr)}
    (hopening : opening.kind = .symbol .leftBracket) (hclosing : closing.kind = .symbol .rightBracket)
    (hparts : ∀ p ∈ parts, IsExpr 0 p.1 p.2) (hlist : Listed parts ts) :
    IsExpr 5 (opening :: (ts ++ [closing]))
      (.array (parts.map (·.2)) (opening.span.merge closing.span))
  | map {opening closing : Token} {ts : List Token} {parts : List EntryPart}
    (hopening : opening.kind = .symbol .leftBrace) (hclosing : closing.kind = .symbol .rightBrace)
    (hkeys : ∀ p ∈ parts, IsExpr 0 p.key.1 p.key.2)
    (hcolons : ∀ p ∈ parts, p.colon.kind = .symbol .colon)
    (hvalues : ∀ p ∈ parts, IsExpr 0 p.value.1 p.value.2)
    (hlist : Listed (parts.map EntryPart.whole) ts) :
    IsExpr 5 (opening :: (ts ++ [closing]))
      (.map (parts.map (·.whole.2)) (opening.span.merge closing.span))
  /-- The parenthesis of a call stands on the line of what is called. -/
  | call {opening closing : Token} {ts ts' : List Token} {callee : Expr}
    {parts : List (List Token × Expr)} (hcallee : IsExpr 4 ts callee)
    (hopening : opening.kind = .symbol .leftParen) (hline : opening.newlineBefore = false)
    (hclosing : closing.kind = .symbol .rightParen) (hparts : ∀ p ∈ parts, IsExpr 0 p.1 p.2)
    (hlist : Listed parts ts') :
    IsExpr 4 (ts ++ opening :: (ts' ++ [closing]))
      (.call callee (parts.map (·.2)) (callee.span.merge closing.span))
  | index {opening closing : Token} {ts ts' : List Token} {target place : Expr}
    (htarget : IsExpr 4 ts target) (hopening : opening.kind = .symbol .leftBracket)
    (hline : opening.newlineBefore = false) (hclosing : closing.kind = .symbol .rightBracket)
    (hplace : IsExpr 0 ts' place) :
    IsExpr 4 (ts ++ opening :: (ts' ++ [closing]))
      (.index target place (target.span.merge closing.span))
  | unary {t : Token} {ts : List Token} {op : UnaryOp} {operand : Expr}
    (ht : unaryOp? t.kind = some op) (h : IsExpr 3 ts operand) :
    IsExpr 3 (t :: ts) (.unary op operand (t.span.merge operand.span))
  | binary {L : Nat} {t : Token} {ts ts' : List Token} {op : BinaryOp} {left right : Expr} (hL : L < 3)
    (ht : opAt L t.kind = some op) (hleft : IsExpr L ts left) (hright : IsExpr (L + 1) ts' right) :
    IsExpr L (ts ++ t :: ts') (Parser.binary op left right)
  /-- What hangs together strongly hangs together. -/
  | looser {L : Nat} {ts : List Token} {e : Expr} (hL : L < 5) (h : IsExpr (L + 1) ts e) : IsExpr L ts e

/-- An expression at a level does not go on with the token: it is no operator that would join it to
more, and on the same line it opens neither a call nor an index. -/
structure EndsExpr (L : Nat) (t : Token) : Prop where
  call : t.newlineBefore = false → t.kind ≠ .symbol .leftParen
  index : t.newlineBefore = false → t.kind ≠ .symbol .leftBracket
  operator : ∀ M, L ≤ M → M < 3 → opAt M t.kind = none

/-! ## Parts of statements -/

/-- A type behind its mark, or nothing. -/
inductive IsType (mark : Symbol) : List Token → Option TypeTag → Prop where
  | absent : IsType mark [] none
  | given {m t : Token} {tag : TypeTag} (hm : m.kind = .symbol mark) (ht : typeTag? t.kind = some tag) :
    IsType mark [m, t] (some tag)

inductive IsParam : List Token → Param → Prop where
  | mk {t : Token} {ts : List Token} {name : String} {type : Option TypeTag} (ht : t.kind = .ident name)
    (htype : IsType .colon ts type) : IsParam (t :: ts) ⟨name, type, t.span⟩

inductive IsParams : List Token → List Param → Prop where
  | mk {opening closing : Token} {ts : List Token} {parts : List (List Token × Param)}
    (hopening : opening.kind = .symbol .leftParen) (hclosing : closing.kind = .symbol .rightParen)
    (hparts : ∀ p ∈ parts, IsParam p.1 p.2) (hlist : Listed parts ts)
    (hdiffer : repeatedParam? [] (parts.map (·.2)) = none) :
    IsParams (opening :: (ts ++ [closing])) (parts.map (·.2))

/-- The names of a loop: one or two. -/
inductive IsNames : List Token → String → Option String → Prop where
  | one {t : Token} {first : String} (ht : t.kind = .ident first) : IsNames [t] first none
  | two {t comma t' : Token} {first second : String} (ht : t.kind = .ident first)
    (hcomma : comma.kind = .symbol .comma) (ht' : t'.kind = .ident second) :
    IsNames [t, comma, t'] first (some second)

/-- A `return` goes without a value before the token. -/
def EndsReturn (t : Token) : Prop :=
  t.kind = .eof ∨ t.newlineBefore = true ∨ t.kind = .symbol .rightBrace ∨ t.kind = .symbol .semicolon

/-! ## Statements -/

/-- A statement, its tokens, and the token behind them. -/
structure StmtPart where
  tokens : List Token
  next : Token
  stmt : Stmt

/-- The tokens of statements one after another, before the token `last`. Semicolons may stand
anywhere among them. -/
inductive InSequence (last : Token) : List StmtPart → List Token → Prop where
  | nil : InSequence last [] []
  | semicolon {parts : List StmtPart} {ts : List Token} {t : Token} (ht : t.kind = .symbol .semicolon) :
    InSequence last parts ts → InSequence last parts (t :: ts)
  | cons {parts : List StmtPart} {ts : List Token} (part : StmtPart) (hnext : part.next = ts.headD last) :
    InSequence last parts ts → InSequence last (part :: parts) (part.tokens ++ ts)

/-- What statements are made of. -/
inductive Construct where
  | stmt (s : Stmt)
  | block (b : Block)

/-- Tokens that make a statement or a block, before another token. -/
inductive IsConstruct : List Token → Token → Construct → Prop where
  | expr {ts : List Token} {next : Token} {e : Expr} (h : IsExpr 0 ts e) (hends : EndsExpr 0 next)
    (hassign : next.kind ≠ .symbol .assign) : IsConstruct ts next (.stmt (.expr e e.span))
  | assign {ts ts' : List Token} {equals next : Token} {target value : Expr} {s : Stmt}
    (htarget : IsExpr 0 ts target) (hequals : equals.kind = .symbol .assign)
    (hvalue : IsExpr 0 ts' value) (hends : EndsExpr 0 next)
    (hs : assignment? target value (target.span.merge value.span) = some s) :
    IsConstruct (ts ++ equals :: ts') next (.stmt s)
  | define {start t equals next : Token} {ts ts' : List Token} {name : String} {type : Option TypeTag}
    {value : Expr} (hstart : start.kind = .keyword .letWord) (ht : t.kind = .ident name)
    (htype : IsType .colon ts type) (hequals : equals.kind = .symbol .assign)
    (hvalue : IsExpr 0 ts' value) (hends : EndsExpr 0 next) :
    IsConstruct (start :: t :: (ts ++ equals :: ts')) next
      (.stmt (.define name type value (start.span.merge value.span)))
  | delete {start t next : Token} {name : String} (hstart : start.kind = .keyword .delWord)
    (ht : t.kind = .ident name) :
    IsConstruct [start, t] next (.stmt (.delete name (start.span.merge t.span)))
  | function {start t next : Token} {ps ts bs : List Token} {name : String} {params : List Param}
    {type : Option TypeTag} {body : Block} (hstart : start.kind = .keyword .fnWord)
    (ht : t.kind = .ident name) (hparams : IsParams ps params) (htype : IsType .arrow ts type)
    (hbody : IsConstruct bs next (.block body)) :
    IsConstruct (start :: t :: (ps ++ (ts ++ bs))) next
      (.stmt (.function (.mk name params type body (start.span.merge body.span))
        (start.span.merge body.span)))
  | ifThen {start next : Token} {cs bs : List Token} {condition : Expr} {thenBranch : Block}
    (hstart : start.kind = .keyword .ifWord) (hcondition : IsExpr 0 cs condition)
    (hthen : IsConstruct bs next (.block thenBranch)) (helse : next.kind ≠ .keyword .elseWord) :
    IsConstruct (start :: (cs ++ bs)) next
      (.stmt (.ifThen condition thenBranch (start.span.merge thenBranch.span)))
  | ifElse {start other next : Token} {cs bs bs' : List Token} {condition : Expr}
    {thenBranch elseBranch : Block} (hstart : start.kind = .keyword .ifWord)
    (hcondition : IsExpr 0 cs condition) (hthen : IsConstruct bs other (.block thenBranch))
    (hother : other.kind = .keyword .elseWord) (helse : IsConstruct bs' next (.block elseBranch)) :
    IsConstruct (start :: (cs ++ (bs ++ other :: bs'))) next
      (.stmt (.ifElse condition thenBranch elseBranch (start.span.merge elseBranch.span)))
  /-- An `if` behind `else` is a block of one statement. -/
  | elseIf {start other t next : Token} {cs bs ts : List Token} {condition : Expr}
    {thenBranch : Block} {nested : Stmt} (hstart : start.kind = .keyword .ifWord)
    (hcondition : IsExpr 0 cs condition) (hthen : IsConstruct bs other (.block thenBranch))
    (hother : other.kind = .keyword .elseWord) (ht : t.kind = .keyword .ifWord)
    (hnested : IsConstruct (t :: ts) next (.stmt nested)) :
    IsConstruct (start :: (cs ++ (bs ++ other :: t :: ts))) next
      (.stmt (.ifElse condition thenBranch (.mk [nested] nested.span)
        (start.span.merge nested.span)))
  | forEach {start word next : Token} {ns cs bs : List Token} {first : String} {second : Option String}
    {iterable : Expr} {body : Block} (hstart : start.kind = .keyword .forWord)
    (hnames : IsNames ns first second) (hword : word.kind = .keyword .inWord)
    (hiterable : IsExpr 0 cs iterable) (hbody : IsConstruct bs next (.block body)) :
    IsConstruct (start :: (ns ++ word :: (cs ++ bs))) next
      (.stmt (.forEach first second iterable body (start.span.merge body.span)))
  | returnNothing {start next : Token} (hstart : start.kind = .keyword .returnWord)
    (hends : EndsReturn next) : IsConstruct [start] next (.stmt (.giveBack none start.span))
  | returnValue {start t next : Token} {ts : List Token} {value : Expr}
    (hstart : start.kind = .keyword .returnWord) (hline : t.newlineBefore = false)
    (hvalue : IsExpr 0 (t :: ts) value) (hends : EndsExpr 0 next) :
    IsConstruct (start :: t :: ts) next
      (.stmt (.giveBack (some value) (start.span.merge value.span)))
  | block {opening closing next : Token} {ts : List Token} {parts : List StmtPart}
    (hopening : opening.kind = .symbol .leftBrace) (hclosing : closing.kind = .symbol .rightBrace)
    (hparts : ∀ p ∈ parts, IsConstruct p.tokens p.next (.stmt p.stmt))
    (hsequence : InSequence closing parts ts) :
    IsConstruct (opening :: (ts ++ [closing])) next
      (.block (.mk (parts.map (·.stmt)) (opening.span.merge closing.span)))

/-- The first of some tokens. None are like the end of the text. -/
def firstOf (ts : List Token) : Token := ts.headD (Token.endAt 0 false)

/-- Tokens that make a program: statements up to the end of the text. -/
inductive IsProgram : List Token → Block → Prop where
  | mk {ts rest : List Token} {parts : List StmtPart} (hend : (firstOf rest).kind = .eof)
    (hparts : ∀ p ∈ parts, IsConstruct p.tokens p.next (.stmt p.stmt))
    (hsequence : InSequence (firstOf rest) parts ts) :
    IsProgram (ts ++ rest)
      (.mk (parts.map (·.stmt)) ((firstOf (ts ++ rest)).span.merge (firstOf rest).span))

/-! ## How expressions begin -/

/-- The tokens that are expressions by themselves. -/
inductive IsAtom (s : Span) : TokenKind → Expr → Prop where
  | int (n : Int64) : IsAtom s (.int n) (.literal (.int n) s)
  | float (x : Float) : IsAtom s (.float x) (.literal (.float x) s)
  | string (text : String) : IsAtom s (.string text) (.literal (.string text) s)
  | trueWord : IsAtom s (.keyword .trueWord) (.literal (.bool true) s)
  | falseWord : IsAtom s (.keyword .falseWord) (.literal (.bool false) s)
  | noneWord : IsAtom s (.keyword .noneWord) (.literal .none s)
  | ident (name : String) : IsAtom s (.ident name) (.ident name s)

theorem isAtom_of_atom? {k : TokenKind} {s : Span} {e : Expr} (h : atom? k s = some e) :
    IsAtom s k e := by
  cases k with
  | keyword w => cases w <;> cases h <;> constructor
  | int n => cases h; exact .int n
  | float x => cases h; exact .float x
  | string text => cases h; exact .string text
  | ident name => cases h; exact .ident name
  | _ => cases h

theorem atom?_begins {k : TokenKind} {s : Span} {e : Expr} (h : atom? k s = some e) :
    k.beginsExpr = true ∧ unaryOp? k = none := by
  cases isAtom_of_atom? h
  all_goals exact ⟨rfl, rfl⟩

/-- An expression begins with a token that expressions begin with, and with no sign unless it is one of
the looser levels. -/
theorem IsExpr.begins {L : Nat} {ts : List Token} {e : Expr} (h : IsExpr L ts e) :
    ∃ t ts', ts = t :: ts' ∧ t.kind.beginsExpr = true ∧ (4 ≤ L → unaryOp? t.kind = none) := by
  induction h with
  | atom h =>
    have hbegins := atom?_begins h
    exact ⟨_, _, rfl, hbegins.1, fun _ => hbegins.2⟩
  | group hopening | unit hopening | tuple hopening | array hopening | map hopening =>
    refine ⟨_, _, rfl, ?_, fun _ => ?_⟩ <;> rw [hopening] <;> rfl
  | call _ _ _ _ _ _ ih | index _ _ _ _ _ ih =>
    obtain ⟨t, ts', rfl, ht, hsign⟩ := ih
    exact ⟨t, _, rfl, ht, hsign⟩
  | @unary t ts op operand ht =>
    refine ⟨t, ts, rfl, ?_, nofun⟩
    unfold unaryOp? at ht
    split at ht
    · next hk => rw [hk]; rfl
    · next hk => rw [hk]; rfl
    · cases ht
  | binary hL _ _ _ ih =>
    obtain ⟨t, ts', rfl, ht, -⟩ := ih
    exact ⟨t, _, rfl, ht, fun hle => absurd hL (by omega)⟩
  | looser _ _ ih =>
    obtain ⟨t, ts', rfl, ht, hsign⟩ := ih
    exact ⟨t, ts', rfl, ht, fun hle => hsign (Nat.le_succ_of_le hle)⟩

theorem IsExpr.ne_nil {L : Nat} {ts : List Token} {e : Expr} (h : IsExpr L ts e) : ts ≠ [] := by
  obtain ⟨t, ts', rfl, -⟩ := h.begins
  exact List.cons_ne_nil t ts'

theorem IsConstruct.ne_nil {ts : List Token} {next : Token} {x : Construct}
    (h : IsConstruct ts next x) : ts ≠ [] := by
  cases h with
  | expr h => exact h.ne_nil
  | assign => exact List.append_ne_nil_of_right_ne_nil _ (List.cons_ne_nil _ _)
  | _ => exact List.cons_ne_nil _ _

theorem IsExpr.mono {L M : Nat} {ts : List Token} {e : Expr} (hLM : L ≤ M) (hM : M ≤ 5)
    (h : IsExpr M ts e) : IsExpr L ts e := by
  induction M with
  | zero =>
    obtain rfl : L = 0 := by omega
    exact h
  | succ M ih =>
    by_cases heq : L = M + 1
    · exact heq ▸ h
    · exact ih (by omega) (by omega) (.looser (by omega) h)

theorem EndsExpr.mono {L M : Nat} {t : Token} (h : EndsExpr L t) (hLM : L ≤ M) : EndsExpr M t :=
  ⟨h.call, h.index, fun N hN => h.operator N (Nat.le_trans hLM hN)⟩

end Nikl
