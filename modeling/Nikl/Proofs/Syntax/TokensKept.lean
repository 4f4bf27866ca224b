import Nikl.Proofs.Syntax.EndOfText
import Nikl.Proofs.Syntax.ExpressionCompleteness
import Nikl.Proofs.Syntax.StatementReading

/-
What becomes of the tokens of a program. A tree does not know where parentheses, braces, commas and
semicolons stood. All else that was read is in it: written out again (`Block.programTokens`), it shows the
same words, names, literals and operators in the same order, each as often as it was read.

What is read is in the grammar, so this is a statement on the grammar: the tokens of a construct and those
that it is written with are the same, up to the ones that leave no trace. The parentheses that writing
puts in by itself, where an operator asks for them, leave none either.
-/

set_option autoImplicit false

namespace Nikl

open Nikl.Parser
open Written

/-! ## Tokens that leave a trace -/

/-- Whether a token leaves a trace in the tree. -/
def TokenKind.isKept : TokenKind → Bool
  | .symbol .leftParen | .symbol .rightParen | .symbol .leftBrace | .symbol .rightBrace => false
  | .symbol .comma | .symbol .semicolon => false
  | .eof => false
  | _ => true

/-- Those of some tokens that leave a trace, in their order. -/
def kept (ks : List TokenKind) : List TokenKind := ks.filter TokenKind.isKept

/-- What the tokens that leave a trace are, and what they carry. -/
def keptOf (ts : List Token) : List TokenKind := kept (ts.map (·.kind))

section Kept

@[simp] theorem kept_nil : kept [] = [] := rfl

theorem kept_cons (k : TokenKind) (ks : List TokenKind) :
    kept (k :: ks) = if k.isKept then k :: kept ks else kept ks := List.filter_cons

@[simp] theorem kept_append (ks ks' : List TokenKind) : kept (ks ++ ks') = kept ks ++ kept ks' :=
  List.filter_append ..

@[simp] theorem keptOf_nil : keptOf [] = [] := rfl

theorem keptOf_cons (t : Token) (ts : List Token) :
    keptOf (t :: ts) = if t.kind.isKept then t.kind :: keptOf ts else keptOf ts := kept_cons ..

@[simp] theorem keptOf_append (ts us : List Token) : keptOf (ts ++ us) = keptOf ts ++ keptOf us := by
  simp only [keptOf, List.map_append, kept_append]

/-- Between delimiters that leave no trace. -/
theorem kept_enclosed {opener close : Symbol} (hopener : (TokenKind.symbol opener).isKept = false)
    (hclose : (TokenKind.symbol close).isKept = false) (ks : List TokenKind) :
    kept (enclosed opener close ks) = kept ks := by
  simp [enclosed, kept_cons, hopener, hclose]

@[simp] theorem kept_parens (ks : List TokenKind) : kept (enclosed .leftParen .rightParen ks) = kept ks :=
  kept_enclosed rfl rfl ks

@[simp] theorem kept_braces (ks : List TokenKind) : kept (enclosed .leftBrace .rightBrace ks) = kept ks :=
  kept_enclosed rfl rfl ks

/-- Parentheses that were not read leave no trace where they are written. -/
@[simp] theorem kept_grouped (needed : Prop) [Decidable needed] (ks : List TokenKind) :
    kept (grouped needed ks) = kept ks := by
  by_cases h : needed
  · simp [grouped, h]
  · simp [grouped, h]

@[simp] theorem kept_separated (parts : List (List TokenKind)) :
    kept (separated parts) = parts.flatMap kept := by
  induction parts with
  | nil => rfl
  | cons ks rest ih =>
    cases rest with
    | nil => simp [separated_singleton]
    | cons ks' rest =>
      rw [separated_cons_cons, kept_append, kept_cons, ih]
      simp [TokenKind.isKept]

end Kept

/-! ## Expressions -/

section Lists

variable {α : Type} {parts : List (List Token × α)} {ts : List Token}

/-- A list shows what its parts show, in their order. -/
theorem Listed.keptOf (text : α → List TokenKind) (h : Listed parts ts)
    (hparts : ∀ p ∈ parts, keptOf p.1 = kept (text p.2)) :
    keptOf ts = kept (separated ((parts.map (·.2)).map text)) := by
  rw [kept_separated]
  induction h with
  | nil => rfl
  | last part => simpa using hparts part (List.mem_singleton_self part)
  | @cons parts ts comma part hcomma hlist ih =>
    rw [List.forall_mem_cons] at hparts
    have hrest := ih hparts.2
    simp [keptOf_cons, hcomma, TokenKind.isKept, hparts.1, hrest]

end Lists

@[simp] theorem Expr.tokens_withSpan (s : Span) (e : Expr) : (e.withSpan s).tokens = e.tokens := by
  cases e <;> rfl

theorem atom?_tokens {k : TokenKind} {s : Span} {e : Expr} (h : atom? k s = some e) : e.tokens = [k] := by
  cases isAtom_of_atom? h <;> rfl

theorem unaryOp?_eq_some {k : TokenKind} {op : UnaryOp} (h : unaryOp? k = some op) : k = op.token := by
  unfold unaryOp? at h
  split at h
  · cases h
    rfl
  · cases h
    rfl
  · cases h

theorem BinaryOp.isKept_token (op : BinaryOp) : op.token.isKept = true := by
  cases op <;> rfl

theorem UnaryOp.isKept_token (op : UnaryOp) : op.token.isKept = true := by
  cases op <;> rfl

/-- **An expression shows what its tokens are.** -/
theorem IsExpr.keptOf {L : Nat} {ts : List Token} {e : Expr} (h : IsExpr L ts e) :
    keptOf ts = kept e.tokens := by
  induction h with
  | @atom t e h =>
    rw [atom?_tokens h]
    rfl
  | group hopening hclosing _ ih => simp [keptOf_cons, hopening, hclosing, TokenKind.isKept, ih]
  | unit hopening hclosing => simp [keptOf_cons, hopening, hclosing, TokenKind.isKept, Expr.tokens]
  | @tuple opening comma closing ts ts' first parts hopening hcomma hclosing _ _ hlist ih ihParts =>
    have hrest := hlist.keptOf Expr.tokens ihParts
    -- a tuple of one item is written with a comma, which leaves no trace
    have hcomma' : ∀ one : Prop, [Decidable one] →
        kept (if one then [.symbol .comma] else []) = [] := by
      intro one _
      by_cases h : one <;> simp [h, kept_cons, TokenKind.isKept]
    simp [keptOf_cons, hopening, hcomma, hclosing, TokenKind.isKept, ih, hrest, Expr.tokens, hcomma']
  | array hopening hclosing _ hlist ih =>
    have hitems := hlist.keptOf Expr.tokens ih
    simp [keptOf_cons, hopening, hclosing, TokenKind.isKept, hitems, Expr.tokens, enclosed, kept_cons]
  | @map opening closing ts parts hopening hclosing _ hcolons _ hlist ihKeys ihValues =>
    have hentries := hlist.keptOf Expr.entryTokens fun p hp => by
      obtain ⟨part, hpart, rfl⟩ := List.mem_map.1 hp
      simp [EntryPart.whole, keptOf_cons, hcolons part hpart, ihKeys part hpart, ihValues part hpart,
        Expr.entryTokens, kept_cons]
    simp [keptOf_cons, hopening, hclosing, TokenKind.isKept, hentries, Expr.tokens, Function.comp_def]
  | call _ hopening _ hclosing _ hlist ih ihParts =>
    have hargs := hlist.keptOf Expr.tokens ihParts
    simp [keptOf_cons, hopening, hclosing, TokenKind.isKept, ih, hargs, Expr.tokens]
  | index _ hopening _ hclosing _ ih ihPlace =>
    simp [keptOf_cons, hopening, hclosing, TokenKind.isKept, ih, ihPlace, Expr.tokens, enclosed, kept_cons]
  | unary ht _ ih =>
    rw [keptOf_cons, unaryOp?_eq_some ht, UnaryOp.isKept_token, ih]
    simp [Expr.tokens, kept_cons, UnaryOp.isKept_token]
  | binary _ ht _ _ ihLeft ihRight =>
    rw [keptOf_append, keptOf_cons, opAt_eq_some ht, BinaryOp.isKept_token, ihLeft, ihRight]
    simp [Parser.binary, Expr.tokens, kept_cons, BinaryOp.isKept_token]
  | looser _ _ ih => exact ih

/-! ## Statements -/

/-- How a construct is written. -/
def Construct.tokens (chained : Style) : Construct → List TokenKind
  | .stmt s => s.tokens chained
  | .block b => b.tokens chained

section Parts

variable {ts : List Token}

theorem typeTag?_tokens {k : TokenKind} {tag : TypeTag} (h : typeTag? k = some tag) : k = tag.token := by
  unfold typeTag? at h
  split at h <;> cases h <;> rfl

theorem TypeTag.isKept_token (tag : TypeTag) : tag.token.isKept = true := by
  cases tag <;> rfl

theorem IsType.keptOf {mark : Symbol} {type : Option TypeTag} (h : IsType mark ts type) :
    keptOf ts = kept (typed mark type) := by
  cases h with
  | absent => rfl
  | given hm ht => simp [Nikl.keptOf, hm, typeTag?_tokens ht, typed]

theorem IsParam.keptOf {p : Param} (h : IsParam ts p) : keptOf ts = kept p.tokens := by
  cases h with
  | mk ht htype => simp [keptOf_cons, ht, htype.keptOf, Param.tokens, kept_cons]

theorem IsParams.keptOf {ps : List Param} (h : IsParams ts ps) :
    keptOf ts = kept (enclosed .leftParen .rightParen (separated (ps.map Param.tokens))) := by
  cases h with
  | mk hopening hclosing hparts hlist =>
    have hparams := hlist.keptOf Param.tokens fun p hp => (hparts p hp).keptOf
    simp [keptOf_cons, hopening, hclosing, TokenKind.isKept, hparams]

theorem IsNames.keptOf {first : String} {second : Option String} (h : IsNames ts first second) :
    keptOf ts = kept (.ident first :: further second) := by
  cases h with
  | one ht => simp [Nikl.keptOf, ht, further]
  | two ht hcomma ht' => simp [Nikl.keptOf, ht, hcomma, ht', further]

variable {chained : Style}

/-- Statements one after another show what each of them shows. -/
theorem InSequence.keptOf {last : Token} {parts : List StmtPart} (h : InSequence last parts ts)
    (hparts : ∀ p ∈ parts, keptOf p.tokens = kept (p.stmt.tokens chained)) :
    keptOf ts = kept (Stmt.tokensAll chained (parts.map (·.stmt))) := by
  induction h with
  | nil => rfl
  | semicolon ht _ ih => simp [keptOf_cons, ht, TokenKind.isKept, ih hparts]
  | cons part _ _ ih =>
    rw [List.forall_mem_cons] at hparts
    simp [Stmt.tokensAll, kept_cons, TokenKind.isKept, hparts.1, ih hparts.2]

/-- Behind `else`, a block shows the same with and without its braces. -/
theorem kept_elseTokens (b : Block) : kept (b.elseTokens chained) = kept (b.tokens chained) := by
  rcases elseTokens_cases chained b with helse | ⟨s, span, ks, rfl, helse, -⟩
  · rw [helse]
  · rw [helse]
    simp [Block.tokens, Stmt.tokensAll, kept_cons, TokenKind.isKept]

end Parts

/-- **A statement shows what its tokens are**, and so does a block. -/
theorem IsConstruct.keptOf (chained : Style) {ts : List Token} {next : Token} {x : Construct}
    (h : IsConstruct ts next x) : keptOf ts = kept (x.tokens chained) := by
  induction h with
  | expr h => exact h.keptOf
  | @assign ts ts' equals _ target value s htarget hequals hvalue _ hs =>
    have hleft := htarget.keptOf
    have hright := hvalue.keptOf
    cases target with
    | ident =>
      cases hs
      simp [keptOf_cons, hequals, hleft, hright, Construct.tokens, Stmt.tokens, Expr.tokens, kept_cons,
        TokenKind.isKept]
    | index container place =>
      cases hs
      simp [keptOf_cons, hequals, hleft, hright, Construct.tokens, Stmt.tokens, Expr.tokens,
        Expr.tokensAt, kept_cons]
    | _ => cases hs
  | define hstart ht htype hequals hvalue =>
    simp [keptOf_cons, hstart, ht, hequals, htype.keptOf, hvalue.keptOf, Construct.tokens, Stmt.tokens,
      kept_cons]
  | delete hstart ht => simp [Nikl.keptOf, hstart, ht, Construct.tokens, Stmt.tokens]
  | function hstart ht hparams htype _ ih =>
    simp [keptOf_cons, hstart, ht, hparams.keptOf, htype.keptOf, ih, Construct.tokens, Stmt.tokens,
      FunctionDef.tokens, kept_cons]
  | ifThen hstart hcondition _ _ ih =>
    simp [keptOf_cons, hstart, hcondition.keptOf, ih, Construct.tokens, Stmt.tokens, kept_cons]
  | ifElse hstart hcondition _ hother _ ihThen ihElse =>
    simp [keptOf_cons, hstart, hcondition.keptOf, hother, ihThen, ihElse, Construct.tokens, Stmt.tokens,
      kept_cons, kept_elseTokens]
  | @elseIf start other t _ cs bs ts condition thenBranch nested hstart hcondition _ hother _ _ ihThen
      ihNested =>
    -- the tokens of the nested `if` stay together: they are what is known of it
    have helse : Nikl.keptOf (other :: t :: ts) = .keyword .elseWord :: kept (nested.tokens chained) := by
      rw [keptOf_cons, hother, ihNested]
      rfl
    rw [keptOf_cons, keptOf_append, keptOf_append, helse, hstart, hcondition.keptOf, ihThen]
    simp [Construct.tokens, Stmt.tokens, kept_cons, kept_elseTokens, Block.tokens, Stmt.tokensAll,
      TokenKind.isKept]
  | forEach hstart hnames hword hiterable _ ih =>
    simp [keptOf_cons, hstart, hnames.keptOf, hword, hiterable.keptOf, ih, Construct.tokens, Stmt.tokens,
      kept_cons, TokenKind.isKept]
  | returnNothing hstart => simp [Nikl.keptOf, hstart, Construct.tokens, Stmt.tokens]
  | returnValue hstart _ hvalue =>
    rw [keptOf_cons, hstart, hvalue.keptOf]
    rfl
  | block hopening hclosing _ hsequence ih =>
    have hstmts := hsequence.keptOf ih
    simp [keptOf_cons, hopening, hclosing, TokenKind.isKept, hstmts, Construct.tokens, Block.tokens]

/-! ## Programs -/

/-- **No token is lost, doubled or moved.** Of a program that is read, the tokens that leave a trace are
those with which it is written, in their order and with what they carry, however an `if` behind `else` is
written. Nothing is left over but the end of the text. -/
theorem tokens_kept {ts : List Token} {last : Token} {b : Block} (hlast : last.kind = .eof)
    (hts : ∀ t ∈ ts, t.kind ≠ .eof) (h : parse (ts ++ [last]) = .ok b) :
    (∀ chained, keptOf (ts ++ [last]) = kept (b.programTokens chained)) ∧
      ∃ previous, program (Cursor.ofTokens (ts ++ [last])) = .ok (b, ⟨[last], previous⟩) := by
  obtain ⟨⟨rest, previous⟩, hrun⟩ := parse_eq_ok_iff.1 h
  obtain ⟨us, parts, hsplit, hend, hparts, hseq, hb⟩ := program_splits hrun
  have hus : EndFree us := hseq.endFree fun p hp => (hparts p hp).endFree
  obtain ⟨rfl, rfl⟩ := rest_of_only_end hts hus hlast (of_decide_eq_true hend) hsplit
  refine ⟨fun chained => ?_, previous, hrun⟩
  have hstmts := hseq.keptOf fun p hp => (hparts p hp).keptOf chained
  rw [keptOf_append, hstmts, hb]
  simp [keptOf_cons, hlast, TokenKind.isKept, Block.programTokens, Block.stmts, kept_cons]

/-- `if (a) { (b,); } else if !c { return [d, e,] }`, on one line. -/
def trailingKinds : List TokenKind :=
  [.keyword .ifWord, .symbol .leftParen, .ident "a", .symbol .rightParen, .symbol .leftBrace,
   .symbol .leftParen, .ident "b", .symbol .comma, .symbol .rightParen, .symbol .semicolon,
   .symbol .rightBrace, .keyword .elseWord, .keyword .ifWord, .symbol .bang, .ident "c",
   .symbol .leftBrace, .keyword .returnWord, .symbol .leftBracket, .ident "d", .symbol .comma,
   .ident "e", .symbol .comma, .symbol .rightBracket, .symbol .rightBrace]

def trailingProgram : Block :=
  let name (x : String) : Expr := .ident x Span.nowhere
  let second : Stmt :=
    .ifThen (.unary .not (name "c") Span.nowhere)
      (.mk [.giveBack (some (.array [name "d", name "e"] Span.nowhere)) Span.nowhere] Span.nowhere)
      Span.nowhere
  .mk
    [.ifElse (name "a") (.mk [.expr (.tuple [name "b"] Span.nowhere) Span.nowhere] Span.nowhere)
      (.mk [second] Span.nowhere) Span.nowhere]
    Span.nowhere

/-- The parentheses around a condition, braces, and commas at the end of a list leave no trace. -/
theorem tokens_kept_trailing :
    parse (oneLine trailingKinds ++ [Token.endAt 0 false]) = .ok trailingProgram ∧
      kept (trailingProgram.programTokens fun _ => true) =
        [.keyword .ifWord, .ident "a", .ident "b", .keyword .elseWord, .keyword .ifWord, .symbol .bang,
         .ident "c", .keyword .returnWord, .symbol .leftBracket, .ident "d", .ident "e",
         .symbol .rightBracket] := by
  have hparse : parse (oneLine trailingKinds ++ [Token.endAt 0 false]) = .ok trailingProgram := rfl
  have hts : ∀ t ∈ oneLine trailingKinds, t.kind ≠ .eof := by simp [oneLine, trailingKinds]
  obtain ⟨hkept, -⟩ := tokens_kept rfl hts hparse
  refine ⟨hparse, ?_⟩
  rw [← hkept fun _ => true]
  rfl

end Nikl
