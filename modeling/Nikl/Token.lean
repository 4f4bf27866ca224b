import Nikl.Source.Span

/-
Tokens: the words of the language that its grammar is stated over. A token knows the bytes it was
read from and whether a line break stands between it and the token before it; line breaks are not
tokens themselves.
-/

set_option autoImplicit false

namespace Nikl

/-- Reserved words other than the names of types (the keywords of `TokenKind`). -/
inductive Keyword where
  | letWord | fnWord | ifWord | elseWord | forWord | inWord | returnWord | delWord
  | trueWord | falseWord | noneWord
  deriving DecidableEq, Repr

namespace Keyword

def all : List Keyword :=
  [letWord, fnWord, ifWord, elseWord, forWord, inWord, returnWord, delWord, trueWord, falseWord,
   noneWord]

/-- How a keyword is written. -/
def spelling : Keyword → String
  | letWord => "let"
  | fnWord => "fn"
  | ifWord => "if"
  | elseWord => "else"
  | forWord => "for"
  | inWord => "in"
  | returnWord => "return"
  | delWord => "del"
  | trueWord => "True"
  | falseWord => "False"
  | noneWord => "None"

/-- How a keyword is called in a listing of tokens. -/
def label : Keyword → String
  | letWord => "Let"
  | fnWord => "Fn"
  | ifWord => "If"
  | elseWord => "Else"
  | forWord => "For"
  | inWord => "In"
  | returnWord => "Return"
  | delWord => "Del"
  | trueWord => "True"
  | falseWord => "False"
  | noneWord => "None"

end Keyword

/-- The reserved names of types (the type names of `TokenKind`). -/
inductive TypeName where
  | int | float | string | bool | array | hashMap | tuple
  deriving DecidableEq, Repr

namespace TypeName

def all : List TypeName := [int, float, string, bool, array, hashMap, tuple]

/-- How the name of a type is written. -/
def spelling : TypeName → String
  | int => "Int"
  | float => "Float"
  | string => "String"
  | bool => "Bool"
  | array => "Array"
  | hashMap => "HashMap"
  | tuple => "Tuple"

end TypeName

/-- Punctuation and operators (the symbols and operators of `TokenKind`). -/
inductive Symbol where
  | leftParen | rightParen | leftBrace | rightBrace | leftBracket | rightBracket
  | comma | colon | semicolon | arrow
  | assign | equal | notEqual | less | lessEqual | greater | greaterEqual
  | plus | minus | star | slash | percent | bang
  deriving DecidableEq, Repr

namespace Symbol

def all : List Symbol :=
  [leftParen, rightParen, leftBrace, rightBrace, leftBracket, rightBracket, comma, colon, semicolon,
   arrow, assign, equal, notEqual, less, lessEqual, greater, greaterEqual, plus, minus, star, slash,
   percent, bang]

/-- How a symbol is written. -/
def spelling : Symbol → String
  | leftParen => "("
  | rightParen => ")"
  | leftBrace => "\x7b"
  | rightBrace => "\x7d"
  | leftBracket => "["
  | rightBracket => "]"
  | comma => ","
  | colon => ":"
  | semicolon => ";"
  | arrow => "->"
  | assign => "="
  | equal => "=="
  | notEqual => "!="
  | less => "<"
  | lessEqual => "<="
  | greater => ">"
  | greaterEqual => ">="
  | plus => "+"
  | minus => "-"
  | star => "*"
  | slash => "/"
  | percent => "%"
  | bang => "!"

/-- How a symbol is called in a listing of tokens. -/
def label : Symbol → String
  | leftParen => "LParen"
  | rightParen => "RParen"
  | leftBrace => "LBrace"
  | rightBrace => "RBrace"
  | leftBracket => "LBracket"
  | rightBracket => "RBracket"
  | comma => "Comma"
  | colon => "Colon"
  | semicolon => "Semicolon"
  | arrow => "Arrow"
  | assign => "Eq"
  | equal => "EqEq"
  | notEqual => "NotEq"
  | less => "Lt"
  | lessEqual => "LtEq"
  | greater => "Gt"
  | greaterEqual => "GtEq"
  | plus => "Plus"
  | minus => "Minus"
  | star => "Star"
  | slash => "Slash"
  | percent => "Percent"
  | bang => "Bang"

end Symbol

/-- What a token is: a literal, a name, a reserved word, a symbol, or the end of the text (`TokenKind`).
Names and the contents of strings are texts, or of a type `ν` of what stands for texts. -/
inductive TokenKind (ν : Type := String) where
  | int (value : Int64)
  | float (value : Float)
  | string (content : ν)
  | ident (name : ν)
  | keyword (word : Keyword)
  | typeName (type : TypeName)
  | symbol (symbol : Symbol)
  | eof
  deriving DecidableEq

namespace TokenKind

variable {ν : Type}

/-- How a kind of token is named in messages: reserved words and symbols as they are written, between
backquotes (`TokenKind::display_name`). -/
def displayName : TokenKind ν → String
  | int _ => "integer literal"
  | float _ => "float literal"
  | string _ => "string literal"
  | ident _ => "identifier"
  | keyword w => s!"`{w.spelling}`"
  | typeName t => s!"`{t.spelling}`"
  | symbol s => s!"`{s.spelling}`"
  | eof => "end of input"

/-- How a kind of token is called in a listing. -/
def label : TokenKind ν → String
  | int _ => "Int"
  | float _ => "Float"
  | string _ => "String"
  | ident _ => "Ident"
  | keyword w => w.label
  | typeName t => t.spelling ++ "Type"
  | symbol s => s.label
  | eof => "Eof"

/-- Whether a token is the name of a type (`TokenKind::is_type_name`). -/
def isTypeName : TokenKind ν → Bool
  | typeName _ => true
  | _ => false

/-- Whether two tokens are of one kind, whatever literal or name they carry (as `Cursor::check` compares
them). -/
def sameKind [DecidableEq ν] : TokenKind ν → TokenKind ν → Bool
  | int _, int _ => true
  | float _, float _ => true
  | string _, string _ => true
  | ident _, ident _ => true
  | a, b => a = b

/-- The same kind of token with another name or string. -/
def rename {μ : Type} (g : ν → μ) : TokenKind ν → TokenKind μ
  | int n => int n
  | float x => float x
  | string content => string (g content)
  | ident name => ident (g name)
  | keyword w => keyword w
  | typeName t => typeName t
  | symbol s => symbol s
  | eof => eof

end TokenKind

/-- A token, where it stands, and whether a line break comes before it (`Token`). -/
structure Token (ν : Type := String) where
  kind : TokenKind ν
  span : Span
  newlineBefore : Bool := false
  deriving DecidableEq

/-- The token at the end of a text of a given length in bytes (the last token of `lex`). -/
def Token.endAt {ν : Type} (offset : Nat) (newlineBefore : Bool) : Token ν :=
  ⟨.eof, Span.ofRange offset offset, newlineBefore⟩

end Nikl
