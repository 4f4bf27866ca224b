import Nikl.Naming
import Nikl.Syntax

/-
What expressions evaluate to. Numbers, truth values, texts and tuples stand for themselves. An array or
a map is a reference to a collection in the store, so that every holder of the reference sees what
any of them changes. A function is its definition together with the scope it was defined in.
-/

set_option autoImplicit false

namespace Nikl

/-- A collection in the store (`Heap`). The smaller the index, the older the collection. -/
structure Ref where
  index : Nat
  deriving DecidableEq, Repr, Inhabited

/-- A scope of an environment (`LocalScope`). The smaller the index, the older the scope. -/
structure ScopeRef where
  index : Nat
  deriving DecidableEq, Repr, Inhabited

/-- The functions that are bound before a program starts (`Builtin`). -/
inductive Builtin where
  | print | len
  deriving DecidableEq, Repr

namespace Builtin

/-- All built-in functions, in the order in which they are bound (`Builtin::ALL`). -/
def all : List Builtin := [print, len]

/-- The name a built-in function is bound to (`Builtin::name`). -/
def name : Builtin → String
  | print => "print"
  | len => "len"

/-- The built-in function with a given name. -/
def ofName? (s : String) : Option Builtin := all.find? (fun b => b.name == s)

end Builtin

/-- A function made by carrying out a definition (`FunctionValue`). Each time a definition is carried
out makes another function, known by its number; `FunctionValue::same_closure` compares definition and
scope, which no two of them share. -/
structure Closure (ν : Type := String) where
  id : Nat
  definition : FunctionDef ν
  /-- The scope the definition was carried out in: shared, not copied. -/
  scope : ScopeRef

namespace Closure

variable {ν : Type}

/-- The text of the name that a function was defined with (`FunctionValue::name`). -/
def name [Naming ν] (f : Closure ν) : String := Naming.text f.definition.name

/-- How many arguments a function takes (`FunctionValue::arity`). -/
def arity (f : Closure ν) : Nat := f.definition.arity

end Closure

/-- What an expression evaluates to (`Value`). -/
inductive Value (ν : Type := String) where
  | int (value : Int64)
  | float (value : Float)
  | bool (value : Bool)
  | string (content : String)
  | array (ref : Ref)
  | map (ref : Ref)
  | tuple (items : List (Value ν))
  | function (closure : Closure ν)
  | builtin (function : Builtin)
  | none
  deriving Inhabited

/-- What a value is, whatever it holds. -/
inductive Kind where
  | int | float | bool | string | array | map | tuple | function | builtin | none
  deriving DecidableEq, Repr

/-- How a kind is named in messages (`Value::type_name`). -/
def Kind.text : Kind → String
  | int => "Int"
  | float => "Float"
  | bool => "Bool"
  | string => "String"
  | array => "Array"
  | map => "HashMap"
  | tuple => "Tuple"
  | function => "Function"
  | builtin => "BuiltIn"
  | none => "None"

/-- The kind of a value. -/
def Value.kind {ν : Type} : Value ν → Kind
  | int _ => .int
  | float _ => .float
  | bool _ => .bool
  | string _ => .string
  | array _ => .array
  | map _ => .map
  | tuple _ => .tuple
  | function _ => .function
  | builtin _ => .builtin
  | none => .none

/-- The value that a literal stands for (`Interpreter::eval_literal`). -/
def Value.ofLiteral {ν : Type} [Naming ν] : Literal ν → Value ν
  | .int n => int n
  | .float x => float x
  | .string s => string (Naming.text s)
  | .bool b => bool b
  | .none => none

end Nikl
