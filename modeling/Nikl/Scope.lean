import Nikl.Value

/-
Scopes and the names bound in them. A scope knows the scopes around it, innermost first; a name means
its binding in the nearest scope that has one. Scopes are shared: a function keeps the scope it was
defined in, and sees what is bound there later.

The stack holds the scopes that are open, above the global one, which is always open. A block opens a
scope inside the current one, and a call opens one inside the scope of the function.
-/

set_option autoImplicit false

namespace Nikl

/-- Names and their values, no name twice. -/
abbrev Bindings (ν : Type := String) := List (ν × Value ν)

namespace Bindings

variable {ν : Type} [DecidableEq ν]

/-- The value of a name. -/
def get? (x : ν) (bindings : Bindings ν) : Option (Value ν) := List.lookup x bindings

def contains (x : ν) (bindings : Bindings ν) : Bool := (bindings.get? x).isSome

/-- The bindings without a name. -/
def erase (x : ν) (bindings : Bindings ν) : Bindings ν := bindings.filter (fun b => b.1 != x)

/-- The bindings with a value for a name, in place of the one it has. -/
def set (x : ν) (v : Value ν) (bindings : Bindings ν) : Bindings ν := (x, v) :: bindings.erase x

end Bindings

/-- One scope (`Scope`). -/
structure Scope (ν : Type := String) where
  bindings : Bindings ν := []
  /-- The names that were deleted while they were bound here. -/
  deleted : List ν := []
  /-- The scopes around this one, innermost first. -/
  outer : List ScopeRef := []
  deriving Inhabited

namespace Scope

variable {ν : Type} [DecidableEq ν]

/-- Binds a name here, in place of any binding here (`Scope::define`). -/
def define (x : ν) (v : Value ν) (scope : Scope ν) : Scope ν :=
  { scope with bindings := scope.bindings.set x v, deleted := scope.deleted.filter (· != x) }

/-- Gives a bound name another value (the slot that `Scope::assign` overwrites). -/
def rebind (x : ν) (v : Value ν) (scope : Scope ν) : Scope ν :=
  { scope with bindings := scope.bindings.set x v }

/-- Removes the binding of a name, and remembers that there was one (`Scope::remove`). -/
def remove (x : ν) (scope : Scope ν) : Scope ν :=
  { scope with bindings := scope.bindings.erase x, deleted := x :: scope.deleted }

/-- Whether a name is bound here (`Scope::contains`). -/
def binds (x : ν) (scope : Scope ν) : Bool := scope.bindings.contains x

end Scope

/-- Why a name means nothing (`LookupError`). -/
inductive LookupFault where
  | undefined
  /-- Some scope had the name bound and deleted. -/
  | deleted
  deriving DecidableEq, Repr

def LookupFault.text : LookupFault → String
  | undefined => "Undefined"
  | deleted => "Deleted"

/-- All scopes of a program, and which of them are open (`Environment`). -/
structure Environment (ν : Type := String) where
  /-- Every scope there ever was, oldest first; the first is the global one. -/
  scopes : Array (Scope ν) := #[{}]
  /-- The open scopes other than the global one, the current one first. -/
  inner : List ScopeRef := []
  deriving Inhabited

namespace Environment

variable {ν : Type}

/-! ## Scopes and the stack -/

/-- The scope around all others (`Environment::global`). -/
def global : ScopeRef := ⟨0⟩

/-- The open scopes, the current one first (`Environment::scopes`). -/
def stack (env : Environment ν) : List ScopeRef := env.inner ++ [global]

/-- How many scopes are open (`Environment::depth`). -/
def depth (env : Environment ν) : Nat := env.inner.length + 1

/-- The scope in which names are looked up, bound and deleted (`Environment::current_scope`). -/
def current (env : Environment ν) : ScopeRef := env.inner.head?.getD global

def scope (env : Environment ν) (r : ScopeRef) : Scope ν := env.scopes.getD r.index {}

/-- A scope and the scopes around it, innermost first. -/
def chain (env : Environment ν) (r : ScopeRef) : List ScopeRef := r :: (env.scope r).outer

/-- The environment after a change to one scope. -/
def modifyScope (env : Environment ν) (r : ScopeRef) (f : Scope ν → Scope ν) : Environment ν :=
  { env with scopes := env.scopes.modify r.index f }

/-- The reference that the next new scope gets. -/
def next (env : Environment ν) : ScopeRef := ⟨env.scopes.size⟩

/-- Opens a scope inside a given one (`Environment::push_call_scope`, by `Scope::with_parent`). -/
def openInside (env : Environment ν) (r : ScopeRef) : Environment ν :=
  -- all that is read from the array is read before it grows, so that it can grow in place
  let inner := env.next :: env.inner
  let scope : Scope ν := { outer := env.chain r }
  ⟨env.scopes.push scope, inner⟩

/-- Opens a scope for a block (`Environment::push_scope`). -/
def openBlock (env : Environment ν) : Environment ν := env.openInside env.current

/-- Closes the current scope (`Environment::pop_scope`). The global one stays open. -/
def close (env : Environment ν) : Environment ν := { env with inner := env.inner.tail }

/-! ## Names, seen from a scope -/

variable [DecidableEq ν]

/-- The nearest of some scopes that binds a name. -/
def binder? (env : Environment ν) (x : ν) (chain : List ScopeRef) : Option ScopeRef :=
  chain.find? fun r => (env.scope r).binds x

/-- What a name means in some scopes, nearest first (`Scope::lookup`). A name that one of them has
deleted counts as deleted if none binds it. -/
def lookupIn (env : Environment ν) (x : ν) : List ScopeRef → Except LookupFault (Value ν)
  | [] => .error .undefined
  | r :: outer =>
    match (env.scope r).bindings.get? x with
    | some v => .ok v
    | none =>
      -- a scope further out may still bind the name, whatever was deleted here
      match env.lookupIn x outer with
      | .error .undefined => .error (if (env.scope r).deleted.contains x then .deleted else .undefined)
      | result => result

/-- What a name means in a scope. -/
def lookupFrom (env : Environment ν) (r : ScopeRef) (x : ν) : Except LookupFault (Value ν) :=
  env.lookupIn x (env.chain r)

/-- Gives the nearest binding of a name another value, and tells whether there is one
(`Scope::assign`). -/
def assignFrom (env : Environment ν) (r : ScopeRef) (x : ν) (v : Value ν) : Bool × Environment ν :=
  match env.binder? x (env.chain r) with
  | some binder => (true, env.modifyScope binder (·.rebind x v))
  | none => (false, env)

/-- Removes the binding of a name in a scope itself, and tells whether there is one
(`Scope::remove`). -/
def removeFrom (env : Environment ν) (r : ScopeRef) (x : ν) : Bool × Environment ν :=
  if (env.scope r).binds x then (true, env.modifyScope r (·.remove x)) else (false, env)

/-! ## Names, seen from the current scope -/

/-- Binds a name in the current scope (`Environment::define`). -/
def define (env : Environment ν) (x : ν) (v : Value ν) : Environment ν :=
  env.modifyScope env.current (·.define x v)

/-- Binds a name in the global scope (`Environment::define_global`). -/
def defineGlobal (env : Environment ν) (x : ν) (v : Value ν) : Environment ν :=
  env.modifyScope global (·.define x v)

/-- What a name means in the current scope (`Environment::lookup`). -/
def lookup (env : Environment ν) (x : ν) : Except LookupFault (Value ν) := env.lookupFrom env.current x

/-- Gives the nearest binding of a name another value, or binds the name in the global scope
(`Environment::assign`). -/
def assign (env : Environment ν) (x : ν) (v : Value ν) : Environment ν :=
  match env.assignFrom env.current x v with
  | (true, env) => env
  | (false, env) => env.defineGlobal x v

/-- Removes the binding of a name in the current scope, and tells whether there is one
(`Environment::delete`). -/
def delete (env : Environment ν) (x : ν) : Bool × Environment ν := env.removeFrom env.current x

/-- The environment in which the built-in functions are bound, and nothing else (`register`). -/
def withBuiltinsAs (name : Builtin → ν) : Environment ν :=
  Builtin.all.foldl (fun env b => env.defineGlobal (name b) (.builtin b)) {}

/-- The environment of a program that has not begun: the built-in functions are bound. -/
def withBuiltins : Environment := withBuiltinsAs Builtin.name

end Environment
end Nikl
