import Lox.Scope.Name
import Lox.Value

/-!
# Scopes

A scope binds names to values, in the order in which they were first defined and as they were
written then. A running program sees a chain of scopes, the innermost first: a name means its
nearest binding, an assignment changes the nearest binding and never makes a new one, and a
definition acts on the innermost scope alone.
-/

namespace Lox

abbrev Bindings := List (Name × Value)

namespace Bindings

def get? (bindings : Bindings) (name : Name) : Option Value :=
  (bindings.find? fun entry => entry.1.normal = name.normal).map (·.2)

def binds (bindings : Bindings) (name : Name) : Bool :=
  (bindings.get? name).isSome

/-- Binds a name, in place of an earlier binding of it, which keeps the name as it was written. -/
def put (name : Name) (value : Value) : Bindings → Bindings
  | [] => [(name, value)]
  | entry :: rest =>
    if entry.1.normal = name.normal then (entry.1, value) :: rest else entry :: put name value rest

end Bindings

/-- A chain of scopes, the innermost first. -/
abbrev Scopes := List Bindings

namespace Scopes

/-- The value of a name in the nearest scope that binds it. -/
def get? (scopes : Scopes) (name : Name) : Option Value :=
  scopes.findSome? fun bindings => bindings.get? name

def binds (scopes : Scopes) (name : Name) : Bool :=
  scopes.any fun bindings => bindings.binds name

def define (name : Name) (value : Value) : Scopes → Scopes
  | [] => [Bindings.put name value []]
  | innermost :: outer => innermost.put name value :: outer

/-- Gives a name a new value in the nearest scope that binds it; `none` when no scope does. -/
def assign? (name : Name) (value : Value) : Scopes → Option Scopes
  | [] => none
  | innermost :: outer =>
    if innermost.binds name then some (innermost.put name value :: outer)
    else (assign? name value outer).map (innermost :: ·)

def depth (scopes : Scopes) : Nat :=
  scopes.length - 1

end Scopes

end Lox
