import Lox.Scope.Basic

/-!
# Trees of scopes

Scopes that share their surroundings form a tree: every scope but the outermost has a parent, and
what is assigned through one scope is seen through all scopes below the one that changed. Scopes are
named by the order in which they were made.
-/

namespace Lox

/-- A scope with the number of the scope around it. -/
structure TreeScope where
  parent : Option Nat
  bindings : Bindings

/-- The scopes of a tree, each by its number. -/
structure ScopeTree where
  scopes : List TreeScope

namespace ScopeTree

def single : ScopeTree :=
  ⟨[⟨none, []⟩]⟩

def bindings (tree : ScopeTree) (scope : Nat) : Bindings :=
  (tree.scopes[scope]?.map (·.bindings)).getD []

/-- Up to `count` scopes from one outward. -/
def pathUpTo (tree : ScopeTree) : Nat → Nat → List Nat
  | 0, _ => []
  | count + 1, scope =>
    match tree.scopes[scope]? with
    | none => []
    | some entry =>
      match entry.parent with
      | none => [scope]
      | some parent => scope :: tree.pathUpTo count parent

def path (tree : ScopeTree) (scope : Nat) : List Nat :=
  tree.pathUpTo tree.scopes.length scope

/-- The chain of bindings that a scope sees. -/
def chain (tree : ScopeTree) (scope : Nat) : Scopes :=
  (tree.path scope).map tree.bindings

def get? (tree : ScopeTree) (scope : Nat) (name : Name) : Option Value :=
  (tree.chain scope).get? name

def binds (tree : ScopeTree) (scope : Nat) (name : Name) : Bool :=
  (tree.chain scope).binds name

def depth (tree : ScopeTree) (scope : Nat) : Nat :=
  (tree.chain scope).depth

/-- The nearest scope that binds a name as seen from a scope. -/
def owner? (tree : ScopeTree) (scope : Nat) (name : Name) : Option Nat :=
  (tree.path scope).find? fun outer => (tree.bindings outer).binds name

/-- Makes a scope below another; it takes the next number. -/
def push (tree : ScopeTree) (parent : Nat) : ScopeTree :=
  ⟨tree.scopes ++ [⟨some parent, []⟩]⟩

/-- Forgets the scope made last. -/
def pop (tree : ScopeTree) : ScopeTree :=
  ⟨tree.scopes.dropLast⟩

def define (tree : ScopeTree) (scope : Nat) (name : Name) (value : Value) : ScopeTree :=
  ⟨tree.scopes.modify scope fun entry =>
    { entry with bindings := entry.bindings.put name value }⟩

/-- Gives a name a new value in the nearest scope that binds it; `none` when no scope does. -/
def assign? (tree : ScopeTree) (scope : Nat) (name : Name) (value : Value) :
    Option ScopeTree :=
  (tree.owner? scope name).map fun owner => tree.define owner name value

end ScopeTree

end Lox
