import Lox.Diagnostic
import Lox.Scope.Tree

/-!
# Operations on a tree of scopes

What can be done with a scope of a tree: another scope can be made below it, a name can be defined in
it, and a variable can be assigned, read and looked for as seen from it. To assign or to read a
variable that no scope binds is an error, which carries the token that named the variable and leaves
the tree as it was.
-/

namespace Lox

/-- A token that names a variable. -/
structure Mention where
  token : Token
  name : Name
  spells : Name.ofJson? token.lexeme = some name

/-- Something to be done with a scope of a tree. -/
inductive ScopeOperation where
  | push (parent : Nat)
  | define (scope : Nat) (name : Name) (value : Value)
  | assign (scope : Nat) (mention : Mention) (value : Value)
  | get (scope : Nat) (mention : Mention)
  | contains (scope : Nat) (name : Name)

def ScopeOperation.scope : ScopeOperation → Nat
  | push scope | define scope _ _ | assign scope _ _ | get scope _ | contains scope _ => scope

/-- What an operation answers: the number of a new scope, nothing, a value, or whether a name is
bound. -/
inductive ScopeAnswer where
  | made (scope : Nat)
  | done
  | value (value : Value)
  | contained (isBound : Bool)

namespace ScopeTree

/-- The answer to an operation and the tree after it. -/
def perform (tree : ScopeTree) : ScopeOperation → Except RuntimeError ScopeAnswer × ScopeTree
  | .push parent => (.ok (.made tree.scopes.length), tree.push parent)
  | .define scope name value => (.ok .done, tree.define scope name value)
  | .assign scope mention value =>
    match tree.assign? scope mention.name value with
    | some changed => (.ok (.value value), changed)
    | none => (.error (.undefinedVariable mention.token), tree)
  | .get scope mention =>
    match tree.get? scope mention.name with
    | some found => (.ok (.value found), tree)
    | none => (.error (.undefinedVariable mention.token), tree)
  | .contains scope name => (.ok (.contained (tree.binds scope name)), tree)

def performAll (tree : ScopeTree) (operations : List ScopeOperation) : ScopeTree :=
  operations.foldl (fun tree operation => (tree.perform operation).2) tree

end ScopeTree

end Lox
