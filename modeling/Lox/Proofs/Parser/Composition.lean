import Lox.Parser.Statement

/-!
# Properties that parsers hand on

Most of what is said of every parser of statements is handed on from the parts of a parser to the
whole. What that takes is written down once (`HandedOn`), and so is what it gives: each kind of
statement has the property if the expressions and statements in it have it. Blocks are left to the
property, because they are where faults are reported.
-/

namespace Lox.Parser

/-- A property that a parser of statements has if its parts have it. -/
structure HandedOn (P : (α : Type) → StmtParser α → Prop) : Prop where
  pure : ∀ {α : Type} (a : α), P α (Pure.pure a)
  bind : ∀ {α β : Type} {parser : StmtParser α} {next : α → StmtParser β},
    P α parser → (∀ a, P β (next a)) → P β (parser >>= next)
  nextKind : P (Option Kind) nextKind
  advance : P Unit advance
  expect : ∀ (kind : Kind) {complaint : Complaint}, complaint ≠ .braceAfterBlock →
    P Token (quietly (expect kind complaint))

namespace HandedOn

variable {P : (α : Type) → StmtParser α → Prop} (h : HandedOn P) {expression : ExprParser Node}
  {statement : StmtParser Node}

include h

theorem declarations {declaration : StmtParser (Option Node)}
    (hdeclaration : P (Option Node) declaration) (count : Nat) :
    P (List Node) (declarations declaration count) := by
  induction count with
  | zero => exact h.pure []
  | succ count ih =>
    refine h.bind h.nextKind fun next => ?_
    split
    · exact h.pure []
    · exact h.pure []
    · exact h.bind hdeclaration fun _ => h.bind ih fun _ => h.pure _

/-- An expression and the token behind it. -/
theorem value (hexpression : P Node (quietly expression)) (build : Node → Node) (kind : Kind)
    {complaint : Complaint} (hcomplaint : complaint ≠ .braceAfterBlock) :
    P Node (do
      let value ← quietly expression
      let _ ← quietly (Parser.expect kind complaint)
      return build value) :=
  h.bind hexpression fun _ => h.bind (h.expect kind hcomplaint) fun _ => h.pure _

theorem varDeclaration (hexpression : P Node (quietly expression)) :
    P Node (varDeclaration expression) := by
  refine h.bind h.advance fun _ => h.bind (h.expect _ (by decide)) fun name => ?_
  refine h.bind h.nextKind fun next => ?_
  dsimp only
  split
  · exact h.bind h.advance fun _ => h.value hexpression (.varDecl (.token name)) _ (by decide)
  · rw [pure_bind]
    exact h.bind (h.expect _ (by decide)) fun _ => h.pure _

theorem printStatement (hexpression : P Node (quietly expression)) :
    P Node (printStatement expression) :=
  h.bind h.advance fun _ => h.value hexpression .printStmt _ (by decide)

theorem expressionStatement (hexpression : P Node (quietly expression)) :
    P Node (expressionStatement expression) :=
  h.value hexpression .exprStmt _ (by decide)

/-- A condition in parentheses, with the parser that goes on after it. -/
theorem condition {next : Node → StmtParser Node} {opens closes : Complaint}
    (hexpression : P Node (quietly expression)) (hopens : opens ≠ .braceAfterBlock)
    (hcloses : closes ≠ .braceAfterBlock) (hnext : ∀ condition, P Node (next condition)) :
    P Node (do
      let _ ← quietly (Parser.expect .leftParen opens)
      let condition ← quietly expression
      let _ ← quietly (Parser.expect .rightParen closes)
      next condition) := by
  refine h.bind (h.expect _ hopens) fun _ => h.bind hexpression fun condition => ?_
  exact h.bind (h.expect _ hcloses) fun _ => hnext condition

theorem ifStatement (hexpression : P Node (quietly expression)) (hstatement : P Node statement) :
    P Node (ifStatement expression statement) := by
  refine h.bind h.advance fun _ => h.condition hexpression (by decide) (by decide) fun _ => ?_
  refine h.bind hstatement fun _ => h.bind h.nextKind fun next => ?_
  split
  · exact h.bind h.advance fun _ => h.bind hstatement fun _ => h.pure _
  · exact h.pure _

theorem whileStatement (hexpression : P Node (quietly expression)) (hstatement : P Node statement) :
    P Node (whileStatement expression statement) := by
  refine h.bind h.advance fun _ => h.condition hexpression (by decide) (by decide) fun _ => ?_
  exact h.bind hstatement fun _ => h.pure _

end HandedOn

end Lox.Parser
