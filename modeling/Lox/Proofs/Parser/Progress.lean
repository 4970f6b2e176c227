import Lox.Proofs.Computation
import Lox.Proofs.Parser.Composition

/-!
# The parser moves forward

Whatever a parser does, the tokens that it leaves are a rear part of those it was given, and the
faults that it has reported stay reported. This is said once for every parser of expressions
(`keeps_suffix_expression`) and for every parser of statements (`keeps_forward_statement`), whether
it returns or stops.
-/

namespace Lox.Parser

open Lox.Computation

/-! ## Expressions -/

section Expressions

variable {base : List Token}

theorem keeps_suffix_expect (kind : Kind) (complaint : Complaint) :
    Keeps (· <:+ base) (expect kind complaint) := by
  intro tokens hsuffix
  cases tokens with
  | nil => exact hsuffix
  | cons t rest =>
    rw [expect]
    split
    · exact (List.suffix_cons t rest).trans hsuffix
    · exact hsuffix

theorem keeps_suffix_chainFrom {isOperator : Kind → Bool} {operand : ExprParser Node}
    (hoperand : Keeps (· <:+ base) operand) (count : Nat) (left : Node) :
    Keeps (· <:+ base) (chainFrom isOperator operand count left) := by
  induction count generalizing left with
  | zero => exact keeps_pure left
  | succ count ih =>
    intro tokens hsuffix
    rw [chainFrom, get_bind]
    cases tokens with
    | nil => exact hsuffix
    | cons t rest =>
      dsimp only
      split
      · rw [set_bind]
        exact hoperand.bind (fun _ => ih _) rest ((List.suffix_cons t rest).trans hsuffix)
      · exact hsuffix

theorem keeps_suffix_chain {isOperator : Kind → Bool} {operand : ExprParser Node}
    (hoperand : Keeps (· <:+ base) operand) : Keeps (· <:+ base) (chain isOperator operand) := by
  refine hoperand.bind fun left tokens hsuffix => ?_
  rw [get_bind]
  split
  · exact keeps_suffix_chainFrom hoperand _ _ tokens hsuffix
  · exact hsuffix

theorem keeps_suffix_equality {operand : ExprParser Node} (hoperand : Keeps (· <:+ base) operand) :
    Keeps (· <:+ base) (equality operand) :=
  keeps_suffix_chain (keeps_suffix_chain (keeps_suffix_chain (keeps_suffix_chain hoperand)))

theorem keeps_suffix_assignTo (target value : Node) (found : List Token) :
    Keeps (· <:+ base) (assignTo target value found) := by
  unfold assignTo
  split
  · exact keeps_pure _
  · exact keeps_throw _

theorem keeps_suffix_assignment_unary (limit : Nat) :
    Keeps (· <:+ base) (assignment limit) ∧ Keeps (· <:+ base) (unary limit) := by
  induction limit with
  | zero => exact ⟨keeps_throw _, keeps_throw _⟩
  | succ limit ih =>
    refine ⟨?_, ?_⟩
    · rw [assignment]
      refine (keeps_suffix_equality ih.2).bind fun target found hsuffix => ?_
      rw [get_bind]
      split
      · rw [set_bind]
        exact ih.1.bind (fun _ => keeps_suffix_assignTo _ _ _) _
          ((List.tail_suffix found).trans hsuffix)
      · exact hsuffix
    · intro tokens hsuffix
      rw [unary, get_bind]
      cases tokens with
      | nil => exact hsuffix
      | cons t rest =>
        have hrest := (List.suffix_cons t rest).trans hsuffix
        dsimp only
        split
        · rw [set_bind]
          exact ih.2.bind (fun _ => keeps_pure _) rest hrest
        · split
          · rw [set_bind]
            refine ih.1.bind (fun _ => ?_) rest hrest
            exact (keeps_suffix_expect _ _).bind fun _ => keeps_pure _
          · cases leaf? t with
            | none => exact hsuffix
            | some leaf => exact hrest

/-- What an expression leaves is a rear part of what it was given. -/
theorem keeps_suffix_expression (limit : Nat) : Keeps (· <:+ base) (expression limit) :=
  (keeps_suffix_assignment_unary limit).1

end Expressions

/-! ## Statements -/

/-- One state of a parser comes after another: tokens were taken and faults were added. -/
structure Forward (s s' : Progress) : Prop where
  rest : s'.rest <:+ s.rest
  reports : s.reports <:+ s'.reports

theorem Forward.refl (s : Progress) : Forward s s :=
  ⟨List.suffix_rfl, List.suffix_rfl⟩

theorem Forward.trans {s s' s'' : Progress} (h : Forward s s') (h' : Forward s' s'') :
    Forward s s'' :=
  ⟨h'.rest.trans h.rest, h.reports.trans h'.reports⟩

theorem synchronize_suffix (tokens : List Token) : synchronize tokens <:+ tokens := by
  induction tokens with
  | nil => exact List.suffix_rfl
  | cons t rest ih =>
    rw [synchronize]
    split
    · exact List.suffix_cons t rest
    · exact ih.trans (List.suffix_cons t rest)

section Statements

variable {start : Progress}

theorem keeps_forward_quietly {α : Type} {parser : ExprParser α}
    (hparser : ∀ base, Keeps (· <:+ base) parser) : Keeps (Forward start) (quietly parser) := by
  intro s hforward
  have hend := hparser s.rest s.rest List.suffix_rfl
  rw [quietly]
  cases hrun : parser s.rest with
  | ok a rest =>
    rw [hrun] at hend
    exact ⟨hend.trans hforward.rest, hforward.reports⟩
  | error halt rest =>
    rw [hrun] at hend
    exact ⟨hend.trans hforward.rest, hforward.reports⟩

theorem keeps_forward_expect (kind : Kind) (complaint : Complaint) :
    Keeps (Forward start) (quietly (expect kind complaint)) :=
  keeps_forward_quietly fun _ => keeps_suffix_expect kind complaint

theorem keeps_forward_nextKind : Keeps (Forward start) nextKind :=
  fun _ hforward => hforward

theorem keeps_forward_advance : Keeps (Forward start) advance :=
  fun s hforward => ⟨(List.tail_suffix s.rest).trans hforward.rest, hforward.reports⟩

theorem keeps_forward_recovering {parser : StmtParser Node}
    (hparser : Keeps (Forward start) parser) : Keeps (Forward start) (recovering parser) := by
  intro s hforward
  have hend := hparser s hforward
  rw [recovering]
  cases hrun : parser s with
  | ok node after =>
    rw [hrun] at hend
    exact hend
  | error halt after =>
    rw [hrun] at hend
    cases halt with
    | fault fault =>
      exact ⟨(synchronize_suffix after.rest).trans hend.rest,
        hend.reports.trans (List.suffix_cons fault after.reports)⟩
    | tooDeep => exact hend

theorem handedOn_forward (start : Progress) :
    HandedOn fun _ parser => Keeps (Forward start) parser where
  pure := keeps_pure
  bind := Keeps.bind
  nextKind := keeps_forward_nextKind
  advance := keeps_forward_advance
  expect kind complaint _ := keeps_forward_expect kind complaint

theorem keeps_forward_varDeclaration {expression : ExprParser Node}
    (hexpression : Keeps (Forward start) (quietly expression)) :
    Keeps (Forward start) (varDeclaration expression) :=
  (handedOn_forward start).varDeclaration hexpression

theorem keeps_forward_declaration {expression : ExprParser Node} {statement : StmtParser Node}
    (hexpression : Keeps (Forward start) (quietly expression))
    (hstatement : Keeps (Forward start) statement) :
    Keeps (Forward start) (declaration expression statement) := by
  refine keeps_forward_recovering (keeps_forward_nextKind.bind fun next => ?_)
  split
  · exact keeps_forward_varDeclaration hexpression
  · exact hstatement

theorem keeps_forward_declarations {declaration : StmtParser (Option Node)}
    (hdeclaration : Keeps (Forward start) declaration) (count : Nat) :
    Keeps (Forward start) (declarations declaration count) :=
  (handedOn_forward start).declarations hdeclaration count

theorem keeps_forward_blockStatement {declaration : StmtParser (Option Node)}
    (hdeclaration : Keeps (Forward start) declaration) :
    Keeps (Forward start) (blockStatement declaration) := by
  refine keeps_forward_advance.bind fun _ s hforward => ?_
  rw [get_bind]
  refine (keeps_forward_declarations hdeclaration _).bind (fun _ => ?_) s hforward
  exact (keeps_forward_expect _ _).bind fun _ => keeps_pure _

/-- A statement only moves forward. -/
theorem keeps_forward_statement (limit : Nat) : Keeps (Forward start) (statement limit) := by
  induction limit with
  | zero => exact keeps_throw _
  | succ limit ih =>
    have hexpression : Keeps (Forward start) (quietly (expression limit)) :=
      keeps_forward_quietly fun _ => keeps_suffix_expression limit
    have hparts := handedOn_forward start
    refine keeps_forward_nextKind.bind fun next => ?_
    split
    · exact hparts.printStatement hexpression
    · exact keeps_forward_blockStatement (keeps_forward_declaration hexpression ih)
    · exact hparts.ifStatement hexpression ih
    · exact hparts.whileStatement hexpression ih
    · exact hparts.expressionStatement hexpression

/-- A declaration at the top level only moves forward. -/
theorem keeps_forward_topDeclaration (limit : Nat) :
    Keeps (Forward start) (declaration (expression limit) (statement limit)) :=
  keeps_forward_declaration (keeps_forward_quietly fun _ => keeps_suffix_expression limit)
    (keeps_forward_statement limit)

end Statements

/-- The faults reported before a program is parsed are still reported after it. -/
theorem reports_suffix_topLevel (limit count : Nat) (state : Progress) :
    state.reports <:+ (topLevel limit count state).2 := by
  induction count generalizing state with
  | zero => exact List.suffix_rfl
  | succ count ih =>
    rw [topLevel]
    split
    · exact List.suffix_rfl
    · have hend := keeps_forward_topDeclaration limit state (Forward.refl state)
      split
      · next node after hrun =>
        rw [hrun] at hend
        exact hend.reports.trans (ih after)
      · next fault after hrun =>
        rw [hrun] at hend
        exact (hend.reports.trans (List.suffix_cons _ _)).trans (ih ⟨_, _⟩)
      · next after hrun =>
        rw [hrun] at hend
        exact (hend.reports.trans (List.suffix_cons _ _)).trans (ih ⟨_, _⟩)

end Lox.Parser
