import Lox.Proofs.Lookahead.Statement
import Lox.Proofs.Parser.Recovery
import Lox.Proofs.Relocation.Basic

/-!
# Parsing further down

The parser never looks at the line of a token. So what it makes of tokens some lines further down is
what it makes of the tokens themselves, moved down: the trees, the faults, and whether it stops
because of the nesting.

Two programs one after the other are parsed as each of them alone, if the first has no errors and the
second does not begin with an `else`. The limit of nesting does not come in, since every statement is
taken by itself.
-/

namespace Lox

open Lox.Computation Grammar

namespace Parser

def Fault.moved (lines : Int) (fault : Fault) : Fault :=
  ⟨fault.found.map (Token.moved lines), fault.complaint⟩

def Halt.moved (lines : Int) : Halt → Halt
  | .fault found => .fault (found.moved lines)
  | .tooDeep => .tooDeep

def Progress.moved (lines : Int) (s : Progress) : Progress :=
  ⟨s.rest.map (Token.moved lines), s.reports.map (Fault.moved lines)⟩

/-- What a parser returns, with the value and the state moved down. -/
def movedResult {σ α : Type} (lines : Int) (move : σ → σ) (g : α → α) :
    EStateM.Result Halt σ α → EStateM.Result Halt σ α
  | .ok a s => .ok (g a) (move s)
  | .error halt s => .error (halt.moved lines) (move s)

/-- From a state that is moved down, one parser does what another one does from the state itself. -/
def Moves {σ α : Type} (lines : Int) (move : σ → σ) (g : α → α)
    (parser parser' : EStateM Halt σ α) : Prop :=
  ∀ s, parser' (move s) = movedResult lines move g (parser s)

section Rules

variable {σ α : Type} {lines : Int} {move : σ → σ}

theorem Moves.bind {β : Type} {g : α → α} {h : β → β} {parser parser' : EStateM Halt σ α}
    {next next' : α → EStateM Halt σ β} (hparser : Moves lines move g parser parser')
    (hnext : ∀ a, Moves lines move h (next a) (next' (g a))) :
    Moves lines move h (parser >>= next) (parser' >>= next') := by
  intro s
  have hfirst := hparser s
  cases hrun : parser s with
  | ok a s' =>
    rw [hrun] at hfirst
    rw [bind_of_ok hrun, bind_of_ok hfirst]
    exact hnext a s'
  | error halt s' =>
    rw [hrun] at hfirst
    rw [bind_of_error hrun, bind_of_error hfirst]
    rfl

theorem moves_pure {g : α → α} {a a' : α} (ha : a' = g a) :
    Moves lines move g (pure a) (pure a') := by
  intro s
  rw [ha]
  rfl

theorem moves_throw {g : α → α} {halt halt' : Halt} (hhalt : halt' = halt.moved lines) :
    Moves lines move g (throw halt) (throw halt') := by
  intro s
  rw [hhalt]
  rfl

end Rules

/-! ## Expressions -/

section Expression

variable (lines : Int)

abbrev ExprMoves {α : Type} (g : α → α) (parser parser' : ExprParser α) : Prop :=
  Moves lines (List.map (Token.moved lines)) g parser parser'

theorem beginsWith_moved (accepts : Kind → Bool) (tokens : List Token) :
    beginsWith accepts (tokens.map (Token.moved lines)) = beginsWith accepts tokens := by
  cases tokens <;> rfl

theorem leaf?_moved (t : Token) : leaf? (t.moved lines) = (leaf? t).map (Node.moved lines) := by
  unfold leaf?
  rw [Token.moved_kind, Token.moved_literal]
  cases t.kind <;> rfl

theorem moves_expect (kind : Kind) (complaint : Complaint) :
    ExprMoves lines (Token.moved lines) (expect kind complaint) (expect kind complaint) := by
  intro tokens
  cases tokens with
  | nil => rfl
  | cons t rest =>
    by_cases hkind : t.kind = kind
    · simp [expect, hkind, movedResult]
    · simp [expect, hkind, movedResult, Halt.moved, Fault.moved]

variable {lines}

theorem moves_chainFrom {isOperator : Kind → Bool} {operand : ExprParser Node}
    (hoperand : ExprMoves lines (Node.moved lines) operand operand) (count : Nat) (left : Node) :
    ExprMoves lines (Node.moved lines) (chainFrom isOperator operand count left)
      (chainFrom isOperator operand count (left.moved lines)) := by
  induction count generalizing left with
  | zero => exact moves_pure rfl
  | succ count ih =>
    intro tokens
    cases tokens with
    | nil => rfl
    | cons t rest =>
      rw [List.map_cons, chainFrom, chainFrom, get_bind, get_bind]
      dsimp only
      rw [Token.moved_kind]
      split
      · rw [set_bind, set_bind]
        exact hoperand.bind (fun right => ih (.binary left (.token t) right)) rest
      · rfl

theorem moves_chain {isOperator : Kind → Bool} {operand : ExprParser Node}
    (hoperand : ExprMoves lines (Node.moved lines) operand operand) :
    ExprMoves lines (Node.moved lines) (chain isOperator operand) (chain isOperator operand) := by
  refine hoperand.bind fun left tokens => ?_
  rw [get_bind, get_bind, beginsWith_moved, List.length_map]
  split
  · exact moves_chainFrom hoperand tokens.length left tokens
  · rfl

theorem moves_equality {operand : ExprParser Node}
    (hoperand : ExprMoves lines (Node.moved lines) operand operand) :
    ExprMoves lines (Node.moved lines) (equality operand) (equality operand) :=
  moves_chain (moves_chain (moves_chain (moves_chain hoperand)))

theorem moves_assignTo (target value : Node) (found : List Token) :
    ExprMoves lines (Node.moved lines) (assignTo target value found)
      (assignTo (target.moved lines) (value.moved lines) (found.map (Token.moved lines))) := by
  cases target with
  | varRef name => exact moves_pure rfl
  | _ => exact moves_throw rfl

theorem moves_assignment_unary (limit : Nat) :
    ExprMoves lines (Node.moved lines) (assignment limit) (assignment limit) ∧
      ExprMoves lines (Node.moved lines) (unary limit) (unary limit) := by
  induction limit with
  | zero => exact ⟨moves_throw rfl, moves_throw rfl⟩
  | succ limit ih =>
    refine ⟨?_, fun tokens => ?_⟩
    · rw [assignment]
      refine (moves_equality ih.2).bind fun target found => ?_
      rw [get_bind, get_bind, beginsWith_moved]
      split
      · rw [set_bind, set_bind, ← List.map_tail]
        exact ih.1.bind (fun value => moves_assignTo target value found) found.tail
      · rfl
    · cases tokens with
      | nil => rfl
      | cons t rest =>
        rw [List.map_cons, unary, get_bind, get_bind]
        dsimp only
        rw [Token.moved_kind, leaf?_moved]
        split
        · rw [set_bind, set_bind]
          refine ih.2.bind (fun right => ?_) rest
          exact moves_pure rfl
        · split
          · rw [set_bind, set_bind]
            refine ih.1.bind (fun inner => ?_) rest
            exact (moves_expect lines .rightParen .parenAfterExpression).bind fun _ => moves_pure rfl
          · cases leaf? t <;> rfl

end Expression

/-! ## Statements -/

section Statement

variable {lines : Int}

abbrev StmtMoves (lines : Int) {α : Type} (g : α → α) (parser parser' : StmtParser α) : Prop :=
  Moves lines (Progress.moved lines) g parser parser'

theorem moves_quietly {α : Type} {g : α → α} {parser parser' : ExprParser α}
    (hparser : ExprMoves lines g parser parser') :
    StmtMoves lines g (quietly parser) (quietly parser') := by
  intro s
  have hrest := hparser s.rest
  rw [quietly, quietly, Progress.moved, hrest]
  cases parser s.rest <;> rfl

theorem moves_quietly_expect (kind : Kind) (complaint : Complaint) :
    StmtMoves lines (Token.moved lines) (quietly (expect kind complaint))
      (quietly (expect kind complaint)) :=
  moves_quietly (moves_expect lines kind complaint)

theorem moves_nextKind : StmtMoves lines id nextKind nextKind := by
  intro s
  obtain ⟨tokens, reports⟩ := s
  cases tokens <;> rfl

theorem moves_advance : StmtMoves lines id advance advance := by
  intro s
  obtain ⟨tokens, reports⟩ := s
  cases tokens <;> rfl

theorem synchronize_moved (tokens : List Token) :
    synchronize (tokens.map (Token.moved lines)) = (synchronize tokens).map (Token.moved lines) := by
  induction tokens with
  | nil => rfl
  | cons t rest ih =>
    rw [List.map_cons, synchronize, synchronize, Token.moved_kind, atStatement, beginsWith_moved, ih]
    split <;> rfl

theorem skipStatement_moved (depth : Nat) (tokens : List Token) :
    skipStatement depth (tokens.map (Token.moved lines)) =
      (skipStatement depth tokens).map (Token.moved lines) := by
  induction tokens generalizing depth with
  | nil => rfl
  | cons t rest ih =>
    simp only [List.map_cons, skipStatement, Token.moved_kind, ih]
    cases t.kind <;> dsimp only <;> try split
    all_goals rfl

theorem Moves.recovering {parser parser' : StmtParser Node}
    (hparser : StmtMoves lines (Node.moved lines) parser parser') :
    StmtMoves lines (Option.map (Node.moved lines)) (recovering parser) (recovering parser') := by
  intro s
  rw [Parser.recovering, Parser.recovering, hparser s]
  cases parser s with
  | ok node after => rfl
  | error halt after =>
    cases halt with
    | fault fault => simp [movedResult, Halt.moved, Progress.moved, synchronize_moved]
    | tooDeep => rfl

section Parts

variable {expression : ExprParser Node} {statement : StmtParser Node}

theorem moves_varDeclaration
    (hexpression : ExprMoves lines (Node.moved lines) expression expression) :
    StmtMoves lines (Node.moved lines) (varDeclaration expression) (varDeclaration expression) := by
  refine moves_advance.bind fun _ => (moves_quietly_expect _ _).bind fun name => ?_
  refine moves_nextKind.bind fun next => ?_
  have hend (initializer : Node) : StmtMoves lines (Node.moved lines)
      (do
        let _ ← quietly (expect .semicolon .semicolonAfterDeclaration)
        return Node.varDecl (.token name) initializer)
      (do
        let _ ← quietly (expect .semicolon .semicolonAfterDeclaration)
        return Node.varDecl (.token (name.moved lines)) (initializer.moved lines)) :=
    (moves_quietly_expect _ _).bind fun _ => moves_pure rfl
  dsimp only [id]
  split
  · exact moves_advance.bind fun _ => (moves_quietly hexpression).bind hend
  · exact hend .absent

theorem moves_declaration
    (hexpression : ExprMoves lines (Node.moved lines) expression expression)
    (hstatement : StmtMoves lines (Node.moved lines) statement statement) :
    StmtMoves lines (Option.map (Node.moved lines)) (declaration expression statement)
      (declaration expression statement) := by
  refine Moves.recovering (moves_nextKind.bind fun next => ?_)
  dsimp only [id]
  split
  · exact moves_varDeclaration hexpression
  · exact hstatement

theorem moves_declarations {declaration : StmtParser (Option Node)}
    (hdeclaration : StmtMoves lines (Option.map (Node.moved lines)) declaration declaration)
    (count : Nat) :
    StmtMoves lines (List.map (Node.moved lines)) (declarations declaration count)
      (declarations declaration count) := by
  induction count with
  | zero => exact moves_pure rfl
  | succ count ih =>
    refine moves_nextKind.bind fun next => ?_
    dsimp only [id]
    split
    · exact moves_pure rfl
    · exact moves_pure rfl
    · refine hdeclaration.bind fun first => ih.bind fun others => moves_pure ?_
      cases first <;> simp

theorem moves_blockStatement {declaration : StmtParser (Option Node)}
    (hdeclaration : StmtMoves lines (Option.map (Node.moved lines)) declaration declaration) :
    StmtMoves lines (Node.moved lines) (blockStatement declaration) (blockStatement declaration) := by
  refine moves_advance.bind fun _ s => ?_
  rw [get_bind, get_bind, Progress.moved, List.length_map]
  refine (moves_declarations hdeclaration s.rest.length).bind (fun statements => ?_) s
  refine (moves_quietly_expect _ _).bind fun _ => moves_pure ?_
  simp [Node.moved]

theorem moves_ifStatement
    (hexpression : ExprMoves lines (Node.moved lines) expression expression)
    (hstatement : StmtMoves lines (Node.moved lines) statement statement) :
    StmtMoves lines (Node.moved lines) (ifStatement expression statement)
      (ifStatement expression statement) := by
  refine moves_advance.bind fun _ => (moves_quietly_expect _ _).bind fun _ => ?_
  refine (moves_quietly hexpression).bind fun condition => ?_
  refine (moves_quietly_expect _ _).bind fun _ => hstatement.bind fun thenBranch => ?_
  refine moves_nextKind.bind fun next => ?_
  dsimp only [id]
  split
  · exact moves_advance.bind fun _ => hstatement.bind fun elseBranch => moves_pure rfl
  · exact moves_pure rfl

theorem moves_whileStatement
    (hexpression : ExprMoves lines (Node.moved lines) expression expression)
    (hstatement : StmtMoves lines (Node.moved lines) statement statement) :
    StmtMoves lines (Node.moved lines) (whileStatement expression statement)
      (whileStatement expression statement) := by
  refine moves_advance.bind fun _ => (moves_quietly_expect _ _).bind fun _ => ?_
  refine (moves_quietly hexpression).bind fun condition => ?_
  exact (moves_quietly_expect _ _).bind fun _ => hstatement.bind fun body => moves_pure rfl

end Parts

theorem moves_statement (limit : Nat) :
    StmtMoves lines (Node.moved lines) (statement limit) (statement limit) := by
  induction limit with
  | zero => exact moves_throw rfl
  | succ limit ih =>
    have hexpression : ExprMoves lines (Node.moved lines) (expression limit) (expression limit) :=
      (moves_assignment_unary limit).1
    refine moves_nextKind.bind fun next => ?_
    dsimp only [id]
    split
    · refine moves_advance.bind fun _ => (moves_quietly hexpression).bind fun value => ?_
      exact (moves_quietly_expect _ _).bind fun _ => moves_pure rfl
    · exact moves_blockStatement (moves_declaration hexpression ih)
    · exact moves_ifStatement hexpression ih
    · exact moves_whileStatement hexpression ih
    · refine (moves_quietly hexpression).bind fun value => ?_
      exact (moves_quietly_expect _ _).bind fun _ => moves_pure rfl

/-- The trees of a program further down are those of the program, moved down, and so are its
faults. -/
theorem topLevel_moved (lines : Int) (limit count : Nat) (s : Progress) :
    topLevel limit count (s.moved lines) =
      ((topLevel limit count s).1.map (Node.moved lines),
        (topLevel limit count s).2.map (Fault.moved lines)) := by
  induction count generalizing s with
  | zero => rfl
  | succ count ih =>
    by_cases hrest : s.rest = []
    · obtain ⟨rest, reports⟩ := s
      subst hrest
      rfl
    have hrest' : (s.moved lines).rest ≠ [] := by simpa [Progress.moved] using hrest
    have hmoves : StmtMoves lines (Option.map (Node.moved lines))
        (declaration (expression limit) (statement limit))
        (declaration (expression limit) (statement limit)) :=
      moves_declaration (moves_assignment_unary limit).1 (moves_statement limit)
    have hmoved := hmoves s
    cases hrun : declaration (expression limit) (statement limit) s with
    | ok result after =>
      rw [hrun] at hmoved
      rw [topLevel_of_ok hrest hrun, topLevel_of_ok hrest' hmoved, ih]
      cases result <;> simp
    | error halt after =>
      cases halt with
      | fault fault => exact absurd hrun declaration_ne_fault
      | tooDeep =>
        rw [hrun] at hmoved
        rw [topLevel_of_tooDeep hrest hrun, topLevel_of_tooDeep hrest' hmoved, ← ih]
        simp [Progress.moved, Fault.moved, skipStatement_moved]

end Statement

/-! ## One program after another -/

section Append

variable {limit : Nat} {tokens others : List Token} {nodes : List Node}

theorem sameElse_append (hothers : Stops [.elseWord] others) (rest : List Token) :
    SameElse rest (rest ++ others) := by
  cases rest with
  | cons t rest => rfl
  | nil =>
    cases others with
    | nil => rfl
    | cons t others =>
      have hkind : t.kind ≠ .elseWord := by simpa using hothers t rfl
      simp [SameElse, beginsWith, hkind]

/-- The first declaration of a program without faults, and the program after it. -/
theorem topLevel_first (htokens : tokens ≠ [])
    (htop : topLevel limit tokens.length ⟨tokens, []⟩ = (nodes, [])) :
    ∃ result rest later, declaration (expression limit) (statement limit) ⟨tokens, []⟩ =
        .ok result ⟨rest, []⟩ ∧ rest.length < tokens.length ∧
      topLevel limit rest.length ⟨rest, []⟩ = (later, []) ∧ nodes = result.toList ++ later := by
  obtain ⟨count, hcount⟩ : ∃ n, tokens.length = n + 1 :=
    ⟨tokens.length - 1, by have := List.length_pos_iff.2 htokens; omega⟩
  rw [hcount] at htop
  cases hrun : declaration (expression limit) (statement limit) ⟨tokens, []⟩ with
  | ok result after =>
    rw [topLevel_of_ok htokens hrun, Prod.mk.injEq] at htop
    obtain ⟨rfl, hfaults⟩ := htop
    have hreports := reports_suffix_topLevel limit count after
    rw [hfaults, List.suffix_nil] at hreports
    obtain ⟨rest, reports⟩ := after
    subst hreports
    have hshorter := declaration_shorter htokens hrun
    dsimp only at hshorter
    rw [topLevel_count limit (by dsimp only; omega) (Nat.le_refl _)] at hfaults ⊢
    exact ⟨result, rest, _, rfl, hshorter, Prod.ext rfl hfaults, rfl⟩
  | error halt after =>
    cases halt with
    | fault fault => exact absurd hrun declaration_ne_fault
    | tooDeep =>
      rw [topLevel_of_tooDeep htokens hrun] at htop
      have hreports := reports_suffix_topLevel limit count
        ⟨skipStatement 0 tokens, ⟨after.rest, .nesting⟩ :: after.reports⟩
      rw [htop, List.suffix_nil] at hreports
      cases hreports

/-- A program without faults in front of something that is no `else` is parsed as it is alone. -/
theorem topLevel_append (hothers : Stops [.elseWord] others)
    (htop : topLevel limit tokens.length ⟨tokens, []⟩ = (nodes, [])) :
    topLevel limit (tokens ++ others).length ⟨tokens ++ others, []⟩ =
      (nodes ++ (topLevel limit others.length ⟨others, []⟩).1,
        (topLevel limit others.length ⟨others, []⟩).2) := by
  induction hlength : tokens.length using Nat.strong_induction_on generalizing tokens nodes with
  | _ length ih =>
  subst hlength
  by_cases htokens : tokens = []
  · subst htokens
    cases htop
    rfl
  obtain ⟨result, rest, later, hrun, hshorter, hlater, rfl⟩ := topLevel_first htokens htop
  obtain ⟨taken, -, rfl, hlocal⟩ :=
    ((predicts_declaration (predicts_statement limit)).everywhere tokens).ok hrun
  have hjoined := hlocal (rest ++ others) (sameElse_append hothers rest)
  rw [← List.append_assoc] at hjoined
  have hlength : (taken ++ rest ++ others).length =
      (taken ++ rest ++ others).length - 1 + 1 := by
    have hpos := List.length_pos_iff.2 htokens
    rw [List.length_append]
    omega
  rw [hlength, topLevel_of_ok (List.append_ne_nil_of_left_ne_nil htokens _) hjoined, topLevel_count limit _ (Nat.le_refl _),
    ih rest.length hshorter hlater rfl, List.append_assoc]
  simp only [List.length_append] at hshorter ⊢
  omega

end Append

section Join

variable {limit : Nat} {tokens : List Token}

theorem topLevel_of_errors (herrors : (parse limit tokens).errors = []) :
    topLevel limit (beforeEnd tokens).1.length ⟨(beforeEnd tokens).1, []⟩ =
      ((parse limit tokens).statements, []) := by
  refine Prod.ext rfl ?_
  simpa [parse] using herrors

theorem beforeEnd_moved (lines : Int) (tokens : List Token) :
    (beforeEnd (tokens.map (Token.moved lines))).1 =
      (beforeEnd tokens).1.map (Token.moved lines) := by
  rw [beforeEnd_fst, beforeEnd_fst, List.takeWhile_map]
  rfl

theorem stops_moved {kinds : List Kind} (lines : Int) (h : Stops kinds tokens) :
    Stops kinds (tokens.map (Token.moved lines)) := by
  cases tokens with
  | nil => exact stops_nil
  | cons t rest => exact stops_cons (h t rfl)

/-- Two programs without errors, the second one moved down and put in place of the end of the first:
the statements of both. -/
theorem parse_join {first second : List Token} {last : Token} (lines : Int)
    (hfirst : ∀ t ∈ first, t.kind ≠ .eof) (hlast : last.kind = .eof)
    (herrors : (parse limit (first ++ [last])).errors = [])
    (herrors' : (parse limit second).errors = []) :
    parse limit (first ++ second.map (Token.moved lines)) =
      ⟨(parse limit (first ++ [last])).statements ++
        (parse limit second).statements.map (Node.moved lines), []⟩ := by
  have hbody : (beforeEnd (first ++ [last])).1 = first := by
    rw [beforeEnd_append hfirst, beforeEnd_fst, List.takeWhile_cons_of_neg (by simp [hlast]),
      List.append_nil]
  have hjoined : (beforeEnd (first ++ second.map (Token.moved lines))).1 =
      first ++ (beforeEnd second).1.map (Token.moved lines) := by
    rw [beforeEnd_append hfirst, beforeEnd_moved]
  have htop := topLevel_of_errors herrors
  rw [hbody] at htop
  have hmoved := topLevel_moved lines limit (beforeEnd second).1.length
    ⟨(beforeEnd second).1, []⟩
  rw [topLevel_of_errors herrors'] at hmoved
  have happend := topLevel_append (stops_moved lines (stops_else_program herrors')) htop
  rw [List.length_map, show topLevel limit _ ⟨_, []⟩ = _ from hmoved] at happend
  rw [parse, hjoined, happend]
  rfl

end Join

end Parser

end Lox
