import Lox.Proofs.Grammar.Basic

/-!
# The nearest `if`

The rules alone leave open which `if` an `else` belongs to. Whatever they derive can also be derived
so that every `else` belongs to the nearest `if` that can take it: an `else` that comes right after a
statement which ends in an `if` without one moves down into that statement. Which token lists are
programs does therefore not depend on that side condition.
-/

namespace Lox.Grammar

/-- Any tree may be assigned to, and an `else` belongs to the nearest `if` that can take it. -/
def SideConditions.nearest : SideConditions where
  target := documented.target
  beforeElse := language.beforeElse

theorem SideConditions.nearest_target : nearest.target = documented.target := rfl

theorem SideConditions.nearest_beforeElse {tree : Node} :
    nearest.beforeElse tree = true ↔ tree.endsOpen = false :=
  language_beforeElse

/-- Where the `else` of a conditional stands makes no difference to expressions. -/
theorem Expr.of_target_eq {conditions conditions' : SideConditions}
    (htarget : conditions'.target = conditions.target) {rank : Rank} {tokens : List Token}
    {tree : Node} (hexpr : Expr conditions rank tokens tree) : Expr conditions' rank tokens tree := by
  induction hexpr with
  | literal hkind => exact .literal hkind
  | truth hkind => exact .truth hkind
  | falsity hkind => exact .falsity hkind
  | nil hkind => exact .nil hkind
  | name hkind => exact .name hkind
  | grouping hopening hclosing _ ih => exact .grouping hopening hclosing ih
  | unary hoperator _ ih => exact .unary hoperator ih
  | primary _ ih => exact .primary ih
  | chain level _ hoperators _ ihfirst ihoperands => exact .chain level ihfirst hoperators ihoperands
  | assign _ hname hequal _ ihtarget ihvalue =>
    exact .assign ihtarget (htarget ▸ hname) hequal ihvalue
  | equality _ ih => exact .equality ih

/-- An `else` right after a statement that ends open moves down to the `if` that is open. -/
theorem Stmt.attach {conditions : SideConditions}
    (hbefore : ∀ tree : Node, tree.endsOpen = false → conditions.beforeElse tree = true)
    {clause : Clause} {body rest : List Token} {tree elseBranch : Node} {otherwise : Token}
    (hstmt : Stmt conditions clause body tree) (hclause : clause = .statement)
    (hopen : tree.endsOpen = true) (hotherwise : otherwise.kind = .elseWord)
    (helse : Stmt conditions .statement rest elseBranch) :
    ∃ tree', Stmt conditions .statement (body ++ otherwise :: rest) tree' := by
  induction hstmt with
  | @ifThen keyword opening closing inner body condition thenBranch hkeyword hopening hclosing
      hcondition hthen ih =>
    cases hthenOpen : thenBranch.endsOpen with
    | true =>
      obtain ⟨tree', hinner⟩ := ih rfl hthenOpen
      have hif := Stmt.ifThen hkeyword hopening hclosing hcondition hinner
      exact ⟨_, by simpa using hif⟩
    | false =>
      have hif := Stmt.ifElse hkeyword hopening hclosing hotherwise hcondition hthen
        (hbefore thenBranch hthenOpen) helse
      exact ⟨_, by simpa using hif⟩
  | ifElse hkeyword hopening hclosing hfirst hcondition hthen hclosed hlast _ ih =>
    rw [Node.endsOpen_ifElse hlast.ne_absent] at hopen
    obtain ⟨tree', hinner⟩ := ih rfl hopen
    have hif := Stmt.ifElse hkeyword hopening hclosing hfirst hcondition hthen hclosed hinner
    exact ⟨_, by simpa using hif⟩
  | whileLoop hkeyword hopening hclosing hcondition _ ih =>
    obtain ⟨tree', hinner⟩ := ih rfl hopen
    have hwhile := Stmt.whileLoop hkeyword hopening hclosing hcondition hinner
    exact ⟨_, by simpa using hwhile⟩
  | print | block | expression => cases hopen
  | declare | declareAs | statement => cases hclause

/-- Parts that can be derived one by one can be derived together. -/
theorem exists_parts {conditions : SideConditions} {parts : List Part}
    (hparts : ∀ part ∈ parts, ∃ tree, Stmt conditions .declaration part.tokens tree) :
    ∃ parts' : List Part, (∀ part ∈ parts', Stmt conditions .declaration part.tokens part.tree) ∧
      partTokens parts' = partTokens parts := by
  induction parts with
  | nil => exact ⟨[], by simp, rfl⟩
  | cons part parts ih =>
    rw [List.forall_mem_cons] at hparts
    obtain ⟨tree, htree⟩ := hparts.1
    obtain ⟨parts', hparts', htokens⟩ := ih hparts.2
    refine ⟨⟨part.tokens, tree⟩ :: parts', List.forall_mem_cons.2 ⟨htree, hparts'⟩, ?_⟩
    rw [partTokens_cons, partTokens_cons, htokens]

/-- What the rules derive can be derived with every `else` at the nearest `if`. -/
theorem Stmt.nearest {clause : Clause} {tokens : List Token} {tree : Node}
    (hstmt : Stmt .documented clause tokens tree) : ∃ tree', Stmt .nearest clause tokens tree' := by
  have hexpr {tokens : List Token} {tree : Node} (h : Expr .documented .assignment tokens tree) :
      Expr .nearest .assignment tokens tree :=
    h.of_target_eq SideConditions.nearest_target
  induction hstmt with
  | print hkeyword hsemicolon hvalue => exact ⟨_, .print hkeyword hsemicolon (hexpr hvalue)⟩
  | block hopening hclosing _ ih =>
    obtain ⟨parts', hparts', htokens⟩ := exists_parts ih
    rw [← htokens]
    exact ⟨_, .block hopening hclosing hparts'⟩
  | ifThen hkeyword hopening hclosing hcondition _ ih =>
    obtain ⟨thenBranch, hthen⟩ := ih
    exact ⟨_, .ifThen hkeyword hopening hclosing (hexpr hcondition) hthen⟩
  | ifElse hkeyword hopening hclosing hotherwise hcondition _ _ _ ihthen ihelse =>
    obtain ⟨thenBranch, hthen⟩ := ihthen
    obtain ⟨elseBranch, helse⟩ := ihelse
    cases hopen : thenBranch.endsOpen with
    | false =>
      exact ⟨_, .ifElse hkeyword hopening hclosing hotherwise (hexpr hcondition) hthen
        (SideConditions.nearest_beforeElse.2 hopen) helse⟩
    | true =>
      obtain ⟨body, hbody⟩ := hthen.attach (fun _ => SideConditions.nearest_beforeElse.2) rfl hopen
        hotherwise helse
      exact ⟨_, .ifThen hkeyword hopening hclosing (hexpr hcondition) hbody⟩
  | whileLoop hkeyword hopening hclosing hcondition _ ih =>
    obtain ⟨body, hbody⟩ := ih
    exact ⟨_, .whileLoop hkeyword hopening hclosing (hexpr hcondition) hbody⟩
  | expression hsemicolon hvalue => exact ⟨_, .expression hsemicolon (hexpr hvalue)⟩
  | declare hkeyword hname hsemicolon => exact ⟨_, .declare hkeyword hname hsemicolon⟩
  | declareAs hkeyword hname hequal hsemicolon hvalue =>
    exact ⟨_, .declareAs hkeyword hname hequal hsemicolon (hexpr hvalue)⟩
  | statement _ ih =>
    obtain ⟨tree', hstatement⟩ := ih
    exact ⟨tree', .statement hstatement⟩

end Lox.Grammar
