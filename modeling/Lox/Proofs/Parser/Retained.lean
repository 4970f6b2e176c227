import Mathlib.Data.List.Forall2
import Lox.Proofs.Grammar.Blocks
import Lox.Proofs.Tree.WellFormed

/-!
# What the parser retains

A tree is written out again as the signs of its tokens: the token itself for an operator or a name,
the value for a literal, the kind for everything else. The tree of a derivation has a sign for each
of its tokens, in their order. Where the parser recovers from faults or gives up on nesting, tokens
are dropped, also in the middle of a block that is kept, but what is left is never taken twice or
out of order: the signs of the statements stand for some of the tokens before the end, from the left
to the right.

Each parser is said to retain some signs on its way from some tokens to those behind them
(`Retains`), and the signs of parsers that run one after the other are put together in their order.
-/

namespace Lox

open Lox.Computation Grammar

/-- What a tree tells of one of its tokens: its kind, the token itself or the value of it. -/
inductive Sign where
  | kind (kind : Kind)
  | token (t : Token)
  | literal (value : Value)

namespace Sign

inductive Marks : Sign → Token → Prop where
  | kind {kind : Kind} {t : Token} (hkind : t.kind = kind) : Marks (.kind kind) t
  | token (t : Token) : Marks (.token t) t
  | literal {t : Token} (hkind : t.kind = .number ∨ t.kind = .string) :
    Marks (.literal (Value.ofJson t.literal)) t
  | truth {t : Token} (hkind : t.kind = .trueWord) : Marks (.literal (.boolean true)) t
  | falsity {t : Token} (hkind : t.kind = .falseWord) : Marks (.literal (.boolean false)) t
  | nil {t : Token} (hkind : t.kind = .nilWord) : Marks (.literal .nil) t

def token? : Sign → Option Token
  | token t => some t
  | _ => none

@[simp] theorem filterMap_kind_cons (kind : Kind) (signs : List Sign) :
    (.kind kind :: signs).filterMap token? = signs.filterMap token? := rfl

end Sign

namespace Node

/-- The sign that leads to an optional part, if the part is there. -/
def leadSigns (kind : Kind) : Node → List Sign
  | absent => []
  | _ => [.kind kind]

theorem leadSigns_of_ne_absent {node : Node} (hnode : node ≠ absent) (kind : Kind) :
    node.leadSigns kind = [.kind kind] := by
  cases node with
  | absent => exact absurd rfl hnode
  | _ => rfl

mutual
/-- A tree written out again, token by token. -/
def signs : Node → List Sign
  | absent => []
  | token t => [.token t]
  | program statements => signsAll statements
  | literal value => [.literal value]
  | unary operator right => operator.signs ++ right.signs
  | binary left operator right => left.signs ++ (operator.signs ++ right.signs)
  | grouping expression => .kind .leftParen :: (expression.signs ++ [.kind .rightParen])
  | varRef name => name.signs
  | assign name value => name.signs ++ .kind .equal :: value.signs
  | exprStmt expression => expression.signs ++ [.kind .semicolon]
  | printStmt expression => .kind .printWord :: (expression.signs ++ [.kind .semicolon])
  | varDecl name initializer =>
    .kind .varWord :: (name.signs ++
      (initializer.leadSigns .equal ++ initializer.signs ++ [.kind .semicolon]))
  | block statements => .kind .leftBrace :: (signsAll statements ++ [.kind .rightBrace])
  | ifStmt condition thenBranch elseBranch =>
    .kind .ifWord :: .kind .leftParen :: (condition.signs ++ .kind .rightParen ::
      (thenBranch.signs ++ (elseBranch.leadSigns .elseWord ++ elseBranch.signs)))
  | whileStmt condition body =>
    .kind .whileWord :: .kind .leftParen :: (condition.signs ++ .kind .rightParen :: body.signs)
def signsAll : List Node → List Sign
  | [] => []
  | node :: rest => node.signs ++ signsAll rest
end

mutual
/-- The tokens that a tree stores, in the order of its fields. -/
def storedTokens : Node → List Token
  | absent | literal _ => []
  | token t => [t]
  | program statements | block statements => storedAll statements
  | unary operator right => operator.storedTokens ++ right.storedTokens
  | binary left operator right =>
    left.storedTokens ++ (operator.storedTokens ++ right.storedTokens)
  | grouping expression | exprStmt expression | printStmt expression => expression.storedTokens
  | varRef name => name.storedTokens
  | assign name value => name.storedTokens ++ value.storedTokens
  | varDecl name initializer => name.storedTokens ++ initializer.storedTokens
  | ifStmt condition thenBranch elseBranch =>
    condition.storedTokens ++ (thenBranch.storedTokens ++ elseBranch.storedTokens)
  | whileStmt condition body => condition.storedTokens ++ body.storedTokens
def storedAll : List Node → List Token
  | [] => []
  | node :: rest => node.storedTokens ++ storedAll rest
end

theorem signsAll_append (nodes more : List Node) :
    signsAll (nodes ++ more) = signsAll nodes ++ signsAll more := by
  induction nodes with
  | nil => rfl
  | cons node nodes ih => rw [List.cons_append, signsAll, signsAll, ih, List.append_assoc]

@[simp] theorem filterMap_leadSigns (kind : Kind) (node : Node) :
    (node.leadSigns kind).filterMap Sign.token? = [] := by
  cases node <;> rfl

mutual
/-- The stored tokens are those that the signs of a tree name. -/
theorem filterMap_signs (node : Node) :
    node.signs.filterMap Sign.token? = node.storedTokens := by
  cases node with
  | absent | token | literal => rfl
  | program statements | block statements =>
    simp [signs, storedTokens, filterMap_signsAll statements]
  | unary operator right =>
    simp [signs, storedTokens, filterMap_signs operator, filterMap_signs right]
  | binary left operator right =>
    simp [signs, storedTokens, filterMap_signs left, filterMap_signs operator,
      filterMap_signs right]
  | grouping expression | exprStmt expression | printStmt expression =>
    simp [signs, storedTokens, filterMap_signs expression]
  | varRef name => exact filterMap_signs name
  | assign name value =>
    simp [signs, storedTokens, filterMap_signs name, filterMap_signs value]
  | varDecl name initializer =>
    simp [signs, storedTokens, filterMap_signs name, filterMap_signs initializer]
  | ifStmt condition thenBranch elseBranch =>
    simp [signs, storedTokens, filterMap_signs condition, filterMap_signs thenBranch,
      filterMap_signs elseBranch]
  | whileStmt condition body =>
    simp [signs, storedTokens, filterMap_signs condition, filterMap_signs body]
theorem filterMap_signsAll (nodes : List Node) :
    (signsAll nodes).filterMap Sign.token? = storedAll nodes := by
  cases nodes with
  | nil => rfl
  | cons node rest =>
    simp [signsAll, storedAll, filterMap_signs node, filterMap_signsAll rest]
end

end Node

open Sign

/-! ## Derivations -/

namespace Grammar

theorem marks_leaning {operations : List Operation}
    (hoperands : ∀ operation ∈ operations,
      List.Forall₂ Marks operation.2.tree.signs operation.2.tokens)
    {first : Node} {tokens : List Token} (hfirst : List.Forall₂ Marks first.signs tokens) :
    List.Forall₂ Marks (leaning first operations).signs (tokens ++ operationTokens operations) := by
  induction operations generalizing first tokens with
  | nil => simpa [leaning] using hfirst
  | cons operation operations ih =>
    obtain ⟨hoperand, hoperands⟩ := List.forall_mem_cons.1 hoperands
    have hleft : List.Forall₂ Marks
        (Node.binary first (.token operation.1) operation.2.tree).signs
        (tokens ++ operation.1 :: operation.2.tokens) :=
      List.rel_append hfirst (.cons (.token operation.1) hoperand)
    have hrest := ih hoperands hleft
    rw [List.append_assoc] at hrest
    exact hrest

/-- The tree of an expression has a sign for each of its tokens. -/
theorem Expr.marks {rank : Rank} {tokens : List Token} {tree : Node}
    (hexpr : Expr .language rank tokens tree) : List.Forall₂ Marks tree.signs tokens := by
  induction hexpr with
  | literal hkind => exact .cons (.literal hkind) .nil
  | truth hkind => exact .cons (.truth hkind) .nil
  | falsity hkind => exact .cons (.falsity hkind) .nil
  | nil hkind => exact .cons (.nil hkind) .nil
  | @name t _ => exact .cons (.token t) .nil
  | grouping hopening hclosing _ ih =>
    exact .cons (.kind hopening) (List.rel_append ih (.cons (.kind hclosing) .nil))
  | @unary operator _ _ _ _ ih => exact .cons (.token operator) ih
  | primary _ ih | equality _ ih => exact ih
  | chain _ _ _ _ ihfirst ihoperands => exact marks_leaning ihoperands ihfirst
  | assign _ hname hequal _ ihtarget ihvalue =>
    rw [SideConditions.language_target] at hname
    subst hname
    exact List.rel_append ihtarget (.cons (.kind hequal) ihvalue)

theorem marks_parts {parts : List Part}
    (hparts : ∀ part ∈ parts, List.Forall₂ Marks part.tree.signs part.tokens) :
    List.Forall₂ Marks (Node.signsAll (parts.map Part.tree)) (partTokens parts) := by
  induction parts with
  | nil => exact .nil
  | cons part parts ih =>
    obtain ⟨hpart, hparts⟩ := List.forall_mem_cons.1 hparts
    exact List.rel_append hpart (ih hparts)

/-- The tree of a declaration has a sign for each of its tokens. -/
theorem Stmt.marks {clause : Clause} {tokens : List Token} {tree : Node}
    (hstmt : Stmt .language clause tokens tree) : List.Forall₂ Marks tree.signs tokens := by
  induction hstmt with
  | print hkeyword hsemicolon hvalue =>
    exact .cons (.kind hkeyword) (List.rel_append hvalue.marks (.cons (.kind hsemicolon) .nil))
  | block hopening hclosing _ ih =>
    exact .cons (.kind hopening) (List.rel_append (marks_parts ih) (.cons (.kind hclosing) .nil))
  | ifThen hkeyword hopening hclosing hcondition _ ih =>
    refine .cons (.kind hkeyword) (.cons (.kind hopening) (List.rel_append hcondition.marks ?_))
    refine .cons (.kind hclosing) ?_
    simpa [Node.leadSigns, Node.signs] using ih
  | ifElse hkeyword hopening hclosing hotherwise hcondition _ _ helse ihthen ihelse =>
    refine .cons (.kind hkeyword) (.cons (.kind hopening) (List.rel_append hcondition.marks ?_))
    refine .cons (.kind hclosing) (List.rel_append ihthen ?_)
    rw [Node.leadSigns_of_ne_absent helse.ne_absent]
    exact .cons (.kind hotherwise) ihelse
  | whileLoop hkeyword hopening hclosing hcondition _ ih =>
    refine .cons (.kind hkeyword) (.cons (.kind hopening) (List.rel_append hcondition.marks ?_))
    exact .cons (.kind hclosing) ih
  | expression hsemicolon hvalue =>
    exact List.rel_append hvalue.marks (.cons (.kind hsemicolon) .nil)
  | @declare _ name _ hkeyword _ hsemicolon =>
    exact .cons (.kind hkeyword) (.cons (.token name) (.cons (.kind hsemicolon) .nil))
  | @declareAs _ name _ _ _ _ hkeyword _ hequal hsemicolon hvalue =>
    refine .cons (.kind hkeyword) (.cons (.token name) ?_)
    rw [Node.leadSigns_of_ne_absent hvalue.ne_absent]
    exact .cons (.kind hequal) (List.rel_append hvalue.marks (.cons (.kind hsemicolon) .nil))
  | statement _ ih => exact ih

theorem Derives.marks {tokens : List Token} {statements : List Node}
    (hderives : Derives .language tokens statements) :
    List.Forall₂ Marks (Node.signsAll statements) tokens := by
  obtain ⟨parts, hparts, rfl, rfl⟩ := hderives
  exact marks_parts fun part hpart => (hparts part hpart).marks

end Grammar

/-! ## Parsers -/

namespace Parser

/-- Between some tokens and a rear part of them, signs stand for some of the tokens in their
order. -/
def Retains (signs : List Sign) (tokens rest : List Token) : Prop :=
  ∃ taken, tokens = taken ++ rest ∧ List.SublistForall₂ Marks signs taken

section Retains

variable {signs more : List Sign} {tokens rest after : List Token}

theorem retains_of_suffix (hsuffix : rest <:+ tokens) : Retains [] tokens rest := by
  obtain ⟨taken, rfl⟩ := hsuffix
  exact ⟨taken, rfl, .nil⟩

theorem retains_of_marks {taken : List Token} (hmarks : List.Forall₂ Marks signs taken)
    (rest : List Token) : Retains signs (taken ++ rest) rest :=
  ⟨taken, rfl, List.sublistForall₂_iff.2 ⟨taken, hmarks, List.Sublist.refl taken⟩⟩

theorem retains_kind {kind : Kind} {t : Token} (hkind : t.kind = kind) (rest : List Token) :
    Retains [.kind kind] (t :: rest) rest :=
  retains_of_marks (.cons (.kind hkind) .nil) rest

theorem sublistForall₂_append {taken left : List Token}
    (hsigns : List.SublistForall₂ Marks signs taken)
    (hmore : List.SublistForall₂ Marks more left) :
    List.SublistForall₂ Marks (signs ++ more) (taken ++ left) := by
  obtain ⟨kept, hkept, hsublist⟩ := List.sublistForall₂_iff.1 hsigns
  obtain ⟨kept', hkept', hsublist'⟩ := List.sublistForall₂_iff.1 hmore
  exact List.sublistForall₂_iff.2
    ⟨kept ++ kept', List.rel_append hkept hkept', hsublist.append hsublist'⟩

theorem Retains.append (h : Retains signs tokens rest)
    (hmore : List.SublistForall₂ Marks more rest) :
    List.SublistForall₂ Marks (signs ++ more) tokens := by
  obtain ⟨taken, rfl, hsigns⟩ := h
  exact sublistForall₂_append hsigns hmore

theorem Retains.trans (h : Retains signs tokens rest) (h' : Retains more rest after) :
    Retains (signs ++ more) tokens after := by
  obtain ⟨taken, rfl, hsigns⟩ := h
  obtain ⟨taken', rfl, hmore⟩ := h'
  exact ⟨taken ++ taken', (List.append_assoc taken taken' after).symm,
    sublistForall₂_append hsigns hmore⟩

end Retains

variable {limit : Nat} {s s' : Progress}

/-- A parser of statements retains the signs of what it returns. -/
def RetainsTree (parser : StmtParser Node) : Prop :=
  ∀ s tree s', parser s = .ok tree s' → Retains tree.signs s.rest s'.rest

theorem retains_of_stmt {clause : Clause} {tree : Node}
    (htaken : ∃ taken, s.rest = taken ++ s'.rest ∧ Stmt .language clause taken tree) :
    Retains tree.signs s.rest s'.rest := by
  obtain ⟨taken, hrest, hstmt⟩ := htaken
  rw [hrest]
  exact retains_of_marks hstmt.marks s'.rest

/-- A keyword with a condition in parentheses after it. -/
theorem retains_condition {α : Type} {before after : Complaint} {next : Node → StmtParser α}
    {keyword : Token} {kind : Kind} {rest : List Token} {reports : List Fault} {a : α}
    (hkeyword : keyword.kind = kind)
    (hok : (do
      let _ ← quietly (expect .leftParen before)
      let condition ← quietly (expression limit)
      let _ ← quietly (expect .rightParen after)
      next condition) ⟨rest, reports⟩ = .ok a s') :
    ∃ condition s₁, next condition s₁ = .ok a s' ∧
      Retains (.kind kind :: .kind .leftParen :: (condition.signs ++ [.kind .rightParen]))
        (keyword :: rest) s₁.rest := by
  obtain ⟨opening, inner, closing, condition, s₁, hrest, hopening, hclosing, hexpr, -, hok⟩ :=
    condition_sound hok
  refine ⟨condition, s₁, hok, ?_⟩
  have hmarks : List.Forall₂ Marks
      (.kind kind :: .kind .leftParen :: (condition.signs ++ [.kind .rightParen]))
      (keyword :: opening :: (inner ++ [closing])) :=
    .cons (.kind hkeyword) (.cons (.kind hopening)
      (List.rel_append hexpr.marks (.cons (.kind hclosing) .nil)))
  simp only at hrest
  simpa [hrest] using retains_of_marks hmarks s₁.rest

/-- A declaration that is given up retains nothing: parsing goes on behind it. -/
theorem retains_declaration (hstatement : RetainsTree (statement limit)) {result : Option Node}
    (hok : declaration (expression limit) (statement limit) s = .ok result s') :
    Retains (Node.signsAll result.toList) s.rest s'.rest := by
  rw [declaration_eq_recovering, recovering_eq_ok] at hok
  rcases hok with ⟨tree, hok, rfl⟩ | ⟨fault, after, hfault, rfl, rfl⟩
  · have htree : Retains tree.signs s.rest s'.rest := by
      rw [clauseParser, nextKind_bind] at hok
      split at hok
      · next hvar =>
        obtain ⟨keyword, rest, hrest, hkeyword⟩ := head?_kind_eq_some.1 hvar
        exact retains_of_stmt (varDeclaration_sound hrest hkeyword hok)
      · exact hstatement _ _ _ hok
    simpa [Node.signsAll] using htree
  · have hforward : Forward s after :=
      (keeps_forward_clauseParser limit .declaration).error (Forward.refl s) hfault
    exact retains_of_suffix ((synchronize_suffix after.rest).trans hforward.rest)

theorem retains_declarations (hstatement : RetainsTree (statement limit)) (count : Nat)
    {trees : List Node}
    (hok : declarations (declaration (expression limit) (statement limit)) count s = .ok trees s') :
    Retains (Node.signsAll trees) s.rest s'.rest := by
  induction count generalizing s trees with
  | zero =>
    cases hok
    exact retains_of_suffix List.suffix_rfl
  | succ count ih =>
    rw [declarations_succ] at hok
    split at hok
    · cases hok
      exact retains_of_suffix List.suffix_rfl
    · cases hok
      exact retains_of_suffix List.suffix_rfl
    · rw [bind_eq_ok] at hok
      obtain ⟨first, s₁, hfirst, hok⟩ := hok
      rw [bind_eq_ok] at hok
      obtain ⟨others, s₂, hothers, hok⟩ := hok
      cases hok
      rw [Node.signsAll_append]
      exact (retains_declaration hstatement hfirst).trans (ih hothers)

theorem retains_block (hstatement : RetainsTree (statement limit)) {opening : Token}
    {rest : List Token} {tree : Node} (hrest : s.rest = opening :: rest)
    (hopening : opening.kind = .leftBrace)
    (hok : blockStatement (declaration (expression limit) (statement limit)) s = .ok tree s') :
    Retains tree.signs s.rest s'.rest := by
  rw [blockStatement, advance_bind, get_bind, bind_eq_ok] at hok
  obtain ⟨trees, s₁, htrees, hok⟩ := hok
  rw [bind_eq_ok] at hok
  obtain ⟨closing, s₂, hclosing, hok⟩ := hok
  cases hok
  obtain ⟨hrest₁, hclosing, -⟩ := quietly_expect_eq_ok.1 hclosing
  have hinner := retains_declarations hstatement _ htrees
  have hend := retains_kind hclosing s'.rest
  simp only [hrest, List.tail_cons, hrest₁] at hinner
  rw [hrest]
  exact (retains_kind hopening rest).trans (hinner.trans hend)

theorem statement_ne_absent {tree : Node} (hok : statement limit s = .ok tree s') :
    tree ≠ .absent := by
  have hliterals : Literals (fun _ => True) fun _ => True :=
    ⟨fun _ _ _ => trivial, fun _ => trivial, trivial⟩
  have hbuilds := builds_statement hliterals (fun t (_ : t ∈ s.rest) => trivial) limit
  exact (hbuilds.ok (Forward.refl s) hok).1.ne_absent

theorem retains_if (hstatement : RetainsTree (statement limit)) {keyword : Token}
    {rest : List Token} {tree : Node} (hrest : s.rest = keyword :: rest)
    (hkeyword : keyword.kind = .ifWord)
    (hok : ifStatement (expression limit) (statement limit) s = .ok tree s') :
    Retains tree.signs s.rest s'.rest := by
  rw [ifStatement, advance_bind, hrest, List.tail_cons] at hok
  obtain ⟨condition, s₁, hok, hcondition⟩ := retains_condition hkeyword hok
  rw [bind_eq_ok] at hok
  obtain ⟨thenBranch, s₂, hthen, hok⟩ := hok
  have hfront := hcondition.trans (hstatement _ _ _ hthen)
  rw [nextKind_bind] at hok
  rw [hrest]
  split at hok
  · next helse =>
    obtain ⟨otherwise, rest₂, hrest₂, hotherwise⟩ := head?_kind_eq_some.1 helse
    rw [advance_bind, bind_eq_ok] at hok
    obtain ⟨elseBranch, s₃, helse, hok⟩ := hok
    cases hok
    have hbranch := (retains_kind hotherwise rest₂).trans
      (by simpa [hrest₂] using hstatement _ _ _ helse)
    rw [← hrest₂] at hbranch
    -- The tree tells that there was an `else`, because no statement is absent.
    have hne := statement_ne_absent helse
    simpa [Node.signs, Node.leadSigns_of_ne_absent hne] using hfront.trans hbranch
  · cases hok
    simpa [Node.signs, Node.leadSigns] using hfront

theorem retains_while (hstatement : RetainsTree (statement limit)) {keyword : Token}
    {rest : List Token} {tree : Node} (hrest : s.rest = keyword :: rest)
    (hkeyword : keyword.kind = .whileWord)
    (hok : whileStatement (expression limit) (statement limit) s = .ok tree s') :
    Retains tree.signs s.rest s'.rest := by
  rw [whileStatement, advance_bind, hrest, List.tail_cons] at hok
  obtain ⟨condition, s₁, hok, hcondition⟩ := retains_condition hkeyword hok
  rw [bind_eq_ok] at hok
  obtain ⟨body, s₂, hbody, hok⟩ := hok
  cases hok
  rw [hrest]
  simpa [Node.signs] using hcondition.trans (hstatement _ _ _ hbody)

/-- Whatever a statement reports, it retains the signs of what it returns. -/
theorem retains_statement (limit : Nat) : RetainsTree (statement limit) := by
  induction limit with
  | zero => exact nofun
  | succ limit ih =>
    intro s tree s' hok
    rw [statement_succ] at hok
    split at hok
    · next hkind =>
      obtain ⟨keyword, rest, hrest, hkeyword⟩ := head?_kind_eq_some.1 hkind
      obtain ⟨taken, htaken, hstmt, -⟩ := printStatement_sound hrest hkeyword hok
      exact retains_of_stmt ⟨taken, htaken, hstmt⟩
    · next hkind =>
      obtain ⟨opening, rest, hrest, hopening⟩ := head?_kind_eq_some.1 hkind
      exact retains_block ih hrest hopening hok
    · next hkind =>
      obtain ⟨keyword, rest, hrest, hkeyword⟩ := head?_kind_eq_some.1 hkind
      exact retains_if ih hrest hkeyword hok
    · next hkind =>
      obtain ⟨keyword, rest, hrest, hkeyword⟩ := head?_kind_eq_some.1 hkind
      exact retains_while ih hrest hkeyword hok
    · obtain ⟨taken, htaken, hstmt, -⟩ := expressionStatement_sound hok
      exact retains_of_stmt ⟨taken, htaken, hstmt⟩

/-- A program retains the signs of its statements. Nesting that is too deep takes the parser back to
the start of the statement, of which nothing was retained. -/
theorem topLevel_retains (limit count : Nat) (s : Progress) :
    List.SublistForall₂ Marks (Node.signsAll (topLevel limit count s).1) s.rest := by
  induction count generalizing s with
  | zero => exact .nil
  | succ count ih =>
    by_cases hrest : s.rest = []
    · rw [topLevel, if_pos (by simp [hrest])]
      exact .nil
    cases hrun : declaration (expression limit) (statement limit) s with
    | ok result after =>
      rw [topLevel_of_ok hrest hrun, Node.signsAll_append]
      exact (retains_declaration (retains_statement limit) hrun).append (ih after)
    | error halt after =>
      cases halt with
      | fault fault => exact absurd hrun declaration_ne_fault
      | tooDeep =>
        rw [topLevel_of_tooDeep hrest hrun]
        exact (retains_of_suffix (skipStatement_suffix 0 s.rest)).append (ih ⟨_, _⟩)

end Parser

/-! ## Positions -/

section Positions

variable {signs : List Sign} {tokens : List Token}

/-- Signs for some tokens in their order are signs for the tokens at increasing positions. -/
theorem exists_positions (hsigns : List.SublistForall₂ Marks signs tokens) :
    ∃ positions : List (Fin tokens.length), positions.Pairwise (· < ·) ∧
      List.Forall₂ (fun sign position => sign.Marks (tokens.get position)) signs positions := by
  obtain ⟨kept, hkept, hsublist⟩ := List.sublistForall₂_iff.1 hsigns
  obtain ⟨positions, rfl, hincreasing⟩ := List.sublist_eq_map_getElem hsublist
  exact ⟨positions, hincreasing, List.forall₂_map_right_iff.1 hkept⟩

/-- A token that a sign stores is the one at the position of the sign. -/
theorem exists_stored_positions {positions : List (Fin tokens.length)}
    (hmarks : List.Forall₂ (fun sign position => sign.Marks (tokens.get position)) signs
      positions) :
    ∃ stored : List (Fin tokens.length), stored.Sublist positions ∧
      signs.filterMap token? = stored.map tokens.get := by
  induction hmarks with
  | nil => exact ⟨[], .slnil, rfl⟩
  | @cons sign position signs positions hmark _ ih =>
    obtain ⟨stored, hsublist, hstored⟩ := ih
    cases hmark with
    | token =>
      refine ⟨position :: stored, hsublist.cons_cons position, ?_⟩
      rw [List.map_cons, ← hstored]
      rfl
    | kind | literal | truth | falsity | nil =>
      exact ⟨stored, hsublist.cons position, hstored⟩

end Positions

open Lox.Parser

/-- Written out again, the statements that the parser returns are tokens before the end of the
input, each position used at most once and in the order of the input, whatever is reported. The
tokens stored in the trees are those at some of these positions. If nothing is reported, no position
is left out. -/
theorem statements_retain_source_order (limit : Nat) (tokens : List Token) :
    ∃ positions : List (Fin (tokens.takeWhile (·.kind != .eof)).length),
      positions.Pairwise (· < ·) ∧
      List.Forall₂ (fun sign position =>
          sign.Marks ((tokens.takeWhile (·.kind != .eof)).get position))
        (Node.signsAll (parse limit tokens).statements) positions ∧
      (∃ stored : List (Fin (tokens.takeWhile (·.kind != .eof)).length),
        stored.Sublist positions ∧ Node.storedAll (parse limit tokens).statements =
          stored.map (tokens.takeWhile (·.kind != .eof)).get) ∧
      ((parse limit tokens).errors = [] →
        positions.length = (tokens.takeWhile (·.kind != .eof)).length) := by
  have hsigns : List.SublistForall₂ Marks (Node.signsAll (parse limit tokens).statements)
      (tokens.takeWhile (·.kind != .eof)) := by
    rw [parse, beforeEnd_fst]
    exact topLevel_retains limit _ ⟨tokens.takeWhile (·.kind != .eof), []⟩
  obtain ⟨positions, hincreasing, hmarks⟩ := exists_positions hsigns
  refine ⟨positions, hincreasing, hmarks, ?_, fun herrors => ?_⟩
  · rw [← Node.filterMap_signsAll]
    exact exists_stored_positions hmarks
  · exact hmarks.length_eq.symm.trans (derives_of_parse herrors).marks.length_eq

theorem danglingElse_is_retained :
    (parse 20 danglingElse).errors = [] ∧
      ∃ positions : List (Fin (danglingElse.takeWhile (·.kind != .eof)).length),
        positions.Pairwise (· < ·) ∧ positions.length = 19 := by
  have herrors : (parse 20 danglingElse).errors = [] := List.isEmpty_iff.1 (by decide +kernel)
  obtain ⟨positions, hincreasing, -, -, hlength⟩ := statements_retain_source_order 20 danglingElse
  exact ⟨herrors, positions, hincreasing, hlength herrors⟩

/-- Of a block with the declarations `a = ;` and `print -a;`, the second one is kept. -/
example : Node.storedAll (parse 20 [⟨.leftBrace, .str "\x7b", .null, 1⟩,
    ⟨.identifier, .str "a", .null, 1⟩, ⟨.equal, .str "=", .null, 1⟩,
    ⟨.semicolon, .str ";", .null, 1⟩, ⟨.printWord, .str "print", .null, 2⟩,
    ⟨.minus, .str "-", .null, 2⟩, ⟨.identifier, .str "a", .null, 2⟩,
    ⟨.semicolon, .str ";", .null, 2⟩, ⟨.rightBrace, .str "\x7d", .null, 2⟩]).statements =
    [⟨.minus, .str "-", .null, 2⟩, ⟨.identifier, .str "a", .null, 2⟩] := rfl

end Lox
