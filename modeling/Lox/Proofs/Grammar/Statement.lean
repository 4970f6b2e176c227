import Lox.Proofs.Grammar.Expression
import Lox.Proofs.Parser.Progress

/-!
# The parser of programs follows the grammar

Without a report, the statements that the parser returns are those that the grammar gives to the
tokens it took; and from the tokens of a derivation it returns the statements of the derivation,
unless the nesting is too deep. Together: a program is accepted exactly when it is in the grammar,
with exactly the tree of its derivation.

An `else` makes the one place where what comes after a statement matters. A tree is settled before
some tokens if no `else` that it could take comes next.
-/

namespace Lox

open Lox.Computation Grammar

namespace Parser

/-- No `else` that a statement could take comes right after it. -/
def Settled (tree : Node) (rest : List Token) : Prop :=
  tree.endsOpen = true → Stops [.elseWord] rest

/-! ## Steps of the parser -/

@[simp] theorem nextKind_bind {α : Type} (f : Option Kind → StmtParser α) (s : Progress) :
    (nextKind >>= f) s = f (s.rest.head?.map (·.kind)) s := rfl

@[simp] theorem advance_bind {α : Type} (f : Unit → StmtParser α) (s : Progress) :
    (advance >>= f) s = f () { s with rest := s.rest.tail } := rfl

theorem head?_kind_eq_some {tokens : List Token} {kind : Kind} :
    tokens.head?.map (·.kind) = some kind ↔ ∃ t rest, tokens = t :: rest ∧ t.kind = kind := by
  cases tokens with
  | nil => simp
  | cons t rest => simp

/-- A statement is chosen by its first token. -/
theorem statement_succ (limit : Nat) (s : Progress) :
    statement (limit + 1) s = match s.rest.head?.map (·.kind) with
      | some .printWord => printStatement (expression limit) s
      | some .leftBrace => blockStatement (declaration (expression limit) (statement limit)) s
      | some .ifWord => ifStatement (expression limit) (statement limit) s
      | some .whileWord => whileStatement (expression limit) (statement limit) s
      | _ => expressionStatement (expression limit) s := by
  rw [statement, nextKind_bind]
  cases s.rest.head?.map (·.kind) with
  | none => rfl
  | some kind => cases kind <;> rfl

theorem declarations_succ (declaration : StmtParser (Option Node)) (count : Nat) (s : Progress) :
    declarations declaration (count + 1) s = match s.rest.head?.map (·.kind) with
      | none | some .rightBrace => .ok [] s
      | some _ => (do
        let first ← declaration
        let rest ← declarations declaration count
        return first.toList ++ rest) s := by
  rw [declarations, nextKind_bind]
  cases s.rest.head?.map (·.kind) with
  | none => rfl
  | some kind => cases kind <;> rfl

theorem declarations_of_next (declaration : StmtParser (Option Node)) (count : Nat) {t : Token}
    {rest : List Token} {reports : List Fault} (hkind : t.kind ≠ .rightBrace) :
    declarations declaration (count + 1) ⟨t :: rest, reports⟩ = (do
      let first ← declaration
      let rest ← declarations declaration count
      return first.toList ++ rest) ⟨t :: rest, reports⟩ := by
  rw [declarations_succ]
  split
  · next hnone => cases hnone
  · next hbrace => exact absurd (Option.some.inj hbrace) hkind
  · rfl

theorem topLevel_nil (limit count : Nat) (reports : List Fault) :
    topLevel limit count ⟨[], reports⟩ = ([], reports) := by
  cases count <;> rfl

theorem topLevel_of_ok {limit : Nat} {s after : Progress} {result : Option Node}
    (hrest : s.rest ≠ [])
    (hrun : declaration (expression limit) (statement limit) s = .ok result after) (count : Nat) :
    topLevel limit (count + 1) s =
      (result.toList ++ (topLevel limit count after).1, (topLevel limit count after).2) := by
  rw [topLevel, if_neg (by simpa using hrest), hrun]

theorem topLevel_of_tooDeep {limit : Nat} {s after : Progress} (hrest : s.rest ≠ [])
    (hrun : declaration (expression limit) (statement limit) s = .error .tooDeep after)
    (count : Nat) :
    topLevel limit (count + 1) s =
      topLevel limit count
        ⟨skipStatement 0 s.rest, ⟨after.rest, .nesting⟩ :: after.reports⟩ := by
  rw [topLevel, if_neg (by simpa using hrest), hrun]

/-- A declaration never stops at a fault: it reports it. -/
theorem declaration_ne_fault {expression : ExprParser Node} {statement : StmtParser Node}
    {s after : Progress} {fault : Fault} :
    declaration expression statement s ≠ .error (.fault fault) after := by
  rw [declaration, recovering]
  split <;> simp

theorem quietly_eq_ok {α : Type} {parser : ExprParser α} {s s' : Progress} {a : α} :
    quietly parser s = .ok a s' ↔ parser s.rest = .ok a s'.rest ∧ s'.reports = s.reports := by
  rw [quietly]
  cases hrun : parser s.rest with
  | ok b rest =>
    constructor
    · rintro ⟨⟩
      exact ⟨rfl, rfl⟩
    · rintro ⟨heq, hreports⟩
      cases heq
      cases s'
      cases hreports
      rfl
  | error halt rest => simp

theorem quietly_expect_eq_ok {kind : Kind} {complaint : Complaint} {s s' : Progress} {t : Token} :
    quietly (expect kind complaint) s = .ok t s' ↔
      s.rest = t :: s'.rest ∧ t.kind = kind ∧ s'.reports = s.reports := by
  rw [quietly_eq_ok, expect_eq_ok, and_assoc]

theorem recovering_eq_ok {parser : StmtParser Node} {s s' : Progress} {result : Option Node} :
    recovering parser s = .ok result s' ↔
      (∃ node, parser s = .ok node s' ∧ result = some node) ∨
        ∃ fault after, parser s = .error (.fault fault) after ∧ result = none ∧
          s' = ⟨synchronize after.rest, fault :: after.reports⟩ := by
  rw [recovering]
  cases parser s with
  | ok node after =>
    constructor
    · rintro ⟨⟩
      exact .inl ⟨node, rfl, rfl⟩
    · rintro (⟨_, heq, rfl⟩ | ⟨_, _, heq, _⟩)
      · cases heq
        rfl
      · cases heq
  | error halt after =>
    cases halt with
    | fault fault =>
      constructor
      · rintro ⟨⟩
        exact .inr ⟨fault, after, rfl, rfl, rfl⟩
      · rintro (⟨_, heq, _⟩ | ⟨_, _, heq, rfl, rfl⟩)
        · cases heq
        · cases heq
          rfl
    | tooDeep => simp

def clauseParser (limit : Nat) : Clause → StmtParser Node
  | .statement => statement limit
  | .declaration => do
    if (← nextKind) = some .varWord then varDeclaration (expression limit) else statement limit

theorem declaration_eq_recovering (limit : Nat) :
    declaration (expression limit) (statement limit) =
      recovering (clauseParser limit .declaration) := rfl

theorem keeps_forward_clauseParser {start : Progress} (limit : Nat) (clause : Clause) :
    Keeps (Forward start) (clauseParser limit clause) := by
  cases clause with
  | statement => exact keeps_forward_statement limit
  | declaration =>
    refine keeps_forward_nextKind.bind fun next => ?_
    split
    · exact keeps_forward_varDeclaration
        (keeps_forward_quietly fun _ => keeps_suffix_expression limit)
    · exact keeps_forward_statement limit

/-- Reports that are the same at the end are the same on the way. -/
theorem Forward.reports_eq {s s' s'' : Progress} (h : Forward s s') (h' : Forward s' s'')
    (hreports : s''.reports = s.reports) :
    s'.reports = s.reports ∧ s''.reports = s'.reports := by
  have hmid : s.reports = s'.reports :=
    h.reports.eq_of_length_le (hreports ▸ h'.reports.length_le)
  exact ⟨hmid.symm, hreports.trans hmid⟩

/-! ## Soundness -/

/-- A parser that reports nothing takes the tokens of a derivation and leaves no `else` behind that
would belong to it. -/
def SoundClause (parser : StmtParser Node) (clause : Clause) : Prop :=
  ∀ s tree s', parser s = .ok tree s' → s'.reports = s.reports →
    ∃ taken, s.rest = taken ++ s'.rest ∧ Stmt .language clause taken tree ∧ Settled tree s'.rest

theorem settled_of_closed {tree : Node} {rest : List Token} (hclosed : tree.endsOpen = false) :
    Settled tree rest :=
  fun hopen => absurd hopen (by simp [hclosed])

theorem quietly_expression_sound {limit : Nat} {s s' : Progress} {value : Node}
    (hok : quietly (expression limit) s = .ok value s') :
    ∃ taken, s.rest = taken ++ s'.rest ∧ Expr .language .assignment taken value := by
  obtain ⟨hrun, -⟩ := quietly_eq_ok.1 hok
  exact (expression_sound limit).2 _ _ _ hrun

theorem varDeclaration_sound {limit : Nat} {s s' : Progress} {keyword : Token} {rest : List Token}
    {tree : Node} (hrest : s.rest = keyword :: rest) (hkeyword : keyword.kind = .varWord)
    (hok : varDeclaration (expression limit) s = .ok tree s') :
    ∃ taken, s.rest = taken ++ s'.rest ∧ Stmt .language .declaration taken tree := by
  rw [varDeclaration, advance_bind, bind_eq_ok] at hok
  obtain ⟨name, s₁, hname, hok⟩ := hok
  obtain ⟨hrest₁, hname, -⟩ := quietly_expect_eq_ok.1 hname
  simp only [hrest, List.tail_cons] at hrest₁
  rw [nextKind_bind] at hok
  dsimp only at hok
  split at hok
  · next hequal =>
    obtain ⟨equal, rest₂, hrest₂, hequal⟩ := head?_kind_eq_some.1 hequal
    rw [advance_bind, bind_eq_ok] at hok
    obtain ⟨value, s₃, hvalue, hok⟩ := hok
    rw [bind_eq_ok] at hok
    obtain ⟨semicolon, s₄, hsemicolon, hok⟩ := hok
    cases hok
    obtain ⟨hrest₄, hsemicolon, -⟩ := quietly_expect_eq_ok.1 hsemicolon
    obtain ⟨taken, htaken, hexpr⟩ := quietly_expression_sound hvalue
    simp only [hrest₂, List.tail_cons, hrest₄] at htaken
    refine ⟨keyword :: name :: equal :: (taken ++ [semicolon]), ?_, ?_⟩
    · simp [hrest, hrest₁, hrest₂, htaken]
    · exact .declareAs hkeyword hname hequal hsemicolon hexpr
  · rw [pure_bind, bind_eq_ok] at hok
    obtain ⟨semicolon, s₂, hsemicolon, hok⟩ := hok
    cases hok
    obtain ⟨hrest₂, hsemicolon, -⟩ := quietly_expect_eq_ok.1 hsemicolon
    refine ⟨[keyword, name, semicolon], ?_, .declare hkeyword hname hsemicolon⟩
    simp [hrest, hrest₁, hrest₂]

theorem clauseParser_declaration_sound {limit : Nat}
    (hstatement : SoundClause (statement limit) .statement) :
    SoundClause (clauseParser limit .declaration) .declaration := by
  intro s tree s' hok hreports
  rw [clauseParser, nextKind_bind] at hok
  split at hok
  · next hvar =>
    obtain ⟨keyword, rest, hrest, hkeyword⟩ := head?_kind_eq_some.1 hvar
    obtain ⟨taken, htaken, hstmt⟩ := varDeclaration_sound hrest hkeyword hok
    refine ⟨taken, htaken, hstmt, settled_of_closed ?_⟩
    cases hstmt with
    | declare | declareAs => rfl
    | statement hstmt =>
      obtain ⟨t, _, rfl, hkind⟩ := hstmt.begins
      rw [hrest, List.cons_append, List.cons.injEq] at htaken
      rw [← htaken.1, hkeyword] at hkind
      exact absurd hkind (by decide)
  · obtain ⟨taken, htaken, hstmt, hsettled⟩ := hstatement _ _ _ hok hreports
    exact ⟨taken, htaken, .statement hstmt, hsettled⟩

theorem declaration_sound {limit : Nat} (hstatement : SoundClause (statement limit) .statement)
    {s s' : Progress} {result : Option Node}
    (hok : declaration (expression limit) (statement limit) s = .ok result s')
    (hreports : s'.reports = s.reports) :
    ∃ tree taken, result = some tree ∧ s.rest = taken ++ s'.rest ∧
      Stmt .language .declaration taken tree ∧ Settled tree s'.rest := by
  rw [declaration_eq_recovering, recovering_eq_ok] at hok
  rcases hok with ⟨tree, hok, rfl⟩ | ⟨fault, after, hfault, -, rfl⟩
  · obtain ⟨taken, htaken⟩ := clauseParser_declaration_sound hstatement _ _ _ hok hreports
    exact ⟨tree, taken, rfl, htaken⟩
  · have hforward : Forward s after :=
      (keeps_forward_clauseParser limit .declaration).error (Forward.refl s) hfault
    have hlength := hforward.reports.length_le
    rw [← hreports, List.length_cons] at hlength
    omega

theorem declarations_sound {limit : Nat} (hstatement : SoundClause (statement limit) .statement)
    (count : Nat) {s s' : Progress} {trees : List Node}
    (hok : declarations (declaration (expression limit) (statement limit)) count s = .ok trees s')
    (hreports : s'.reports = s.reports) :
    ∃ parts : List Part, s.rest = partTokens parts ++ s'.rest ∧ trees = parts.map Part.tree ∧
      ∀ part ∈ parts, Stmt .language .declaration part.tokens part.tree := by
  induction count generalizing s trees with
  | zero =>
    cases hok
    exact ⟨[], rfl, rfl, nofun⟩
  | succ count ih =>
    rw [declarations_succ] at hok
    split at hok
    · cases hok
      exact ⟨[], rfl, rfl, nofun⟩
    · cases hok
      exact ⟨[], rfl, rfl, nofun⟩
    · rw [bind_eq_ok] at hok
      obtain ⟨first, s₁, hfirst, hok⟩ := hok
      rw [bind_eq_ok] at hok
      obtain ⟨others, s₂, hothers, hok⟩ := hok
      cases hok
      -- Both halves only add reports, so neither of them added any.
      have hforward₁ := (keeps_forward_topDeclaration limit).ok (Forward.refl s) hfirst
      have hforward₂ := (keeps_forward_declarations (keeps_forward_topDeclaration limit) count).ok
        (Forward.refl s₁) hothers
      obtain ⟨hreports₁, hreports₂⟩ := hforward₁.reports_eq hforward₂ hreports
      obtain ⟨tree, taken, rfl, htaken, hstmt, -⟩ := declaration_sound hstatement hfirst hreports₁
      obtain ⟨parts, hparts, rfl, hstmts⟩ := ih hothers hreports₂
      refine ⟨⟨taken, tree⟩ :: parts, ?_, rfl, List.forall_mem_cons.2 ⟨hstmt, hstmts⟩⟩
      rw [partTokens_cons, List.append_assoc, ← hparts, htaken]

theorem blockStatement_sound {limit : Nat} (hstatement : SoundClause (statement limit) .statement)
    {s s' : Progress} {opening : Token} {rest : List Token} {tree : Node}
    (hrest : s.rest = opening :: rest) (hopening : opening.kind = .leftBrace)
    (hok : blockStatement (declaration (expression limit) (statement limit)) s = .ok tree s')
    (hreports : s'.reports = s.reports) :
    ∃ taken, s.rest = taken ++ s'.rest ∧ Stmt .language .statement taken tree ∧
      Settled tree s'.rest := by
  rw [blockStatement, advance_bind, get_bind, bind_eq_ok] at hok
  obtain ⟨trees, s₁, htrees, hok⟩ := hok
  rw [bind_eq_ok] at hok
  obtain ⟨closing, s₂, hclosing, hok⟩ := hok
  cases hok
  obtain ⟨hrest₁, hclosing, hreports₁⟩ := quietly_expect_eq_ok.1 hclosing
  obtain ⟨parts, hparts, rfl, hstmts⟩ :=
    declarations_sound hstatement _ htrees (hreports₁.symm.trans hreports)
  simp only [hrest, List.tail_cons, hrest₁] at hparts
  refine ⟨opening :: (partTokens parts ++ [closing]), ?_, .block hopening hclosing hstmts,
    settled_of_closed rfl⟩
  simp [hrest, hparts]

/-- A condition in parentheses, with the parser that goes on after it. -/
theorem condition_sound {α : Type} {limit : Nat} {before after : Complaint}
    {next : Node → StmtParser α} {s s' : Progress} {a : α}
    (hok : (do
      let _ ← quietly (expect .leftParen before)
      let condition ← quietly (expression limit)
      let _ ← quietly (expect .rightParen after)
      next condition) s = .ok a s') :
    ∃ opening inner closing condition s₁, s.rest = opening :: (inner ++ closing :: s₁.rest) ∧
      opening.kind = .leftParen ∧ closing.kind = .rightParen ∧
      Expr .language .assignment inner condition ∧ s₁.reports = s.reports ∧
      next condition s₁ = .ok a s' := by
  rw [bind_eq_ok] at hok
  obtain ⟨opening, s₁, hopening, hok⟩ := hok
  rw [bind_eq_ok] at hok
  obtain ⟨condition, s₂, hcondition, hok⟩ := hok
  rw [bind_eq_ok] at hok
  obtain ⟨closing, s₃, hclosing, hok⟩ := hok
  obtain ⟨hrest₁, hopening, hreports₁⟩ := quietly_expect_eq_ok.1 hopening
  obtain ⟨hrest₃, hclosing, hreports₃⟩ := quietly_expect_eq_ok.1 hclosing
  have hreports₂ := (quietly_eq_ok.1 hcondition).2
  obtain ⟨inner, hinner, hexpr⟩ := quietly_expression_sound hcondition
  refine ⟨opening, inner, closing, condition, s₃, ?_, hopening, hclosing, hexpr, ?_, hok⟩
  · rw [hrest₁, hinner, hrest₃]
  · rw [hreports₃, hreports₂, hreports₁]

theorem ifStatement_sound {limit : Nat} (hstatement : SoundClause (statement limit) .statement)
    {s s' : Progress} {keyword : Token} {rest : List Token} {tree : Node}
    (hrest : s.rest = keyword :: rest) (hkeyword : keyword.kind = .ifWord)
    (hok : ifStatement (expression limit) (statement limit) s = .ok tree s')
    (hreports : s'.reports = s.reports) :
    ∃ taken, s.rest = taken ++ s'.rest ∧ Stmt .language .statement taken tree ∧
      Settled tree s'.rest := by
  rw [ifStatement, advance_bind] at hok
  obtain ⟨opening, inner, closing, condition, s₁, hrest₁, hopening, hclosing, hexpr, hreports₁,
    hok⟩ := condition_sound hok
  simp only [hrest, List.tail_cons] at hrest₁
  rw [bind_eq_ok] at hok
  obtain ⟨thenBranch, s₂, hthen, hok⟩ := hok
  have hforward := (keeps_forward_statement limit).ok (Forward.refl s₁) hthen
  rw [nextKind_bind] at hok
  split at hok
  · next helse =>
    obtain ⟨otherwise, rest₃, hrest₃, hotherwise⟩ := head?_kind_eq_some.1 helse
    rw [advance_bind, bind_eq_ok] at hok
    obtain ⟨elseBranch, s₄, helse, hok⟩ := hok
    cases hok
    have hadvance : Forward s₂ { s₂ with rest := s₂.rest.tail } :=
      keeps_forward_advance s₂ (Forward.refl s₂)
    have hforward' := hadvance.trans ((keeps_forward_statement limit).ok (Forward.refl _) helse)
    obtain ⟨hreports₂, hreports₄⟩ :=
      hforward.reports_eq hforward' (hreports.trans hreports₁.symm)
    obtain ⟨body, hbody, hthenStmt, hsettled⟩ := hstatement _ _ _ hthen hreports₂
    obtain ⟨others, hothers, helseStmt, hsettled'⟩ := hstatement _ _ _ helse hreports₄
    simp only [hrest₃, List.tail_cons] at hothers
    -- An `else` comes next, so the branch before it cannot have been able to take it.
    have hclosed : thenBranch.endsOpen = false := by
      rw [Bool.eq_false_iff]
      intro hopen
      exact hsettled hopen otherwise (by rw [hrest₃]; rfl) (by simp [hotherwise])
    refine ⟨keyword :: opening :: (inner ++ closing :: (body ++ otherwise :: others)), ?_, ?_, ?_⟩
    · simp [hrest, hrest₁, hbody, hrest₃, hothers]
    · exact .ifElse hkeyword hopening hclosing hotherwise hexpr hthenStmt (by simp [hclosed])
        helseStmt
    · intro hopen
      refine hsettled' ?_
      rwa [Node.endsOpen_ifElse helseStmt.ne_absent] at hopen
  · next helse =>
    cases hok
    obtain ⟨body, hbody, hthenStmt, -⟩ := hstatement _ _ _ hthen (hreports.trans hreports₁.symm)
    refine ⟨keyword :: opening :: (inner ++ closing :: body), ?_, ?_, ?_⟩
    · simp [hrest, hrest₁, hbody]
    · exact .ifThen hkeyword hopening hclosing hexpr hthenStmt
    · intro _ t hhead hkind
      refine helse ?_
      rw [Option.mem_def.1 hhead]
      simpa using hkind

theorem whileStatement_sound {limit : Nat} (hstatement : SoundClause (statement limit) .statement)
    {s s' : Progress} {keyword : Token} {rest : List Token} {tree : Node}
    (hrest : s.rest = keyword :: rest) (hkeyword : keyword.kind = .whileWord)
    (hok : whileStatement (expression limit) (statement limit) s = .ok tree s')
    (hreports : s'.reports = s.reports) :
    ∃ taken, s.rest = taken ++ s'.rest ∧ Stmt .language .statement taken tree ∧
      Settled tree s'.rest := by
  rw [whileStatement, advance_bind] at hok
  obtain ⟨opening, inner, closing, condition, s₁, hrest₁, hopening, hclosing, hexpr, hreports₁,
    hok⟩ := condition_sound hok
  simp only [hrest, List.tail_cons] at hrest₁
  rw [bind_eq_ok] at hok
  obtain ⟨body, s₂, hbody, hok⟩ := hok
  cases hok
  obtain ⟨tokens, htokens, hstmt, hsettled⟩ :=
    hstatement _ _ _ hbody (hreports.trans hreports₁.symm)
  refine ⟨keyword :: opening :: (inner ++ closing :: tokens), ?_, ?_, hsettled⟩
  · simp [hrest, hrest₁, htokens]
  · exact .whileLoop hkeyword hopening hclosing hexpr hstmt

theorem printStatement_sound {limit : Nat} {s s' : Progress} {keyword : Token} {rest : List Token}
    {tree : Node} (hrest : s.rest = keyword :: rest) (hkeyword : keyword.kind = .printWord)
    (hok : printStatement (expression limit) s = .ok tree s') :
    ∃ taken, s.rest = taken ++ s'.rest ∧ Stmt .language .statement taken tree ∧
      Settled tree s'.rest := by
  rw [printStatement, advance_bind, bind_eq_ok] at hok
  obtain ⟨value, s₁, hvalue, hok⟩ := hok
  rw [bind_eq_ok] at hok
  obtain ⟨semicolon, s₂, hsemicolon, hok⟩ := hok
  cases hok
  obtain ⟨hrest₁, hsemicolon, -⟩ := quietly_expect_eq_ok.1 hsemicolon
  obtain ⟨tokens, htokens, hexpr⟩ := quietly_expression_sound hvalue
  simp only [hrest, List.tail_cons, hrest₁] at htokens
  refine ⟨keyword :: (tokens ++ [semicolon]), ?_, .print hkeyword hsemicolon hexpr,
    settled_of_closed rfl⟩
  simp [hrest, htokens]

theorem expressionStatement_sound {limit : Nat} {s s' : Progress} {tree : Node}
    (hok : expressionStatement (expression limit) s = .ok tree s') :
    ∃ taken, s.rest = taken ++ s'.rest ∧ Stmt .language .statement taken tree ∧
      Settled tree s'.rest := by
  rw [expressionStatement, bind_eq_ok] at hok
  obtain ⟨value, s₁, hvalue, hok⟩ := hok
  rw [bind_eq_ok] at hok
  obtain ⟨semicolon, s₂, hsemicolon, hok⟩ := hok
  cases hok
  obtain ⟨hrest₁, hsemicolon, -⟩ := quietly_expect_eq_ok.1 hsemicolon
  obtain ⟨tokens, htokens, hexpr⟩ := quietly_expression_sound hvalue
  refine ⟨tokens ++ [semicolon], ?_, .expression hsemicolon hexpr, settled_of_closed rfl⟩
  rw [htokens, hrest₁, List.append_assoc, List.singleton_append]

theorem statement_sound (limit : Nat) : SoundClause (statement limit) .statement := by
  induction limit with
  | zero => exact nofun
  | succ limit ih =>
    intro s tree s' hok hreports
    rw [statement_succ] at hok
    split at hok
    · next hkind =>
      obtain ⟨keyword, rest, hrest, hkeyword⟩ := head?_kind_eq_some.1 hkind
      exact printStatement_sound hrest hkeyword hok
    · next hkind =>
      obtain ⟨opening, rest, hrest, hopening⟩ := head?_kind_eq_some.1 hkind
      exact blockStatement_sound ih hrest hopening hok hreports
    · next hkind =>
      obtain ⟨keyword, rest, hrest, hkeyword⟩ := head?_kind_eq_some.1 hkind
      exact ifStatement_sound ih hrest hkeyword hok hreports
    · next hkind =>
      obtain ⟨keyword, rest, hrest, hkeyword⟩ := head?_kind_eq_some.1 hkind
      exact whileStatement_sound ih hrest hkeyword hok hreports
    · exact expressionStatement_sound hok

/-- Statements that were parsed without any report are those of a derivation of all tokens. -/
theorem topLevel_sound {limit count : Nat} {s : Progress} (hcount : s.rest.length ≤ count)
    (hreports : (topLevel limit count s).2 = []) :
    Derives .language s.rest (topLevel limit count s).1 := by
  induction count generalizing s with
  | zero =>
    have hrest := List.eq_nil_of_length_eq_zero (Nat.le_zero.1 hcount)
    exact ⟨[], nofun, hrest, rfl⟩
  | succ count ih =>
    obtain ⟨rest, reports⟩ := s
    by_cases hrest : rest = []
    · subst hrest
      exact ⟨[], nofun, rfl, by rw [topLevel_nil]; rfl⟩
    have hbefore : reports = [] :=
      List.suffix_nil.1 (hreports ▸ reports_suffix_topLevel limit (count + 1) ⟨rest, reports⟩)
    cases hrun : declaration (expression limit) (statement limit) ⟨rest, reports⟩ with
    | ok result after =>
      rw [topLevel_of_ok hrest hrun] at hreports ⊢
      have hafter : after.reports = [] :=
        List.suffix_nil.1 (hreports ▸ reports_suffix_topLevel limit count after)
      obtain ⟨tree, taken, rfl, htaken, hstmt, -⟩ :=
        declaration_sound (statement_sound limit) hrun (hafter.trans hbefore.symm)
      have hshorter : after.rest.length ≤ count := by
        obtain ⟨t, tail, rfl, -⟩ := hstmt.begins
        rw [htaken, List.length_append, List.length_cons] at hcount
        omega
      obtain ⟨parts, hstmts, hparts, htrees⟩ := ih hshorter hreports
      refine ⟨⟨taken, tree⟩ :: parts, List.forall_mem_cons.2 ⟨hstmt, hstmts⟩, ?_, ?_⟩
      · rw [htaken, hparts, partTokens_cons]
      · rw [htrees]
        rfl
    | error halt after =>
      cases halt with
      | fault fault => exact absurd hrun declaration_ne_fault
      | tooDeep =>
        rw [topLevel_of_tooDeep hrest hrun] at hreports
        cases List.suffix_nil.1 (hreports ▸ reports_suffix_topLevel limit count ⟨_, _⟩)

/-! ## Completeness -/

theorem Reads.quietly {α : Type} {parser : ExprParser α} {tokens rest : List Token} {a : α}
    (hreads : Reads parser tokens a rest) (reports : List Fault) :
    Reads (quietly parser) ⟨tokens, reports⟩ a ⟨rest, reports⟩ := by
  rcases hreads with hok | ⟨left, hdeep⟩
  · exact .inl (quietly_eq_ok.2 ⟨hok, rfl⟩)
  · refine .inr ⟨⟨left, reports⟩, ?_⟩
    rw [Parser.quietly, hdeep]

theorem reads_quietly_expect {kind : Kind} {t : Token} (hkind : t.kind = kind)
    (complaint : Complaint) (rest : List Token) (reports : List Fault) :
    Reads (quietly (expect kind complaint)) ⟨t :: rest, reports⟩ t ⟨rest, reports⟩ :=
  .of_ok (quietly_expect_eq_ok.2 ⟨rfl, hkind, rfl⟩)

theorem Reads.recovering {parser : StmtParser Node} {s s' : Progress} {tree : Node}
    (hreads : Reads parser s tree s') : Reads (recovering parser) s (some tree) s' := by
  rcases hreads with hok | ⟨left, hdeep⟩
  · exact .inl (recovering_eq_ok.2 (.inl ⟨tree, hok, rfl⟩))
  · refine .inr ⟨left, ?_⟩
    rw [Parser.recovering, hdeep]

/-- An expression among statements is read up to a token that ends it. -/
theorem reads_quietly_expression {tokens rest : List Token} {value : Node} {t : Token}
    (hexpr : Expr .language .assignment tokens value) (hkind : t.kind ∉ goesOn .assignment)
    (limit : Nat) (reports : List Fault) :
    Reads (quietly (expression limit)) ⟨tokens ++ t :: rest, reports⟩ value
      ⟨t :: rest, reports⟩ :=
  (hexpr.reads limit _ (stops_cons hkind)).quietly reports

theorem semicolon_not_mem_goesOn {t : Token} (hkind : t.kind = .semicolon) :
    t.kind ∉ goesOn .assignment := by
  rw [hkind]
  decide

theorem reads_condition {α : Type} {before after : Complaint} {next : Node → StmtParser α}
    {opening closing : Token} {inner rest : List Token} {condition : Node} {a : α}
    {s' : Progress} (limit : Nat) (reports : List Fault) (hopening : opening.kind = .leftParen)
    (hclosing : closing.kind = .rightParen) (hexpr : Expr .language .assignment inner condition)
    (hnext : Reads (next condition) ⟨rest, reports⟩ a s') :
    Reads (do
      let _ ← quietly (expect .leftParen before)
      let condition ← quietly (expression limit)
      let _ ← quietly (expect .rightParen after)
      next condition) ⟨opening :: (inner ++ closing :: rest), reports⟩ a s' := by
  refine .bind (reads_quietly_expect hopening _ _ _) ?_
  refine .bind (reads_quietly_expression hexpr (by rw [hclosing]; decide) _ _) ?_
  exact .bind (reads_quietly_expect hclosing _ _ _) hnext

/-- A statement is settled before another one, and before the brace that ends its block. -/
theorem stops_else_of_kind {t : Token} {rest : List Token}
    (hkind : t.kind ∈ Clause.declaration.starts ∨ t.kind = .rightBrace) :
    Stops [.elseWord] (t :: rest) := by
  refine stops_cons fun helse => ?_
  rw [List.mem_singleton.1 helse] at hkind
  exact absurd hkind (by decide)

theorem stops_else_partTokens {conditions : SideConditions} {parts : List Part} {rest : List Token}
    (hparts : ∀ part ∈ parts, Stmt conditions .declaration part.tokens part.tree)
    (hrest : Stops [.elseWord] rest) : Stops [.elseWord] (partTokens parts ++ rest) := by
  cases parts with
  | nil => exact hrest
  | cons part parts =>
    obtain ⟨t, tail, htokens, hkind⟩ := (hparts part List.mem_cons_self).begins
    rw [partTokens_cons, htokens]
    exact stops_else_of_kind (.inl hkind)

theorem length_le_partTokens {parts : List Part}
    (hparts : ∀ part ∈ parts, Stmt .language .declaration part.tokens part.tree) :
    parts.length ≤ (partTokens parts).length := by
  induction parts with
  | nil => exact Nat.le_refl _
  | cons part parts ih =>
    rw [List.forall_mem_cons] at hparts
    obtain ⟨t, tail, htokens, -⟩ := hparts.1.begins
    have hlength := ih hparts.2
    rw [partTokens_cons, htokens, List.length_append, List.length_cons, List.length_cons]
    omega

/-- The loop of a block reads all its declarations, up to the brace that closes it. -/
theorem reads_declarations {limit : Nat} {parts : List Part} {closing : Token}
    {rest : List Token} (hclosing : closing.kind = .rightBrace)
    (hstmts : ∀ part ∈ parts, Stmt .language .declaration part.tokens part.tree)
    (hreads : ∀ part ∈ parts, ∀ rest reports, Settled part.tree rest →
      Reads (clauseParser limit .declaration) ⟨part.tokens ++ rest, reports⟩ part.tree
        ⟨rest, reports⟩) (reports : List Fault) :
    ∀ count, parts.length ≤ count →
      Reads (declarations (declaration (expression limit) (statement limit)) count)
        ⟨partTokens parts ++ closing :: rest, reports⟩ (parts.map Part.tree)
        ⟨closing :: rest, reports⟩ := by
  induction parts with
  | nil =>
    intro count _
    cases count with
    | zero => exact .of_ok rfl
    | succ count =>
      refine .of_ok ?_
      simp [declarations_succ, hclosing]
  | cons part parts ih =>
    intro count hcount
    rw [List.forall_mem_cons] at hstmts hreads
    cases count with
    | zero => cases hcount
    | succ count =>
      have hsettled : Settled part.tree (partTokens parts ++ closing :: rest) :=
        fun _ => stops_else_partTokens hstmts.2 (stops_else_of_kind (.inr hclosing))
      have hfirst := (hreads.1 _ reports hsettled).recovering
      have hothers := ih hstmts.2 hreads.2 count (Nat.le_of_succ_le_succ hcount)
      obtain ⟨t, tail, htokens, hkind⟩ := hstmts.1.begins
      have hnext : t.kind ≠ .rightBrace := by
        intro hbrace
        rw [hbrace] at hkind
        exact absurd hkind (by decide)
      rw [partTokens_cons, List.append_assoc, htokens, List.cons_append]
      refine .of_eq (declarations_of_next _ count hnext) ?_
      rw [← List.cons_append, ← htokens]
      exact hfirst.bind (hothers.bind (.of_ok rfl))

/-! ### One lemma for each kind of statement -/

section Kinds

variable (limit : Nat) (reports : List Fault)

theorem reads_print {keyword semicolon : Token} {tokens rest : List Token} {value : Node}
    (hkeyword : keyword.kind = .printWord) (hsemicolon : semicolon.kind = .semicolon)
    (hvalue : Expr .language .assignment tokens value) :
    Reads (statement (limit + 1)) ⟨keyword :: (tokens ++ semicolon :: rest), reports⟩
      (.printStmt value) ⟨rest, reports⟩ := by
  have heq : ∀ after, statement (limit + 1) ⟨keyword :: after, reports⟩ =
      printStatement (expression limit) ⟨keyword :: after, reports⟩ := by
    simp [statement_succ, hkeyword]
  refine .of_eq (heq _) (.bind (.of_ok rfl) ?_)
  refine .bind (reads_quietly_expression hvalue (semicolon_not_mem_goesOn hsemicolon) _ _) ?_
  exact .bind (reads_quietly_expect hsemicolon _ _ _) (.of_ok rfl)

theorem reads_block {opening closing : Token} {parts : List Part} {rest : List Token}
    (hopening : opening.kind = .leftBrace) (hclosing : closing.kind = .rightBrace)
    (hstmts : ∀ part ∈ parts, Stmt .language .declaration part.tokens part.tree)
    (hreads : ∀ part ∈ parts, ∀ rest reports, Settled part.tree rest →
      Reads (clauseParser limit .declaration) ⟨part.tokens ++ rest, reports⟩ part.tree
        ⟨rest, reports⟩) :
    Reads (statement (limit + 1)) ⟨opening :: (partTokens parts ++ closing :: rest), reports⟩
      (.block (parts.map Part.tree)) ⟨rest, reports⟩ := by
  have heq : ∀ after, statement (limit + 1) ⟨opening :: after, reports⟩ =
      blockStatement (declaration (expression limit) (statement limit))
        ⟨opening :: after, reports⟩ := by
    simp [statement_succ, hopening]
  have hcount : parts.length ≤ (partTokens parts ++ closing :: rest).length := by
    have hparts := length_le_partTokens hstmts
    rw [List.length_append]
    omega
  refine .of_eq (heq _) (.bind (.of_ok rfl) (.bind (.of_ok rfl) ?_))
  refine .bind (reads_declarations hclosing hstmts hreads _ _ hcount) ?_
  exact .bind (reads_quietly_expect hclosing _ _ _) (.of_ok rfl)

theorem reads_ifThen {keyword opening closing : Token} {inner body rest : List Token}
    {condition thenBranch : Node} (hkeyword : keyword.kind = .ifWord)
    (hopening : opening.kind = .leftParen) (hclosing : closing.kind = .rightParen)
    (hcondition : Expr .language .assignment inner condition) (hstops : Stops [.elseWord] rest)
    (hthen : Reads (statement limit) ⟨body ++ rest, reports⟩ thenBranch ⟨rest, reports⟩) :
    Reads (statement (limit + 1))
      ⟨keyword :: opening :: (inner ++ closing :: (body ++ rest)), reports⟩
      (.ifStmt condition thenBranch .absent) ⟨rest, reports⟩ := by
  have heq : ∀ after, statement (limit + 1) ⟨keyword :: after, reports⟩ =
      ifStatement (expression limit) (statement limit) ⟨keyword :: after, reports⟩ := by
    simp [statement_succ, hkeyword]
  have helse : rest.head?.map (·.kind) ≠ some .elseWord := by
    intro hnext
    obtain ⟨t, tail, rfl, hkind⟩ := head?_kind_eq_some.1 hnext
    exact hstops t rfl (by simp [hkind])
  refine .of_eq (heq _) (.bind (.of_ok rfl) ?_)
  refine reads_condition limit reports hopening hclosing hcondition (.bind hthen ?_)
  refine .bind (.of_ok rfl) ?_
  rw [if_neg helse]
  exact .of_ok rfl

theorem reads_ifElse {keyword opening closing otherwise : Token}
    {inner body others rest : List Token} {condition thenBranch elseBranch : Node}
    (hkeyword : keyword.kind = .ifWord) (hopening : opening.kind = .leftParen)
    (hclosing : closing.kind = .rightParen) (hotherwise : otherwise.kind = .elseWord)
    (hcondition : Expr .language .assignment inner condition)
    (hthen : Reads (statement limit) ⟨body ++ otherwise :: (others ++ rest), reports⟩ thenBranch
      ⟨otherwise :: (others ++ rest), reports⟩)
    (helse : Reads (statement limit) ⟨others ++ rest, reports⟩ elseBranch ⟨rest, reports⟩) :
    Reads (statement (limit + 1))
      ⟨keyword :: opening :: (inner ++ closing :: (body ++ otherwise :: (others ++ rest))), reports⟩
      (.ifStmt condition thenBranch elseBranch) ⟨rest, reports⟩ := by
  have heq : ∀ after, statement (limit + 1) ⟨keyword :: after, reports⟩ =
      ifStatement (expression limit) (statement limit) ⟨keyword :: after, reports⟩ := by
    simp [statement_succ, hkeyword]
  refine .of_eq (heq _) (.bind (.of_ok rfl) ?_)
  refine reads_condition limit reports hopening hclosing hcondition (.bind hthen ?_)
  refine .bind (.of_ok rfl) ?_
  rw [if_pos (by simp [hotherwise])]
  exact .bind (.of_ok rfl) (.bind helse (.of_ok rfl))

theorem reads_while {keyword opening closing : Token} {inner tokens rest : List Token}
    {condition body : Node} (hkeyword : keyword.kind = .whileWord)
    (hopening : opening.kind = .leftParen) (hclosing : closing.kind = .rightParen)
    (hcondition : Expr .language .assignment inner condition)
    (hbody : Reads (statement limit) ⟨tokens ++ rest, reports⟩ body ⟨rest, reports⟩) :
    Reads (statement (limit + 1))
      ⟨keyword :: opening :: (inner ++ closing :: (tokens ++ rest)), reports⟩
      (.whileStmt condition body) ⟨rest, reports⟩ := by
  have heq : ∀ after, statement (limit + 1) ⟨keyword :: after, reports⟩ =
      whileStatement (expression limit) (statement limit) ⟨keyword :: after, reports⟩ := by
    simp [statement_succ, hkeyword]
  refine .of_eq (heq _) (.bind (.of_ok rfl) ?_)
  exact reads_condition limit reports hopening hclosing hcondition (.bind hbody (.of_ok rfl))

theorem reads_expression {semicolon : Token} {tokens rest : List Token} {value : Node}
    (hsemicolon : semicolon.kind = .semicolon) (hvalue : Expr .language .assignment tokens value) :
    Reads (statement (limit + 1)) ⟨tokens ++ semicolon :: rest, reports⟩ (.exprStmt value)
      ⟨rest, reports⟩ := by
  obtain ⟨t, tail, htokens, hkind⟩ := hvalue.begins
  have heq : ∀ after, statement (limit + 1) ⟨t :: after, reports⟩ =
      expressionStatement (expression limit) ⟨t :: after, reports⟩ := by
    intro after
    rw [statement_succ]
    split
    case h_5 => rfl
    all_goals next hfirst =>
      have hfirst : t.kind = _ := Option.some.inj hfirst
      rw [hfirst] at hkind
      exact absurd hkind (by decide)
  rw [htokens]
  refine .of_eq (heq _) ?_
  rw [← htokens]
  refine .bind (reads_quietly_expression hvalue (semicolon_not_mem_goesOn hsemicolon) _ _) ?_
  exact .bind (reads_quietly_expect hsemicolon _ _ _) (.of_ok rfl)

theorem reads_declare {keyword name semicolon : Token} {rest : List Token}
    (hkeyword : keyword.kind = .varWord) (hname : name.kind = .identifier)
    (hsemicolon : semicolon.kind = .semicolon) :
    Reads (clauseParser limit .declaration) ⟨keyword :: name :: semicolon :: rest, reports⟩
      (.varDecl (.token name) .absent) ⟨rest, reports⟩ := by
  refine .bind (.of_ok rfl) ?_
  rw [if_pos (by simp [hkeyword])]
  refine .bind (.of_ok rfl) (.bind (reads_quietly_expect hname _ _ _) (.bind (.of_ok rfl) ?_))
  dsimp only
  rw [if_neg (by simp [hsemicolon]), pure_bind]
  exact .bind (reads_quietly_expect hsemicolon _ _ _) (.of_ok rfl)

theorem reads_declareAs {keyword name equal semicolon : Token} {tokens rest : List Token}
    {value : Node} (hkeyword : keyword.kind = .varWord) (hname : name.kind = .identifier)
    (hequal : equal.kind = .equal) (hsemicolon : semicolon.kind = .semicolon)
    (hvalue : Expr .language .assignment tokens value) :
    Reads (clauseParser limit .declaration)
      ⟨keyword :: name :: equal :: (tokens ++ semicolon :: rest), reports⟩
      (.varDecl (.token name) value) ⟨rest, reports⟩ := by
  refine .bind (.of_ok rfl) ?_
  rw [if_pos (by simp [hkeyword])]
  refine .bind (.of_ok rfl) (.bind (reads_quietly_expect hname _ _ _) (.bind (.of_ok rfl) ?_))
  dsimp only
  rw [if_pos (by simp [hequal])]
  refine .bind (.of_ok rfl) ?_
  refine .bind (reads_quietly_expression hvalue (semicolon_not_mem_goesOn hsemicolon) _ _) ?_
  exact .bind (reads_quietly_expect hsemicolon _ _ _) (.of_ok rfl)

theorem reads_statement {tokens rest : List Token} {tree : Node}
    (hstmt : Stmt .language .statement tokens tree)
    (hreads : Reads (statement limit) ⟨tokens ++ rest, reports⟩ tree ⟨rest, reports⟩) :
    Reads (clauseParser limit .declaration) ⟨tokens ++ rest, reports⟩ tree ⟨rest, reports⟩ := by
  obtain ⟨t, tail, rfl, hkind⟩ := hstmt.begins
  have hvar : t.kind ≠ .varWord := by
    intro hvar
    rw [hvar] at hkind
    exact absurd hkind (by decide)
  refine .bind (.of_ok rfl) ?_
  rw [if_neg (by simpa using hvar)]
  exact hreads

end Kinds

end Parser

open Lox.Parser

/-- What the grammar derives, the parser reads, if no `else` comes next that would belong to it. -/
theorem Grammar.Stmt.reads {clause : Clause} {tokens : List Token} {tree : Node}
    (hstmt : Stmt .language clause tokens tree) :
    ∀ limit rest reports, Settled tree rest →
      Reads (clauseParser limit clause) ⟨tokens ++ rest, reports⟩ tree ⟨rest, reports⟩ := by
  induction hstmt with
  | print hkeyword hsemicolon hvalue =>
    intro limit rest reports _
    cases limit with
    | zero => exact reads_tooDeep
    | succ limit =>
      rw [List.cons_append, List.append_assoc]
      exact reads_print limit reports hkeyword hsemicolon hvalue
  | block hopening hclosing hparts ih =>
    intro limit rest reports _
    cases limit with
    | zero => exact reads_tooDeep
    | succ limit =>
      rw [List.cons_append, List.append_assoc]
      exact reads_block limit reports hopening hclosing hparts fun part hmem => ih part hmem limit
  | ifThen hkeyword hopening hclosing hcondition _ ih =>
    intro limit rest reports hsettled
    cases limit with
    | zero => exact reads_tooDeep
    | succ limit =>
      have hstops : Stops [.elseWord] rest := hsettled rfl
      rw [List.cons_append, List.cons_append, List.append_assoc, List.cons_append]
      exact reads_ifThen limit reports hkeyword hopening hclosing hcondition hstops
        (ih limit rest reports fun _ => hstops)
  | ifElse hkeyword hopening hclosing hotherwise hcondition _ hbefore helse ihthen ihelse =>
    intro limit rest reports hsettled
    cases limit with
    | zero => exact reads_tooDeep
    | succ limit =>
      rw [SideConditions.language_beforeElse] at hbefore
      rw [List.cons_append, List.cons_append, List.append_assoc, List.cons_append,
        List.append_assoc, List.cons_append]
      refine reads_ifElse limit reports hkeyword hopening hclosing hotherwise hcondition
        (ihthen limit _ reports (settled_of_closed hbefore)) (ihelse limit rest reports ?_)
      intro hopen
      exact hsettled (by rwa [Node.endsOpen_ifElse helse.ne_absent])
  | whileLoop hkeyword hopening hclosing hcondition _ ih =>
    intro limit rest reports hsettled
    cases limit with
    | zero => exact reads_tooDeep
    | succ limit =>
      rw [List.cons_append, List.cons_append, List.append_assoc, List.cons_append]
      exact reads_while limit reports hkeyword hopening hclosing hcondition
        (ih limit rest reports hsettled)
  | expression hsemicolon hvalue =>
    intro limit rest reports _
    cases limit with
    | zero => exact reads_tooDeep
    | succ limit =>
      rw [List.append_assoc]
      exact reads_expression limit reports hsemicolon hvalue
  | declare hkeyword hname hsemicolon =>
    intro limit rest reports _
    exact reads_declare limit reports hkeyword hname hsemicolon
  | declareAs hkeyword hname hequal hsemicolon hvalue =>
    intro limit rest reports _
    rw [List.cons_append, List.cons_append, List.cons_append, List.append_assoc]
    exact reads_declareAs limit reports hkeyword hname hequal hsemicolon hvalue
  | statement hstmt ih =>
    intro limit rest reports hsettled
    exact reads_statement limit reports hstmt (ih limit rest reports hsettled)

/-- The statements of a derivation are returned as they are, unless some nesting is reported. -/
theorem Grammar.topLevel_of_parts (limit : Nat) {parts : List Part} (reports : List Fault)
    (hparts : ∀ part ∈ parts, Stmt .language .declaration part.tokens part.tree) :
    ∀ count, parts.length ≤ count →
      topLevel limit count ⟨partTokens parts, reports⟩ = (parts.map Part.tree, reports) ∨
        ∃ fault ∈ (topLevel limit count ⟨partTokens parts, reports⟩).2,
          fault.complaint = .nesting := by
  induction parts with
  | nil => exact fun count _ => .inl (topLevel_nil limit count reports)
  | cons part parts ih =>
    intro count hcount
    rw [List.forall_mem_cons] at hparts
    cases count with
    | zero => cases hcount
    | succ count =>
      rw [partTokens_cons]
      have hnonempty : part.tokens ++ partTokens parts ≠ [] := by
        obtain ⟨t, tail, htokens, -⟩ := hparts.1.begins
        simp [htokens]
      have hsettled : Settled part.tree (partTokens parts) := fun _ => by
        simpa using stops_else_partTokens hparts.2 stops_nil
      have hreads := (hparts.1.reads limit (partTokens parts) reports hsettled).recovering
      rcases hreads with hok | ⟨left, hdeep⟩
      · rw [topLevel_of_ok hnonempty hok]
        rcases ih hparts.2 count (Nat.le_of_succ_le_succ hcount) with hrest | hnesting
        · exact .inl (by rw [hrest]; rfl)
        · exact .inr hnesting
      · rw [topLevel_of_tooDeep hnonempty hdeep]
        refine .inr ⟨⟨left.rest, .nesting⟩, ?_, rfl⟩
        exact (reports_suffix_topLevel limit count ⟨_, _⟩).subset List.mem_cons_self

theorem beforeEnd_fst (tokens : List Token) :
    (beforeEnd tokens).1 = tokens.takeWhile (·.kind != .eof) := by
  rw [beforeEnd]
  split <;> rfl

/-- A program that is parsed without errors is one of the grammar. -/
theorem derives_of_parse {limit : Nat} {tokens : List Token}
    (herrors : (parse limit tokens).errors = []) :
    Derives .language (tokens.takeWhile (·.kind != .eof)) (parse limit tokens).statements := by
  rw [← beforeEnd_fst]
  refine @topLevel_sound limit _ ⟨(beforeEnd tokens).1, []⟩ (Nat.le_refl _) ?_
  simpa [parse] using herrors

/-- A program of the grammar is parsed without errors, unless its nesting is too deep. -/
theorem parse_of_derives (limit : Nat) {tokens : List Token} {statements : List Node}
    (hderives : Derives .language (tokens.takeWhile (·.kind != .eof)) statements) :
    ((parse limit tokens).errors = [] ∧ (parse limit tokens).statements = statements) ∨
      ∃ error ∈ (parse limit tokens).errors, error.complaint = .nesting := by
  obtain ⟨parts, hparts, htokens, rfl⟩ := hderives
  rw [← beforeEnd_fst] at htokens
  simp only [parse, htokens]
  rcases topLevel_of_parts limit [] hparts _ (length_le_partTokens hparts) with
    htop | ⟨fault, hmem, hfault⟩
  · simp [htop]
  · refine .inr ⟨fault.toError (beforeEnd tokens).2, ?_, hfault⟩
    exact List.mem_map_of_mem (List.mem_reverse.2 hmem)

/-- The parser accepts exactly the programs of the grammar. If no nesting is found too deep, no error
is reported exactly when the tokens before the end derive a program, and then the statements are
those of every derivation. -/
theorem parse_accepts_grammar (limit : Nat) (tokens : List Token)
    (hnesting : ∀ error ∈ (parse limit tokens).errors, error.complaint ≠ .nesting) :
    ((parse limit tokens).errors = [] ↔
      ∃ statements, Derives .language (tokens.takeWhile (·.kind != .eof)) statements) ∧
    ((parse limit tokens).errors = [] → ∀ statements,
      Derives .language (tokens.takeWhile (·.kind != .eof)) statements ↔
        statements = (parse limit tokens).statements) := by
  have hcomplete (statements : List Node)
      (hderives : Derives .language (tokens.takeWhile (·.kind != .eof)) statements) :
      (parse limit tokens).errors = [] ∧ (parse limit tokens).statements = statements := by
    rcases parse_of_derives limit hderives with haccepted | ⟨error, hmem, hdeep⟩
    · exact haccepted
    · exact absurd hdeep (hnesting error hmem)
  refine ⟨⟨fun herrors => ⟨_, derives_of_parse herrors⟩, ?_⟩, fun herrors statements => ⟨?_, ?_⟩⟩
  · rintro ⟨statements, hderives⟩
    exact (hcomplete statements hderives).1
  · intro hderives
    exact (hcomplete statements hderives).2.symm
  · rintro rfl
    exact derives_of_parse herrors

/-- The tokens of `if (a) if (b) c = -d * 2; else print c;`. -/
def danglingElse : List Token :=
  [⟨.ifWord, .str "if", .null, 1⟩, ⟨.leftParen, .str "(", .null, 1⟩,
    ⟨.identifier, .str "a", .null, 1⟩, ⟨.rightParen, .str ")", .null, 1⟩,
    ⟨.ifWord, .str "if", .null, 1⟩, ⟨.leftParen, .str "(", .null, 1⟩,
    ⟨.identifier, .str "b", .null, 1⟩, ⟨.rightParen, .str ")", .null, 1⟩,
    ⟨.identifier, .str "c", .null, 1⟩, ⟨.equal, .str "=", .null, 1⟩,
    ⟨.minus, .str "-", .null, 1⟩, ⟨.identifier, .str "d", .null, 1⟩, ⟨.star, .str "*", .null, 1⟩,
    ⟨.number, .str "2", .float 2, 1⟩, ⟨.semicolon, .str ";", .null, 1⟩,
    ⟨.elseWord, .str "else", .null, 1⟩, ⟨.printWord, .str "print", .null, 1⟩,
    ⟨.identifier, .str "c", .null, 1⟩, ⟨.semicolon, .str ";", .null, 1⟩, Token.endAt 1]

theorem parse_accepts_danglingElse :
    (∀ error ∈ (parse 20 danglingElse).errors, error.complaint ≠ .nesting) ∧
      ∃ statements,
        Derives .language (danglingElse.takeWhile (·.kind != .eof)) statements := by
  have herrors : (parse 20 danglingElse).errors = [] := List.isEmpty_iff.1 (by decide +kernel)
  have hnesting : ∀ error ∈ (parse 20 danglingElse).errors, error.complaint ≠ .nesting := by
    rw [herrors]
    intro error herror
    cases herror
  exact ⟨hnesting, (parse_accepts_grammar 20 danglingElse hnesting).1.1 herrors⟩

end Lox
