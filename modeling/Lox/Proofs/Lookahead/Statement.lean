import Lox.Proofs.Lookahead.Expression

/-!
# One token ahead in statements

A statement that is parsed without a fault depends on what comes after it only by whether that is an
`else`. A fault depends on the next token, and what was taken before the first fault of a program
can be completed to a program of the grammar by its rules alone.
-/

namespace Lox

open Lox.Computation Grammar

namespace Parser

/-! ## The words of the grammar -/

def clauseWords (clause : Clause) : Language Token :=
  {word | ∃ tree, Stmt .documented clause word tree}

def programWords : Language Token :=
  {word | ∃ statements, Derives .documented word statements}

/-- The end of a conditional: an `else` with its statement, or nothing. -/
def elseWords : Language Token :=
  kindWord .elseWord * clauseWords .statement + 1

/-- The end of a variable declaration, behind its name. -/
def initializerWords : Language Token :=
  kindWord .equal * (exprWords .assignment * kindWord .semicolon) + kindWord .semicolon

def conditionWords : Language Token :=
  kindWord .leftParen * (exprWords .assignment * kindWord .rightParen)

theorem nil_notMem_clauseWords (clause : Clause) : [] ∉ clauseWords clause := by
  rintro ⟨tree, hstmt⟩
  obtain ⟨t, rest, hnil, -⟩ := hstmt.begins
  cases hnil

theorem nil_mem_programWords : [] ∈ programWords :=
  ⟨[], [], by simp, rfl, rfl⟩

theorem statement_le_clauseWords : clauseWords .statement ≤ clauseWords .declaration := by
  rintro word ⟨tree, hstmt⟩
  exact ⟨tree, .statement hstmt⟩

theorem declaration_mul_le_programWords :
    clauseWords .declaration * programWords ≤ programWords := by
  rintro _ ⟨word, ⟨tree, hstmt⟩, _, ⟨_, parts, hparts, rfl, rfl⟩, rfl⟩
  exact ⟨_, ⟨word, tree⟩ :: parts, List.forall_mem_cons.2 ⟨hstmt, hparts⟩, rfl, rfl⟩

theorem print_le_clauseWords :
    kindWord .printWord * (exprWords .assignment * kindWord .semicolon) ≤ clauseWords .statement := by
  rintro _ ⟨_, ⟨keyword, hkeyword, rfl⟩, _,
    ⟨word, ⟨tree, hexpr⟩, _, ⟨semicolon, hsemicolon, rfl⟩, rfl⟩, rfl⟩
  exact ⟨_, .print hkeyword hsemicolon hexpr⟩

theorem block_le_clauseWords :
    kindWord .leftBrace * (programWords * kindWord .rightBrace) ≤ clauseWords .statement := by
  rintro _ ⟨_, ⟨opening, hopening, rfl⟩, _,
    ⟨_, ⟨_, parts, hparts, rfl, rfl⟩, _, ⟨closing, hclosing, rfl⟩, rfl⟩, rfl⟩
  exact ⟨_, .block hopening hclosing hparts⟩

theorem expression_le_clauseWords :
    exprWords .assignment * kindWord .semicolon ≤ clauseWords .statement := by
  rintro _ ⟨word, ⟨tree, hexpr⟩, _, ⟨semicolon, hsemicolon, rfl⟩, rfl⟩
  exact ⟨_, .expression hsemicolon hexpr⟩

theorem while_le_clauseWords :
    kindWord .whileWord * (conditionWords * clauseWords .statement) ≤ clauseWords .statement := by
  rintro _ ⟨_, ⟨keyword, hkeyword, rfl⟩, _, ⟨_, ⟨_, ⟨opening, hopening, rfl⟩, _,
    ⟨word, ⟨tree, hexpr⟩, _, ⟨closing, hclosing, rfl⟩, rfl⟩, rfl⟩, body, ⟨_, hbody⟩, rfl⟩, rfl⟩
  exact ⟨_, by simpa using .whileLoop hkeyword hopening hclosing hexpr hbody⟩

theorem if_le_clauseWords :
    kindWord .ifWord * (conditionWords * (clauseWords .statement * elseWords)) ≤
      clauseWords .statement := by
  rintro _ ⟨_, ⟨keyword, hkeyword, rfl⟩, _, ⟨_, ⟨_, ⟨opening, hopening, rfl⟩, _,
    ⟨word, ⟨tree, hexpr⟩, _, ⟨closing, hclosing, rfl⟩, rfl⟩, rfl⟩, _,
    ⟨body, ⟨_, hbody⟩, final, hfinal, rfl⟩, rfl⟩, rfl⟩
  rcases hfinal with ⟨_, ⟨otherwise, hotherwise, rfl⟩, rest, ⟨_, hrest⟩, rfl⟩ | hnil
  · have hif := Stmt.ifElse hkeyword hopening hclosing hotherwise hexpr hbody rfl hrest
    exact ⟨_, by simpa using hif⟩
  · obtain rfl := hnil
    exact ⟨_, by simpa using .ifThen hkeyword hopening hclosing hexpr hbody⟩

theorem var_le_clauseWords :
    kindWord .varWord * (kindWord .identifier * initializerWords) ≤ clauseWords .declaration := by
  rintro _ ⟨_, ⟨keyword, hkeyword, rfl⟩, _, ⟨_, ⟨name, hname, rfl⟩, _, hfinal, rfl⟩, rfl⟩
  rcases hfinal with ⟨_, ⟨equal, hequal, rfl⟩, _,
    ⟨word, ⟨tree, hexpr⟩, _, ⟨semicolon, hsemicolon, rfl⟩, rfl⟩, rfl⟩ | ⟨semicolon, hsemicolon, rfl⟩
  · exact ⟨_, .declareAs hkeyword hname hequal hsemicolon hexpr⟩
  · exact ⟨_, .declare hkeyword hname hsemicolon⟩

theorem clauseWords_nonempty (clause : Clause) : ∃ word, word ∈ clauseWords clause := by
  obtain ⟨word, hword⟩ := exprWords_nonempty .assignment
  obtain ⟨semicolon, hsemicolon⟩ := kindWord_nonempty .semicolon
  have hstatement := expression_le_clauseWords (Language.append_mem_mul hword hsemicolon)
  cases clause with
  | statement => exact ⟨_, hstatement⟩
  | declaration => exact ⟨_, statement_le_clauseWords hstatement⟩

/-! ## Parts of statements -/

section Part

variable {limit : Nat} {tokens : List Token} {look : Look}

/-- A closing token right after an expression. -/
theorem predicts_expression_expect (limit : Nat) (look : Look) (kind : Kind) (complaint : Complaint)
    (build : Node → Node) :
    Predicts look (exprWords .assignment * kindWord kind) (do
      let value ← quietly (expression limit)
      let _ ← quietly (expect kind complaint)
      return build value) := by
  refine (predicts_expression limit).bind (fun value => ?_) (kindWord_nonempty kind)
    fun hnil => absurd hnil (nil_notMem_kindWord kind)
  exact (predicts_expect look kind complaint).map fun _ => build value

/-- A condition in parentheses in front of something. -/
theorem predicts_condition {language : Language Token} {next : Node → StmtParser Node}
    (limit : Nat) (opens closes : Complaint) (hnext : ∀ condition, Predicts look language (next condition))
    (hword : ∃ word, word ∈ language) :
    Predicts look (conditionWords * language) (do
      let _ ← quietly (expect .leftParen opens)
      let condition ← quietly (expression limit)
      let _ ← quietly (expect .rightParen closes)
      next condition) := by
  have hcloses := kindWord_mul_nonempty .rightParen hword
  have hexpression : Predicts look (exprWords .assignment * (kindWord .rightParen * language)) (do
      let condition ← quietly (expression limit)
      let _ ← quietly (expect .rightParen closes)
      next condition) := by
    refine (predicts_expression limit).bind (fun condition => ?_) hcloses
      fun hnil => absurd hnil (nil_notMem_kindWord_mul .rightParen language)
    exact (predicts_expect look .rightParen closes).bind (fun _ => hnext condition) hword
      fun _ _ _ h => h
  have hwords : ∃ word, word ∈ exprWords .assignment * (kindWord .rightParen * language) := by
    obtain ⟨inner, hinner⟩ := exprWords_nonempty .assignment
    obtain ⟨rest, hrest⟩ := hcloses
    exact ⟨inner ++ rest, Language.append_mem_mul hinner hrest⟩
  rw [conditionWords, mul_assoc, mul_assoc]
  exact (predicts_expect look .leftParen opens).bind (fun _ => hexpression) hwords fun _ _ _ h => h

theorem head?_kind_eq_iff {tokens : List Token} {kind : Kind} :
    tokens.head?.map (·.kind) = some kind ↔ beginsWith (· = kind) tokens = true := by
  cases tokens <;> simp [beginsWith]

/-- What may come after the first statement of a conditional. -/
def elseTail (limit : Nat) (condition thenBranch : Node) : StmtParser Node := do
  if (← nextKind) = some .elseWord then
    advance
    let elseBranch ← statement limit
    return .ifStmt condition thenBranch elseBranch
  else return .ifStmt condition thenBranch .absent

theorem elseTail_of_else (condition thenBranch : Node) {t : Token} (hkind : t.kind = .elseWord)
    (rest : List Token) (reports : List Fault) :
    elseTail limit condition thenBranch ⟨t :: rest, reports⟩ =
      (statement limit >>= fun elseBranch => pure (.ifStmt condition thenBranch elseBranch))
        ⟨rest, reports⟩ := by
  rw [elseTail, nextKind_bind, if_pos (by simp [hkind])]
  rfl

theorem elseTail_of_stop (condition thenBranch : Node) {s : Progress}
    (hstop : s.rest.head?.map (·.kind) ≠ some .elseWord) :
    elseTail limit condition thenBranch s = .ok (.ifStmt condition thenBranch .absent) s := by
  rw [elseTail, nextKind_bind, if_neg hstop]
  rfl

theorem predicts_elseTail
    (hstatement : Predicts .elseWord (clauseWords .statement) (statement limit))
    (condition thenBranch : Node) :
    Predicts .elseWord elseWords (elseTail limit condition thenBranch) where
  keeps start := by
    refine keeps_forward_nextKind.bind fun next => ?_
    split
    · exact keeps_forward_advance.bind fun _ => (hstatement.keeps start).bind fun _ => keeps_pure _
    · exact keeps_pure _
  everywhere tokens := by
    by_cases helse : tokens.head?.map (·.kind) = some .elseWord
    · obtain ⟨t, rest, rfl, hkind⟩ := head?_kind_eq_some.1 helse
      have hbranch := (hstatement.map (Node.ifStmt condition thenBranch)).everywhere rest
      refine (hbranch.cons fun rest' => ?_).mono ?_
      · exact elseTail_of_else condition thenBranch hkind rest' []
      · rw [hkind]
        exact fun _ hword => .inl hword
    · have hpure : PredictsAt .elseWord elseWords
          (pure (.ifStmt condition thenBranch .absent) : StmtParser Node) tokens := by
        refine ((predicts_pure _ _).everywhere tokens).mono ?_
        rintro _ rfl
        exact .inr rfl
      have hsame (tokens' : List Token) (hlook : SameElse tokens tokens') :
          elseTail limit condition thenBranch ⟨tokens', []⟩ =
            .ok (.ifStmt condition thenBranch .absent) ⟨tokens', []⟩ := by
        rw [head?_kind_eq_iff, hlook, ← head?_kind_eq_iff] at helse
        exact elseTail_of_stop condition thenBranch helse
      exact hpure.of_same (fun tokens' hnext => hsame tokens' hnext.sameElse) fun _ => hsame

/-- What comes after the name of a variable declaration. -/
def initializerTail (limit : Nat) (name : Token) : StmtParser Node := do
  let initializer ←
    if (← nextKind) = some .equal then do
      advance
      quietly (expression limit)
    else pure .absent
  let _ ← quietly (expect .semicolon .semicolonAfterDeclaration)
  return .varDecl (.token name) initializer

theorem initializerTail_of_equal (name : Token) {t : Token} (hkind : t.kind = .equal)
    (rest : List Token) (reports : List Fault) :
    initializerTail limit name ⟨t :: rest, reports⟩ = (do
      let value ← quietly (expression limit)
      let _ ← quietly (expect .semicolon .semicolonAfterDeclaration)
      return Node.varDecl (.token name) value) ⟨rest, reports⟩ := by
  rw [initializerTail, nextKind_bind]
  dsimp only
  rw [if_pos (by simp [hkind])]
  rfl

theorem initializerTail_of_stop (name : Token) {s : Progress}
    (hstop : s.rest.head?.map (·.kind) ≠ some .equal) :
    initializerTail limit name s = (do
      let _ ← quietly (expect .semicolon .semicolonAfterDeclaration)
      return Node.varDecl (.token name) .absent) s := by
  rw [initializerTail, nextKind_bind]
  dsimp only
  rw [if_neg hstop]
  rfl

theorem predicts_initializerTail (limit : Nat) (look : Look) (name : Token) :
    Predicts look initializerWords (initializerTail limit name) where
  keeps start := by
    have hexpression : Keeps (Forward start) (quietly (expression limit)) :=
      keeps_forward_quietly fun _ => keeps_suffix_expression limit
    have hend (initializer : Node) : Keeps (Forward start) (do
        let _ ← quietly (expect .semicolon .semicolonAfterDeclaration)
        return Node.varDecl (.token name) initializer) :=
      (keeps_forward_expect _ _).bind fun _ => keeps_pure _
    refine keeps_forward_nextKind.bind fun next => ?_
    dsimp only
    split
    · exact keeps_forward_advance.bind fun _ => hexpression.bind hend
    · exact hend .absent
  everywhere tokens := by
    by_cases hequal : tokens.head?.map (·.kind) = some .equal
    · obtain ⟨t, rest, rfl, hkind⟩ := head?_kind_eq_some.1 hequal
      have hvalue := (predicts_expression_expect limit look .semicolon
        .semicolonAfterDeclaration (Node.varDecl (.token name))).everywhere rest
      refine (hvalue.cons fun rest' => ?_).mono ?_
      · exact initializerTail_of_equal name hkind rest' []
      · rw [hkind]
        exact fun _ hword => .inl hword
    · have hclosed := ((predicts_expect look .semicolon .semicolonAfterDeclaration).map fun _ =>
        Node.varDecl (.token name) .absent).everywhere tokens
      refine (hclosed.mono fun _ hword => .inr hword).of_same (fun tokens' hnext => ?_) ?_
      · rw [hnext] at hequal
        exact initializerTail_of_stop name hequal
      · rintro (hnil | hnil)
        · exact absurd hnil (nil_notMem_kindWord_mul _ _)
        · exact absurd hnil (nil_notMem_kindWord _)

end Part

/-! ## Declarations one after the other -/

/-- As many turns as there are tokens are enough for the declarations of a block. -/
theorem declarations_count (limit : Nat) {count count' : Nat} {s : Progress}
    (hcount : s.rest.length ≤ count) (hcount' : s.rest.length ≤ count') :
    declarations (declaration (expression limit) (statement limit)) count s =
      declarations (declaration (expression limit) (statement limit)) count' s := by
  induction count generalizing count' s with
  | zero =>
    obtain ⟨rest, reports⟩ := s
    obtain rfl := List.eq_nil_of_length_eq_zero (Nat.le_zero.1 hcount)
    cases count' <;> rfl
  | succ count ih =>
    obtain ⟨rest, reports⟩ := s
    cases rest with
    | nil => cases count' <;> rfl
    | cons t rest =>
      dsimp only [List.length_cons] at hcount hcount'
      obtain ⟨count', rfl⟩ : ∃ n, count' = n + 1 := ⟨count' - 1, by omega⟩
      by_cases hkind : t.kind = .rightBrace
      · simp [declarations_succ, hkind]
      rw [declarations_of_next _ _ hkind, declarations_of_next _ _ hkind]
      cases hrun : declaration (expression limit) (statement limit) ⟨t :: rest, reports⟩ with
      | ok first after =>
        have hlt := declaration_shorter (List.cons_ne_nil t rest) hrun
        dsimp only [List.length_cons] at hlt
        have hsame := @ih count' after (by omega) (by omega)
        rw [bind_of_ok hrun, bind_of_ok hrun]
        simp only [bind, EStateM.bind, hsame]
      | error halt after => rw [bind_of_error hrun, bind_of_error hrun]

/-- The declarations up to a closing brace or the end. -/
def declarationLoop (limit : Nat) : StmtParser (List Node) := fun s =>
  declarations (declaration (expression limit) (statement limit)) s.rest.length s

theorem declarationLoop_of_next {limit : Nat} {t : Token} {rest : List Token}
    {reports : List Fault} (hkind : t.kind ≠ .rightBrace) :
    declarationLoop limit ⟨t :: rest, reports⟩ = (do
      let first ← declaration (expression limit) (statement limit)
      let others ← declarationLoop limit
      return first.toList ++ others) ⟨t :: rest, reports⟩ := by
  rw [declarationLoop, List.length_cons, declarations_of_next _ _ hkind]
  cases hrun : declaration (expression limit) (statement limit) ⟨t :: rest, reports⟩ with
  | ok first after =>
    have hlt := declaration_shorter (List.cons_ne_nil t rest) hrun
    have hsame := declarations_count limit (s := after) (Nat.le_of_lt_succ hlt) (Nat.le_refl _)
    rw [bind_of_ok hrun, bind_of_ok hrun]
    simp only [bind, EStateM.bind, hsame, declarationLoop]
  | error halt after => rw [bind_of_error hrun, bind_of_error hrun]

theorem keeps_forward_declarationLoop (limit : Nat) (start : Progress) :
    Keeps (Forward start) (declarationLoop limit) :=
  fun s hforward => keeps_forward_declarations (keeps_forward_topDeclaration limit) s.rest.length s
    hforward

section Declaration

variable {limit : Nat} {tokens : List Token}

theorem clauseParser_of_var {t : Token} (hkind : t.kind = .varWord) (rest : List Token)
    (reports : List Fault) :
    clauseParser limit .declaration ⟨t :: rest, reports⟩ =
      (quietly (expect .identifier .variableName) >>= initializerTail limit) ⟨rest, reports⟩ := by
  rw [clauseParser, nextKind_bind, if_pos (by simp [hkind])]
  rfl

theorem clauseParser_of_other {s : Progress} (hvar : s.rest.head?.map (·.kind) ≠ some .varWord) :
    clauseParser limit .declaration s = statement limit s := by
  rw [clauseParser, nextKind_bind, if_neg hvar]

theorem predicts_declaration
    (hstatement : Predicts .elseWord (clauseWords .statement) (statement limit)) :
    Predicts .elseWord (clauseWords .declaration)
      (declaration (expression limit) (statement limit)) := by
  rw [declaration_eq_recovering]
  refine Predicts.recovering ⟨fun start => keeps_forward_clauseParser limit .declaration,
    fun tokens => ?_⟩
  by_cases hvar : tokens.head?.map (·.kind) = some .varWord
  · obtain ⟨t, rest, rfl, hkind⟩ := head?_kind_eq_some.1 hvar
    have hname := ((predicts_expect .elseWord .identifier .variableName).bind
      (predicts_initializerTail limit .elseWord)
      (by obtain ⟨word, hword⟩ := kindWord_nonempty .semicolon; exact ⟨word, .inr hword⟩)
      fun _ _ _ h => h).everywhere rest
    refine (hname.cons fun rest' => ?_).mono (hkind ▸ var_le_clauseWords)
    exact clauseParser_of_var hkind rest' []
  · refine ((hstatement.everywhere tokens).mono statement_le_clauseWords).of_same
      (fun tokens' hnext => ?_) fun hnil => absurd hnil (nil_notMem_clauseWords .declaration)
    rw [hnext] at hvar
    exact clauseParser_of_other hvar

theorem declarationLoop_of_stop {tokens : List Token} {reports : List Fault}
    (hstop : beginsWith (· ≠ .rightBrace) tokens = false) :
    declarationLoop limit ⟨tokens, reports⟩ = .ok [] ⟨tokens, reports⟩ := by
  cases tokens with
  | nil => rfl
  | cons t rest =>
    have hkind : t.kind = .rightBrace := by simpa [beginsWith] using hstop
    rw [declarationLoop, List.length_cons, declarations_succ]
    simp [hkind]

theorem predicts_declarationLoop
    (hstatement : Predicts .elseWord (clauseWords .statement) (statement limit)) :
    Predicts .next programWords (declarationLoop limit) where
  keeps start := keeps_forward_declarationLoop limit start
  everywhere tokens := by
    induction hlength : tokens.length using Nat.strong_induction_on generalizing tokens with
    | _ length ih =>
    subst hlength
    by_cases hgoes : beginsWith (· ≠ .rightBrace) tokens = true
    · cases tokens with
      | nil => cases hgoes
      | cons t rest =>
        have hkind : t.kind ≠ .rightBrace := of_decide_eq_true hgoes
        have hbody : PredictsAt .next (clauseWords .declaration * programWords) (do
            let first ← declaration (expression limit) (statement limit)
            let others ← declarationLoop limit
            return first.toList ++ others) (t :: rest) := by
          refine ((predicts_declaration hstatement).everywhere (t :: rest)).bind
            (fun _ start => (keeps_forward_declarationLoop limit start).bind fun _ => keeps_pure _)
            (fun first rest' hrun => ?_) ⟨[], nil_mem_programWords⟩ fun _ _ _ h => h.sameElse
          have hlt := declaration_shorter (List.cons_ne_nil t rest) hrun
          exact (ih rest'.length hlt rest' rfl).map (first.toList ++ ·)
        have hsame (tokens' : List Token) (hnext : SameNext (t :: rest) tokens') :
            declarationLoop limit ⟨tokens', []⟩ = (do
              let first ← declaration (expression limit) (statement limit)
              let others ← declarationLoop limit
              return first.toList ++ others) ⟨tokens', []⟩ := by
          cases tokens' with
          | nil => cases hnext
          | cons u rest' =>
            obtain rfl : t = u := Option.some.inj hnext
            exact declarationLoop_of_next hkind
        exact (hbody.mono declaration_mul_le_programWords).of_same hsame fun _ => hsame
    · have hstop : beginsWith (· ≠ .rightBrace) tokens = false := Bool.eq_false_iff.2 hgoes
      have hpure : PredictsAt .next programWords (pure [] : StmtParser (List Node)) tokens := by
        refine ((predicts_pure _ _).everywhere tokens).mono ?_
        rintro _ rfl
        exact nil_mem_programWords
      have hsame (tokens' : List Token) (hnext : SameNext tokens tokens') :
          declarationLoop limit ⟨tokens', []⟩ = .ok [] ⟨tokens', []⟩ :=
        declarationLoop_of_stop (hnext.beginsWith _ ▸ hstop)
      exact hpure.of_same hsame fun _ => hsame

end Declaration

/-! ## Statements -/

theorem statement_of_other {limit : Nat} {s : Progress}
    (hother : ∀ kind ∈ [Kind.printWord, .leftBrace, .ifWord, .whileWord],
      s.rest.head?.map (·.kind) ≠ some kind) :
    statement (limit + 1) s = expressionStatement (expression limit) s := by
  rw [statement_succ]
  split
  · next hkind => exact absurd hkind (hother _ (by simp))
  · next hkind => exact absurd hkind (hother _ (by simp))
  · next hkind => exact absurd hkind (hother _ (by simp))
  · next hkind => exact absurd hkind (hother _ (by simp))
  · rfl

section Equations

variable {limit : Nat} {t : Token}

theorem statement_of_print (hkind : t.kind = .printWord) (rest : List Token)
    (reports : List Fault) :
    statement (limit + 1) ⟨t :: rest, reports⟩ = (do
      let value ← quietly (expression limit)
      let _ ← quietly (expect .semicolon .semicolonAfterValue)
      return Node.printStmt value) ⟨rest, reports⟩ := by
  simp only [statement_succ, List.head?_cons, Option.map_some, hkind]
  rfl

theorem statement_of_block (hkind : t.kind = .leftBrace) (rest : List Token)
    (reports : List Fault) :
    statement (limit + 1) ⟨t :: rest, reports⟩ = (do
      let statements ← declarationLoop limit
      let _ ← quietly (expect .rightBrace .braceAfterBlock)
      return Node.block statements) ⟨rest, reports⟩ := by
  simp only [statement_succ, List.head?_cons, Option.map_some, hkind]
  rfl

theorem statement_of_if (hkind : t.kind = .ifWord) (rest : List Token) (reports : List Fault) :
    statement (limit + 1) ⟨t :: rest, reports⟩ = (do
      let _ ← quietly (expect .leftParen .parenAfterIf)
      let condition ← quietly (expression limit)
      let _ ← quietly (expect .rightParen .parenAfterIfCondition)
      statement limit >>= elseTail limit condition) ⟨rest, reports⟩ := by
  simp only [statement_succ, List.head?_cons, Option.map_some, hkind]
  rfl

theorem statement_of_while (hkind : t.kind = .whileWord) (rest : List Token)
    (reports : List Fault) :
    statement (limit + 1) ⟨t :: rest, reports⟩ = (do
      let _ ← quietly (expect .leftParen .parenAfterWhile)
      let condition ← quietly (expression limit)
      let _ ← quietly (expect .rightParen .parenAfterCondition)
      let body ← statement limit
      return Node.whileStmt condition body) ⟨rest, reports⟩ := by
  simp only [statement_succ, List.head?_cons, Option.map_some, hkind]
  rfl

end Equations

section Statement

variable {limit : Nat} {t : Token} {rest : List Token}

theorem predictsAt_print (hkind : t.kind = .printWord) :
    PredictsAt .elseWord (clauseWords .statement) (statement (limit + 1)) (t :: rest) := by
  have hvalue := (predicts_expression_expect limit .elseWord .semicolon
    .semicolonAfterValue Node.printStmt).everywhere rest
  refine (hvalue.cons fun rest' => ?_).mono (hkind ▸ print_le_clauseWords)
  exact statement_of_print hkind rest' []

theorem predictsAt_block
    (hstatement : Predicts .elseWord (clauseWords .statement) (statement limit))
    (hkind : t.kind = .leftBrace) :
    PredictsAt .elseWord (clauseWords .statement) (statement (limit + 1)) (t :: rest) := by
  have hloop := ((predicts_declarationLoop hstatement).bind
    (fun statements => (predicts_expect .elseWord .rightBrace .braceAfterBlock).map fun _ =>
      Node.block statements) (kindWord_nonempty .rightBrace)
    fun hnil => absurd hnil (nil_notMem_kindWord .rightBrace)).everywhere rest
  refine (hloop.cons fun rest' => ?_).mono (hkind ▸ block_le_clauseWords)
  exact statement_of_block hkind rest' []

theorem predictsAt_if
    (hstatement : Predicts .elseWord (clauseWords .statement) (statement limit))
    (hkind : t.kind = .ifWord) :
    PredictsAt .elseWord (clauseWords .statement) (statement (limit + 1)) (t :: rest) := by
  have hbranches (condition : Node) : Predicts .elseWord (clauseWords .statement * elseWords)
      (statement limit >>= elseTail limit condition) :=
    hstatement.bind (fun thenBranch => predicts_elseTail hstatement condition thenBranch)
      ⟨[], .inr rfl⟩ fun _ _ _ h => h
  have hwords : ∃ word, word ∈ clauseWords .statement * elseWords := by
    obtain ⟨word, hword⟩ := clauseWords_nonempty .statement
    exact ⟨word ++ [], Language.append_mem_mul hword (.inr rfl)⟩
  have hcondition := (predicts_condition limit .parenAfterIf .parenAfterIfCondition
    hbranches hwords).everywhere rest
  refine (hcondition.cons fun rest' => ?_).mono (hkind ▸ if_le_clauseWords)
  exact statement_of_if hkind rest' []

theorem predictsAt_while
    (hstatement : Predicts .elseWord (clauseWords .statement) (statement limit))
    (hkind : t.kind = .whileWord) :
    PredictsAt .elseWord (clauseWords .statement) (statement (limit + 1)) (t :: rest) := by
  have hcondition := (predicts_condition limit .parenAfterWhile .parenAfterCondition
    (fun condition => hstatement.map (Node.whileStmt condition))
    (clauseWords_nonempty .statement)).everywhere rest
  refine (hcondition.cons fun rest' => ?_).mono (hkind ▸ while_le_clauseWords)
  exact statement_of_while hkind rest' []

theorem predictsAt_expressionStatement {tokens : List Token}
    (hother : ∀ kind ∈ [Kind.printWord, .leftBrace, .ifWord, .whileWord],
      tokens.head?.map (·.kind) ≠ some kind) :
    PredictsAt .elseWord (clauseWords .statement) (statement (limit + 1)) tokens := by
  have hvalue := (predicts_expression_expect limit .elseWord .semicolon
    .semicolonAfterExpression Node.exprStmt).everywhere tokens
  refine (hvalue.mono expression_le_clauseWords).of_same (fun tokens' hnext => ?_)
    fun hnil => absurd hnil (nil_notMem_clauseWords .statement)
  rw [statement_of_other fun kind hkind => hnext ▸ hother kind hkind]
  rfl

end Statement

theorem predicts_statement (limit : Nat) :
    Predicts .elseWord (clauseWords .statement) (statement limit) := by
  induction limit with
  | zero => exact predicts_tooDeep _ _
  | succ limit ih =>
    refine ⟨fun start => keeps_forward_statement (limit + 1), fun tokens => ?_⟩
    by_cases hother : ∀ kind ∈ [Kind.printWord, .leftBrace, .ifWord, .whileWord],
        tokens.head?.map (·.kind) ≠ some kind
    · exact predictsAt_expressionStatement hother
    · simp only [List.forall_mem_cons, not_and_or, ne_eq, not_not] at hother
      rcases hother with hnext | hnext | hnext | hnext | hnone
      · obtain ⟨t, rest, rfl, hkind⟩ := head?_kind_eq_some.1 hnext
        exact predictsAt_print hkind
      · obtain ⟨t, rest, rfl, hkind⟩ := head?_kind_eq_some.1 hnext
        exact predictsAt_block ih hkind
      · obtain ⟨t, rest, rfl, hkind⟩ := head?_kind_eq_some.1 hnext
        exact predictsAt_if ih hkind
      · obtain ⟨t, rest, rfl, hkind⟩ := head?_kind_eq_some.1 hnext
        exact predictsAt_while ih hkind
      · simp at hnone

/-! ## Programs -/

/-- The fault that is met first in a program. -/
def programFault? (limit : Nat) (tokens : List Token) : Option Fault :=
  (topLevel limit tokens.length ⟨tokens, []⟩).2.getLast?

section Program

variable {limit : Nat} {tokens : List Token}

theorem programFault?_of_ok {result : Option Node} {rest : List Token} (htokens : tokens ≠ [])
    (hrun : declaration (expression limit) (statement limit) ⟨tokens, []⟩ = .ok result ⟨rest, []⟩) :
    programFault? limit tokens = programFault? limit rest := by
  have hlt := declaration_shorter htokens hrun
  obtain ⟨count, hcount⟩ : ∃ n, tokens.length = n + 1 := ⟨tokens.length - 1, by dsimp at hlt; omega⟩
  rw [programFault?, hcount, topLevel_of_ok htokens hrun, programFault?,
    topLevel_count limit (by dsimp at hlt ⊢; omega) (Nat.le_refl _)]

theorem programFault?_of_fault {fault : Fault} (htokens : tokens ≠ [])
    (hfault : firstFault? (declaration (expression limit) (statement limit) ⟨tokens, []⟩) =
      some fault) : programFault? limit tokens = some fault := by
  obtain ⟨count, hcount⟩ : ∃ n, tokens.length = n + 1 :=
    ⟨tokens.length - 1, by have := List.length_pos_iff.2 htokens; omega⟩
  rw [programFault?, hcount]
  cases hrun : declaration (expression limit) (statement limit) ⟨tokens, []⟩ with
  | ok result after =>
    rw [hrun] at hfault
    rw [topLevel_of_ok htokens hrun]
    exact getLast?_of_suffix (reports_suffix_topLevel limit count after) hfault
  | error halt after =>
    cases halt with
    | fault other => exact absurd hrun declaration_ne_fault
    | tooDeep =>
      rw [hrun] at hfault
      rw [topLevel_of_tooDeep htokens hrun]
      refine getLast?_of_suffix (reports_suffix_topLevel limit count _) ?_
      exact getLast?_of_suffix (List.suffix_cons _ _) hfault

theorem programFault?_of_tooDeep {left : List Token} (htokens : tokens ≠ [])
    (hrun : declaration (expression limit) (statement limit) ⟨tokens, []⟩ =
      .error .tooDeep ⟨left, []⟩) : programFault? limit tokens = some ⟨left, .nesting⟩ := by
  obtain ⟨count, hcount⟩ : ∃ n, tokens.length = n + 1 :=
    ⟨tokens.length - 1, by have := List.length_pos_iff.2 htokens; omega⟩
  rw [programFault?, hcount, topLevel_of_tooDeep htokens hrun]
  exact getLast?_of_suffix (reports_suffix_topLevel limit count _) rfl

/-- What was taken before the first fault of a program is the beginning of one, and the fault is the
same whatever comes after the token at which it was found. -/
theorem programFault?_predicted {fault : Fault} (hfault : programFault? limit tokens = some fault)
    (htarget : fault.complaint ≠ .assignmentTarget) (hnesting : fault.complaint ≠ .nesting) :
    ∃ taken, tokens = taken ++ fault.found ∧ (∃ more, taken ++ more ∈ programWords) ∧
      ∀ other, SameNext fault.found other →
        programFault? limit (taken ++ other) = some ⟨other, fault.complaint⟩ := by
  induction hlength : tokens.length using Nat.strong_induction_on generalizing tokens with
  | _ length ih =>
  subst hlength
  by_cases htokens : tokens = []
  · subst htokens
    cases hfault
  have hpredicts := (predicts_declaration (predicts_statement limit)).everywhere tokens
  cases hfirst : firstFault? (declaration (expression limit) (statement limit) ⟨tokens, []⟩) with
  | some first =>
    obtain rfl : first = fault :=
      Option.some.inj ((programFault?_of_fault htokens hfirst).symm.trans hfault)
    obtain ⟨taken, htaken, ⟨more, hmore⟩, hlocal⟩ := hpredicts.fault hfirst htarget
    have hprogram := declaration_mul_le_programWords
      (Language.append_mem_mul hmore nil_mem_programWords)
    refine ⟨taken, htaken, ⟨more ++ [], ?_⟩, fun other hother => ?_⟩
    · rwa [← List.append_assoc]
    · refine programFault?_of_fault (fun hnil => htokens ?_) (hlocal other hother)
      obtain ⟨rfl, rfl⟩ := List.append_eq_nil_iff.1 hnil
      rw [htaken, List.nil_append]
      exact List.head?_eq_none_iff.1 hother
  | none =>
    cases hrun : declaration (expression limit) (statement limit) ⟨tokens, []⟩ with
    | ok result after =>
      obtain ⟨rest, reports⟩ := after
      rw [hrun] at hfirst
      obtain rfl : reports = [] := List.getLast?_eq_none_iff.1 hfirst
      rw [programFault?_of_ok htokens hrun] at hfault
      obtain ⟨taken, htaken, ⟨more, hmore⟩, hlocal⟩ :=
        ih rest.length (declaration_shorter htokens hrun) hfault rfl
      obtain ⟨front, hfront, hdeclaration, hlocal'⟩ := hpredicts.ok hrun
      refine ⟨front ++ taken, ?_, ⟨more, ?_⟩, fun other hother => ?_⟩
      · rw [hdeclaration, htaken, List.append_assoc]
      · rw [List.append_assoc]
        exact declaration_mul_le_programWords (Language.append_mem_mul hfront hmore)
      · have hsame : SameElse rest (taken ++ other) := by
          rw [htaken]
          exact (hother.append taken).sameElse
        have hne : front ++ (taken ++ other) ≠ [] := fun hnil => by
          obtain ⟨rfl, -⟩ := List.append_eq_nil_iff.1 hnil
          exact nil_notMem_clauseWords .declaration hfront
        rw [List.append_assoc, programFault?_of_ok hne (hlocal' _ hsame)]
        exact hlocal other hother
    | error halt after =>
      obtain ⟨left, reports⟩ := after
      cases halt with
      | fault other => exact absurd hrun declaration_ne_fault
      | tooDeep =>
        rw [hrun] at hfirst
        obtain rfl : reports = [] := List.getLast?_eq_none_iff.1 hfirst
        rw [programFault?_of_tooDeep htokens hrun] at hfault
        cases hfault
        exact absurd rfl hnesting

end Program

end Parser

end Lox
