import Lox.Proofs.Tree.WellFormed

/-!
# Declarations one after another

A program and a block are both loops over declarations. Each turn takes at least one token
(`declaration_shorter`), so that the bound on the number of turns never matters, and what was
reported before has no influence on what is read (`topLevel_append_reports`). A run of turns is said
once, by `Run`, and both loops follow it: `Run.declarations` and `Run.topLevel`.
-/

namespace Lox.Parser

open Lox.Computation Grammar

/-! ## Every turn takes a token -/

theorem Forward.length_le {s s' : Progress} (h : Forward s s') : s'.rest.length ≤ s.rest.length :=
  h.rest.length_le

/-- A parser that drops the first token and then only moves forward leaves fewer tokens. -/
theorem shorter_of_keeps {α : Type} {parser : StmtParser α} {s s' : Progress} {a : α}
    (hrest : s.rest ≠ []) (hok : (advance >>= fun _ => parser) s = .ok a s')
    (hkeeps : ∀ start, Keeps (Forward start) parser) : s'.rest.length < s.rest.length := by
  rw [advance_bind] at hok
  have hle := ((hkeeps _).ok (Forward.refl _) hok).length_le
  have hpos := List.length_pos_iff.2 hrest
  rw [List.length_tail] at hle
  omega

theorem expressionStatement_shorter {expression : ExprParser Node} {s s' : Progress} {tree : Node}
    (hexpression : ∀ start, Keeps (Forward start) (quietly expression))
    (hok : expressionStatement expression s = .ok tree s') : s'.rest.length < s.rest.length := by
  rw [expressionStatement, bind_eq_ok] at hok
  obtain ⟨value, s₁, hvalue, hok⟩ := hok
  rw [bind_eq_ok] at hok
  obtain ⟨semicolon, s₂, hsemicolon, hok⟩ := hok
  cases hok
  have hle := ((hexpression s).ok (Forward.refl s) hvalue).length_le
  obtain ⟨hrest, -, -⟩ := quietly_expect_eq_ok.1 hsemicolon
  rw [hrest, List.length_cons] at hle
  omega

theorem varDeclaration_shorter {limit : Nat} {s s' : Progress} {tree : Node} (hrest : s.rest ≠ [])
    (hok : varDeclaration (expression limit) s = .ok tree s') :
    s'.rest.length < s.rest.length := by
  have hexpression (start : Progress) : Keeps (Forward start) (quietly (expression limit)) :=
    keeps_forward_quietly fun _ => keeps_suffix_expression limit
  refine shorter_of_keeps hrest hok fun start => ?_
  refine (keeps_forward_expect _ _).bind fun name => keeps_forward_nextKind.bind fun next => ?_
  dsimp only
  split
  · refine keeps_forward_advance.bind fun _ => ?_
    exact (handedOn_forward start).value (hexpression start) (.varDecl (.token name)) _ (by decide)
  · exact (keeps_forward_expect _ _).bind fun _ => keeps_pure _

theorem statement_shorter {limit : Nat} {s s' : Progress} {tree : Node}
    (hok : statement limit s = .ok tree s') : s'.rest.length < s.rest.length := by
  cases limit with
  | zero => cases hok
  | succ limit =>
    have hexpression (start : Progress) : Keeps (Forward start) (quietly (expression limit)) :=
      keeps_forward_quietly fun _ => keeps_suffix_expression limit
    rw [statement_succ] at hok
    have hsome {kind : Kind} (hkind : s.rest.head?.map (·.kind) = some kind) : s.rest ≠ [] := by
      obtain ⟨t, rest, hrest, -⟩ := head?_kind_eq_some.1 hkind
      simp [hrest]
    split at hok
    · next hkind =>
      refine shorter_of_keeps (hsome hkind) hok fun start => ?_
      exact (handedOn_forward start).value (hexpression start) .printStmt _ (by decide)
    · next hkind =>
      refine shorter_of_keeps (hsome hkind) hok fun start s hforward => ?_
      rw [get_bind]
      refine (keeps_forward_declarations (keeps_forward_topDeclaration limit) _).bind (fun _ => ?_)
        s hforward
      exact (keeps_forward_expect _ _).bind fun _ => keeps_pure _
    · next hkind =>
      refine shorter_of_keeps (hsome hkind) hok fun start => ?_
      refine (handedOn_forward start).condition (hexpression start) (by decide) (by decide) ?_
      intro _
      refine (keeps_forward_statement limit).bind fun _ => ?_
      refine keeps_forward_nextKind.bind fun next => ?_
      split
      · refine keeps_forward_advance.bind fun _ => (keeps_forward_statement limit).bind fun _ => ?_
        exact keeps_pure _
      · exact keeps_pure _
    · next hkind =>
      refine shorter_of_keeps (hsome hkind) hok fun start => ?_
      refine (handedOn_forward start).condition (hexpression start) (by decide) (by decide) ?_
      intro _
      exact (keeps_forward_statement limit).bind fun _ => keeps_pure _
    · exact expressionStatement_shorter hexpression hok

theorem synchronize_shorter {tokens : List Token} (htokens : tokens ≠ []) :
    (synchronize tokens).length < tokens.length := by
  cases tokens with
  | nil => exact absurd rfl htokens
  | cons t rest =>
    have hle := (synchronize_suffix rest).length_le
    rw [synchronize, List.length_cons]
    split <;> omega

/-- A declaration takes at least one token, also if it is recovered from. -/
theorem declaration_shorter {limit : Nat} {s s' : Progress} {result : Option Node}
    (hrest : s.rest ≠ [])
    (hok : declaration (expression limit) (statement limit) s = .ok result s') :
    s'.rest.length < s.rest.length := by
  rw [declaration_eq_recovering, recovering_eq_ok] at hok
  rcases hok with ⟨tree, hok, -⟩ | ⟨fault, after, hfault, -, rfl⟩
  · rw [clauseParser, nextKind_bind] at hok
    split at hok
    · exact varDeclaration_shorter hrest hok
    · exact statement_shorter hok
  · have hforward := (keeps_forward_clauseParser limit .declaration).error (Forward.refl s) hfault
    have hle := hforward.length_le
    change (synchronize after.rest).length < s.rest.length
    by_cases hafter : after.rest = []
    · rw [hafter]
      exact List.length_pos_iff.2 hrest
    · have hlt := synchronize_shorter hafter
      omega

theorem skipStatement_shorter (depth : Nat) {tokens : List Token} (htokens : tokens ≠ []) :
    (skipStatement depth tokens).length < tokens.length := by
  cases tokens with
  | nil => exact absurd rfl htokens
  | cons t rest =>
    have hrest := fun depth => (skipStatement_suffix depth rest).length_le
    rw [skipStatement, List.length_cons]
    split
    · exact Nat.lt_succ_of_le (hrest _)
    · split
      · exact Nat.lt_succ_self _
      · exact Nat.lt_succ_of_le (hrest _)
    · split
      · exact Nat.lt_succ_self _
      · exact Nat.lt_succ_of_le (hrest _)
    · exact Nat.lt_succ_of_le (hrest _)

/-- As many turns as there are tokens are enough, so more of them change nothing. -/
theorem topLevel_count (limit : Nat) {count count' : Nat} {s : Progress}
    (hcount : s.rest.length ≤ count) (hcount' : s.rest.length ≤ count') :
    topLevel limit count s = topLevel limit count' s := by
  induction count generalizing count' s with
  | zero =>
    obtain ⟨rest, reports⟩ := s
    obtain rfl := List.eq_nil_of_length_eq_zero (Nat.le_zero.1 hcount)
    rw [topLevel_nil, topLevel_nil]
  | succ count ih =>
    obtain ⟨rest, reports⟩ := s
    by_cases hrest : rest = []
    · subst hrest
      rw [topLevel_nil, topLevel_nil]
    have hpos : 0 < rest.length := List.length_pos_iff.2 hrest
    obtain ⟨count', rfl⟩ : ∃ n, count' = n + 1 := ⟨count' - 1, by dsimp only at hcount'; omega⟩
    cases hrun : declaration (expression limit) (statement limit) ⟨rest, reports⟩ with
    | ok result after =>
      have hlt := declaration_shorter hrest hrun
      dsimp only at hlt hcount hcount'
      rw [topLevel_of_ok hrest hrun, topLevel_of_ok hrest hrun,
        ih (by omega : after.rest.length ≤ count) (by omega : after.rest.length ≤ count')]
    | error halt after =>
      cases halt with
      | fault fault => exact absurd hrun declaration_ne_fault
      | tooDeep =>
        have hlt := skipStatement_shorter 0 hrest
        dsimp only at hcount hcount'
        rw [topLevel_of_tooDeep hrest hrun, topLevel_of_tooDeep hrest hrun]
        exact ih (by dsimp only; omega) (by dsimp only; omega)

/-! ## Earlier reports have no influence -/

/-- A state with some more reports before its own. -/
def Progress.behind (s : Progress) (earlier : List Fault) : Progress :=
  { s with reports := s.reports ++ earlier }

def resultBehind {α : Type} (earlier : List Fault) :
    EStateM.Result Halt Progress α → EStateM.Result Halt Progress α
  | .ok a s => .ok a (s.behind earlier)
  | .error halt s => .error halt (s.behind earlier)

/-- A parser does the same whatever was reported before. -/
def Unmoved {α : Type} (parser : StmtParser α) : Prop :=
  ∀ s earlier, parser (s.behind earlier) = resultBehind earlier (parser s)

section Unmoved

variable {α β : Type}

theorem Unmoved.bind {parser : StmtParser α} {next : α → StmtParser β} (hparser : Unmoved parser)
    (hnext : ∀ a, Unmoved (next a)) : Unmoved (parser >>= next) := by
  intro s earlier
  have hsame := hparser s earlier
  cases hrun : parser s with
  | ok a s' =>
    rw [hrun] at hsame
    rw [bind_of_ok hrun, bind_of_ok hsame]
    exact hnext a s' earlier
  | error halt s' =>
    rw [hrun] at hsame
    rw [bind_of_error hrun, bind_of_error hsame]
    rfl

theorem unmoved_pure (a : α) : Unmoved (pure a) :=
  fun _ _ => rfl

theorem unmoved_quietly (parser : ExprParser α) : Unmoved (quietly parser) := by
  intro s earlier
  have hrest : (s.behind earlier).rest = s.rest := rfl
  rw [quietly, quietly, hrest]
  cases parser s.rest <;> rfl

theorem unmoved_nextKind : Unmoved nextKind :=
  fun _ _ => rfl

theorem unmoved_advance : Unmoved advance :=
  fun _ _ => rfl

theorem Unmoved.recovering {parser : StmtParser Node} (hparser : Unmoved parser) :
    Unmoved (recovering parser) := by
  intro s earlier
  rw [Parser.recovering, Parser.recovering, hparser s earlier]
  cases parser s with
  | ok node after => rfl
  | error halt after => cases halt <;> rfl

theorem handedOn_unmoved : HandedOn fun _ parser => Unmoved parser where
  pure := unmoved_pure
  bind := Unmoved.bind
  nextKind := unmoved_nextKind
  advance := unmoved_advance
  expect _ _ _ := unmoved_quietly _

theorem unmoved_declaration {expression : ExprParser Node} {statement : StmtParser Node}
    (hstatement : Unmoved statement) : Unmoved (declaration expression statement) := by
  refine Unmoved.recovering (unmoved_nextKind.bind fun next => ?_)
  split
  · exact handedOn_unmoved.varDeclaration (unmoved_quietly _)
  · exact hstatement

theorem unmoved_statement (limit : Nat) : Unmoved (statement limit) := by
  induction limit with
  | zero => exact fun _ _ => rfl
  | succ limit ih =>
    have hexpression : Unmoved (quietly (expression limit)) := unmoved_quietly _
    refine unmoved_nextKind.bind fun next => ?_
    split
    · exact handedOn_unmoved.printStatement hexpression
    · refine unmoved_advance.bind fun _ s earlier => ?_
      rw [get_bind, get_bind]
      refine (handedOn_unmoved.declarations (unmoved_declaration ih) _).bind (fun _ => ?_) s earlier
      exact (unmoved_quietly _).bind fun _ => unmoved_pure _
    · exact handedOn_unmoved.ifStatement hexpression ih
    · exact handedOn_unmoved.whileStatement hexpression ih
    · exact handedOn_unmoved.expressionStatement hexpression

end Unmoved

/-- What was reported before a program stays behind what its parse adds. -/
theorem topLevel_append_reports (limit count : Nat) (s : Progress) (earlier : List Fault) :
    topLevel limit count (s.behind earlier) =
      ((topLevel limit count s).1, (topLevel limit count s).2 ++ earlier) := by
  induction count generalizing s with
  | zero => rfl
  | succ count ih =>
    by_cases hrest : s.rest = []
    · obtain ⟨rest, reports⟩ := s
      subst hrest
      rw [topLevel_nil, Progress.behind, topLevel_nil]
    have hunmoved : Unmoved (declaration (expression limit) (statement limit)) :=
      unmoved_declaration (unmoved_statement limit)
    have hsame := hunmoved s
      earlier
    cases hrun : declaration (expression limit) (statement limit) s with
    | ok result after =>
      rw [hrun] at hsame
      rw [topLevel_of_ok hrest hrun, topLevel_of_ok (s := s.behind earlier) hrest hsame, ih]
    | error halt after =>
      cases halt with
      | fault fault => exact absurd hrun declaration_ne_fault
      | tooDeep =>
        rw [hrun] at hsame
        rw [topLevel_of_tooDeep hrest hrun,
          topLevel_of_tooDeep (s := s.behind earlier) hrest hsame]
        exact ih ⟨skipStatement 0 s.rest, ⟨after.rest, .nesting⟩ :: after.reports⟩

/-! ## Runs of declarations -/

/-- From one state to another, one declaration after the other is read or recovered from, and these
are the trees. Either may be cut short by nesting that is too deep. -/
inductive Run (limit : Nat) : Progress → List Node → Progress → Prop where
  | done (s : Progress) : Run limit s [] s
  | step {s s₁ s₂ : Progress} {result : Option Node} {nodes : List Node} (hrest : s.rest ≠ [])
    (hbrace : Stops [.rightBrace] s.rest) (hshorter : s₁.rest.length < s.rest.length)
    (hreads : Reads (declaration (expression limit) (statement limit)) s result s₁)
    (hrun : Run limit s₁ nodes s₂) : Run limit s (result.toList ++ nodes) s₂

section Run

variable {limit : Nat} {s s' s'' : Progress} {nodes nodes' : List Node}

theorem Run.trans (hrun : Run limit s nodes s') (hrun' : Run limit s' nodes' s'') :
    Run limit s (nodes ++ nodes') s'' := by
  induction hrun with
  | done => exact hrun'
  | step hrest hbrace hshorter hreads _ ih =>
    rw [List.append_assoc]
    exact .step hrest hbrace hshorter hreads (ih hrun')

/-- The declarations of a derivation, up to something that is no `else`. -/
theorem run_parts (limit : Nat) {parts : List Part} {rest : List Token} (reports : List Fault)
    (hparts : ∀ part ∈ parts, Stmt .language .declaration part.tokens part.tree)
    (hstops : Stops [.elseWord] rest) :
    Run limit ⟨partTokens parts ++ rest, reports⟩ (parts.map Part.tree) ⟨rest, reports⟩ := by
  induction parts with
  | nil => exact .done _
  | cons part parts ih =>
    rw [List.forall_mem_cons] at hparts
    have hsettled : Settled part.tree (partTokens parts ++ rest) :=
      fun _ => stops_else_partTokens hparts.2 hstops
    have hreads := (hparts.1.reads limit _ reports hsettled).recovering
    rw [← declaration_eq_recovering] at hreads
    obtain ⟨t, tail, htokens, hkind⟩ := hparts.1.begins
    have hbrace : t.kind ∉ [Kind.rightBrace] := by
      intro hbrace
      rw [List.mem_singleton.1 hbrace] at hkind
      exact absurd hkind (by decide)
    rw [partTokens_cons, List.append_assoc]
    refine Run.step ?_ ?_ ?_ hreads (ih hparts.2)
    · simp [htokens]
    · rw [htokens]
      exact stops_cons hbrace
    · simp only [htokens, List.cons_append, List.length_cons, List.length_append]
      omega

/-- A block whose loop comes to a closing brace or to the end reads the trees of the run. -/
theorem Run.declarations (hrun : Run limit s nodes s')
    (hend : ∀ t ∈ s'.rest.head?, t.kind = .rightBrace) {count : Nat}
    (hcount : s.rest.length ≤ count) :
    Reads (declarations (declaration (expression limit) (statement limit)) count) s nodes s' := by
  induction hrun generalizing count with
  | done s =>
    cases count with
    | zero => exact .of_ok rfl
    | succ count =>
      refine .of_ok ?_
      rw [declarations_succ]
      cases hhead : s.rest.head? with
      | none => rfl
      | some t => simp [hend t hhead]
  | @step s s₁ s₂ result nodes hrest hbrace hshorter hreads _ ih =>
    obtain ⟨tokens, reports⟩ := s
    cases tokens with
    | nil => exact absurd rfl hrest
    | cons t rest =>
      have hkind : t.kind ≠ .rightBrace := by simpa using hbrace t rfl
      obtain ⟨count, rfl⟩ : ∃ n, count = n + 1 := ⟨count - 1, by simp at hcount; omega⟩
      refine .of_eq (declarations_of_next _ count hkind) ?_
      refine hreads.bind ((ih hend ?_).bind (.of_ok rfl))
      dsimp only at hshorter hcount
      omega

/-- A program goes on where a run ends, unless some nesting is reported. -/
theorem Run.topLevel (hrun : Run limit s nodes s') {count : Nat} (hcount : s.rest.length ≤ count) :
    topLevel limit count s =
        (nodes ++ (topLevel limit s'.rest.length s').1, (topLevel limit s'.rest.length s').2) ∨
      ∃ fault ∈ (topLevel limit count s).2, fault.complaint = .nesting := by
  induction hrun generalizing count with
  | done s => exact .inl (topLevel_count limit hcount (Nat.le_refl _))
  | @step s s₁ s₂ result nodes hrest _ hshorter hreads _ ih =>
    obtain ⟨count, rfl⟩ : ∃ n, count = n + 1 :=
      ⟨count - 1, by have := List.length_pos_iff.2 hrest; omega⟩
    rcases hreads with hok | ⟨left, hdeep⟩
    · rw [topLevel_of_ok hrest hok]
      rcases @ih count (by omega) with htop | hnesting
      · refine .inl ?_
        rw [htop, List.append_assoc]
      · exact .inr hnesting
    · rw [topLevel_of_tooDeep hrest hdeep]
      refine .inr ⟨⟨left.rest, .nesting⟩, ?_, rfl⟩
      exact (reports_suffix_topLevel limit count ⟨_, _⟩).subset List.mem_cons_self

end Run

end Lox.Parser
