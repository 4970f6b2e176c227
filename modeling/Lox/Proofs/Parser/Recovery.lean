import Lox.Proofs.Parser.Loops

/-!
# What a broken declaration costs

Tokens up to a semicolon that are no declaration cost one report and nothing else. An expression
never takes a semicolon or a closing brace, so wherever the parser stops among such tokens, it stops
at the semicolon or before it; from there the search for the next statement ends right behind it, and
parsing goes on as if the broken tokens had not been there. This holds at the top level and inside
any number of blocks.
-/

namespace Lox

open Lox.Computation Grammar

namespace Parser

/-! ## Expressions stay in front of a semicolon or a closing brace -/

/-- A rear part of some tokens, with a mark behind it. -/
def Inside (tokens mark rest : List Token) : Prop :=
  ∃ left, left <:+ tokens ∧ rest = left ++ mark

theorem Inside.mono {tokens more mark rest : List Token} (h : Inside tokens mark rest)
    (hmore : tokens <:+ more) : Inside more mark rest := by
  obtain ⟨left, hleft, rfl⟩ := h
  exact ⟨left, hleft.trans hmore, rfl⟩

theorem inside_self (tokens mark : List Token) : Inside tokens mark (tokens ++ mark) :=
  ⟨tokens, List.suffix_rfl, rfl⟩

/-- The kinds at which statements end and that no expression holds. -/
def fenceKinds : List Kind :=
  [.semicolon, .rightBrace]

theorem mem_fenceKinds {kind : Kind} :
    kind ∈ fenceKinds ↔ kind = .semicolon ∨ kind = .rightBrace := by
  simp [fenceKinds]

/-- Where a parser of expressions may be: a region that is left only by taking a semicolon or a
closing brace. -/
def Fenced (region : List Token → Prop) : Prop :=
  ∀ t rest, region (t :: rest) → t.kind ∉ fenceKinds → region rest

theorem fenced_inside {tokens : List Token} {mark : Token} (after : List Token)
    (hmark : mark.kind ∈ fenceKinds) : Fenced (Inside tokens (mark :: after)) := by
  rintro t rest ⟨left, hleft, heq⟩ hkind
  cases left with
  | nil =>
    cases heq
    exact absurd hmark hkind
  | cons head left =>
    cases heq
    exact ⟨left, (List.suffix_cons t left).trans hleft, rfl⟩

/-- A parser that starts in a region stays there, and finds its faults there. -/
def StaysIn {α : Type} (region : List Token → Prop) (parser : ExprParser α) : Prop :=
  Triple region parser (fun _ => region) fun halt rest =>
    region rest ∧ ∀ fault, halt = .fault fault → region fault.found

section StaysIn

variable {α β : Type} {region : List Token → Prop}

theorem StaysIn.bind {parser : ExprParser α} {next : α → ExprParser β}
    (hparser : StaysIn region parser) (hnext : ∀ a, StaysIn region (next a)) :
    StaysIn region (parser >>= next) :=
  Triple.bind hparser hnext

theorem staysIn_pure (a : α) : StaysIn region (pure a) :=
  fun _ hregion => hregion

theorem staysIn_tooDeep : StaysIn region (throw .tooDeep : ExprParser α) :=
  fun _ hregion => ⟨hregion, nofun⟩

theorem staysIn_expect (hfenced : Fenced region) {kind : Kind} (hkind : kind ∉ fenceKinds)
    (complaint : Complaint) : StaysIn region (expect kind complaint) := by
  intro tokens hregion
  cases tokens with
  | nil => exact ⟨hregion, fun fault hfault => by cases hfault; exact hregion⟩
  | cons t rest =>
    rw [expect]
    split
    · next ht =>
      apply hfenced t rest hregion
      rw [ht]
      exact hkind
    · exact ⟨hregion, fun fault hfault => by cases hfault; exact hregion⟩

theorem staysIn_chainFrom (hfenced : Fenced region) {isOperator : Kind → Bool}
    (hoperator : ∀ kind ∈ fenceKinds, isOperator kind = false) {operand : ExprParser Node}
    (hoperand : StaysIn region operand) (count : Nat) (left : Node) :
    StaysIn region (chainFrom isOperator operand count left) := by
  induction count generalizing left with
  | zero => exact staysIn_pure left
  | succ count ih =>
    intro tokens hregion
    rw [chainFrom, get_bind]
    cases tokens with
    | nil => exact hregion
    | cons t rest =>
      dsimp only
      split
      · next ht =>
        have hrest : region rest := hfenced t rest hregion fun hkind => by simp [hkind, hoperator] at ht
        rw [set_bind]
        exact hoperand.bind (fun _ => ih _) rest hrest
      · exact hregion

theorem staysIn_chain (hfenced : Fenced region) (isOperator : Kind → Bool)
    (hoperator : ∀ kind ∈ fenceKinds, isOperator kind = false) {operand : ExprParser Node}
    (hoperand : StaysIn region operand) : StaysIn region (chain isOperator operand) := by
  refine hoperand.bind fun left tokens hregion => ?_
  rw [get_bind]
  split
  · exact staysIn_chainFrom hfenced hoperator hoperand _ _ tokens hregion
  · exact hregion

theorem staysIn_equality (hfenced : Fenced region) {operand : ExprParser Node}
    (hoperand : StaysIn region operand) : StaysIn region (equality operand) := by
  have hfactor := staysIn_chain hfenced isFactorOperator (by decide) hoperand
  have hterm := staysIn_chain hfenced isTermOperator (by decide) hfactor
  have hcomparison := staysIn_chain hfenced isComparisonOperator (by decide) hterm
  exact staysIn_chain hfenced isEqualityOperator (by decide) hcomparison

theorem staysIn_assignTo (target value : Node) {found : List Token} (hfound : region found) :
    StaysIn region (assignTo target value found) := by
  unfold assignTo
  split
  · exact staysIn_pure _
  · exact fun _ hregion => ⟨hregion, fun fault hfault => by cases hfault; exact hfound⟩

theorem staysIn_assignment_unary (hfenced : Fenced region) (limit : Nat) :
    StaysIn region (assignment limit) ∧ StaysIn region (unary limit) := by
  induction limit with
  | zero => exact ⟨staysIn_tooDeep, staysIn_tooDeep⟩
  | succ limit ih =>
    refine ⟨?_, ?_⟩
    · rw [assignment]
      refine (staysIn_equality hfenced ih.2).bind fun target found hregion => ?_
      rw [get_bind]
      split
      · next hequal =>
        cases found with
        | nil => cases hequal
        | cons t rest =>
          have ht : t.kind = .equal := by simpa [beginsWith] using hequal
          have hrest : region rest := hfenced t rest hregion (by simp [ht, fenceKinds])
          rw [set_bind]
          exact ih.1.bind (fun _ => staysIn_assignTo _ _ hregion) rest hrest
      · exact hregion
    · intro tokens hregion
      rw [unary, get_bind]
      cases tokens with
      | nil => exact ⟨hregion, fun fault hfault => by cases hfault; exact hregion⟩
      | cons t rest =>
        dsimp only
        split
        · next ht =>
          have hrest : region rest := hfenced t rest hregion fun hkind => by
            rcases mem_fenceKinds.1 hkind with hkind | hkind <;> simp [hkind, isUnaryOperator] at ht
          rw [set_bind]
          exact ih.2.bind (fun _ => staysIn_pure _) rest hrest
        · split
          · next ht =>
            have hrest : region rest := hfenced t rest hregion (by simp [ht, fenceKinds])
            rw [set_bind]
            refine ih.1.bind (fun _ => ?_) rest hrest
            exact (staysIn_expect hfenced (by decide) _).bind fun _ => staysIn_pure _
          · cases hleaf : leaf? t with
            | none => exact ⟨hregion, fun fault hfault => by cases hfault; exact hregion⟩
            | some leaf =>
              refine hfenced t rest hregion fun hkind => ?_
              rcases mem_fenceKinds.1 hkind with hkind | hkind <;> simp [leaf?, hkind] at hleaf

end StaysIn

/-! ## Where a broken declaration stops -/

/-- A parser stops at a fault in a region, or because the nesting is too deep, and reports nothing. -/
def Breaks {α : Type} (region : List Token → Prop) (parser : StmtParser α) (s : Progress) : Prop :=
  (∃ left, parser s = .error .tooDeep left) ∨
    ∃ fault left, parser s = .error (.fault fault) left ∧ region left.rest ∧ region fault.found ∧
      left.reports = s.reports

section Breaks

variable {α β : Type} {region : List Token → Prop} {s s' : Progress}

theorem Breaks.of_eq {parser other : StmtParser α} (heq : parser s = other s)
    (h : Breaks region other s) : Breaks region parser s := by
  rwa [Breaks, heq]

theorem Breaks.bind {parser : StmtParser α} (h : Breaks region parser s)
    (next : α → StmtParser β) : Breaks region (parser >>= next) s := by
  rcases h with ⟨left, hdeep⟩ | ⟨fault, left, hfault, hin⟩
  · exact .inl ⟨left, bind_of_error hdeep next⟩
  · exact .inr ⟨fault, left, bind_of_error hfault next, hin⟩

theorem Breaks.after {parser : StmtParser α} {a : α} {next : α → StmtParser β}
    (hok : parser s = .ok a s') (hreports : s'.reports = s.reports)
    (h : Breaks region (next a) s') : Breaks region (parser >>= next) s := by
  rw [Breaks, bind_of_ok hok, ← hreports]
  exact h

theorem Breaks.mono {wider : List Token → Prop} {parser : StmtParser α}
    (h : Breaks region parser s) (hwider : ∀ rest, region rest → wider rest) :
    Breaks wider parser s := by
  rcases h with hdeep | ⟨fault, left, hfault, hrest, hfound, hreports⟩
  · exact .inl hdeep
  · exact .inr ⟨fault, left, hfault, hwider _ hrest, hwider _ hfound, hreports⟩

theorem breaks_quietly {parser : ExprParser α} {tokens : List Token} {reports : List Fault}
    (hstays : StaysIn region parser) (htokens : region tokens) :
    Breaks region (quietly parser) ⟨tokens, reports⟩ ∨
      ∃ a rest, parser tokens = .ok a rest ∧
        quietly parser ⟨tokens, reports⟩ = .ok a ⟨rest, reports⟩ ∧ region rest := by
  have hend := hstays tokens htokens
  cases hrun : parser tokens with
  | ok a rest =>
    rw [hrun] at hend
    exact .inr ⟨a, rest, rfl, by simp [quietly, hrun], hend⟩
  | error halt rest =>
    rw [hrun] at hend
    refine .inl ?_
    cases halt with
    | tooDeep => exact .inl ⟨⟨rest, reports⟩, by simp [quietly, hrun]⟩
    | fault fault =>
      exact .inr ⟨fault, ⟨rest, reports⟩, by simp [quietly, hrun], hend.1, hend.2 fault rfl, rfl⟩

end Breaks

/-- No token before the last one ends a statement or opens or closes a block. -/
def Plain (tokens : List Token) : Prop :=
  ∀ t ∈ tokens, t.kind ≠ .semicolon ∧ t.kind ≠ .leftBrace ∧ t.kind ≠ .rightBrace

theorem Plain.of_suffix {tokens rear : List Token} (h : Plain tokens) (hrear : rear <:+ tokens) :
    Plain rear :=
  fun t ht => h t (hrear.subset ht)

section Broken

variable {tokens after : List Token} {mark : Token}

/-- An expression among plain tokens: the parser breaks there, or takes some of them. -/
theorem expression_breaks (tokens : List Token) (hmark : mark.kind ∈ fenceKinds) (limit : Nat)
    (reports : List Fault) :
    Breaks (Inside tokens (mark :: after)) (quietly (expression limit))
        ⟨tokens ++ mark :: after, reports⟩ ∨
      ∃ value taken left, tokens = taken ++ left ∧ Expr .language .assignment taken value ∧
        quietly (expression limit) ⟨tokens ++ mark :: after, reports⟩ =
          .ok value ⟨left ++ mark :: after, reports⟩ := by
  have hstays : StaysIn (Inside tokens (mark :: after)) (expression limit) :=
    (staysIn_assignment_unary (fenced_inside after hmark) limit).1
  rcases breaks_quietly hstays (inside_self _ _) with hbreaks | hok
  · exact .inl hbreaks
  · obtain ⟨value, rest, hrun, hquiet, left, hleft, rfl⟩ := hok
    obtain ⟨taken, htaken, hexpr⟩ := (expression_sound limit).2 _ _ _ hrun
    rw [← List.append_assoc] at htaken
    exact .inr ⟨value, taken, left, List.append_cancel_right htaken, hexpr, hquiet⟩

/-- A token that has to come next among plain tokens comes next, or the parser breaks there. -/
theorem expect_breaks (tokens after : List Token) (hmark : mark.kind ∈ fenceKinds) {kind : Kind}
    (hkind : kind ∉ fenceKinds) (complaint : Complaint) (reports : List Fault) :
    Breaks (Inside tokens (mark :: after)) (quietly (expect kind complaint))
        ⟨tokens ++ mark :: after, reports⟩ ∨
      ∃ t left, tokens = t :: left ∧ t.kind = kind ∧
        quietly (expect kind complaint) ⟨tokens ++ mark :: after, reports⟩ =
          .ok t ⟨left ++ mark :: after, reports⟩ := by
  have hstays : StaysIn (Inside tokens (mark :: after)) (expect kind complaint) :=
    staysIn_expect (fenced_inside after hmark) hkind complaint
  rcases breaks_quietly hstays (inside_self _ _) with hbreaks | hok
  · exact .inl hbreaks
  · obtain ⟨t, rest, hrun, hquiet, left, hleft, rfl⟩ := hok
    obtain ⟨htokens, ht⟩ := expect_eq_ok.1 hrun
    exact .inr ⟨t, left, List.append_cancel_right (htokens : _ ++ mark :: after = _), ht, hquiet⟩

/-- The semicolon that has to come next is the mark behind the plain tokens, or the parser breaks. -/
theorem semicolon_breaks (hplain : Plain tokens) (complaint : Complaint) (reports : List Fault) :
    Breaks (Inside tokens (mark :: after)) (quietly (expect .semicolon complaint))
        ⟨tokens ++ mark :: after, reports⟩ ∨ tokens = [] ∧ mark.kind = .semicolon := by
  have hbreaks (hstops : Stops [.semicolon] (tokens ++ mark :: after)) :
      Breaks (Inside tokens (mark :: after)) (quietly (expect .semicolon complaint))
        ⟨tokens ++ mark :: after, reports⟩ := by
    refine .inr ⟨⟨tokens ++ mark :: after, complaint⟩, ⟨tokens ++ mark :: after, reports⟩, ?_,
      inside_self _ _, inside_self _ _, rfl⟩
    have hsome : tokens ++ mark :: after ≠ [] := by simp
    obtain ⟨t, left, htokens⟩ := List.exists_cons_of_ne_nil hsome
    rw [htokens] at hstops ⊢
    have hkind : t.kind ≠ .semicolon := by simpa using hstops t rfl
    simp [quietly, expect, hkind]
  cases tokens with
  | nil =>
    by_cases hkind : mark.kind = .semicolon
    · exact .inr ⟨rfl, hkind⟩
    · exact .inl (hbreaks (stops_cons (by simpa using hkind)))
  | cons t left => exact .inl (hbreaks (stops_cons (by simpa using (hplain t List.mem_cons_self).1)))

/-- An expression up to a semicolon: the parser breaks, or the plain tokens are an expression. -/
theorem value_breaks {α : Type} (hplain : Plain tokens) (hmark : mark.kind ∈ fenceKinds)
    (limit : Nat) (complaint : Complaint) (reports : List Fault) (next : Node → Token → StmtParser α) :
    Breaks (Inside tokens (mark :: after))
        (do
          let value ← quietly (expression limit)
          let t ← quietly (expect .semicolon complaint)
          next value t) ⟨tokens ++ mark :: after, reports⟩ ∨
      mark.kind = .semicolon ∧ ∃ value, Expr .language .assignment tokens value := by
  rcases expression_breaks tokens hmark limit reports with hbreaks | hok
  · exact .inl (hbreaks.bind _)
  · obtain ⟨value, taken, left, rfl, hexpr, hquiet⟩ := hok
    have hleft : left <:+ taken ++ left := List.suffix_append taken left
    rcases semicolon_breaks (hplain.of_suffix hleft) complaint reports with
      hbreaks | ⟨rfl, hsemicolon⟩
    · refine .inl (Breaks.after hquiet rfl ((hbreaks.mono fun _ h => h.mono hleft).bind _))
    · rw [List.append_nil]
      exact .inr ⟨hsemicolon, value, hexpr⟩

/-- A condition in parentheses and a statement: the parser breaks, or the plain tokens are made of
such parts. -/
theorem guarded_breaks (hmark : mark.kind ∈ fenceKinds) (limit : Nat)
    (opens closes : Complaint) (reports : List Fault) (next : Node → Node → StmtParser Node)
    (hstatement : ∀ left, left <:+ tokens →
      Breaks (Inside left (mark :: after)) (statement limit)
          ⟨left ++ mark :: after, reports⟩ ∨
        ∃ tree, Stmt .language .statement (left ++ [mark]) tree) :
    Breaks (Inside tokens (mark :: after))
        (do
          let _ ← quietly (expect .leftParen opens)
          let condition ← quietly (expression limit)
          let _ ← quietly (expect .rightParen closes)
          let body ← statement limit
          next condition body) ⟨tokens ++ mark :: after, reports⟩ ∨
      ∃ opening inner closing left condition tree, tokens = opening :: (inner ++ closing :: left) ∧
        opening.kind = .leftParen ∧ closing.kind = .rightParen ∧
        Expr .language .assignment inner condition ∧
        Stmt .language .statement (left ++ [mark]) tree := by
  rcases expect_breaks tokens after hmark
    (by decide : Kind.leftParen ∉ fenceKinds) opens reports with
    hbreaks | ⟨opening, rest, rfl, hopening, hopened⟩
  · exact .inl (hbreaks.bind _)
  have hrest : rest <:+ opening :: rest := List.suffix_cons opening rest
  rcases expression_breaks rest hmark limit reports with
    hbreaks | ⟨condition, inner, rest', rfl, hexpr, hread⟩
  · exact .inl (Breaks.after hopened rfl ((hbreaks.mono fun _ h => h.mono hrest).bind _))
  have hrest' : rest' <:+ opening :: (inner ++ rest') := (List.suffix_append inner rest').trans hrest
  rcases expect_breaks rest' after hmark
    (by decide : Kind.rightParen ∉ fenceKinds) closes reports with
    hbreaks | ⟨closing, left, rfl, hclosing, hclosed⟩
  · refine .inl (Breaks.after hopened rfl (Breaks.after hread rfl ?_))
    exact (hbreaks.mono fun _ h => h.mono hrest').bind _
  have hleft : left <:+ opening :: (inner ++ closing :: left) :=
    (List.suffix_cons closing left).trans hrest'
  rcases hstatement left hleft with hbreaks | ⟨tree, hstmt⟩
  · refine .inl (Breaks.after hopened rfl (Breaks.after hread rfl (Breaks.after hclosed rfl ?_)))
    exact (hbreaks.mono fun _ h => h.mono hleft).bind _
  · exact .inr ⟨opening, inner, closing, left, condition, tree, rfl, hopening, hclosing, hexpr, hstmt⟩

/-- A statement of plain tokens up to a semicolon: the parser breaks among them, or they are one. -/
theorem statement_breaks (hmark : mark.kind ∈ fenceKinds) (limit : Nat)
    (reports : List Fault) (hplain : Plain tokens) :
    Breaks (Inside tokens (mark :: after)) (statement limit)
        ⟨tokens ++ mark :: after, reports⟩ ∨
      ∃ tree, Stmt .language .statement (tokens ++ [mark]) tree := by
  induction limit generalizing tokens with
  | zero => exact .inl (.inl ⟨_, rfl⟩)
  | succ limit ih =>
    -- The first token chooses the statement; a keyword is the first of the plain tokens.
    have hfirst {kind : Kind} (hkind : (tokens ++ mark :: after).head?.map (·.kind) = some kind)
        (hother : kind ∉ fenceKinds) :
        ∃ keyword rest, tokens = keyword :: rest ∧ keyword.kind = kind := by
      cases tokens with
      | nil => exact absurd (Option.some.inj hkind ▸ hmark) hother
      | cons keyword rest => exact ⟨keyword, rest, rfl, Option.some.inj hkind⟩
    have hstep := statement_succ limit ⟨tokens ++ mark :: after, reports⟩
    split at hstep
    · next hkind =>
      obtain ⟨keyword, rest, rfl, hkeyword⟩ := hfirst hkind (by decide)
      have hrest : rest <:+ keyword :: rest := List.suffix_cons keyword rest
      rcases value_breaks (hplain.of_suffix hrest) hmark limit
        .semicolonAfterValue reports fun value _ => pure (Node.printStmt value) with
        hbreaks | ⟨hsemicolon, value, hexpr⟩
      · exact .inl (.of_eq hstep (Breaks.after rfl rfl (hbreaks.mono fun _ h => h.mono hrest)))
      · exact .inr ⟨_, .print hkeyword hsemicolon hexpr⟩
    · next hkind =>
      obtain ⟨opening, rest, rfl, hopening⟩ := hfirst hkind (by decide)
      exact absurd hopening (hplain opening List.mem_cons_self).2.1
    · next hkind =>
      obtain ⟨keyword, rest, rfl, hkeyword⟩ := hfirst hkind (by decide)
      have hrest : rest <:+ keyword :: rest := List.suffix_cons keyword rest
      rcases guarded_breaks hmark limit .parenAfterIf
        .parenAfterIfCondition reports (fun condition thenBranch => do
          if (← nextKind) = some .elseWord then
            advance
            let elseBranch ← statement limit
            return .ifStmt condition thenBranch elseBranch
          else return .ifStmt condition thenBranch .absent)
        (fun left hleft => ih (hplain.of_suffix (hleft.trans hrest))) with hbreaks | hparts
      · exact .inl (.of_eq hstep (Breaks.after rfl rfl (hbreaks.mono fun _ h => h.mono hrest)))
      · obtain ⟨opening, inner, closing, left, condition, tree, rfl, hopening, hclosing, hexpr,
          hstmt⟩ := hparts
        have hif := Stmt.ifThen hkeyword hopening hclosing hexpr hstmt
        exact .inr ⟨_, by simpa using hif⟩
    · next hkind =>
      obtain ⟨keyword, rest, rfl, hkeyword⟩ := hfirst hkind (by decide)
      have hrest : rest <:+ keyword :: rest := List.suffix_cons keyword rest
      rcases guarded_breaks hmark limit .parenAfterWhile
        .parenAfterCondition reports (fun condition body => pure (Node.whileStmt condition body))
        (fun left hleft => ih (hplain.of_suffix (hleft.trans hrest))) with hbreaks | hparts
      · exact .inl (.of_eq hstep (Breaks.after rfl rfl (hbreaks.mono fun _ h => h.mono hrest)))
      · obtain ⟨opening, inner, closing, left, condition, tree, rfl, hopening, hclosing, hexpr,
          hstmt⟩ := hparts
        have hwhile := Stmt.whileLoop hkeyword hopening hclosing hexpr hstmt
        exact .inr ⟨_, by simpa using hwhile⟩
    · rcases value_breaks hplain hmark limit .semicolonAfterExpression reports
        fun value _ => pure (Node.exprStmt value) with hbreaks | ⟨hsemicolon, value, hexpr⟩
      · exact .inl (.of_eq hstep hbreaks)
      · exact .inr ⟨_, .expression hsemicolon hexpr⟩

theorem varDeclaration_breaks (hmark : mark.kind ∈ fenceKinds) (limit : Nat)
    (reports : List Fault) {keyword : Token} (hkeyword : keyword.kind = .varWord)
    (hplain : Plain tokens) :
    Breaks (Inside tokens (mark :: after)) (varDeclaration (expression limit))
        ⟨keyword :: (tokens ++ mark :: after), reports⟩ ∨
      ∃ tree, Stmt .language .declaration (keyword :: (tokens ++ [mark])) tree := by
  rcases expect_breaks tokens after hmark
    (by decide : Kind.identifier ∉ fenceKinds) .variableName reports with
    hbreaks | ⟨name, rest, rfl, hname, hnamed⟩
  · exact .inl (Breaks.after rfl rfl (hbreaks.bind _))
  have hrest : rest <:+ name :: rest := List.suffix_cons name rest
  by_cases hequal : (rest ++ mark :: after).head?.map (·.kind) = some .equal
  · cases rest with
    | nil =>
      rw [(Option.some.inj hequal : mark.kind = .equal)] at hmark
      exact absurd hmark (by decide)
    | cons equal rest =>
      have hrest' : rest <:+ name :: equal :: rest := (List.suffix_cons equal rest).trans hrest
      rcases value_breaks (hplain.of_suffix hrest') hmark limit
        .semicolonAfterDeclaration reports fun value _ => pure (Node.varDecl (.token name) value)
        with hbreaks | ⟨hsemicolon, value, hexpr⟩
      · refine .inl (Breaks.after rfl rfl (Breaks.after hnamed rfl (Breaks.after rfl rfl ?_)))
        dsimp only
        rw [if_pos hequal]
        exact Breaks.after rfl rfl (hbreaks.mono fun _ h => h.mono hrest')
      · exact .inr ⟨_, .declareAs hkeyword hname (Option.some.inj hequal) hsemicolon hexpr⟩
  · rcases semicolon_breaks (hplain.of_suffix hrest)
      .semicolonAfterDeclaration reports with hbreaks | ⟨rfl, hsemicolon⟩
    · refine .inl (Breaks.after rfl rfl (Breaks.after hnamed rfl (Breaks.after rfl rfl ?_)))
      dsimp only
      rw [if_neg hequal, pure_bind]
      exact (hbreaks.mono fun _ h => h.mono hrest).bind _
    · exact .inr ⟨_, .declare hkeyword hname hsemicolon⟩

theorem clauseParser_breaks (hmark : mark.kind ∈ fenceKinds) (limit : Nat)
    (reports : List Fault) (hplain : Plain tokens)
    (hbroken : ∀ tree, ¬Stmt .language .declaration (tokens ++ [mark]) tree) :
    Breaks (Inside tokens (mark :: after)) (clauseParser limit .declaration)
      ⟨tokens ++ mark :: after, reports⟩ := by
  refine Breaks.after rfl rfl ?_
  by_cases hvar : (tokens ++ mark :: after).head?.map (·.kind) = some .varWord
  · cases tokens with
    | nil =>
      rw [(Option.some.inj hvar : mark.kind = .varWord)] at hmark
      exact absurd hmark (by decide)
    | cons keyword rest =>
      have hrest : rest <:+ keyword :: rest := List.suffix_cons keyword rest
      rw [if_pos hvar]
      rcases varDeclaration_breaks hmark limit reports
        (Option.some.inj hvar) (hplain.of_suffix hrest) with hbreaks | ⟨tree, hstmt⟩
      · exact hbreaks.mono fun _ h => h.mono hrest
      · exact absurd hstmt (hbroken tree)
  · rw [if_neg hvar]
    rcases statement_breaks hmark limit reports hplain with
      hbreaks | ⟨tree, hstmt⟩
    · exact hbreaks
    · exact absurd (.statement hstmt) (hbroken tree)

/-! ## Where parsing goes on -/

/-- From anywhere in front of a mark, with no start of a statement on the way, parsing goes on where
it does from the mark itself. -/
theorem synchronize_of_plain (hmark : mark.kind ∈ fenceKinds) (hplain : Plain tokens)
    (hstarts : ∀ t ∈ tokens.tail, t.kind.startsStatement = false) :
    synchronize (tokens ++ mark :: after) = synchronize (mark :: after) := by
  induction tokens with
  | nil => rfl
  | cons t rest ih =>
    have hkind : t.kind ≠ .semicolon := (hplain t List.mem_cons_self).1
    have hrest : Plain rest := hplain.of_suffix (List.suffix_cons t rest)
    have hnext : atStatement (rest ++ mark :: after) = false := by
      cases rest with
      | nil =>
        rcases mem_fenceKinds.1 hmark with hmark | hmark <;>
          simp [atStatement, beginsWith, hmark, Kind.startsStatement]
      | cons head rest => exact hstarts head List.mem_cons_self
    rw [List.cons_append, synchronize, if_neg (by simp [hkind, hnext])]
    exact ih hrest fun u hu => hstarts u (List.mem_of_mem_tail hu)

theorem Inside.synchronize {rest : List Token} (h : Inside tokens (mark :: after) rest)
    (hmark : mark.kind ∈ fenceKinds) (hplain : Plain tokens)
    (hstarts : ∀ t ∈ tokens.tail, t.kind.startsStatement = false) :
    synchronize rest = synchronize (mark :: after) := by
  obtain ⟨left, ⟨front, rfl⟩, rfl⟩ := h
  refine synchronize_of_plain hmark (hplain.of_suffix (List.suffix_append front left)) ?_
  intro t ht
  refine hstarts t ?_
  cases front with
  | nil => exact ht
  | cons head front => exact List.mem_append_right _ (List.mem_of_mem_tail ht)

theorem synchronize_semicolon (hsemicolon : mark.kind = .semicolon) :
    synchronize (mark :: after) = after := by
  simp [synchronize, hsemicolon]

def FoundAmong (tokens : List Token) (fault : Fault) : Prop :=
  ∃ t ∈ tokens, fault.found.head? = some t

theorem Inside.foundAmong {fault : Fault} (h : Inside tokens (mark :: after) fault.found) :
    FoundAmong (tokens ++ [mark]) fault := by
  obtain ⟨left, hleft, hfound⟩ := h
  cases left with
  | nil => exact ⟨mark, by simp, by simp [hfound]⟩
  | cons t left =>
    exact ⟨t, List.mem_append_left _ (hleft.subset List.mem_cons_self), by simp [hfound]⟩

/-- Plain tokens that are no declaration with the mark behind them cost one fault, found among them or
at the mark. -/
theorem run_of_plain (hmark : mark.kind ∈ fenceKinds) (hplain : Plain tokens)
    (hstarts : ∀ t ∈ tokens.tail, t.kind.startsStatement = false)
    (hbrace : Stops [.rightBrace] (tokens ++ mark :: after))
    (hbroken : ∀ tree, ¬Stmt .language .declaration (tokens ++ [mark]) tree) (limit : Nat)
    (reports : List Fault) :
    ∃ fault, FoundAmong (tokens ++ [mark]) fault ∧
      Run limit ⟨tokens ++ mark :: after, reports⟩ []
        ⟨synchronize (mark :: after), fault :: reports⟩ := by
  have hrest : tokens ++ mark :: after ≠ [] := by simp
  have hshorter : (synchronize (mark :: after)).length < (tokens ++ mark :: after).length := by
    have hlt := synchronize_shorter (List.cons_ne_nil mark after)
    rw [List.length_append]
    omega
  rcases clauseParser_breaks hmark limit reports hplain hbroken with
    ⟨left, hdeep⟩ | ⟨fault, left, hfault, hinside, hfound, hreports⟩
  · have hreads : Reads (declaration (expression limit) (statement limit))
        ⟨tokens ++ mark :: after, reports⟩ none
        ⟨synchronize (mark :: after), ⟨tokens ++ mark :: after, .expression⟩ :: reports⟩ := by
      refine .inr ⟨left, ?_⟩
      rw [declaration_eq_recovering, recovering, hdeep]
    exact ⟨⟨tokens ++ mark :: after, .expression⟩, (inside_self _ _).foundAmong,
      .step hrest hbrace hshorter hreads (.done _)⟩
  · have hnext := hinside.synchronize hmark hplain hstarts
    have hreads : Reads (declaration (expression limit) (statement limit))
        ⟨tokens ++ mark :: after, reports⟩ none
        ⟨synchronize (mark :: after), fault :: reports⟩ := by
      refine .of_ok ?_
      rw [declaration_eq_recovering, recovering, hfault]
      simp only [hnext, hreports]
    exact ⟨fault, hfound.foundAmong, .step hrest hbrace hshorter hreads (.done _)⟩

/-- Tokens up to a semicolon that are no declaration. They do not go on with a conditional before
them, and only the first of them may start a statement. -/
structure Broken (tokens : List Token) (semicolon : Token) : Prop where
  isSemicolon : semicolon.kind = .semicolon
  plain : Plain tokens
  noEnd : ∀ t ∈ tokens, t.kind ≠ .eof
  noElse : Stops [.elseWord] tokens
  starts : ∀ t ∈ tokens.tail, t.kind.startsStatement = false
  notDeclaration : ∀ tree, ¬Stmt .language .declaration (tokens ++ [semicolon]) tree

theorem run_broken {semicolon : Token} (hbroken : Broken tokens semicolon) (limit : Nat)
    (reports : List Fault) :
    ∃ fault, FoundAmong (tokens ++ [semicolon]) fault ∧
      Run limit ⟨tokens ++ semicolon :: after, reports⟩ [] ⟨after, fault :: reports⟩ := by
  have hmark : semicolon.kind ∈ fenceKinds := mem_fenceKinds.2 (.inl hbroken.isSemicolon)
  have hbrace : Stops [.rightBrace] (tokens ++ semicolon :: after) := by
    cases tokens with
    | nil => exact stops_cons (by simp [hbroken.isSemicolon])
    | cons t rest => exact stops_cons (by simpa using (hbroken.plain t List.mem_cons_self).2.2)
  obtain ⟨fault, hfault, hrun⟩ := run_of_plain hmark hbroken.plain hbroken.starts hbrace
    hbroken.notDeclaration limit reports
  rw [synchronize_semicolon hbroken.isSemicolon] at hrun
  exact ⟨fault, hfault, hrun⟩

end Broken

/-! ## Inside blocks -/

/-- A block around some tokens, with declarations before and after them. -/
structure Surrounding where
  opening : Token
  before : List Token
  after : List Token
  closing : Token

namespace Surrounding

/-- The braces are braces, and what stands beside the tokens has no errors. -/
structure Clean (limit : Nat) (layer : Surrounding) : Prop where
  opening : layer.opening.kind = .leftBrace
  closing : layer.closing.kind = .rightBrace
  before : (parse limit layer.before).errors = []
  after : (parse limit layer.after).errors = []

/-- Tokens inside some blocks, the outermost first. -/
def tokens : List Surrounding → List Token → List Token
  | [], inner => inner
  | layer :: layers, inner =>
    layer.opening :: ((beforeEnd layer.before).1 ++ (tokens layers inner ++
      ((beforeEnd layer.after).1 ++ [layer.closing])))

def trees (limit : Nat) : List Surrounding → List Node → List Node
  | [], inner => inner
  | layer :: layers, inner =>
    [.block ((parse limit layer.before).statements ++ (trees limit layers inner ++
      (parse limit layer.after).statements))]

end Surrounding

theorem stops_else_append {tokens rest : List Token} (htokens : Stops [.elseWord] tokens)
    (hrest : Stops [.elseWord] rest) : Stops [.elseWord] (tokens ++ rest) := by
  cases tokens with
  | nil => exact hrest
  | cons t tail => exact stops_cons (htokens t rfl)

/-- A program without errors is read as it is, wherever it stands. -/
theorem run_program {limit : Nat} {program : List Token}
    (herrors : (parse limit program).errors = []) (limit' : Nat) (reports : List Fault)
    {rest : List Token} (hstops : Stops [.elseWord] rest) :
    Run limit' ⟨(beforeEnd program).1 ++ rest, reports⟩ (parse limit program).statements
      ⟨rest, reports⟩ := by
  obtain ⟨parts, hparts, htokens, htrees⟩ := derives_of_parse herrors
  rw [beforeEnd_fst, htokens, htrees]
  exact run_parts limit' reports hparts hstops

theorem stops_else_program {limit : Nat} {program : List Token}
    (herrors : (parse limit program).errors = []) : Stops [.elseWord] (beforeEnd program).1 := by
  obtain ⟨parts, hparts, htokens, -⟩ := derives_of_parse herrors
  rw [beforeEnd_fst, htokens]
  simpa using stops_else_partTokens hparts stops_nil

/-- The loop of a block is one turn of the loop around it. -/
theorem run_block {limit : Nat} {opening closing : Token} {inner rest : List Token}
    {reports reports' : List Fault} {nodes : List Node} (hopening : opening.kind = .leftBrace)
    (hclosing : closing.kind = .rightBrace)
    (hrun : Run (limit - 1) ⟨inner ++ closing :: rest, reports⟩ nodes ⟨closing :: rest, reports'⟩) :
    Run limit ⟨opening :: (inner ++ closing :: rest), reports⟩ [.block nodes]
      ⟨rest, reports'⟩ := by
  have hshorter : rest.length < (opening :: (inner ++ closing :: rest)).length := by
    simp only [List.length_cons, List.length_append]
    omega
  have hstatement : Reads (statement limit) ⟨opening :: (inner ++ closing :: rest), reports⟩
      (.block nodes) ⟨rest, reports'⟩ := by
    cases limit with
    | zero => exact reads_tooDeep
    | succ limit =>
      have heq : statement (limit + 1) ⟨opening :: (inner ++ closing :: rest), reports⟩ =
          blockStatement (declaration (expression limit) (statement limit))
            ⟨opening :: (inner ++ closing :: rest), reports⟩ := by
        simp [statement_succ, hopening]
      have hloop := hrun.declarations (by simp [hclosing]) (Nat.le_refl _)
      refine .of_eq heq (.bind (.of_ok rfl) (.bind (.of_ok rfl) ?_))
      exact .bind hloop (.bind (reads_quietly_expect hclosing _ _ _) (.of_ok rfl))
  have hclause : Reads (clauseParser limit .declaration)
      ⟨opening :: (inner ++ closing :: rest), reports⟩ (.block nodes) ⟨rest, reports'⟩ := by
    refine .bind (.of_ok rfl) ?_
    rw [if_neg (by simp [hopening])]
    exact hstatement
  have hdeclaration : Reads (declaration (expression limit) (statement limit))
      ⟨opening :: (inner ++ closing :: rest), reports⟩ (some (.block nodes)) ⟨rest, reports'⟩ := by
    rw [declaration_eq_recovering]
    exact hclause.recovering
  exact .step (List.cons_ne_nil _ _) (stops_cons (by simp [hopening])) hshorter hdeclaration
    (.done _)

/-- No `else` belongs to what stands before some tokens, whatever comes after them. -/
def Apart (tokens : List Token) : Prop :=
  ∀ rest, Stops [.elseWord] rest → Stops [.elseWord] (tokens ++ rest)

theorem apart_surrounded {limit : Nat} {inner : List Token} (hinner : Apart inner)
    {layers : List Surrounding} (hlayers : ∀ layer ∈ layers, layer.Clean limit) :
    Apart (Surrounding.tokens layers inner) := by
  cases layers with
  | nil => exact hinner
  | cons layer layers =>
    intro rest _
    have hopening := (hlayers layer List.mem_cons_self).opening
    exact stops_cons (by simp [hopening])

/-- What costs one fault costs one fault inside any number of blocks. -/
theorem run_surrounded {limit : Nat} {broken inner : List Token} {nodes : List Node}
    (hapart : Apart inner)
    (hinner : ∀ limit reports rest, Stops [.elseWord] rest → ∃ fault, FoundAmong broken fault ∧
      Run limit ⟨inner ++ rest, reports⟩ nodes ⟨rest, fault :: reports⟩)
    {layers : List Surrounding} (hlayers : ∀ layer ∈ layers, layer.Clean limit) :
    ∀ limit' reports rest, Stops [.elseWord] rest → ∃ fault, FoundAmong broken fault ∧
      Run limit' ⟨Surrounding.tokens layers inner ++ rest, reports⟩
        (Surrounding.trees limit layers nodes) ⟨rest, fault :: reports⟩ := by
  induction layers with
  | nil => exact hinner
  | cons layer layers ih =>
    intro limit' reports rest _
    rw [List.forall_mem_cons] at hlayers
    obtain ⟨hopening, hclosing, hbefore, hafter⟩ := hlayers.1
    have hclose : Stops [.elseWord] (layer.closing :: rest) := stops_cons (by simp [hclosing])
    have hstops : Stops [.elseWord] ((beforeEnd layer.after).1 ++ layer.closing :: rest) :=
      stops_else_append (stops_else_program hafter) hclose
    obtain ⟨fault, hfault, hmiddle⟩ := ih hlayers.2 (limit' - 1) reports _ hstops
    have hfirst := run_program hbefore (limit' - 1) reports
      (apart_surrounded hapart hlayers.2 _ hstops)
    have hlast := run_program hafter (limit' - 1) (fault :: reports) hclose
    have hinside := hfirst.trans (hmiddle.trans hlast)
    rw [← List.append_assoc (Surrounding.tokens layers inner), ← List.append_assoc] at hinside
    have hblock := run_block hopening hclosing hinside
    exact ⟨fault, hfault, by simpa [Surrounding.tokens, Surrounding.trees] using hblock⟩

/-! ## Programs -/

theorem ne_eof_of_mem_beforeEnd {tokens : List Token} :
    ∀ t ∈ (beforeEnd tokens).1, t.kind ≠ .eof := by
  intro t ht
  rw [beforeEnd_fst] at ht
  simpa using List.all_eq_true.1 List.all_takeWhile t ht

theorem beforeEnd_append {front : List Token} (hfront : ∀ t ∈ front, t.kind ≠ .eof)
    (tokens : List Token) :
    (beforeEnd (front ++ tokens)).1 = front ++ (beforeEnd tokens).1 := by
  rw [beforeEnd_fst, beforeEnd_fst, List.takeWhile_append_of_pos]
  simpa using hfront

theorem beforeEnd_append_last {front tokens : List Token} (hfront : ∀ t ∈ front, t.kind ≠ .eof)
    (htokens : tokens ≠ []) : (beforeEnd (front ++ tokens)).2 = (beforeEnd tokens).2 := by
  have hdrop : (front ++ tokens).dropWhile (·.kind != .eof) = tokens.dropWhile (·.kind != .eof) :=
    List.dropWhile_append_of_pos (by simpa using hfront)
  have hlast : (front ++ tokens).getLast? = tokens.getLast? := by
    obtain ⟨last, hsome⟩ := Option.isSome_iff_exists.1 (List.getLast?_isSome.2 htokens)
    rw [List.getLast?_append, hsome, Option.some_or]
  rw [beforeEnd, beforeEnd, hdrop, hlast]
  cases tokens.dropWhile (·.kind != .eof) <;> rfl

theorem parse_nil (limit : Nat) : parse limit [] = ⟨[], []⟩ := rfl

theorem Fault.toError_of_head {fault : Fault} {t : Token} (hfound : fault.found.head? = some t)
    (last : Token) : fault.toError last = ⟨t, fault.complaint⟩ := by
  rw [Fault.toError, List.headD_eq_head?_getD, hfound, Option.getD_some]

/-- Where the loop over a program comes to a second program with one fault reported, the parse is that
of the second program with one error and the trees of the first before. -/
theorem parse_of_topLevel {limit : Nat} {front second : List Token} {nodes : List Node} {t : Token}
    {fault : Fault} (hfront : ∀ t ∈ front, t.kind ≠ .eof) (hfound : fault.found.head? = some t)
    (htop : topLevel limit (front ++ (beforeEnd second).1).length
        ⟨front ++ (beforeEnd second).1, []⟩ =
      (nodes ++ (topLevel limit (beforeEnd second).1.length ⟨(beforeEnd second).1, [fault]⟩).1,
        (topLevel limit (beforeEnd second).1.length ⟨(beforeEnd second).1, [fault]⟩).2)) :
    parse limit (front ++ second) = ⟨nodes ++ (parse limit second).statements,
      ⟨t, fault.complaint⟩ :: (parse limit second).errors⟩ := by
  have hbehind := topLevel_append_reports limit (beforeEnd second).1.length
    ⟨(beforeEnd second).1, []⟩ [fault]
  rw [Progress.behind, List.nil_append] at hbehind
  simp only [hbehind] at htop
  have herror := Fault.toError_of_head hfound
  have hparse : parse limit (front ++ second) = ⟨nodes ++ (parse limit second).statements,
      ⟨t, fault.complaint⟩ ::
        (topLevel limit (beforeEnd second).1.length ⟨(beforeEnd second).1, []⟩).2.reverse.map
          (·.toError (beforeEnd (front ++ second)).2)⟩ := by
    simp only [parse, beforeEnd_append hfront second, htop, List.reverse_append,
      List.reverse_singleton, List.singleton_append, List.map_cons, herror]
  rw [hparse]
  by_cases hsecond : second = []
  · subst hsecond
    rfl
  · rw [beforeEnd_append_last hfront hsecond]
    rfl

/-- Where a run that reports one fault leads up to a program, its parse is that of the program with
one error and the trees of the run before. -/
theorem parse_of_run {limit : Nat} {front broken : List Token} {nodes : List Node} {fault : Fault}
    (second : List Token) (hfront : ∀ t ∈ front, t.kind ≠ .eof) (hfault : FoundAmong broken fault)
    (hrun : Run limit ⟨front ++ (beforeEnd second).1, []⟩ nodes ⟨(beforeEnd second).1, [fault]⟩)
    (hnesting : ∀ error ∈ (parse limit (front ++ second)).errors, error.complaint ≠ .nesting) :
    ∃ error, error.token ∈ broken ∧ parse limit (front ++ second) =
      ⟨nodes ++ (parse limit second).statements, error :: (parse limit second).errors⟩ := by
  obtain ⟨t, ht, hfound⟩ := hfault
  rcases hrun.topLevel (Nat.le_refl _) with htop | ⟨deep, hmem, hdeep⟩
  · exact ⟨⟨t, fault.complaint⟩, ht, parse_of_topLevel hfront hfound htop⟩
  · refine absurd hdeep (hnesting (deep.toError (beforeEnd (front ++ second)).2) ?_)
    rw [parse, beforeEnd_append hfront second]
    exact List.mem_map_of_mem (List.mem_reverse.2 hmem)

theorem ne_eof_of_mem_surrounded {limit : Nat} {inner : List Token}
    (hinner : ∀ t ∈ inner, t.kind ≠ .eof) {layers : List Surrounding}
    (hlayers : ∀ layer ∈ layers, layer.Clean limit) :
    ∀ t ∈ Surrounding.tokens layers inner, t.kind ≠ .eof := by
  induction layers with
  | nil => exact hinner
  | cons layer layers ih =>
    intro t ht
    rw [List.forall_mem_cons] at hlayers
    simp only [Surrounding.tokens, List.mem_cons, List.mem_append, List.not_mem_nil,
      or_false] at ht
    rcases ht with rfl | hbefore | hmiddle | hafter | rfl
    · simp [hlayers.1.opening]
    · exact ne_eof_of_mem_beforeEnd t hbefore
    · exact ih hlayers.2 t hmiddle
    · exact ne_eof_of_mem_beforeEnd t hafter
    · simp [hlayers.1.closing]

section Program

variable {limit : Nat} {first broken : List Token} {semicolon : Token}

theorem Broken.apart (hbroken : Broken broken semicolon) (rest : List Token) :
    Stops [.elseWord] (broken ++ semicolon :: rest) :=
  stops_else_append hbroken.noElse (stops_cons (by simp [hbroken.isSemicolon]))

theorem Broken.ne_eof (hbroken : Broken broken semicolon) :
    ∀ t ∈ (beforeEnd first).1 ++ (broken ++ [semicolon]), t.kind ≠ .eof := by
  intro t ht
  simp only [List.mem_append, List.mem_singleton] at ht
  rcases ht with hfirst | hmem | rfl
  · exact ne_eof_of_mem_beforeEnd t hfirst
  · exact hbroken.noEnd t hmem
  · simp [hbroken.isSemicolon]

/-- Behind a program without errors, broken tokens cost one fault. -/
theorem Broken.run (hbroken : Broken broken semicolon) (hfirst : (parse limit first).errors = [])
    (limit' : Nat) (reports : List Fault) (rest : List Token) :
    ∃ fault, FoundAmong (broken ++ [semicolon]) fault ∧
      Run limit' ⟨(beforeEnd first).1 ++ (broken ++ semicolon :: rest), reports⟩
        (parse limit first).statements ⟨rest, fault :: reports⟩ := by
  obtain ⟨fault, hfault, hrun⟩ := run_broken hbroken limit' reports
  refine ⟨fault, hfault, ?_⟩
  simpa using (run_program hfirst limit' reports (hbroken.apart rest)).trans hrun

end Program

end Parser

open Lox.Parser

/-- A broken declaration costs one error and nothing else. Between a program without errors and any
tokens, it adds one error among its own tokens to those of the tokens behind it, and leaves the
statements on both sides as they are. If what is behind it has no errors either, the same holds
inside any number of blocks. -/
theorem recovery_drops_broken (limit : Nat) (first broken second : List Token) (semicolon : Token)
    (hfirst : (parse limit first).errors = []) (hbroken : Broken broken semicolon) :
    ((∀ error ∈ (parse limit ((beforeEnd first).1 ++ (broken ++ semicolon :: second))).errors,
        error.complaint ≠ .nesting) →
      ∃ error, error.token ∈ broken ++ [semicolon] ∧
        parse limit ((beforeEnd first).1 ++ (broken ++ semicolon :: second)) =
          ⟨(parse limit first).statements ++ (parse limit second).statements,
            error :: (parse limit second).errors⟩) ∧
    ((parse limit second).errors = [] → ∀ layers, (∀ layer ∈ layers, Surrounding.Clean limit layer) →
      ∀ program, program = Surrounding.tokens layers
          ((beforeEnd first).1 ++ (broken ++ semicolon :: (beforeEnd second).1)) →
        (∀ error ∈ (parse limit program).errors, error.complaint ≠ .nesting) →
        ∃ error, error.token ∈ broken ++ [semicolon] ∧
          parse limit program = ⟨Surrounding.trees limit layers
            ((parse limit first).statements ++ (parse limit second).statements), [error]⟩) := by
  have heq (rest : List Token) : (beforeEnd first).1 ++ (broken ++ semicolon :: rest) =
      (beforeEnd first).1 ++ (broken ++ [semicolon]) ++ rest := by simp
  refine ⟨fun hnesting => ?_, fun hsecond layers hlayers program hprogram hnesting => ?_⟩
  · obtain ⟨fault, hfault, hrun⟩ := hbroken.run hfirst limit [] (beforeEnd second).1
    rw [heq] at hrun hnesting ⊢
    exact parse_of_run _ hbroken.ne_eof hfault hrun hnesting
  · have hinner (limit' : Nat) (reports : List Fault) (rest : List Token)
        (hrest : Stops [.elseWord] rest) :
        ∃ fault, FoundAmong (broken ++ [semicolon]) fault ∧
          Run limit' ⟨(beforeEnd first).1 ++ (broken ++ semicolon :: (beforeEnd second).1) ++ rest,
            reports⟩ ((parse limit first).statements ++ (parse limit second).statements)
            ⟨rest, fault :: reports⟩ := by
      obtain ⟨fault, hfault, hrun⟩ := hbroken.run hfirst limit' reports ((beforeEnd second).1 ++ rest)
      have hlast := run_program hsecond limit' (fault :: reports) hrest
      exact ⟨fault, hfault, by simpa using hrun.trans hlast⟩
    have hapart : Apart ((beforeEnd first).1 ++ (broken ++ semicolon :: (beforeEnd second).1)) := by
      intro rest hrest
      simpa using stops_else_append (stops_else_program hfirst)
        (hbroken.apart ((beforeEnd second).1 ++ rest))
    obtain ⟨fault, hfault, hrun⟩ := run_surrounded hapart hinner hlayers limit [] [] stops_nil
    have hne : ∀ t ∈ program, t.kind ≠ .eof := by
      rw [hprogram]
      refine ne_eof_of_mem_surrounded (fun t ht => ?_) hlayers
      rw [heq, List.mem_append] at ht
      exact ht.elim (hbroken.ne_eof t) (ne_eof_of_mem_beforeEnd t)
    subst hprogram
    obtain ⟨error, herror, hparse⟩ := parse_of_run [] hne hfault
      (by simpa [beforeEnd_fst] using hrun) (by simpa using hnesting)
    exact ⟨error, herror, by simpa [parse_nil] using hparse⟩

/-- The tokens of `print a;`. -/
def printName : List Token :=
  [⟨.printWord, .str "print", .null, 1⟩, ⟨.identifier, .str "a", .null, 1⟩,
    ⟨.semicolon, .str ";", .null, 1⟩]

/-- The tokens of `(a) = b`. -/
def groupedTarget : List Token :=
  [⟨.leftParen, .str "(", .null, 2⟩, ⟨.identifier, .str "a", .null, 2⟩,
    ⟨.rightParen, .str ")", .null, 2⟩, ⟨.equal, .str "=", .null, 2⟩,
    ⟨.identifier, .str "b", .null, 2⟩]

def semicolonToken : Token :=
  ⟨.semicolon, .str ";", .null, 2⟩

theorem groupedTarget_broken : Broken groupedTarget semicolonToken where
  isSemicolon := rfl
  plain := by unfold Plain; decide
  noEnd := by decide
  noElse := stops_cons (by decide)
  starts := by decide
  notDeclaration := by
    intro tree hstmt
    have hderives : Derives .language
        ((groupedTarget ++ [semicolonToken]).takeWhile (·.kind != .eof)) [tree] :=
      ⟨[⟨_, tree⟩], by simpa using hstmt, rfl, rfl⟩
    rcases parse_of_derives 20 hderives with ⟨herrors, -⟩ | ⟨error, hmem, hdeep⟩
    · exact absurd (congrArg List.length herrors) (by decide +kernel)
    · exact absurd hdeep (by revert error; decide +kernel)

/-- A block with `print a;` in front. -/
def printingBlock : Surrounding where
  opening := ⟨.leftBrace, .str "\x7b", .null, 1⟩
  before := printName
  after := []
  closing := ⟨.rightBrace, .str "\x7d", .null, 3⟩

theorem recovery_drops_groupedTarget :
    (parse 20 printName).errors = [] ∧
      Broken groupedTarget semicolonToken ∧
      (∃ error, error.token ∈ groupedTarget ++ [semicolonToken] ∧
        parse 20 (printName ++ (groupedTarget ++ semicolonToken :: printName)) =
          ⟨(parse 20 printName).statements ++ (parse 20 printName).statements, [error]⟩) ∧
      ∃ error, error.token ∈ groupedTarget ++ [semicolonToken] ∧
        parse 20 (Surrounding.tokens [printingBlock, printingBlock]
            (printName ++ (groupedTarget ++ semicolonToken :: printName))) =
          ⟨Surrounding.trees 20 [printingBlock, printingBlock]
            ((parse 20 printName).statements ++ (parse 20 printName).statements), [error]⟩ := by
  have herrors : (parse 20 printName).errors = [] := List.isEmpty_iff.1 (by decide +kernel)
  have hclean : printingBlock.Clean 20 := ⟨rfl, rfl, herrors, rfl⟩
  obtain ⟨hprogram, hblocks⟩ := recovery_drops_broken 20 printName groupedTarget printName
    semicolonToken herrors groupedTarget_broken
  refine ⟨herrors, groupedTarget_broken, ?_, ?_⟩
  · have hrecovers := hprogram (by decide +kernel)
    rwa [herrors] at hrecovers
  · exact hblocks herrors [printingBlock, printingBlock] (by simp [hclean]) _ rfl (by decide +kernel)

end Lox
