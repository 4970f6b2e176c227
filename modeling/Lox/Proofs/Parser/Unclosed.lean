import Lox.Proofs.Parser.Skip
import Lox.Proofs.Relocation.Parser

/-!
# A block that ends in a broken declaration

The search for the next statement does not stop at a closing brace: it always drops the brace behind
a broken declaration, and the block goes on with what comes after it. If that has no errors, the
block takes it up to the end, finds no brace there, and is dropped with everything behind it.
-/

namespace Lox

open Lox.Computation Grammar

namespace Parser

/-- Tokens in front of a closing brace that do not make up a declaration. They do not go on with a
conditional before them, and only the first of them may start a statement. -/
structure Unfinished (tokens : List Token) : Prop where
  nonempty : tokens ≠ []
  plain : Plain tokens
  noEnd : ∀ t ∈ tokens, t.kind ≠ .eof
  noElse : Stops [.elseWord] tokens
  starts : ∀ t ∈ tokens.tail, t.kind.startsStatement = false

section Grammar

variable {conditions : SideConditions} {clause : Clause} {tokens : List Token} {tree : Node}

/-- No declaration has a closing brace alone. -/
theorem not_stmt_of_plain (hplain : Plain tokens) {closing : Token}
    (hclosing : closing.kind = .rightBrace) :
    ¬Stmt conditions clause (tokens ++ [closing]) tree := by
  intro hstmt
  have hskip := skipStatement_append_of_stmt hstmt 0 [closing]
  rw [List.append_assoc, skipStatement_append_of_plain hplain] at hskip
  simp [skipStatement, hclosing] at hskip

theorem startsStatement_of_expr {rank : Rank} (hexpr : Expr conditions rank tokens tree) :
    ∀ t ∈ tokens, t.kind.startsStatement = false := by
  intro t ht
  have hkinds : ∀ kind ∈ expressionKinds, kind.startsStatement = false := by decide
  exact hkinds t.kind (hexpr.kind_mem t ht)

/-- From an expression, parsing goes on behind the semicolon after it. -/
theorem synchronize_expr {rank : Rank} (hexpr : Expr conditions rank tokens tree) {semicolon : Token}
    (hsemicolon : semicolon.kind = .semicolon) (after : List Token) :
    synchronize (tokens ++ semicolon :: after) = after := by
  have hmark : semicolon.kind ∈ fenceKinds := mem_fenceKinds.2 (.inl hsemicolon)
  rw [synchronize_of_plain hmark (plain_of_expr hexpr), synchronize_semicolon hsemicolon]
  intro t ht
  exact startsStatement_of_expr hexpr t (List.mem_of_mem_tail ht)

/-- A declaration begins with a token that starts a statement, unless it is an expression. -/
theorem atStatement_or_expr (hstmt : Stmt conditions clause tokens tree) :
    atStatement tokens = true ∨ ∃ inner semicolon value, tokens = inner ++ [semicolon] ∧
      semicolon.kind = .semicolon ∧ Expr conditions .assignment inner value := by
  induction hstmt with
  | print hkeyword | ifThen hkeyword | ifElse hkeyword | whileLoop hkeyword | declare hkeyword
  | declareAs hkeyword =>
    exact .inl (by simp [atStatement, beginsWith, hkeyword, Kind.startsStatement])
  | block hopening => exact .inl (by simp [atStatement, beginsWith, hopening, Kind.startsStatement])
  | expression hsemicolon hvalue => exact .inr ⟨_, _, _, rfl, hsemicolon, hvalue⟩
  | statement _ ih => exact ih

end Grammar

/-- From a closing brace, parsing goes on with the next declaration, or with the one after it if the
next one is an expression. -/
theorem synchronize_closing {closing : Token} (hclosing : closing.kind = .rightBrace)
    {parts : List Part}
    (hparts : ∀ part ∈ parts, Stmt .language .declaration part.tokens part.tree) :
    ∃ parts', parts' <:+ parts ∧ synchronize (closing :: partTokens parts) = partTokens parts' := by
  cases parts with
  | nil => exact ⟨[], List.suffix_rfl, by simp [synchronize]⟩
  | cons part parts =>
    rcases atStatement_or_expr (hparts part List.mem_cons_self) with
      hstart | ⟨inner, semicolon, value, htokens, hsemicolon, hexpr⟩
    · obtain ⟨t, tail, htokens, -⟩ := (hparts part List.mem_cons_self).begins
      refine ⟨part :: parts, List.suffix_rfl, ?_⟩
      rw [htokens] at hstart
      have hnext : atStatement (partTokens (part :: parts)) = true := by
        rw [partTokens_cons, htokens]
        exact hstart
      rw [synchronize, hnext, Bool.or_true, if_pos rfl]
    · obtain ⟨t, tail, rfl, -⟩ := hexpr.begins
      refine ⟨parts, List.suffix_cons part parts, ?_⟩
      have hnext : atStatement (t :: tail ++ semicolon :: partTokens parts) = false :=
        startsStatement_of_expr hexpr t List.mem_cons_self
      rw [partTokens_cons, htokens, List.append_assoc, List.singleton_append, synchronize, hnext,
        Bool.or_false, if_neg (by simp [hclosing]), synchronize_expr hexpr hsemicolon]

section Block

variable {limit : Nat} {inner broken rest : List Token} {opening closing : Token}

/-- What a block does from a broken declaration at its end on: it reports one fault and takes the
tokens behind its closing brace up to the end. -/
theorem Unfinished.run (hbroken : Unfinished broken) (hclosing : closing.kind = .rightBrace)
    (hrest : (parse limit rest).errors = []) (limit' : Nat) (reports : List Fault) :
    ∃ fault nodes, FoundAmong (broken ++ [closing]) fault ∧
      Run limit' ⟨broken ++ closing :: (beforeEnd rest).1, reports⟩ nodes
        ⟨[], fault :: reports⟩ := by
  have hbrace : Stops [.rightBrace] (broken ++ closing :: (beforeEnd rest).1) := by
    obtain ⟨t, tail, rfl⟩ := List.exists_cons_of_ne_nil hbroken.nonempty
    exact stops_cons (by simpa using (hbroken.plain t List.mem_cons_self).2.2)
  obtain ⟨fault, hfault, hrun⟩ := run_of_plain (mem_fenceKinds.2 (.inr hclosing)) hbroken.plain
    hbroken.starts hbrace (fun _ => not_stmt_of_plain hbroken.plain hclosing) limit' reports
  -- The search goes past the brace and ends in front of some rear part of the program behind it.
  obtain ⟨parts, hparts, htokens, -⟩ := derives_of_parse hrest
  rw [← beforeEnd_fst] at htokens
  obtain ⟨parts', hsuffix, hnext⟩ := synchronize_closing hclosing hparts
  rw [htokens, hnext] at hrun
  have hlast := run_parts limit' (fault :: reports)
    (fun part hmem => hparts part (hsuffix.subset hmem)) (stops_nil : Stops [.elseWord] [])
  rw [List.append_nil] at hlast
  rw [htokens]
  exact ⟨fault, _, hfault, hrun.trans hlast⟩

/-- A block that is read up to the end is a broken declaration. -/
theorem reads_unclosed (hopening : opening.kind = .leftBrace) {nodes : List Node}
    {reports reports' : List Fault}
    (hrun : Run (limit - 1) ⟨inner, reports⟩ nodes ⟨[], reports'⟩) :
    Reads (declaration (expression limit) (statement limit)) ⟨opening :: inner, reports⟩ none
      ⟨[], ⟨[], .braceAfterBlock⟩ :: reports'⟩ := by
  have hclause : clauseParser limit .declaration ⟨opening :: inner, reports⟩ =
      statement limit ⟨opening :: inner, reports⟩ := clauseParser_of_other (by simp [hopening])
  rw [declaration_eq_recovering, Reads, recovering, hclause]
  cases limit with
  | zero => exact .inr ⟨_, rfl⟩
  | succ limit =>
    rw [statement_of_block hopening]
    have hloop : Reads (declarationLoop limit) ⟨inner, reports⟩ nodes ⟨[], reports'⟩ :=
      hrun.declarations (by simp) (Nat.le_refl _)
    rcases hloop with hok | ⟨left, hdeep⟩
    · rw [bind_of_ok hok]
      exact .inl rfl
    · rw [bind_of_error hdeep]
      exact .inr ⟨left, rfl⟩

theorem skipStatement_block (hopening : opening.kind = .leftBrace)
    (hclosing : closing.kind = .rightBrace) (hinner : (parse limit inner).errors = [])
    (hplain : Plain broken) :
    skipStatement 0 (opening :: ((beforeEnd inner).1 ++ (broken ++ closing :: rest))) = rest := by
  obtain ⟨parts, hparts, htokens, -⟩ := derives_of_parse hinner
  have hskip := skipStatement_partTokens
    (fun part hmem => skipStatement_append_of_stmt (hparts part hmem)) 0
  rw [beforeEnd_fst, htokens]
  simp [skipStatement, hopening, hskip, skipStatement_append_of_plain hplain, hclosing]

/-- A program without errors reports nothing more behind other reports. -/
theorem topLevel_of_errors_behind (hrest : (parse limit rest).errors = []) (reports : List Fault)
    {count : Nat} (hcount : (beforeEnd rest).1.length ≤ count) :
    topLevel limit count ⟨(beforeEnd rest).1, reports⟩ =
      ((parse limit rest).statements, reports) := by
  have hreports := topLevel_append_reports limit count ⟨(beforeEnd rest).1, []⟩ reports
  have htop : topLevel limit count ⟨(beforeEnd rest).1, []⟩ =
      ((parse limit rest).statements, []) := by
    rw [topLevel_count limit hcount (Nat.le_refl _), topLevel_of_errors hrest]
  rw [htop] at hreports
  exact hreports

theorem ne_eof_of_unclosed (first inner : List Token) (hopening : opening.kind = .leftBrace)
    (hclosing : closing.kind = .rightBrace) (hbroken : Unfinished broken) :
    ∀ t ∈ (beforeEnd first).1 ++ opening :: ((beforeEnd inner).1 ++ (broken ++ [closing])),
      t.kind ≠ .eof := by
  intro t ht
  simp only [List.mem_append, List.mem_cons, List.not_mem_nil, or_false] at ht
  rcases ht with hfirst | rfl | hinner | hmem | rfl
  · exact ne_eof_of_mem_beforeEnd t hfirst
  · simp [hopening]
  · exact ne_eof_of_mem_beforeEnd t hinner
  · exact hbroken.noEnd t hmem
  · simp [hclosing]

/-- The loop over a program at such a block: two faults and no statement, or a fault about nesting
and the statements behind the block. -/
theorem topLevel_unclosed {block : List Token} (hopening : opening.kind = .leftBrace)
    (hclosing : closing.kind = .rightBrace) (hinner : (parse limit inner).errors = [])
    (hbroken : Unfinished broken) (hrest : (parse limit rest).errors = [])
    (hblock : block =
      opening :: ((beforeEnd inner).1 ++ (broken ++ closing :: (beforeEnd rest).1))) :
    (∃ fault, FoundAmong (broken ++ [closing]) fault ∧
      topLevel limit block.length ⟨block, []⟩ = ([], [⟨[], .braceAfterBlock⟩, fault])) ∨
    ((topLevel limit block.length ⟨block, []⟩).1 = (parse limit rest).statements ∧
      ∃ fault ∈ (topLevel limit block.length ⟨block, []⟩).2, fault.complaint = .nesting) := by
  subst hblock
  have hstops : Stops [.elseWord] (broken ++ closing :: (beforeEnd rest).1) :=
    stops_else_append hbroken.noElse (stops_cons (by simp [hclosing]))
  obtain ⟨fault, nodes, hfault, hrun⟩ := hbroken.run hclosing hrest (limit - 1) []
  have hloop := (run_program hinner (limit - 1) [] hstops).trans hrun
  rcases reads_unclosed hopening hloop with hok | ⟨left, hdeep⟩
  · refine .inl ⟨fault, hfault, ?_⟩
    rw [List.length_cons, topLevel_of_ok (List.cons_ne_nil _ _) hok, topLevel_nil]
    rfl
  · have hcount : (beforeEnd rest).1.length ≤
        ((beforeEnd inner).1 ++ (broken ++ closing :: (beforeEnd rest).1)).length := by
      simp only [List.length_cons, List.length_append]
      omega
    rw [List.length_cons, topLevel_of_tooDeep (List.cons_ne_nil _ _) hdeep,
      skipStatement_block hopening hclosing hinner hbroken.plain,
      topLevel_of_errors_behind hrest _ hcount]
    exact .inr ⟨rfl, ⟨left.rest, .nesting⟩, List.mem_cons_self, rfl⟩

end Block

end Parser

open Lox.Parser

/-- A block that ends in a broken declaration is not kept. Between two programs without errors it
costs one error at the broken tokens, or at the brace behind them, and another one at the end, and
nothing behind it is kept either; or some nesting is reported, and it is skipped as a whole. -/
theorem unclosed_block_takes_the_rest (limit : Nat) (first inner broken rest : List Token)
    (opening closing : Token) (hopening : opening.kind = .leftBrace)
    (hclosing : closing.kind = .rightBrace) (hfirst : (parse limit first).errors = [])
    (hinner : (parse limit inner).errors = []) (hbroken : Unfinished broken)
    (hrest : (parse limit rest).errors = []) :
    ∀ program, program =
        (beforeEnd first).1 ++ opening :: ((beforeEnd inner).1 ++ (broken ++ closing :: rest)) →
      (∃ error, error.token ∈ broken ++ [closing] ∧ parse limit program =
        ⟨(parse limit first).statements, [error, ⟨(beforeEnd program).2, .braceAfterBlock⟩]⟩) ∨
      ((∃ error ∈ (parse limit program).errors, error.complaint = .nesting) ∧
        (parse limit program).statements =
          (parse limit first).statements ++ (parse limit rest).statements) := by
  intro program hprogram
  have hbody : (beforeEnd program).1 = (beforeEnd first).1 ++
      opening :: ((beforeEnd inner).1 ++ (broken ++ closing :: (beforeEnd rest).1)) := by
    have hbody := beforeEnd_append (ne_eof_of_unclosed first inner hopening hclosing hbroken) rest
    rw [hprogram]
    simpa using hbody
  have happend := topLevel_append (stops_cons (by simp [hopening]) : Stops [.elseWord]
    (opening :: ((beforeEnd inner).1 ++ (broken ++ closing :: (beforeEnd rest).1))))
    (topLevel_of_errors hfirst)
  rcases topLevel_unclosed hopening hclosing hinner hbroken hrest rfl with
    ⟨fault, ⟨t, ht, hfound⟩, htop⟩ | ⟨hstatements, fault, hmem, hnesting⟩
  · refine .inl ⟨⟨t, fault.complaint⟩, ht, ?_⟩
    rw [htop] at happend
    rw [parse, hbody, happend]
    simp [Fault.toError_of_head hfound]
    rfl
  · refine .inr ⟨⟨fault.toError (beforeEnd program).2, ?_, hnesting⟩, ?_⟩
    · rw [parse, hbody, happend]
      exact List.mem_map_of_mem (List.mem_reverse.2 hmem)
    · rw [parse, hbody, happend, hstatements]

/-- The tokens of `print a`. -/
def printWithoutEnd : List Token :=
  [⟨.printWord, .str "print", .null, 1⟩, nameToken]

theorem printWithoutEnd_unfinished : Unfinished printWithoutEnd where
  nonempty := List.cons_ne_nil _ _
  plain := by unfold Plain; decide
  noEnd := by decide
  noElse := stops_cons (by decide)
  starts := by decide

/-- A block that ends in `print a`, between two programs `print a;`. -/
def unclosedBlock : List Token :=
  printName ++ printingBlock.opening :: (printName ++ (printWithoutEnd ++
    printingBlock.closing :: printName))

theorem unclosed_block_takes_printName :
    ∃ error, error.token ∈ printWithoutEnd ++ [printingBlock.closing] ∧
      parse 20 unclosedBlock = ⟨(parse 20 printName).statements,
        [error, ⟨(beforeEnd unclosedBlock).2, .braceAfterBlock⟩]⟩ := by
  have herrors : (parse 20 printName).errors = [] := List.isEmpty_iff.1 (by decide +kernel)
  have hblock := unclosed_block_takes_the_rest 20 printName printName printWithoutEnd printName
    printingBlock.opening printingBlock.closing rfl rfl herrors herrors printWithoutEnd_unfinished
    herrors unclosedBlock rfl
  refine hblock.resolve_right ?_
  rintro ⟨hnesting, -⟩
  exact absurd hnesting (by decide +kernel)

/-- A broken declaration at the end of a block costs more than itself. -/
theorem unclosed_block_is_lost :
    ¬∀ limit first inner broken rest opening closing, opening.kind = .leftBrace →
      closing.kind = .rightBrace → (parse limit first).errors = [] →
      (parse limit inner).errors = [] → Unfinished broken → (parse limit rest).errors = [] →
      (∀ error ∈ (parse limit ((beforeEnd first).1 ++
          opening :: ((beforeEnd inner).1 ++ (broken ++ closing :: rest)))).errors,
        error.complaint ≠ .nesting) →
      ∃ error, parse limit ((beforeEnd first).1 ++
          opening :: ((beforeEnd inner).1 ++ (broken ++ closing :: rest))) =
        ⟨(parse limit first).statements ++ .block (parse limit inner).statements ::
          (parse limit rest).statements, [error]⟩ := by
  intro hclaim
  have herrors : (parse 20 printName).errors = [] := List.isEmpty_iff.1 (by decide +kernel)
  obtain ⟨error, hparse⟩ := hclaim 20 printName printName printWithoutEnd printName
    printingBlock.opening printingBlock.closing rfl rfl herrors herrors printWithoutEnd_unfinished
    herrors (by decide +kernel)
  have hlength : (parse 20 unclosedBlock).errors.length = 1 := congrArg (·.errors.length) hparse
  exact absurd hlength (by decide +kernel)

end Lox
