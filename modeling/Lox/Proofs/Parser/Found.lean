import Lox.Proofs.Parser.Order

/-!
# Errors are found among the tokens

Every fault that a parser of statements reports or stops at was found among the tokens that it was
given. Unlike the order of the reports this does not depend on the nesting: a program that nests too
deeply is reported at the token where the limit was met, and what follows is skipped from an earlier
one. So the token of an error is one of the tokens before the end, or the end itself
(`token_of_mem_errors`).
-/

namespace Lox

open Lox.Computation

namespace Parser

/-- A parser that has come some way through the tokens and has found all its faults there. -/
structure Within (body : List Token) (s : Progress) : Prop where
  rest : s.rest <:+ body
  found : ∀ fault ∈ s.reports, fault.found <:+ body

/-- A parser stays within the tokens, and so does the fault at which it stops. -/
def Finds (body : List Token) {α : Type} (parser : StmtParser α) : Prop :=
  Triple (Within body) parser (fun _ => Within body) fun halt s =>
    Within body s ∧ ∀ fault, halt = .fault fault → fault.found <:+ body

section Finds

variable {body : List Token} {limit : Nat} {s : Progress}

theorem Within.move (h : Within body s) {rest : List Token} (hrest : rest <:+ body) :
    Within body { s with rest } :=
  ⟨hrest, h.found⟩

theorem Within.report (h : Within body s) {fault : Fault} (hfault : fault.found <:+ body)
    {rest : List Token} (hrest : rest <:+ body) : Within body ⟨rest, fault :: s.reports⟩ :=
  ⟨hrest, List.forall_mem_cons.2 ⟨hfault, h.found⟩⟩

theorem finds_quietly {α : Type} {parser : ExprParser α} (hkeeps : Keeps (· <:+ body) parser)
    (hblames : Blames body parser) : Finds body (quietly parser) := by
  intro s hs
  have hrest := hkeeps s.rest hs.rest
  have hend := hblames s.rest hs.rest
  rw [quietly]
  cases hrun : parser s.rest with
  | ok a rest =>
    rw [hrun] at hrest
    exact hs.move hrest
  | error halt rest =>
    rw [hrun] at hrest hend
    exact ⟨hs.move hrest, fun fault hfault => (hend fault hfault).2.1⟩

theorem handedOn_finds (body : List Token) : HandedOn fun _ parser => Finds body parser where
  pure _ := fun _ hs => hs
  bind hparser hnext := Triple.bind hparser hnext
  nextKind := fun _ hs => hs
  advance := fun s hs => hs.move ((List.tail_suffix s.rest).trans hs.rest)
  expect kind _ hcomplaint :=
    finds_quietly (keeps_suffix_expect kind _) (blames_expect kind hcomplaint)

theorem finds_expression (limit : Nat) : Finds body (quietly (expression limit)) :=
  finds_quietly (keeps_suffix_expression limit) ((blames_assignment_unary limit).1 body)

/-- A brace that is missed is missed at the first of the tokens that are left. -/
theorem finds_closing : Finds body (quietly (expect .rightBrace .braceAfterBlock)) := by
  intro s hs
  obtain ⟨rest, reports⟩ := s
  cases rest with
  | nil =>
    refine ⟨hs, ?_⟩
    rintro _ ⟨⟩
    exact hs.rest
  | cons t rest =>
    rw [quietly, expect]
    split
    · next hrun =>
      split at hrun <;> cases hrun
      exact hs.move ((List.suffix_cons _ _).trans hs.rest)
    · next hrun =>
      split at hrun <;> cases hrun
      refine ⟨hs, ?_⟩
      rintro _ ⟨⟩
      exact hs.rest

theorem finds_recovering {parser : StmtParser Node} (hparser : Finds body parser) :
    Finds body (recovering parser) := by
  intro s hs
  have hend := hparser s hs
  rw [recovering]
  cases hrun : parser s with
  | ok node after =>
    rw [hrun] at hend
    exact hend
  | error halt after =>
    rw [hrun] at hend
    obtain ⟨hafter, hfound⟩ := hend
    cases halt with
    | fault fault =>
      exact hafter.report (hfound fault rfl) ((synchronize_suffix after.rest).trans hafter.rest)
    | tooDeep => exact ⟨hafter, fun _ heq => by cases heq⟩

theorem finds_declaration (hstatement : Finds body (statement limit)) :
    Finds body (declaration (expression limit) (statement limit)) := by
  refine finds_recovering ((handedOn_finds body).bind (handedOn_finds body).nextKind fun next => ?_)
  split
  · exact (handedOn_finds body).varDeclaration (finds_expression limit)
  · exact hstatement

theorem finds_statement (limit : Nat) : Finds body (statement limit) := by
  induction limit with
  | zero => exact fun _ hs => ⟨hs, nofun⟩
  | succ limit ih =>
    have hexpression : Finds body (quietly (expression limit)) := finds_expression limit
    have hparts := handedOn_finds body
    refine hparts.bind hparts.nextKind fun next => ?_
    split
    · exact hparts.printStatement hexpression
    · refine hparts.bind hparts.advance fun _ s hs => ?_
      rw [get_bind]
      refine hparts.bind (hparts.declarations (finds_declaration ih) _) (fun _ => ?_) s hs
      exact hparts.bind finds_closing fun _ => hparts.pure _
    · exact hparts.ifStatement hexpression ih
    · exact hparts.whileStatement hexpression ih
    · exact hparts.expressionStatement hexpression

/-- A program finds its faults among its tokens, those of nesting that is too deep included. -/
theorem found_of_mem_topLevel (limit count : Nat) (hs : Within body s) :
    ∀ fault ∈ (topLevel limit count s).2, fault.found <:+ body := by
  induction count generalizing s with
  | zero => exact hs.found
  | succ count ih =>
    by_cases hrest : s.rest = []
    · obtain ⟨rest, reports⟩ := s
      subst hrest
      rw [topLevel_nil]
      exact hs.found
    have hend := finds_declaration (finds_statement limit) s hs
    cases hrun : declaration (expression limit) (statement limit) s with
    | ok result after =>
      rw [hrun] at hend
      rw [topLevel_of_ok hrest hrun]
      exact ih hend
    | error halt after =>
      rw [hrun] at hend
      cases halt with
      | fault fault => exact absurd hrun declaration_ne_fault
      | tooDeep =>
        rw [topLevel_of_tooDeep hrest hrun]
        have hfound : Fault.found ⟨after.rest, .nesting⟩ <:+ body := hend.1.rest
        exact ih (hend.1.report hfound ((skipStatement_suffix 0 s.rest).trans hs.rest))

end Finds

end Parser

/-- Each error is about a token before the end, or about the end. -/
theorem token_of_mem_errors {limit : Nat} {tokens : List Token} {error : ParseError}
    (herror : error ∈ (parse limit tokens).errors) :
    error.token ∈ (beforeEnd tokens).1 ∨ error.token = (beforeEnd tokens).2 := by
  obtain ⟨fault, hfault, rfl⟩ := List.mem_map.1 herror
  have hstart : Parser.Within (beforeEnd tokens).1 ⟨(beforeEnd tokens).1, []⟩ :=
    ⟨List.suffix_rfl, List.forall_mem_nil _⟩
  obtain ⟨taken, hfound⟩ :=
    Parser.found_of_mem_topLevel limit _ hstart fault (List.mem_reverse.1 hfault)
  rw [Parser.Fault.toError, ← hfound]
  cases fault.found with
  | nil => exact .inr rfl
  | cons t rest => exact .inl (List.mem_append_right _ List.mem_cons_self)

end Lox
