import Mathlib.Data.List.Basic
import Lox.Proofs.Scope.Resolution

/-!
# The names in scope

Which names a scope binds changes at one place only: a declaration that comes to its end adds its own
name to the innermost scope, if that does not bind it yet. Everything else leaves all scopes with the
names that they had, whether it comes to its end or is stopped at any depth: an assignment finds a
name and never makes one, a block drops its own scope on every way out, and so a loop changes nothing
however often it is repeated.

The chain of names is followed through a run by one statement for both kinds of clauses
(`turnsNames_execute`): its innermost part grows as the text says, and what lies around it stays.
-/

namespace Lox

open Lox.Computation Lox.Action

/-! ## Names of scopes -/

/-- Some names and another one, unless it is among them. -/
def Name.addTo (name : Name) (names : List Name) : List Name :=
  if names.any (·.normal = name.normal) then names else names ++ [name]

theorem Name.addTo_cons (name other : Name) (names : List Name) :
    name.addTo (other :: names) =
      if other.normal = name.normal then other :: names else other :: name.addTo names := by
  by_cases h : other.normal = name.normal
  · simp [addTo, h]
  · simp only [addTo, List.any_cons, h, decide_false, Bool.false_or, if_false]
    split <;> rfl

namespace Bindings

variable {bindings : Bindings} {name : Name} {value : Value}

/-- The names that a scope binds, as they were first written. -/
def names (bindings : Bindings) : List Name :=
  bindings.map Prod.fst

@[simp] theorem names_cons (entry : Name × Value) (rest : Bindings) :
    names (entry :: rest) = entry.1 :: rest.names := rfl

theorem names_put : (bindings.put name value).names = name.addTo bindings.names := by
  induction bindings with
  | nil => rfl
  | cons entry rest ih =>
    rw [put, names_cons, Name.addTo_cons, ← ih]
    split <;> rfl

theorem binds_eq_any : bindings.binds name = bindings.names.any (·.normal = name.normal) := by
  induction bindings with
  | nil => rfl
  | cons entry rest ih => rw [binds_cons, ih, names_cons, List.any_cons]

/-- A name that is bound already is not added. -/
theorem names_put_of_binds (hbinds : bindings.binds name = true) :
    (bindings.put name value).names = bindings.names := by
  rw [names_put, Name.addTo, if_pos (binds_eq_any ▸ hbinds)]

end Bindings

namespace Scopes

variable {scopes after : Scopes} {name : Name} {value : Value}

/-- The names that each scope of a chain binds. -/
def names (scopes : Scopes) : List (List Name) :=
  scopes.map Bindings.names

/-- An assignment adds no name to any scope. -/
theorem names_assign? (hassign : scopes.assign? name value = some after) :
    after.names = scopes.names :=
  map_assign? (fun _ hbinds => Bindings.names_put_of_binds hbinds) hassign

theorem names_define {own : List Name} {rest : List (List Name)}
    (hnames : scopes.names = own :: rest) :
    (scopes.define name value).names = name.addTo own :: rest := by
  obtain ⟨innermost, outer, rfl, rfl, rfl⟩ := List.map_eq_cons_iff.1 hnames
  exact congrArg (· :: outer.map Bindings.names) Bindings.names_put

end Scopes

/-- The names of the innermost scope after a node came to its end there: a declaration adds its
own. -/
def Node.namesAfter (names : List Name) : Node → List Name
  | varDecl (token t) _ =>
    match Name.ofJson? t.lexeme with
    | some name => name.addTo names
    | none => names
  | _ => names

theorem Node.namesAfter_of_statement {admits : Token → Prop} {holds : Value → Prop} {node : Node}
    (hnode : node.IsStmt admits holds .statement) (names : List Name) :
    node.namesAfter names = names := by
  cases hnode <;> rfl

/-! ## Runs -/

/-- The names of a chain of scopes are the given ones. -/
def HasNames (names : List (List Name)) (scopes : Scopes) : Prop :=
  scopes.names = names

/-- The names around the innermost scope are the given ones. -/
def HasOuterNames (names : List (List Name)) (scopes : Scopes) : Prop :=
  ∃ own, HasNames (own :: names) scopes

theorem HasOuterNames.tail {names : List (List Name)} {scopes : Scopes}
    (hnames : HasOuterNames names scopes) : HasNames names scopes.tail := by
  obtain ⟨own, hown⟩ := hnames
  obtain ⟨innermost, outer, rfl, -, houter⟩ := List.map_eq_cons_iff.1 hown
  exact houter

/-- An action leaves the innermost scope with other names if it comes to its end. If it is stopped,
and around that scope in either case, all names stay. -/
def TurnsNames (own own' : List Name) (rest : List (List Name)) (action : Action Unit) : Prop :=
  ScopeTriple (HasNames (own :: rest)) action (fun _ => HasNames (own' :: rest))
    fun _ => HasNames (own :: rest)

section Runs

variable {names rest : List (List Name)} {own : List Name}

theorem keepsScopes_evaluate_names (setting : Setting) (limit : Nat) (node : Node) :
    KeepsScopes (HasNames names) (evaluate setting limit node) :=
  keepsScopes_evaluate (fun hnames hassign => (Scopes.names_assign? hassign).trans hnames) setting
    limit node

/-- What runs in a scope of its own may do to that scope what it likes. -/
theorem keepsScopes_inScope {action : Action Unit}
    (haction : KeepsScopes (HasOuterNames names) action) :
    KeepsScopes (HasNames names) (inScope action) := by
  refine ScopeTriple.inScope (Triple.mono haction ?_ ?_ ?_)
  · rintro machine ⟨outer, hscopes, houter⟩
    exact ⟨[], hscopes ▸ congrArg ([] :: ·) houter⟩
  · exact fun _ machine => HasOuterNames.tail
  · exact fun _ machine => HasOuterNames.tail

/-- A declaration that is stopped adds nothing, and one that comes to its end adds its own name. -/
theorem turnsNames_declare (setting : Setting) (t : Token) (initializer : Node) (value : Value) :
    TurnsNames own ((Node.varDecl (.token t) initializer).namesAfter own) rest
      (declare setting (.token t) value) := by
  intro machine hnames
  cases hname : Name.ofJson? t.lexeme with
  | none =>
    rw [declare_of_noName setting hname]
    exact hnames
  | some name =>
    rw [declare_of_name setting hname, Node.namesAfter, hname]
    change HasNames _ (Machine.trace setting 2 _ _).scopes
    rw [Machine.trace_scopes]
    exact Scopes.names_define hnames

variable {admits : Token → Prop} {holds : Value → Prop}

theorem turnsNames_execute (setting : Setting) (limit : Nat) {clause : Grammar.Clause} {node : Node}
    (hnode : node.IsStmt admits holds clause) :
    TurnsNames own (node.namesAfter own) rest (execute setting limit node) := by
  induction limit generalizing clause node own rest with
  | zero => exact scopeTriple_throw fun _ => id
  | succ limit ih =>
    have hvalue : ∀ node : Node,
        KeepsScopes (HasNames (own :: rest)) (evaluate setting limit node) :=
      keepsScopes_evaluate_names setting limit
    -- a branch or a body is a statement, which adds nothing
    have hbranch : ∀ {node : Node}, node.IsStmt admits holds .statement →
        KeepsScopes (HasNames (own :: rest)) (execute setting limit node) := by
      intro node hnode
      have hrun : TurnsNames own (node.namesAfter own) rest (execute setting limit node) := ih hnode
      rwa [Node.namesAfter_of_statement hnode] at hrun
    induction hnode with
    | @exprStmt expression =>
      rw [execute_exprStmt]
      exact (hvalue expression).bind fun _ => keepsScopes_pure ()
    | @printStmt expression =>
      rw [execute_printStmt]
      exact (hvalue expression).bind fun value => leavesScopes_note _ _
    | block hstatements =>
      rw [execute_block]
      refine keepsScopes_inScope fun machine hnames => ?_
      rw [blockBody, get_bind]
      refine KeepsScopes.bind scopeTriple_trace (fun _ => ?_) machine hnames
      refine (keepsScopes_forM fun node hmem => ?_).bind fun _ => scopeTriple_trace
      rintro machine ⟨inner, hinner⟩
      exact Triple.mono (ih (hstatements node hmem)) (fun _ => id) (fun _ _ hafter => ⟨_, hafter⟩)
        (fun _ _ hafter => ⟨inner, hafter⟩) machine hinner
    | @ifThen condition _ _ hthen =>
      rw [execute_ifThen]
      refine (hvalue condition).bind fun value => KeepsScopes.bind scopeTriple_trace fun _ => ?_
      split
      · exact hbranch hthen
      · exact keepsScopes_pure ()
    | @ifElse condition _ _ _ hthen helse =>
      rw [execute_ifElse setting limit _ _ helse.ne_absent]
      refine (hvalue condition).bind fun value => KeepsScopes.bind scopeTriple_trace fun _ => ?_
      split
      · exact hbranch hthen
      · exact hbranch helse
    | @whileStmt condition _ _ hbody =>
      rw [execute_whileStmt]
      refine keepsScopes_repeatWhile ?_ (hbranch hbody) setting.turns
      refine (hvalue condition).bind fun value => KeepsScopes.bind scopeTriple_trace fun _ => ?_
      exact keepsScopes_pure _
    | @declare t =>
      rw [execute_varDecl, evaluateInitializer_absent, pure_bind]
      exact turnsNames_declare setting t .absent .nil
    | @declareAs t value _ _ hexpr =>
      rw [execute_varDecl, evaluateInitializer_of_ne_absent setting limit hexpr.ne_absent]
      exact ScopeTriple.bind (hvalue value) fun given => turnsNames_declare setting t value given
    | statement hnode ihnode => exact ihnode

/-! ## Programs -/

/-- What can stand in a program: declarations and statements, expressions, tokens and empty
places. -/
inductive Node.IsPart (admits : Token → Prop) (holds : Value → Prop) : Node → Prop where
  | stmt {node : Node} (hnode : node.IsStmt admits holds .declaration) : IsPart admits holds node
  | expr {node : Node} (hnode : node.IsExpr admits holds) : IsPart admits holds node
  | token (t : Token) : IsPart admits holds (.token t)
  | absent : IsPart admits holds .absent

theorem Node.IsExpr.isPart_of_child {node child : Node} (hnode : node.IsExpr admits holds)
    (hchild : child ∈ node.children) : child.IsPart admits holds := by
  cases hnode with
  | literal => cases hchild
  | grouping hinner =>
    rw [List.mem_singleton.1 hchild]
    exact .expr hinner
  | varRef =>
    rw [List.mem_singleton.1 hchild]
    exact .token _
  | assign _ _ hvalue | unary _ _ hvalue =>
    rcases List.mem_pair.1 hchild with rfl | rfl
    · exact .token _
    · exact .expr hvalue
  | binary _ _ hleft hright =>
    rcases List.mem_cons.1 hchild with rfl | hchild
    · exact .expr hleft
    rcases List.mem_pair.1 hchild with rfl | rfl
    · exact .token _
    · exact .expr hright

theorem Node.IsStmt.isPart_of_child {clause : Grammar.Clause} {node child : Node}
    (hnode : node.IsStmt admits holds clause) (hchild : child ∈ node.children) :
    child.IsPart admits holds := by
  induction hnode with
  | exprStmt hvalue | printStmt hvalue =>
    rw [List.mem_singleton.1 hchild]
    exact .expr hvalue
  | block hstatements => exact .stmt (hstatements child hchild)
  | ifThen hcondition hthen =>
    rcases List.mem_cons.1 hchild with rfl | hchild
    · exact .expr hcondition
    rcases List.mem_pair.1 hchild with rfl | rfl
    · exact .stmt (.statement hthen)
    · exact .absent
  | ifElse hcondition hthen helse =>
    rcases List.mem_cons.1 hchild with rfl | hchild
    · exact .expr hcondition
    rcases List.mem_pair.1 hchild with rfl | rfl
    · exact .stmt (.statement hthen)
    · exact .stmt (.statement helse)
  | whileStmt hcondition hbody =>
    rcases List.mem_pair.1 hchild with rfl | rfl
    · exact .expr hcondition
    · exact .stmt (.statement hbody)
  | declare =>
    rcases List.mem_pair.1 hchild with rfl | rfl
    · exact .token _
    · exact .absent
  | declareAs _ _ hvalue =>
    rcases List.mem_pair.1 hchild with rfl | rfl
    · exact .token _
    · exact .expr hvalue
  | statement _ ih => exact ih hchild

theorem Node.IsPart.of_child {node child : Node} (hnode : node.IsPart admits holds)
    (hchild : child ∈ node.children) : child.IsPart admits holds := by
  cases hnode with
  | stmt hnode => exact hnode.isPart_of_child hchild
  | expr hnode => exact hnode.isPart_of_child hchild
  | token | absent => cases hchild

theorem isPart_of_occurs {program : List Node} {site : Site} {node : Node}
    (hprogram : ∀ node ∈ program, node.IsStmt admits holds .declaration)
    (hnode : Occurs program site node) : node.IsPart admits holds := by
  induction hnode with
  | top hmem => exact .stmt (hprogram _ hmem)
  | under _ _ hchild ih => exact ih.of_child hchild
  | inBlock _ ih => exact ih.of_child (List.mem_append_right _ List.mem_cons_self)

/-- What is no statement is not run. -/
theorem Node.IsPart.turnsNames {node : Node} (hnode : node.IsPart admits holds)
    (setting : Setting) (limit : Nat) :
    TurnsNames own (node.namesAfter own) rest (execute setting limit node) := by
  cases hnode with
  | stmt hnode => exact turnsNames_execute setting limit hnode
  | expr hnode => cases limit <;> cases hnode <;> exact scopeTriple_throw fun _ => id
  | token | absent => cases limit <;> exact scopeTriple_throw fun _ => id

end Runs

/-- Take any node of a program that comes from the parser, at any depth, and run it in any chain of
scopes. However it ends, the chain has the same scopes with the same names, but for one case: a
declaration that comes to its end has added its own name to the innermost scope, if that was not
there. Nothing that is evaluated makes or drops a name. -/
theorem scopes_keep_their_names (parseLimit : Nat) (tokens : List Token) {site : Site} {node : Node}
    (hnode : Occurs (parse parseLimit tokens).statements site node) (setting : Setting) (limit : Nat)
    (innermost : Bindings) (outer : Scopes) (log : List Event) :
    Ends
      (fun _ after => after.scopes.names = node.namesAfter innermost.names :: outer.names)
      (fun _ after => after.scopes.names = Scopes.names (innermost :: outer))
      (execute setting limit node ⟨innermost :: outer, log⟩) ∧
    Ends
      (fun _ after => after.scopes.names = Scopes.names (innermost :: outer))
      (fun _ after => after.scopes.names = Scopes.names (innermost :: outer))
      (evaluate setting limit node ⟨innermost :: outer, log⟩) := by
  have hpart := isPart_of_occurs (parse_isStmt parseLimit tokens) hnode
  exact ⟨hpart.turnsNames setting limit _ rfl,
    keepsScopes_evaluate_names setting limit node _ rfl⟩

/-- The tokens of `while (go) { var x = go; go = !x; print -x; }`. -/
def failingBody : List Token :=
  [(.whileWord, "while"), (.leftParen, "("), (.identifier, "go"), (.rightParen, ")"),
    (.leftBrace, "\x7b"), (.varWord, "var"), (.identifier, "x"), (.equal, "="), (.identifier, "go"),
    (.semicolon, ";"), (.identifier, "go"), (.equal, "="), (.bang, "!"), (.identifier, "x"),
    (.semicolon, ";"), (.printWord, "print"), (.minus, "-"), (.identifier, "x"), (.semicolon, ";"),
    (.rightBrace, "\x7d"), (.eof, "")].map fun part => ⟨part.1, .str part.2, .null, 1⟩

theorem scopes_keep_their_names_failingBody :
    ∃ loop, Occurs (parse 9 failingBody).statements [] loop ∧
      ∃ halt after, execute ⟨0, 9⟩ 9 loop ⟨[[(.text "go", .boolean true)]], []⟩ = .error halt after ∧
        after.scopes.names = [[.text "go"]] := by
  have hparse : (parse 9 failingBody).statements.length = 1 := rfl
  have hoccurs : Occurs (parse 9 failingBody).statements []
      (parse 9 failingBody).statements[0] := .top (List.getElem_mem _)
  have hnames :=
    (scopes_keep_their_names 9 _ hoccurs ⟨0, 9⟩ 9 [(.text "go", .boolean true)] [] []).1
  exact ⟨_, hoccurs, _, _, rfl, hnames⟩

end Lox
