import Lox.Session
import Lox.Proofs.Run.Steps
import Lox.Proofs.Scan.Restarts
import Lox.Proofs.Tree.WellFormed

/-!
# Running source text is safe

A tree that comes from a source text is run without a fault, whatever is wrong with the text: the
scanner spells its tokens, the parser puts them where they belong, and a run that begins with values
of the four kinds of the language only ever makes more of them. All that can stop a statement is an
error of the language itself, nesting beyond the limit, or a loop that takes too many turns.
-/

namespace Lox

open Lox.Computation Lox.Action Grammar

/-! ## The tokens of a source text -/

/-- A token as the scanner makes it: a text as its lexeme, and a number or a text as its literal if
its kind asks for one. -/
structure Token.Spelled (t : Token) : Prop where
  lexeme : ∃ s, t.lexeme = .str s
  number : t.kind = .number → ∃ x, t.literal = .float x
  string : t.kind = .string → ∃ s, t.literal = .str s

theorem Piece.spelled_of_token? {line : Int} {piece : Piece} {t : Token}
    (htoken : piece.token? line = some t) : t.Spelled := by
  cases piece with
  | lexeme kind text =>
    cases htoken
    refine ⟨⟨String.ofList text, rfl⟩, ?_, ?_⟩
    · rintro (rfl : kind = .number)
      exact ⟨numberOf text, rfl⟩
    · rintro (rfl : kind = .string)
      exact ⟨String.ofList (text.drop 1).dropLast, rfl⟩
  | _ => cases htoken

theorem spelled_of_mem_scan {source : String} {t : Token} (hmem : t ∈ (scan source).tokens) :
    t.Spelled := by
  rw [scan_eq] at hmem
  rcases List.mem_append.1 hmem with hmem | hmem
  · obtain ⟨entry, -, htoken⟩ := List.mem_filterMap.1 hmem
    exact Piece.spelled_of_token? htoken
  · rw [List.mem_singleton] at hmem
    subst hmem
    exact ⟨⟨"", rfl⟩, nofun, nofun⟩

/-- The literals of such tokens are of the kinds of the language. -/
theorem literals_spelled : Literals Token.Spelled (Value.isProper · = true) where
  token t ht := by
    rintro (hkind | hkind)
    · obtain ⟨x, hliteral⟩ := ht.number hkind
      rw [hliteral]
      rfl
    · obtain ⟨s, hliteral⟩ := ht.string hkind
      rw [hliteral]
      rfl
  boolean _ := rfl
  nil := rfl

abbrev Node.FromSource (clause : Clause) (node : Node) : Prop :=
  node.IsStmt Token.Spelled (Value.isProper · = true) clause

theorem fromSource_of_mem_parse {source : String} {limit : Nat} {node : Node}
    (hmem : node ∈ (parse limit (scan source).tokens).statements) :
    node.FromSource .declaration :=
  parse_wellFormed literals_spelled limit (fun _ => spelled_of_mem_scan) node hmem

/-! ## Values of the four kinds -/

/-- A scope holds only values of the four kinds of the language. -/
def Bindings.Proper (bindings : Bindings) : Prop :=
  ∀ entry ∈ bindings, entry.2.isProper = true

def Scopes.Proper (scopes : Scopes) : Prop :=
  ∀ bindings ∈ scopes, bindings.Proper

section Proper

variable {bindings : Bindings} {scopes : Scopes} {name : Name} {value : Value}

theorem Bindings.Proper.put (hbindings : bindings.Proper) (hvalue : value.isProper = true) :
    (bindings.put name value).Proper := by
  induction bindings with
  | nil => exact List.forall_mem_singleton.2 hvalue
  | cons entry rest ih =>
    obtain ⟨hentry, hrest⟩ := List.forall_mem_cons.1 hbindings
    rw [Bindings.put]
    split
    · exact List.forall_mem_cons.2 ⟨hvalue, hrest⟩
    · exact List.forall_mem_cons.2 ⟨hentry, ih hrest⟩

theorem Bindings.Proper.get? (hbindings : bindings.Proper)
    (hget : bindings.get? name = some value) : value.isProper = true := by
  obtain ⟨entry, hfind, rfl⟩ := Option.map_eq_some_iff.1 hget
  exact hbindings entry (List.mem_of_find?_eq_some hfind)

theorem Scopes.Proper.get? (hscopes : scopes.Proper) (hget : scopes.get? name = some value) :
    value.isProper = true := by
  obtain ⟨bindings, hmem, hget⟩ := List.exists_of_findSome?_eq_some hget
  exact (hscopes bindings hmem).get? hget

theorem Scopes.Proper.define (hscopes : scopes.Proper) (hvalue : value.isProper = true) :
    (scopes.define name value).Proper := by
  cases scopes with
  | nil => exact List.forall_mem_singleton.2 (List.forall_mem_singleton.2 hvalue)
  | cons innermost outer =>
    obtain ⟨hinnermost, houter⟩ := List.forall_mem_cons.1 hscopes
    exact List.forall_mem_cons.2 ⟨hinnermost.put hvalue, houter⟩

theorem Scopes.Proper.assign? {after : Scopes} (hscopes : scopes.Proper)
    (hvalue : value.isProper = true) (hassign : scopes.assign? name value = some after) :
    after.Proper := by
  induction scopes generalizing after with
  | nil => cases hassign
  | cons innermost outer ih =>
    obtain ⟨hinnermost, houter⟩ := List.forall_mem_cons.1 hscopes
    rw [Scopes.assign?] at hassign
    split at hassign
    · cases hassign
      exact List.forall_mem_cons.2 ⟨hinnermost.put hvalue, houter⟩
    · obtain ⟨outer', houter', rfl⟩ := Option.map_eq_some_iff.1 hassign
      exact List.forall_mem_cons.2 ⟨hinnermost, ih houter houter'⟩

theorem Scopes.Proper.tail (hscopes : scopes.Proper) : Scopes.Proper scopes.tail :=
  fun bindings hmem => hscopes bindings (List.mem_of_mem_tail hmem)

theorem Scopes.Proper.enter (hscopes : scopes.Proper) : Scopes.Proper ([] :: scopes) :=
  List.forall_mem_cons.2 ⟨nofun, hscopes⟩

end Proper

/-! ## Operators -/

/-- An error of the language itself, as opposed to one about an operator that is none. -/
def RuntimeError.IsOrdinary : RuntimeError → Prop
  | typeMismatch _ .unknownUnary | typeMismatch _ .unknownBinary => False
  | _ => True

/-- Whether a run of a tree from a source text may stop in this way. -/
def Halt.IsOrdinary : Halt → Prop
  | error cause => cause.IsOrdinary
  | fault _ => False
  | tooDeep | outOfTurns => True

/-- An operator gives a value of the four kinds or an error of the language. -/
def Answers : Except RuntimeError Value → Prop
  | .ok value => value.isProper = true
  | .error error => error.IsOrdinary

theorem answers_applyUnary {operator : Token} (hkind : operator.kind ∈ Node.unaryOperators)
    (operand : Value) : Answers (applyUnary operator operand) := by
  simp only [Node.unaryOperators, List.mem_cons, List.not_mem_nil, or_false] at hkind
  rcases hkind with hkind | hkind <;> simp only [applyUnary, hkind]
  · rfl
  · split
    · rfl
    · trivial

theorem answers_applyPlus (operator : Token) (left right : Value) :
    Answers (applyPlus operator left right) := by
  unfold applyPlus
  split
  · rfl
  · rfl
  · trivial

theorem answers_applyArithmetic {operator : Token}
    (hkind : operator.kind ∈ Node.binaryOperators) (hplus : operator.kind ≠ .plus)
    (hequal : operator.kind ≠ .equalEqual) (hunequal : operator.kind ≠ .bangEqual) (x y : Float) :
    Answers (applyArithmetic operator x y) := by
  simp only [Node.binaryOperators, List.mem_cons, List.not_mem_nil, or_false, hplus, hequal,
    hunequal, false_or] at hkind
  rcases hkind with hkind | hkind | hkind | hkind | hkind | hkind | hkind <;>
    simp only [applyArithmetic, hkind]
  case inr.inr.inr.inr.inr.inr =>
    split
    · trivial
    · rfl
  all_goals rfl

theorem answers_applyBinary {operator : Token} (hkind : operator.kind ∈ Node.binaryOperators)
    (left right : Value) : Answers (applyBinary operator left right) := by
  unfold applyBinary
  split
  · exact answers_applyPlus operator left right
  · rfl
  · rfl
  · next hplus hequal hunequal =>
    split
    · exact answers_applyArithmetic hkind hplus hequal hunequal _ _
    · trivial

/-! ## Runs -/

/-- An action begins with scopes that hold values of the four kinds and leaves such scopes behind on
every way out; it returns what it should or stops as it may. -/
def Safe {α : Type} (action : Action α) (result : α → Prop) : Prop :=
  ScopeTriple Scopes.Proper action (fun a scopes => result a ∧ scopes.Proper)
    fun halt scopes => halt.IsOrdinary ∧ scopes.Proper

section Safe

variable {α β : Type} {result : α → Prop} {result' : β → Prop} {setting : Setting}

theorem Safe.bind {action : Action α} {next : α → Action β} (haction : Safe action result)
    (hnext : ∀ a, result a → Safe (next a) result') : Safe (action >>= next) result' :=
  Triple.bind haction fun a => Triple.of_imp (hnext a)

theorem safe_pure {a : α} (ha : result a) : Safe (pure a) result :=
  scopeTriple_pure fun _ hscopes => ⟨ha, hscopes⟩

theorem safe_throw {halt : Halt} (hhalt : halt.IsOrdinary) : Safe (throw halt : Action α) result :=
  scopeTriple_throw fun _ hscopes => ⟨hhalt, hscopes⟩

theorem safe_trace {level : Nat} {message : Unit → String} :
    Safe (trace setting level message) fun _ => True :=
  scopeTriple_trace.mono (fun _ => id) fun _ _ hscopes => ⟨trivial, hscopes⟩

theorem Safe.traced {node : Node} {evaluation : Action Value} {result : Value → Prop}
    (hevaluation : Safe evaluation result) : Safe (traced setting node evaluation) result :=
  ScopeTriple.traced hevaluation

theorem safe_ofExcept {answer : Except RuntimeError Value} (hanswer : Answers answer) :
    Safe (ofExcept answer) fun value => value.isProper = true := by
  cases answer with
  | ok value => exact safe_pure hanswer
  | error error => exact safe_throw hanswer

theorem Token.Spelled.name {t : Token} (ht : t.Spelled) :
    ∃ name, Name.ofJson? t.lexeme = some name := by
  obtain ⟨s, hlexeme⟩ := ht.lexeme
  exact ⟨.text s, by rw [hlexeme]; rfl⟩

theorem safe_lookUp {t : Token} (ht : t.Spelled) :
    Safe (lookUp (.token t)) fun value => value.isProper = true := by
  obtain ⟨name, hname⟩ := ht.name
  intro machine hproper
  rw [lookUp_of_name hname]
  cases hget : machine.scopes.get? name with
  | some value => exact ⟨hproper.get? hget, hproper⟩
  | none => exact ⟨trivial, hproper⟩

theorem safe_assign {t : Token} (ht : t.Spelled) {value : Value} (hvalue : value.isProper = true) :
    Safe (assign setting (.token t) value) fun _ => True := by
  obtain ⟨name, hname⟩ := ht.name
  intro machine hproper
  rw [assign_of_name setting hname]
  cases hassign : machine.scopes.assign? name value with
  | some scopes => exact safe_trace ⟨scopes, machine.log⟩ (hproper.assign? hvalue hassign)
  | none => exact ⟨trivial, hproper⟩

theorem safe_declare {t : Token} (ht : t.Spelled) {value : Value} (hvalue : value.isProper = true) :
    Safe (declare setting (.token t) value) fun _ => True := by
  obtain ⟨name, hname⟩ := ht.name
  intro machine hproper
  rw [declare_of_name setting hname]
  exact safe_trace ⟨machine.scopes.define name value, machine.log⟩ (hproper.define hvalue)

theorem safe_inScope {action : Action α} (haction : Safe action result) :
    Safe (inScope action) result := by
  refine ScopeTriple.inScope fun machine hmachine => ?_
  obtain ⟨outer, hscopes, houter⟩ := hmachine
  have hproper : machine.scopes.Proper := hscopes ▸ houter.enter
  cases hrun : action machine with
  | ok a after =>
    obtain ⟨ha, hafter⟩ := haction.ok hproper hrun
    exact ⟨ha, hafter.tail⟩
  | error halt after =>
    obtain ⟨hhalt, hafter⟩ := haction.error hproper hrun
    exact ⟨hhalt, hafter.tail⟩

theorem safe_forM {run : Node → Action Unit} {statements : List Node}
    (hrun : ∀ node ∈ statements, Safe (run node) fun _ => True) :
    Safe (statements.forM run) fun _ => True := by
  induction statements with
  | nil => exact safe_pure trivial
  | cons node rest ih =>
    obtain ⟨hnode, hrest⟩ := List.forall_mem_cons.1 hrun
    rw [List.forM_eq_forM, List.forM_cons]
    exact hnode.bind fun _ _ => ih hrest

theorem safe_repeatWhile {condition : Action Bool} {body : Action Unit}
    (hcondition : Safe condition fun _ => True) (hbody : Safe body fun _ => True) (turns : Nat) :
    Safe (repeatWhile condition body turns) fun _ => True := by
  induction turns with
  | zero => exact safe_throw trivial
  | succ turns ih =>
    refine hcondition.bind fun holds _ => ?_
    cases holds with
    | true => exact hbody.bind fun _ _ => ih
    | false => exact safe_pure trivial

theorem evaluate_safe (setting : Setting) (limit : Nat) {node : Node}
    (hnode : node.IsExpr Token.Spelled (Value.isProper · = true)) :
    Safe (evaluate setting limit node) fun value => value.isProper = true := by
  induction limit generalizing node with
  | zero => exact safe_throw trivial
  | succ limit ih =>
    cases hnode with
    | literal hvalue =>
      rw [evaluate_literal]
      exact (safe_pure hvalue).traced
    | grouping hinner =>
      rw [evaluate_grouping]
      exact (ih hinner).traced
    | varRef _ ht =>
      rw [evaluate_varRef]
      exact (safe_lookUp ht).traced
    | assign _ ht hvalue =>
      rw [evaluate_assign]
      refine ((ih hvalue).bind fun value hproper => ?_).traced
      exact (safe_assign ht hproper).bind fun _ _ => safe_pure hproper
    | unary hkind _ hright =>
      rw [evaluate_unary]
      refine ((ih hright).bind fun operand _ => ?_).traced
      exact safe_ofExcept (answers_applyUnary hkind operand)
    | binary hkind _ hleft hright =>
      rw [evaluate_binary]
      refine ((ih hleft).bind fun left _ => (ih hright).bind fun right _ => ?_).traced
      exact safe_ofExcept (answers_applyBinary hkind left right)

theorem execute_safe (setting : Setting) (limit : Nat) {clause : Clause} {node : Node}
    (hnode : node.FromSource clause) : Safe (execute setting limit node) fun _ => True := by
  induction limit generalizing clause node with
  | zero => exact safe_throw trivial
  | succ limit ih =>
    induction hnode with
    | exprStmt hvalue =>
      rw [execute_exprStmt]
      exact (evaluate_safe setting limit hvalue).bind fun _ _ => safe_pure trivial
    | printStmt hvalue =>
      rw [execute_printStmt]
      exact (evaluate_safe setting limit hvalue).bind fun value _ machine hproper => ⟨trivial, hproper⟩
    | block hstatements =>
      rw [execute_block]
      refine safe_inScope fun machine hproper => ?_
      rw [blockBody, get_bind]
      refine (safe_trace.bind fun _ _ => ?_) machine hproper
      exact (safe_forM fun node hmem => ih (hstatements node hmem)).bind fun _ _ => safe_trace
    | ifThen hcondition hthen =>
      rw [execute_ifThen]
      refine (evaluate_safe setting limit hcondition).bind fun value _ => safe_trace.bind fun _ _ => ?_
      split
      · exact ih hthen
      · exact safe_pure trivial
    | ifElse hcondition hthen helse =>
      rw [execute_ifElse setting limit _ _ helse.ne_absent]
      refine (evaluate_safe setting limit hcondition).bind fun value _ => safe_trace.bind fun _ _ => ?_
      split
      · exact ih hthen
      · exact ih helse
    | whileStmt hcondition hbody =>
      rw [execute_whileStmt]
      refine safe_repeatWhile ?_ (ih hbody) setting.turns
      refine (evaluate_safe setting limit hcondition).bind fun value _ => ?_
      exact safe_trace.bind fun _ _ => safe_pure trivial
    | declare _ ht =>
      rw [execute_varDecl, evaluateInitializer_absent, pure_bind]
      exact safe_declare ht rfl
    | declareAs _ ht hvalue =>
      rw [execute_varDecl, evaluateInitializer_of_ne_absent setting limit hvalue.ne_absent]
      exact (evaluate_safe setting limit hvalue).bind fun value hproper => safe_declare ht hproper
    | statement _ ih => exact ih

end Safe

/-! ## Programs -/

theorem interpret_safe (setting : Setting) (limit : Nat) {statements : List Node}
    (hstatements : ∀ node ∈ statements, node.FromSource .declaration) {machine : Machine}
    (hproper : machine.scopes.Proper) :
    (∀ fault, (interpret setting limit statements machine).1 ≠ .faulted fault) ∧
      (interpret setting limit statements machine).2.scopes.Proper := by
  induction statements generalizing machine with
  | nil =>
    refine ⟨fun fault heq => ?_, hproper⟩
    cases heq
  | cons node rest ih =>
    obtain ⟨hnode, hrest⟩ := List.forall_mem_cons.1 hstatements
    rw [interpret, topStatement]
    have hstarted : (machine.trace setting 1 fun _ => "execute " ++ node.typeName).scopes.Proper := by
      rwa [Machine.trace_scopes]
    have hend := execute_safe setting limit hnode _ hstarted
    cases hrun : execute setting limit node _ with
    | ok _ after =>
      rw [hrun] at hend
      exact ih hrest hend.2
    | error halt after =>
      rw [hrun] at hend
      cases halt with
      | error error => exact ih hrest (by rw [Machine.fail_scopes]; exact hend.2)
      | tooDeep => exact ih hrest (by rw [Machine.fail_scopes]; exact hend.2)
      | fault fault => exact absurd hend.1 id
      | outOfTurns =>
        refine ⟨fun fault heq => ?_, hend.2⟩
        cases heq

theorem runWithin_safe (source : String) {session : Session} {inner : Scopes}
    (hglobals : session.globals.Proper) (hinner : inner.Proper) :
    (∀ fault, (session.runWithin inner (.ofSource source)).1.ending ≠ .faulted fault) ∧
      (session.runWithin inner (.ofSource source)).1.session.globals.Proper ∧
      (session.runWithin inner (.ofSource source)).2.Proper := by
  have hscopes : Scopes.Proper (inner ++ [session.globals]) := by
    intro bindings hmem
    rcases List.mem_append.1 hmem with hmem | hmem
    · exact hinner bindings hmem
    · rwa [List.mem_singleton.1 hmem]
  obtain ⟨hending, hafter⟩ := @interpret_safe session.setting nestingLimit _
    (fun _ => @fromSource_of_mem_parse source nestingLimit _) ⟨inner ++ [session.globals], []⟩
    hscopes
  refine ⟨hending, ?_, hafter⟩
  change Bindings.Proper (List.getLastD _ session.globals)
  rw [List.getLastD_eq_getLast?]
  cases hlast : List.getLast? _ with
  | none => exact hglobals
  | some bindings => exact hafter bindings (List.mem_of_getLast? hlast)

/-- Whatever the source text and however long it runs: its tree is well formed, each of its
statements can only stop as the language says, the run as a whole never meets a fault, and all scopes
hold values of the four kinds again. So a session answers every source text. -/
theorem source_runs_without_fault (source : String) (parseLimit limit : Nat) (setting : Setting)
    (machine : Machine) (hproper : machine.scopes.Proper) (session : Session) (inner : Scopes)
    (hglobals : session.globals.Proper) (hinner : inner.Proper) :
    (∀ node ∈ (parse parseLimit (scan source).tokens).statements,
      node.IsStmt Token.Spelled (Value.isProper · = true) .declaration ∧
      Ends (fun _ after => after.scopes.Proper)
        (fun halt after => halt.IsOrdinary ∧ after.scopes.Proper)
        (execute setting limit node machine)) ∧
    (∀ statements, statements <+: (parse parseLimit (scan source).tokens).statements →
      (∀ fault, (interpret setting limit statements machine).1 ≠ .faulted fault) ∧
      (interpret setting limit statements machine).2.scopes.Proper) ∧
    (∀ fault, (session.runWithin inner (.ofSource source)).1.ending ≠ .faulted fault) ∧
    (session.runWithin inner (.ofSource source)).1.session.globals.Proper ∧
    (session.runWithin inner (.ofSource source)).2.Proper := by
  refine ⟨fun node hmem => ?_, fun statements hpart => ?_,
    runWithin_safe source hglobals hinner⟩
  · have hnode := fromSource_of_mem_parse hmem
    refine ⟨hnode, ?_⟩
    have hend := execute_safe setting limit hnode machine hproper
    cases hrun : execute setting limit node machine with
    | ok _ after =>
      rw [hrun] at hend
      exact hend.2
    | error halt after =>
      rw [hrun] at hend
      exact hend
  · exact interpret_safe setting limit
      (fun node hmem => fromSource_of_mem_parse (hpart.subset hmem)) hproper

/-- A loop that goes on for ever, over values that its body cannot negate, and a brace too many. -/
def brokenLoop : String := "while (x == x) \x7b var y = x; x = -y; \x7d \x7d"

theorem brokenLoop_runs_without_fault :
    Scopes.Proper [[("x", .string "a")], [("y", .nil)]] ∧
    Bindings.Proper [("x", .boolean true)] ∧
    Scopes.Proper [[]] ∧
    (∀ fault, (interpret ⟨4, 100⟩ 50 (parse 50 (scan brokenLoop).tokens).statements
      ⟨[[("x", .string "a")], [("y", .nil)]], []⟩).1 ≠ .faulted fault) ∧
    (∀ fault, (Session.runWithin ⟨0, [("x", .boolean true)], []⟩ [[]]
      (.ofSource brokenLoop)).1.ending ≠ .faulted fault) := by
  have hscopes : Scopes.Proper [[("x", .string "a")], [("y", .nil)]] := by
    simp [Scopes.Proper, Bindings.Proper, Value.isProper]
  have hglobals : Bindings.Proper [("x", .boolean true)] := by
    simp [Bindings.Proper, Value.isProper]
  have hinner : Scopes.Proper [[]] := by
    simp [Scopes.Proper, Bindings.Proper]
  obtain ⟨-, hrun, hsession, -⟩ := source_runs_without_fault brokenLoop 50 50 ⟨4, 100⟩
    ⟨[[("x", .string "a")], [("y", .nil)]], []⟩ hscopes ⟨0, [("x", .boolean true)], []⟩ [[]]
    hglobals hinner
  exact ⟨hscopes, hglobals, hinner, (hrun _ List.prefix_rfl).1, hsession⟩

end Lox
