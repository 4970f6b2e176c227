import Lox.Proofs.Scope.Watch
import Lox.Proofs.Tree.WellFormed

/-!
# Names are resolved by the text

In a program that comes from the parser, where a name is looked up while the program runs depends
only on where it stands: the scopes always fit the site at which the program is. One statement moves
the run from its own site to the one after it, or stops it with the scopes of all its blocks still
there to be dropped; what a whole run does follows by induction.
-/

namespace Lox

open Lox.Computation Grammar

/-- What the text of a program says about a moment of its run, if it was started with `count`
scopes. -/
structure Visit.Static (program : List Node) (count : Nat) (visit : Visit) : Prop where
  /-- The node stands there in the program. -/
  occurs : Occurs program visit.site visit.node
  /-- There is one scope for each block around the node, besides those at the start. -/
  depth : visit.scopes.length = visit.site.length + count
  /-- Every name means what it should mean there. -/
  resolves : ∀ name, Resolves visit.site visit.scopes name
  /-- A block begins with an empty scope, each time that it is run. -/
  fresh : ∀ outer, visit.site = [] :: outer → visit.scopes.head? = some []

theorem Fits.static {program : List Node} {count : Nat} {site : Site} {node : Node}
    {scopes : Scopes} (hfits : Fits count site scopes) (hoccurs : Occurs program site node) :
    Visit.Static program count ⟨site, node, scopes⟩ where
  occurs := hoccurs
  depth := hfits.length
  resolves := hfits.resolves
  fresh := by
    rintro outer rfl
    obtain ⟨bindings, rest, rfl, hbinds, -⟩ := hfits
    rw [Bindings.eq_nil_of_binds hbinds]
    rfl

namespace Watching

def forget {α : Type} : EStateM.Result Halt Watch α → EStateM.Result Halt Machine α
  | .ok value watch => .ok value watch.machine
  | .error halt watch => .error halt watch.machine

section

variable {program : List Node} {count : Nat} {site : Site}

/-- The scopes fit a site, and all that was written down is as the text says. -/
def Ready (program : List Node) (count : Nat) (site : Site) (watch : Watch) : Prop :=
  Fits (count + 1) site watch.machine.scopes ∧
    ∀ visit ∈ watch.visits, visit.Static program (count + 1)

/-- The same after a stop inside some blocks: their scopes are still there, but only counted. -/
def Stopped (program : List Node) (count blocks : Nat) (watch : Watch) : Prop :=
  watch.machine.scopes.length = blocks + (count + 1) ∧
    ∀ visit ∈ watch.visits, visit.Static program (count + 1)

theorem Ready.stopped {watch : Watch} (hready : Ready program count site watch) :
    Stopped program count site.length watch :=
  ⟨hready.1.length, hready.2⟩

/-- A run led by the text that begins at a site does what an action does. It ends at another site,
or stops in the blocks that it began in. -/
def Follows (program : List Node) (count : Nat) {α : Type} (site site' : Site)
    (watching : Watching α) (action : Action α) : Prop :=
  ∀ watch, Ready program count site watch →
    forget (watching watch) = action watch.machine ∧
      Ends (fun _ => Ready program count site') (fun _ => Stopped program count site.length)
        (watching watch)

/-! ## Rules -/

section Rules

variable {α β : Type} {site' : Site} {watching : Watching α} {action : Action α}

/-- Steps follow each other, also if the first goes on to another site in the same blocks. -/
theorem Follows.via {mid : Site} {next : α → Watching β} {next' : α → Action β}
    (h : Follows program count site mid watching action) (hmid : mid.length = site.length)
    (hnext : ∀ a, Follows program count mid site' (next a) (next' a)) :
    Follows program count site site' (watching >>= next) (action >>= next') := by
  intro watch hready
  obtain ⟨hsame, hend⟩ := h watch hready
  cases hrun : watching watch with
  | ok a after =>
    rw [hrun] at hsame hend
    rw [bind_of_ok hrun, bind_of_ok hsame.symm, ← hmid]
    exact hnext a after hend
  | error halt after =>
    rw [hrun] at hsame hend
    rw [bind_of_error hrun, bind_of_error hsame.symm]
    exact ⟨rfl, hend⟩

theorem Follows.bind {next : α → Watching β} {next' : α → Action β}
    (h : Follows program count site site watching action)
    (hnext : ∀ a, Follows program count site site' (next a) (next' a)) :
    Follows program count site site' (watching >>= next) (action >>= next') :=
  h.via rfl hnext

theorem follows_pure (a : α) : Follows program count site site (pure a) (pure a) :=
  fun _ hready => ⟨rfl, hready⟩

theorem follows_throw (halt : Halt) :
    Follows program count site site' (throw halt : Watching α) (throw halt) :=
  fun _ hready => ⟨rfl, hready.stopped⟩

theorem Follows.afterVisit {node : Node} (hoccurs : Occurs program site node)
    (h : Follows program count site site' watching action) :
    Follows program count site site' (do visit site node; watching) action :=
  fun _ hready => h _ ⟨hready.1, List.forall_mem_cons.2 ⟨hready.1.static hoccurs, hready.2⟩⟩

theorem follows_perform {action' : Action α}
    (hsame : ∀ machine, Fits (count + 1) site machine.scopes → action' machine = action machine)
    (haction : ScopeTriple (Fits (count + 1) site) action (fun _ => Fits (count + 1) site')
      fun _ scopes => scopes.length = site.length + (count + 1)) :
    Follows program count site site' (perform action') action := by
  intro watch hready
  have hend := haction watch.machine hready.1
  rw [perform, hsame watch.machine hready.1]
  cases hrun : action watch.machine with
  | ok a machine =>
    rw [hrun] at hend
    exact ⟨rfl, hend, hready.2⟩
  | error halt machine =>
    rw [hrun] at hend
    exact ⟨rfl, hend, hready.2⟩

theorem scopeTriple_of_leavesScopes (haction : LeavesScopes action) :
    ScopeTriple (Fits (count + 1) site) action (fun _ => Fits (count + 1) site)
      fun _ scopes => scopes.length = site.length + (count + 1) :=
  Triple.mono (haction (Fits (count + 1) site)) (fun _ => id) (fun _ _ => id)
    fun _ _ hfits => hfits.length

theorem follows_of_leavesScopes (haction : LeavesScopes action) :
    Follows program count site site (perform action) action :=
  follows_perform (fun _ _ => rfl) (scopeTriple_of_leavesScopes haction)

theorem follows_trace (setting : Setting) (level : Nat) (message : Unit → String) :
    Follows program count site site (perform (Action.trace setting level message))
      (Action.trace setting level message) :=
  follows_of_leavesScopes (leavesScopes_trace setting level message)

theorem Follows.inScope {before : List Node}
    (h : Follows program count ([] :: site) (before :: site) watching action) :
    Follows program count site site (inScope watching) (Action.inScope action) := by
  intro watch hready
  obtain ⟨hsame, hend⟩ := h (watch.mapScopes ([] :: ·)) ⟨hready.1.enter, hready.2⟩
  change _ = action { watch.machine with scopes := [] :: watch.machine.scopes } at hsame
  rw [Watching.inScope, Action.inScope, ← hsame]
  cases hrun : watching (watch.mapScopes ([] :: ·)) with
  | ok a after =>
    rw [hrun] at hend
    exact ⟨rfl, hend.1.leave, hend.2⟩
  | error halt after =>
    rw [hrun] at hend
    refine ⟨rfl, ?_, hend.2⟩
    have hlength := hend.1
    rw [List.length_cons] at hlength
    change after.machine.scopes.tail.length = _
    rw [List.length_tail, hlength]
    omega

theorem follows_repeatWhile {condition : Watching Bool} {condition' : Action Bool}
    {body : Watching Unit} {body' : Action Unit}
    (hcondition : Follows program count site site condition condition')
    (hbody : Follows program count site site body body') (turns : Nat) :
    Follows program count site site (repeatWhile condition body turns)
      (Action.repeatWhile condition' body' turns) := by
  induction turns with
  | zero => exact follows_throw _
  | succ turns ih =>
    refine hcondition.bind fun holds => ?_
    cases holds with
    | true => exact hbody.bind fun _ => ih
    | false => exact follows_pure _

/-- The statements of a block, each of which goes on to the site after it, go on to its end. -/
theorem follows_inOrder {run : List Node → Node → Watching Unit} {run' : Node → Action Unit}
    {statements : List Node}
    (hrun : ∀ before node after, statements = before ++ node :: after →
      Follows program count (before :: site) ((before ++ [node]) :: site) (run before node)
        (run' node)) :
    Follows program count ([] :: site) (statements :: site) (inOrder run [] statements)
      (statements.forM run') := by
  suffices hfrom : ∀ before after, statements = before ++ after →
      Follows program count (before :: site) (statements :: site) (inOrder run before after)
        (after.forM run') from
    hfrom [] statements rfl
  intro before after
  induction after generalizing before with
  | nil =>
    intro hstatements
    rw [List.append_nil] at hstatements
    subst hstatements
    exact follows_pure _
  | cons node after ih =>
    intro hstatements
    rw [List.forM_eq_forM, List.forM_cons]
    refine (hrun before node after hstatements).via rfl fun _ => ih (before ++ [node]) ?_
    rw [hstatements, List.append_assoc, List.singleton_append]

end Rules

/-! ## Variables -/

theorem lookUpAt_eq {machine : Machine} (hfits : Fits (count + 1) site machine.scopes) (t : Token) :
    lookUpAt site (.token t) machine = Action.lookUp (.token t) machine := by
  rw [lookUpAt, Action.lookUp]
  cases hname : Name.ofJson? t.lexeme with
  | none =>
    rw [nameIn_of_noName hname]
    rfl
  | some name =>
    rw [nameIn_of_name hname, pure_bind, pure_bind]
    change ((get : Action Machine) >>= _) machine = ((get : Action Machine) >>= _) machine
    rewrite [get_bind, get_bind, (hfits.resolves name).get?]
    rfl

theorem assignAt_eq {machine : Machine} (hfits : Fits (count + 1) site machine.scopes)
    (setting : Setting) (t : Token) (value : Value) :
    assignAt setting site (.token t) value machine =
      Action.assign setting (.token t) value machine := by
  rw [assignAt, Action.assign]
  cases hname : Name.ofJson? t.lexeme with
  | none =>
    rw [nameIn_of_noName hname]
    rfl
  | some name =>
    rw [nameIn_of_name hname, pure_bind, pure_bind]
    change ((get : Action Machine) >>= _) machine = ((get : Action Machine) >>= _) machine
    rewrite [get_bind, get_bind, (hfits.resolves name).assign? value]
    rfl

theorem follows_lookUp (t : Token) :
    Follows program count site site (perform (lookUpAt site (.token t)))
      (Action.lookUp (.token t)) :=
  follows_perform (fun _ hfits => lookUpAt_eq hfits t)
    (scopeTriple_of_leavesScopes (leavesScopes_lookUp _))

theorem follows_assign (setting : Setting) (t : Token) (value : Value) :
    Follows program count site site (perform (assignAt setting site (.token t) value))
      (Action.assign setting (.token t) value) := by
  refine follows_perform (fun _ hfits => assignAt_eq hfits setting t value) fun machine hfits => ?_
  cases hname : Name.ofJson? t.lexeme with
  | none =>
    rw [assign_of_noName setting hname]
    exact hfits.length
  | some name =>
    rw [assign_of_name setting hname]
    cases hassign : machine.scopes.assign? name value with
    | none => exact hfits.length
    | some scopes =>
      change Fits _ _ (Machine.trace _ _ _ _).scopes
      rw [Machine.trace_scopes]
      exact hfits.assign? hassign

theorem follows_declare (setting : Setting) (t : Token) (initializer : Node) (value : Value) :
    Follows program count site (site.after (.varDecl (.token t) initializer))
      (perform (Action.declare setting (.token t) value))
      (Action.declare setting (.token t) value) := by
  refine follows_perform (fun _ _ => rfl) fun machine hfits => ?_
  cases hname : Name.ofJson? t.lexeme with
  | none =>
    rw [declare_of_noName setting hname]
    exact hfits.length
  | some name =>
    rw [declare_of_name setting hname]
    change Fits _ _ (Machine.trace _ _ _ _).scopes
    rw [Machine.trace_scopes]
    exact hfits.define hname initializer value

/-! ## Expressions and statements -/

variable {admits : Token → Prop} {holds : Value → Prop}

theorem Follows.traced {setting : Setting} {node : Node} {evaluation : Watching Value}
    {evaluation' : Action Value} (h : Follows program count site site evaluation evaluation') :
    Follows program count site site (do
      let value ← evaluation
      perform (Action.trace setting 4 fun _ =>
        "evaluate " ++ node.typeName ++ " -> " ++ value.display)
      return value) (traced setting node evaluation') :=
  h.bind fun _ => (follows_trace _ _ _).bind fun _ => follows_pure _

theorem follows_evaluate (setting : Setting) (limit : Nat) {node : Node}
    (hnode : node.IsExpr admits holds) (hoccurs : Occurs program site node) :
    Follows program count site site (evaluate setting site limit node)
      (Lox.evaluate setting limit node) := by
  induction limit generalizing node with
  | zero => exact follows_throw _
  | succ limit ih =>
    cases hnode with
    | literal => exact (follows_pure _).traced
    | grouping hinner =>
      exact Follows.traced (ih hinner (hoccurs.under rfl (by simp [Node.children])))
    | varRef => exact Follows.traced ((follows_lookUp _).afterVisit hoccurs)
    | assign _ _ hvalue =>
      refine Follows.traced ((ih hvalue (hoccurs.under rfl (by simp [Node.children]))).bind
        fun value => Follows.afterVisit hoccurs ?_)
      exact (follows_assign setting _ value).bind fun _ => follows_pure _
    | unary _ _ hright =>
      refine Follows.traced ((ih hright (hoccurs.under rfl (by simp [Node.children]))).bind
        fun operand => follows_of_leavesScopes ?_)
      exact (leavesScopes_tokenIn _ _).bind fun _ => leavesScopes_ofExcept _
    | binary _ _ hleft hright =>
      refine Follows.traced ((ih hleft (hoccurs.under rfl (by simp [Node.children]))).bind
        fun left => (ih hright (hoccurs.under rfl (by simp [Node.children]))).bind
        fun right => follows_of_leavesScopes ?_)
      exact (leavesScopes_tokenIn _ _).bind fun _ => leavesScopes_ofExcept _

theorem not_declares_of_statement {node : Node} (hnode : node.IsStmt admits holds .statement)
    (name : Name) : node.declares name = false := by
  cases hnode <;> rfl

/-- Where a run is once a node was run: a statement declares nothing in the block it stands in. -/
def siteAfter (site : Site) (node : Node) : Clause → Site
  | .statement => site
  | .declaration => site.after node

theorem Follows.afterStatement {node : Node} {watching : Watching Unit} {action : Action Unit}
    (h : Follows program count site site watching action)
    (hnode : node.IsStmt admits holds .statement) :
    Follows program count site (site.after node) watching action := by
  intro watch hready
  obtain ⟨hsame, hend⟩ := h watch hready
  refine ⟨hsame, ?_⟩
  cases hrun : watching watch with
  | ok a after =>
    rw [hrun] at hend
    exact ⟨hend.1.after_of_not_declares (not_declares_of_statement hnode), hend.2⟩
  | error halt after =>
    rw [hrun] at hend
    exact hend

theorem follows_execute (setting : Setting) (limit : Nat) {site : Site} {clause : Clause}
    {node : Node} (hnode : node.IsStmt admits holds clause) (hoccurs : Occurs program site node) :
    Follows program count site (siteAfter site node clause) (execute setting site limit node)
      (Lox.execute setting limit node) := by
  induction limit generalizing site clause node with
  | zero => exact follows_throw _
  | succ limit ih =>
    induction hnode with
    | exprStmt hvalue =>
      refine Follows.afterVisit hoccurs ?_
      exact (follows_evaluate setting limit hvalue
        (hoccurs.under rfl (by simp [Node.children]))).bind fun _ => follows_pure _
    | printStmt hvalue =>
      refine Follows.afterVisit hoccurs ?_
      refine (follows_evaluate setting limit hvalue
        (hoccurs.under rfl (by simp [Node.children]))).bind fun value => ?_
      exact follows_of_leavesScopes (leavesScopes_note _)
    | @block statements hstatements =>
      have hbody : Follows program count ([] :: site) (statements :: site)
          (inOrder (fun before => execute setting (before :: site) limit) [] statements)
          (statements.forM (Lox.execute setting limit)) := by
        refine follows_inOrder fun before node after hsplit => ?_
        have hmem : node ∈ statements := by simp [hsplit]
        exact ih (hstatements node hmem) (hsplit ▸ hoccurs).inBlock
      refine Follows.afterVisit hoccurs ?_
      refine @Follows.inScope program count site _ _ _ statements fun watch hready => ?_
      rw [get_bind, get_bind]
      exact ((follows_trace _ _ _).bind fun _ => hbody.via rfl fun _ => follows_trace _ _ _) watch
        hready
    | ifThen hcondition hthen =>
      refine Follows.afterVisit hoccurs ?_
      refine (follows_evaluate setting limit hcondition
        (hoccurs.under rfl (by simp [Node.children]))).bind fun value => ?_
      refine (follows_trace _ _ _).bind fun _ => ?_
      cases value.isTruthy with
      | true => exact ih hthen (hoccurs.under rfl (by simp [Node.children]))
      | false => exact follows_pure _
    | @ifElse _ _ elseBranch hcondition hthen helse =>
      refine Follows.afterVisit hoccurs ?_
      refine (follows_evaluate setting limit hcondition
        (hoccurs.under rfl (by simp [Node.children]))).bind fun value => ?_
      refine (follows_trace _ _ _).bind fun _ => ?_
      cases value.isTruthy with
      | true => exact ih hthen (hoccurs.under rfl (by simp [Node.children]))
      | false =>
        have hotherwise := ih helse (hoccurs.under rfl (by simp [Node.children]))
        cases elseBranch with
        | absent => exact absurd rfl helse.ne_absent
        | _ => exact hotherwise
    | whileStmt hcondition hbody =>
      refine Follows.afterVisit hoccurs ?_
      refine follows_repeatWhile ?_ (ih hbody (hoccurs.under rfl (by simp [Node.children]))) _
      refine (follows_evaluate setting limit hcondition
        (hoccurs.under rfl (by simp [Node.children]))).bind fun value => ?_
      exact (follows_trace _ _ _).bind fun _ => follows_pure _
    | declare =>
      refine Follows.afterVisit hoccurs ?_
      exact (follows_pure _).bind fun value => follows_declare setting _ _ value
    | @declareAs _ value _ _ hvalue =>
      refine Follows.afterVisit hoccurs ?_
      have hinitializer := @follows_evaluate program count site _ _ setting limit _ hvalue
        (hoccurs.under rfl (by simp [Node.children]))
      refine Follows.bind ?_ fun value => follows_declare setting _ _ value
      cases value with
      | absent => exact absurd rfl hvalue.ne_absent
      | _ => exact hinitializer
    | statement hnode ihnode => exact (ihnode hoccurs).afterStatement hnode

/-! ## Programs -/

/-- Once the error that stopped a statement of the program is reported, the next one can begin. -/
theorem Stopped.reported {watch : Watch} (h : Stopped program count 0 watch) (setting : Setting)
    (error : RuntimeError) :
    Ready program count [] { watch with machine := watch.machine.fail setting error } := by
  refine ⟨?_, h.2⟩
  rw [Machine.fail_scopes]
  exact h.1.trans (Nat.zero_add _)

theorem interpret_follows (setting : Setting) (limit : Nat) {statements : List Node}
    (hstatements : ∀ node ∈ statements, node.IsStmt admits holds .declaration)
    (hprogram : ∀ node ∈ statements, node ∈ program) {watch : Watch}
    (hready : Ready program count [] watch) :
    Lox.interpret setting limit statements watch.machine =
      ((interpret setting limit statements watch).1,
        (interpret setting limit statements watch).2.machine) ∧
    ∀ visit ∈ (interpret setting limit statements watch).2.visits,
      visit.Static program (count + 1) := by
  induction statements generalizing watch with
  | nil => exact ⟨rfl, hready.2⟩
  | cons node rest ih =>
    rw [List.forall_mem_cons] at hstatements hprogram
    have hstarted : Ready program count [] { watch with
        machine := watch.machine.trace setting 1 fun _ => "execute " ++ node.typeName } := by
      refine ⟨?_, hready.2⟩
      rw [Machine.trace_scopes]
      exact hready.1
    obtain ⟨hsame, hend⟩ :=
      follows_execute setting limit hstatements.1 (.top hprogram.1) _ hstarted
    dsimp only at hsame
    rw [interpret, Lox.interpret, topStatement, ← hsame]
    cases hrun : execute setting [] limit node _ with
    | ok value after =>
      rw [hrun] at hend
      exact ih hstatements.2 hprogram.2 hend
    | error halt after =>
      rw [hrun] at hend
      cases halt with
      | error error => exact ih hstatements.2 hprogram.2 (hend.reported setting error)
      | fault fault => exact ⟨rfl, hend.2⟩
      | tooDeep => exact ih hstatements.2 hprogram.2 (hend.reported setting _)
      | outOfTurns => exact ⟨rfl, hend.2⟩

end

end Watching

/-- Every tree of the parser has the shape that running it relies on. -/
theorem parse_isStmt (limit : Nat) (tokens : List Token) :
    ∀ node ∈ (parse limit tokens).statements,
      node.IsStmt (fun _ => True) (fun _ => True) .declaration :=
  parse_wellFormed ⟨fun _ _ _ => trivial, fun _ => trivial, trivial⟩ limit fun _ _ => trivial

/-- Take any program that comes from the parser and run it in any scopes. The run is the one in which
every variable is taken from the scope that its site tells; and whatever moment of it one looks at, a
name is found, to be read or to be assigned, in the scope of the innermost block which declares it
before the node that is about to act, and if there is none, outside of all blocks. A block begins with
an empty scope each time that it is run. -/
theorem names_resolve_statically (parseLimit : Nat) (tokens : List Token) (setting : Setting)
    (limit : Nat) (innermost : Bindings) (outer : Scopes) (log : List Event) :
    interpret setting limit (parse parseLimit tokens).statements ⟨innermost :: outer, log⟩ =
      ((Watching.interpret setting limit (parse parseLimit tokens).statements
          ⟨⟨innermost :: outer, log⟩, []⟩).1,
        (Watching.interpret setting limit (parse parseLimit tokens).statements
          ⟨⟨innermost :: outer, log⟩, []⟩).2.machine) ∧
    ∀ visit ∈ (Watching.interpret setting limit (parse parseLimit tokens).statements
        ⟨⟨innermost :: outer, log⟩, []⟩).2.visits,
      visit.Static (parse parseLimit tokens).statements (outer.length + 1) := by
  have hready : Watching.Ready (parse parseLimit tokens).statements outer.length []
      ⟨⟨innermost :: outer, log⟩, []⟩ := ⟨rfl, by simp⟩
  exact Watching.interpret_follows setting limit (parse_isStmt parseLimit tokens) (fun _ => id) hready

end Lox
