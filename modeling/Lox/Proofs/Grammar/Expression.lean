import Lox.Parser.Expression
import Lox.Proofs.Computation
import Lox.Proofs.Grammar.Basic

/-!
# The parser of expressions follows the grammar

Soundness: what the parser returns is the tree that the grammar gives to the tokens it took
(`expression_sound`). Completeness: from the tokens of a derivation, with something after them
that cannot belong to the expression, it returns the tree of the derivation and leaves what comes
after (`Expr.reads`). The one way out is the limit of nesting, so a parser is said to read a tree if
it returns the tree or reports that the nesting is too deep.
-/

namespace Lox

open Lox.Computation Grammar

namespace Parser

/-! ## Reading -/

section Reads

variable {σ α β : Type}

/-- A parser returns a value and leaves a state, unless the nesting is too deep. -/
def Reads (parser : EStateM Halt σ α) (s : σ) (a : α) (s' : σ) : Prop :=
  parser s = .ok a s' ∨ ∃ left, parser s = .error .tooDeep left

theorem Reads.of_ok {parser : EStateM Halt σ α} {s s' : σ} {a : α} (h : parser s = .ok a s') :
    Reads parser s a s' :=
  .inl h

theorem Reads.of_eq {parser other : EStateM Halt σ α} {s s' : σ} {a : α}
    (heq : parser s = other s) (h : Reads other s a s') : Reads parser s a s' := by
  rwa [Reads, heq]

theorem reads_tooDeep {s s' : σ} {a : α} : Reads (throw .tooDeep : EStateM Halt σ α) s a s' :=
  .inr ⟨s, rfl⟩

theorem Reads.bind {parser : EStateM Halt σ α} {next : α → EStateM Halt σ β} {s s' s'' : σ} {a : α}
    {b : β} (hfirst : Reads parser s a s') (hnext : Reads (next a) s' b s'') :
    Reads (parser >>= next) s b s'' := by
  rcases hfirst with hok | ⟨left, hdeep⟩
  · rw [Reads, bind_of_ok hok]
    exact hnext
  · exact .inr ⟨left, bind_of_error hdeep next⟩

end Reads

/-- What comes after an expression does not begin with one of some kinds. -/
def Stops (kinds : List Kind) (rest : List Token) : Prop :=
  ∀ t ∈ rest.head?, t.kind ∉ kinds

theorem stops_nil {kinds : List Kind} : Stops kinds [] :=
  nofun

theorem stops_cons {kinds : List Kind} {t : Token} {rest : List Token} (hkind : t.kind ∉ kinds) :
    Stops kinds (t :: rest) := by
  intro head hhead
  cases hhead
  exact hkind

theorem Stops.mono {kinds fewer : List Kind} {rest : List Token} (hstops : Stops kinds rest)
    (hfewer : fewer ⊆ kinds) : Stops fewer rest :=
  fun t hhead hkind => hstops t hhead (hfewer hkind)

theorem Stops.beginsWith_eq_false {kinds : List Kind} {rest : List Token} {accepts : Kind → Bool}
    (hstops : Stops kinds rest) (haccepts : ∀ kind, accepts kind = true → kind ∈ kinds) :
    beginsWith accepts rest = false := by
  cases rest with
  | nil => rfl
  | cons t rest =>
    rw [beginsWith, Bool.eq_false_iff]
    exact fun hkind => hstops t rfl (haccepts t.kind hkind)

theorem expect_eq_ok {kind : Kind} {complaint : Complaint} {tokens rest : List Token} {t : Token} :
    expect kind complaint tokens = .ok t rest ↔ tokens = t :: rest ∧ t.kind = kind := by
  cases tokens with
  | nil => simp [expect]
  | cons head tail =>
    rw [expect]
    split
    · next hkind =>
      constructor
      · rintro ⟨⟩
        exact ⟨rfl, hkind⟩
      · rintro ⟨heq, -⟩
        cases heq
        rfl
    · next hkind =>
      refine ⟨nofun, ?_⟩
      rintro ⟨heq, hother⟩
      cases heq
      exact absurd hother hkind

/-! ## The parser of each rank -/

def levelTest : Level → Kind → Bool
  | .equality => isEqualityOperator
  | .comparison => isComparisonOperator
  | .term => isTermOperator
  | .factor => isFactorOperator

theorem levelTest_iff (level : Level) (kind : Kind) :
    levelTest level kind = true ↔ kind ∈ level.operators := by
  cases level <;> cases kind <;> decide

def rankParser (limit : Nat) : Rank → ExprParser Node
  | .assignment => assignment limit
  | .chain .equality => equality (unary limit)
  | .chain .comparison =>
    chain isComparisonOperator (chain isTermOperator (chain isFactorOperator (unary limit)))
  | .chain .term => chain isTermOperator (chain isFactorOperator (unary limit))
  | .chain .factor => chain isFactorOperator (unary limit)
  | .unary | .primary => unary limit

theorem rankParser_chain (limit : Nat) (level : Level) :
    rankParser limit (.chain level) = chain (levelTest level) (rankParser limit level.operand) := by
  cases level <;> rfl

/-- The kinds with which an expression of a rank goes on. -/
def goesOn : Rank → List Kind
  | .assignment => .equal :: [Level.equality, .comparison, .term, .factor].flatMap Level.operators
  | .chain .equality => [Level.equality, .comparison, .term, .factor].flatMap Level.operators
  | .chain .comparison => [Level.comparison, .term, .factor].flatMap Level.operators
  | .chain .term => [Level.term, .factor].flatMap Level.operators
  | .chain .factor => Level.factor.operators
  | .unary | .primary => []

theorem operators_subset_goesOn (level : Level) : level.operators ⊆ goesOn (.chain level) := by
  cases level <;> decide

theorem goesOn_operand_subset (level : Level) : goesOn level.operand ⊆ goesOn (.chain level) := by
  cases level <;> decide

theorem not_mem_goesOn_operand (level : Level) :
    ∀ kind ∈ level.operators, kind ∉ goesOn level.operand := by
  cases level <;> decide

/-! ## Soundness -/

/-- A parser takes a front part of the tokens that stands in a relation to what it returns. -/
def Sound {α : Type} (parser : ExprParser α) (relation : List Token → α → Prop) : Prop :=
  ∀ tokens a rest, parser tokens = .ok a rest →
    ∃ taken, tokens = taken ++ rest ∧ relation taken a

theorem chainFrom_sound {isOperator : Kind → Bool} {operand : ExprParser Node}
    {relation : List Token → Node → Prop} (hoperand : Sound operand relation) (count : Nat) :
    ∀ left tokens tree rest, chainFrom isOperator operand count left tokens = .ok tree rest →
      ∃ operations, tokens = operationTokens operations ++ rest ∧ tree = leaning left operations ∧
        (∀ operation ∈ operations, isOperator operation.1.kind = true) ∧
        ∀ operation ∈ operations, relation operation.2.tokens operation.2.tree := by
  induction count with
  | zero =>
    intro left tokens tree rest hok
    cases hok
    exact ⟨[], rfl, rfl, by simp, by simp⟩
  | succ count ih =>
    intro left tokens tree rest hok
    cases tokens with
    | nil =>
      cases hok
      exact ⟨[], rfl, rfl, by simp, by simp⟩
    | cons t after =>
      rw [chainFrom, get_bind] at hok
      dsimp only at hok
      split at hok
      · next hoperator =>
        rw [set_bind, bind_eq_ok] at hok
        obtain ⟨right, mid, hright, hok⟩ := hok
        obtain ⟨taken, rfl, htaken⟩ := hoperand _ _ _ hright
        obtain ⟨operations, rfl, rfl, hkinds, hrelated⟩ := ih _ _ _ _ hok
        refine ⟨(t, ⟨taken, right⟩) :: operations, ?_, rfl, ?_, ?_⟩
        · simp [operationTokens]
        · simpa [hoperator] using hkinds
        · simpa [htaken] using hrelated
      · cases hok
        exact ⟨[], rfl, rfl, by simp, by simp⟩

theorem chain_sound {limit : Nat} (level : Level)
    (hoperand : Sound (rankParser limit level.operand) (Expr .language level.operand)) :
    Sound (rankParser limit (.chain level)) (Expr .language (.chain level)) := by
  intro tokens tree rest hok
  rw [rankParser_chain, chain, bind_eq_ok] at hok
  obtain ⟨first, mid, hfirst, hok⟩ := hok
  rw [get_bind] at hok
  obtain ⟨taken, rfl, htaken⟩ := hoperand _ _ _ hfirst
  split at hok
  · obtain ⟨operations, rfl, rfl, hkinds, hrelated⟩ := chainFrom_sound hoperand _ _ _ _ _ hok
    refine ⟨taken ++ operationTokens operations, by simp, ?_⟩
    exact .chain level htaken (fun operation hmem => (levelTest_iff _ _).1 (hkinds operation hmem))
      hrelated
  · cases hok
    refine ⟨taken, rfl, ?_⟩
    simpa [operationTokens, leaning] using
      @Expr.chain .language level taken _ [] htaken (by simp) (by simp)

theorem leaf?_sound {conditions : SideConditions} {t : Token} {tree : Node}
    (hleaf : leaf? t = some tree) : Expr conditions .primary [t] tree := by
  unfold leaf? at hleaf
  split at hleaf <;> cases hleaf
  · next hkind => exact .falsity hkind
  · next hkind => exact .truth hkind
  · next hkind => exact .nil hkind
  · next hkind => exact .literal (.inl hkind)
  · next hkind => exact .literal (.inr hkind)
  · next hkind => exact .name hkind

/-- All binary levels are sound if their innermost operands are. -/
theorem equality_sound {limit : Nat} (hunary : Sound (unary limit) (Expr .language .unary)) :
    Sound (equality (unary limit)) (Expr .language (.chain .equality)) := by
  have hfactor := chain_sound .factor hunary
  have hterm := chain_sound .term hfactor
  have hcomparison := chain_sound .comparison hterm
  exact chain_sound .equality hcomparison

theorem assignTo_eq_ok {target value tree : Node} {found tokens rest : List Token} :
    assignTo target value found tokens = .ok tree rest ↔
      ∃ name, target = .varRef name ∧ tree = .assign name value ∧ tokens = rest := by
  unfold assignTo
  split
  · next name =>
    rw [pure_apply]
    constructor
    · rintro ⟨⟩
      exact ⟨name, rfl, rfl, rfl⟩
    · rintro ⟨_, heq, rfl, rfl⟩
      cases heq
      rfl
  · next hother => exact ⟨nofun, fun ⟨name, heq, _⟩ => absurd heq (hother name)⟩

/-- One more turn of nesting keeps the parser of assignments sound. -/
theorem assignment_succ_sound {limit : Nat} (hunary : Sound (unary limit) (Expr .language .unary))
    (hassignment : Sound (assignment limit) (Expr .language .assignment)) :
    Sound (assignment (limit + 1)) (Expr .language .assignment) := by
  intro tokens tree rest hok
  rw [assignment, bind_eq_ok] at hok
  obtain ⟨target, found, htarget, hok⟩ := hok
  obtain ⟨before, rfl, hbefore⟩ := equality_sound hunary _ _ _ htarget
  rw [get_bind] at hok
  split at hok
  · next hequal =>
    rw [set_bind, bind_eq_ok] at hok
    obtain ⟨value, mid, hvalue, hok⟩ := hok
    obtain ⟨name, rfl, rfl, rfl⟩ := assignTo_eq_ok.1 hok
    obtain ⟨after, hafter, hrelated⟩ := hassignment _ _ _ hvalue
    cases found with
    | nil => cases hequal
    | cons equal following =>
      rw [List.tail_cons] at hafter
      refine ⟨before ++ equal :: after, by simp [hafter], ?_⟩
      exact .assign hbefore (by simp) (of_decide_eq_true hequal) hrelated
  · cases hok
    exact ⟨before, rfl, .equality hbefore⟩

theorem unary_succ_sound {limit : Nat} (hunary : Sound (unary limit) (Expr .language .unary))
    (hassignment : Sound (assignment limit) (Expr .language .assignment)) :
    Sound (unary (limit + 1)) (Expr .language .unary) := by
  intro tokens tree rest hok
  rw [unary, get_bind] at hok
  cases tokens with
  | nil => cases hok
  | cons t following =>
    dsimp only at hok
    split at hok
    · next hoperator =>
      rw [set_bind, bind_eq_ok] at hok
      obtain ⟨right, mid, hright, hok⟩ := hok
      cases hok
      obtain ⟨taken, rfl, htaken⟩ := hunary _ _ _ hright
      refine ⟨t :: taken, rfl, .unary ?_ htaken⟩
      simpa [isUnaryOperator] using hoperator
    · split at hok
      · next hopening =>
        rw [set_bind, bind_eq_ok] at hok
        obtain ⟨inner, mid, hinner, hok⟩ := hok
        rw [bind_eq_ok] at hok
        obtain ⟨closing, after, hclosing, hok⟩ := hok
        cases hok
        obtain ⟨rfl, hkind⟩ := expect_eq_ok.1 hclosing
        obtain ⟨taken, rfl, htaken⟩ := hassignment _ _ _ hinner
        exact ⟨t :: (taken ++ [closing]), by simp, .primary (.grouping hopening hkind htaken)⟩
      · cases hleaf : leaf? t with
        | none =>
          rw [hleaf] at hok
          cases hok
        | some leaf =>
          rw [hleaf] at hok
          cases hok
          exact ⟨[t], rfl, .primary (leaf?_sound hleaf)⟩

theorem expression_sound (limit : Nat) :
    Sound (unary limit) (Expr .language .unary) ∧
      Sound (assignment limit) (Expr .language .assignment) := by
  induction limit with
  | zero =>
    refine ⟨?_, ?_⟩ <;> intro _ _ _ hok <;> cases hok
  | succ limit ih =>
    exact ⟨unary_succ_sound ih.1 ih.2, assignment_succ_sound ih.1 ih.2⟩

/-! ## Completeness -/

theorem stops_operationTokens {follow : List Kind} {operations : List Operation}
    {rest : List Token} (hoperators : ∀ operation ∈ operations, operation.1.kind ∉ follow)
    (hstops : Stops follow rest) : Stops follow (operationTokens operations ++ rest) := by
  cases operations with
  | nil => exact hstops
  | cons operation operations =>
    exact stops_cons (hoperators operation List.mem_cons_self)

/-- Given enough turns, the loop takes all operations up to something that is no operator. -/
theorem reads_chainFrom {isOperator : Kind → Bool} {operand : ExprParser Node}
    {follow : List Kind} {rest : List Token} (hend : beginsWith isOperator rest = false)
    (hstops : Stops follow rest) (hfollow : ∀ kind, isOperator kind = true → kind ∉ follow)
    (operations : List Operation)
    (hoperators : ∀ operation ∈ operations, isOperator operation.1.kind = true)
    (hoperands : ∀ operation ∈ operations, ∀ after, Stops follow after →
      Reads operand (operation.2.tokens ++ after) operation.2.tree after) :
    ∀ count left, operations.length ≤ count →
      Reads (chainFrom isOperator operand count left) (operationTokens operations ++ rest)
        (leaning left operations) rest := by
  induction operations with
  | nil =>
    intro count left _
    rw [operationTokens_nil, List.nil_append]
    cases count with
    | zero => exact .of_ok rfl
    | succ count =>
      rw [chainFrom]
      refine .bind (.of_ok rfl) ?_
      cases rest with
      | nil => exact .of_ok rfl
      | cons t rest =>
        rw [beginsWith] at hend
        dsimp only
        rw [if_neg (Bool.eq_false_iff.1 hend)]
        exact .of_ok rfl
  | cons operation operations ih =>
    intro count left hcount
    rw [List.forall_mem_cons] at hoperators hoperands
    rw [operationTokens_cons, List.cons_append, List.append_assoc]
    cases count with
    | zero => cases hcount
    | succ count =>
      rw [chainFrom]
      refine .bind (.of_ok rfl) ?_
      dsimp only
      rw [if_pos hoperators.1]
      refine .bind (.of_ok rfl) ?_
      have hafter : Stops follow (operationTokens operations ++ rest) :=
        stops_operationTokens (fun op hop => hfollow _ (hoperators.2 op hop)) hstops
      refine .bind (hoperands.1 _ hafter) ?_
      exact ih hoperators.2 hoperands.2 count _ (Nat.le_of_succ_le_succ hcount)

theorem length_le_operationTokens (operations : List Operation) (rest : List Token) :
    operations.length ≤ (operationTokens operations ++ rest).length := by
  induction operations with
  | nil => exact Nat.zero_le _
  | cons operation operations ih =>
    rw [operationTokens_cons, List.cons_append, List.append_assoc, List.length_cons,
      List.length_cons, List.length_append]
    omega

theorem reads_chain {limit : Nat} (level : Level) {tokens rest : List Token} {first : Node}
    {operations : List Operation}
    (hfirst : ∀ after, Stops (goesOn level.operand) after →
      Reads (rankParser limit level.operand) (tokens ++ after) first after)
    (hoperators : ∀ operation ∈ operations, operation.1.kind ∈ level.operators)
    (hoperands : ∀ operation ∈ operations, ∀ after, Stops (goesOn level.operand) after →
      Reads (rankParser limit level.operand) (operation.2.tokens ++ after) operation.2.tree after)
    (hstops : Stops (goesOn (.chain level)) rest) :
    Reads (rankParser limit (.chain level)) (tokens ++ operationTokens operations ++ rest)
      (leaning first operations) rest := by
  have hend : beginsWith (levelTest level) rest = false :=
    hstops.beginsWith_eq_false fun kind htest =>
      operators_subset_goesOn level ((levelTest_iff level kind).1 htest)
  have hrest := hstops.mono (goesOn_operand_subset level)
  have hfollow : ∀ kind, levelTest level kind = true → kind ∉ goesOn level.operand :=
    fun kind htest => not_mem_goesOn_operand level kind ((levelTest_iff level kind).1 htest)
  have htests : ∀ operation ∈ operations, levelTest level operation.1.kind = true :=
    fun operation hmem => (levelTest_iff _ _).2 (hoperators operation hmem)
  rw [rankParser_chain, chain, List.append_assoc]
  refine .bind (hfirst _ (stops_operationTokens (fun op hop => hfollow _ (htests op hop)) hrest)) ?_
  refine .bind (.of_ok rfl) ?_
  split
  · exact reads_chainFrom hend hrest hfollow operations htests hoperands _ _
      (length_le_operationTokens operations rest)
  · next hnone =>
    cases operations with
    | nil => exact .of_ok rfl
    | cons operation operations =>
      exact absurd (htests operation List.mem_cons_self) hnone

theorem leaf?_kind {t : Token} {leaf : Node} (hleaf : leaf? t = some leaf) :
    isUnaryOperator t.kind = false ∧ t.kind ≠ .leftParen := by
  unfold leaf? at hleaf
  split at hleaf
  case h_7 => cases hleaf
  all_goals next hkind => rw [hkind]; exact ⟨rfl, nofun⟩

theorem reads_leaf {t : Token} {leaf : Node} (hleaf : leaf? t = some leaf) (limit : Nat)
    (rest : List Token) : Reads (unary limit) (t :: rest) leaf rest := by
  cases limit with
  | zero => exact reads_tooDeep
  | succ limit =>
    obtain ⟨hoperator, hparen⟩ := leaf?_kind hleaf
    rw [unary]
    refine .bind (.of_ok rfl) ?_
    dsimp only
    rw [if_neg (Bool.eq_false_iff.1 hoperator), if_neg hparen, hleaf]
    exact .of_ok rfl

theorem reads_grouping {opening closing : Token} {tokens : List Token} {tree : Node}
    (hopening : opening.kind = .leftParen) (hclosing : closing.kind = .rightParen)
    (hinner : ∀ limit rest, Stops (goesOn .assignment) rest →
      Reads (assignment limit) (tokens ++ rest) tree rest) (limit : Nat) (rest : List Token) :
    Reads (unary limit) (opening :: (tokens ++ closing :: rest)) (.grouping tree) rest := by
  cases limit with
  | zero => exact reads_tooDeep
  | succ limit =>
    have hstops : Stops (goesOn .assignment) (closing :: rest) :=
      stops_cons (by rw [hclosing]; decide)
    rw [unary]
    refine .bind (.of_ok rfl) ?_
    dsimp only
    rw [if_neg (by rw [hopening]; decide), if_pos hopening]
    refine .bind (.of_ok rfl) ?_
    refine .bind (hinner limit _ hstops) ?_
    refine .bind (.of_ok (expect_eq_ok.2 ⟨rfl, hclosing⟩)) ?_
    exact .of_ok rfl

theorem reads_unary {operator : Token} {tokens rest : List Token} {tree : Node}
    (hoperator : operator.kind ∈ [.bang, .minus])
    (hoperand : ∀ limit, Reads (unary limit) (tokens ++ rest) tree rest) (limit : Nat) :
    Reads (unary limit) (operator :: (tokens ++ rest)) (.unary (.token operator) tree) rest := by
  cases limit with
  | zero => exact reads_tooDeep
  | succ limit =>
    have htest : isUnaryOperator operator.kind = true := by
      simpa [isUnaryOperator] using hoperator
    rw [unary]
    refine .bind (.of_ok rfl) ?_
    dsimp only
    rw [if_pos htest]
    refine .bind (.of_ok rfl) ?_
    refine .bind (hoperand limit) ?_
    exact .of_ok rfl

/-- An assignment is read as a whole: the target stops at the equals sign. -/
theorem reads_assign {before after rest : List Token} {equal : Token} {name value : Node}
    (hequal : equal.kind = .equal)
    (htarget : ∀ limit rest, Stops (goesOn (.chain .equality)) rest →
      Reads (equality (unary limit)) (before ++ rest) (.varRef name) rest)
    (hvalue : ∀ limit, Reads (assignment limit) (after ++ rest) value rest) (limit : Nat) :
    Reads (assignment limit) (before ++ equal :: (after ++ rest)) (.assign name value) rest := by
  cases limit with
  | zero => exact reads_tooDeep
  | succ limit =>
    rw [assignment]
    refine .bind (htarget limit _ (stops_cons (by rw [hequal]; decide))) ?_
    refine .bind (.of_ok rfl) ?_
    rw [if_pos (by simp [beginsWith, hequal])]
    refine .bind (.of_ok rfl) ?_
    refine .bind (hvalue limit) ?_
    exact .of_ok rfl

theorem reads_equality {tokens rest : List Token} {tree : Node}
    (hstops : Stops (goesOn .assignment) rest)
    (hequality : ∀ limit, Reads (equality (unary limit)) (tokens ++ rest) tree rest)
    (limit : Nat) : Reads (assignment limit) (tokens ++ rest) tree rest := by
  cases limit with
  | zero => exact reads_tooDeep
  | succ limit =>
    have hequal : beginsWith (· = .equal) rest = false :=
      hstops.beginsWith_eq_false fun kind htest => by
        rw [of_decide_eq_true htest]
        exact List.mem_cons_self
    rw [assignment]
    refine .bind (hequality limit) ?_
    refine .bind (.of_ok rfl) ?_
    rw [if_neg (Bool.eq_false_iff.1 hequal)]
    exact .of_ok rfl

end Parser

open Lox.Parser

/-- What the grammar derives, the parser reads, up to something that cannot go on with it. -/
theorem Grammar.Expr.reads {rank : Rank} {tokens : List Token} {tree : Node}
    (hexpr : Expr .language rank tokens tree) :
    ∀ limit rest, Stops (goesOn rank) rest →
      Reads (rankParser limit rank) (tokens ++ rest) tree rest := by
  induction hexpr with
  | literal hkind =>
    intro limit rest _
    refine reads_leaf ?_ limit rest
    rcases hkind with hkind | hkind <;> simp [leaf?, hkind]
  | truth hkind | falsity hkind | nil hkind | name hkind =>
    intro limit rest _
    exact reads_leaf (by simp [leaf?, hkind]) limit rest
  | grouping hopening hclosing _ ih =>
    intro limit rest _
    rw [List.cons_append, List.append_assoc]
    exact reads_grouping hopening hclosing ih limit rest
  | unary hoperator _ ih =>
    intro limit rest hstops
    exact reads_unary hoperator (fun limit => ih limit rest hstops) limit
  | primary _ ih => exact ih
  | chain level _ hoperators _ ihfirst ihoperands =>
    intro limit rest hstops
    exact reads_chain level (ihfirst limit) hoperators
      (fun operation hmem => ihoperands operation hmem limit) hstops
  | assign _ hname hequal _ ihtarget ihvalue =>
    intro limit rest hstops
    rw [SideConditions.language_target] at hname
    subst hname
    rw [List.append_assoc, List.cons_append]
    exact reads_assign hequal ihtarget (fun limit => ihvalue limit rest hstops) limit
  | equality _ ih =>
    intro limit rest hstops
    exact reads_equality hstops
      (fun limit => ih limit rest (hstops.mono (List.subset_cons_self _ _))) limit

end Lox
