import Lox.Token.Basic
import Lox.Node.Basic

/-!
# The grammar of the language

Which token lists are programs, and of which trees. The rules are those of the reference, from the
loosest binding to the tightest:

    program     := declaration*
    declaration := "var" identifier ("=" expression)? ";" | statement
    statement   := "print" expression ";"
                 | "{" declaration* "}"
                 | "if" "(" expression ")" statement ("else" statement)?
                 | "while" "(" expression ")" statement
                 | expression ";"
    expression  := assignment
    assignment  := equality ("=" assignment)?
    equality    := comparison (("==" | "!=") comparison)*
    comparison  := term ((">" | ">=" | "<" | "<=") term)*
    term        := factor (("+" | "-") factor)*
    factor      := unary (("*" | "/") unary)*
    unary       := ("!" | "-") unary | primary
    primary     := number | string | "true" | "false" | "nil" | identifier | "(" expression ")"

The rules alone accept anything to the left of an equals sign and leave open which `if` an `else`
belongs to. Both are settled by side conditions, which are a parameter here: `documented` is the
grammar by its rules alone, `language` is the one that the parser follows. Nothing in this module
refers to the parser.
-/

namespace Lox

namespace Node

/-- Whether the last statement inside a statement, or the statement itself, is a conditional without
an `else`, so that an `else` right after the statement would belong to that conditional. -/
def endsOpen : Node → Bool
  | ifStmt _ _ absent => true
  | ifStmt _ _ elseBranch => elseBranch.endsOpen
  | whileStmt _ body => body.endsOpen
  | _ => false

theorem endsOpen_ifElse {condition thenBranch elseBranch : Node} (helse : elseBranch ≠ absent) :
    (ifStmt condition thenBranch elseBranch).endsOpen = elseBranch.endsOpen := by
  cases elseBranch with
  | absent => exact absurd rfl helse
  | _ => rfl

end Node

namespace Grammar

/-- What the rules leave to be settled besides. -/
structure SideConditions where
  /-- What is assigned when a tree stands to the left of an equals sign, if it may stand there. -/
  target : Node → Option Node
  /-- Whether a tree may stand between the condition and the `else` of a conditional. -/
  beforeElse : Node → Bool

namespace SideConditions

/-- The grammar by its rules alone. -/
def documented : SideConditions where
  target tree := some tree
  beforeElse _ := true

/-- Only a bare name is assigned to, and an `else` belongs to the nearest `if` that can take it: what
stands between an `if` and its `else` does not itself end in an `if` without one. -/
def language : SideConditions where
  target
    | .varRef name => some name
    | _ => none
  beforeElse tree := !tree.endsOpen

@[simp] theorem language_target {tree name : Node} :
    language.target tree = some name ↔ tree = .varRef name := by
  cases tree <;> simp [language]

@[simp] theorem language_beforeElse {tree : Node} :
    language.beforeElse tree = true ↔ tree.endsOpen = false := by
  simp [language]

end SideConditions

/-! ## Expressions -/

/-- The binary levels, from the loosest to the tightest. -/
inductive Level where
  | equality
  | comparison
  | term
  | factor
  deriving DecidableEq, Repr

/-- The symbols of the grammar that stand for expressions. -/
inductive Rank where
  | assignment
  | chain (level : Level)
  | unary
  | primary
  deriving DecidableEq, Repr

namespace Level

def operators : Level → List Kind
  | equality => [.equalEqual, .bangEqual]
  | comparison => [.greater, .greaterEqual, .less, .lessEqual]
  | term => [.plus, .minus]
  | factor => [.star, .slash]

def operand : Level → Rank
  | equality => .chain comparison
  | comparison => .chain term
  | term => .chain factor
  | factor => .unary

end Level

/-- Some tokens and the tree that they derive. -/
structure Part where
  tokens : List Token
  tree : Node

/-- An operand after its operator. -/
abbrev Operation := Token × Part

def operationTokens (operations : List Operation) : List Token :=
  operations.flatMap fun operation => operation.1 :: operation.2.tokens

@[simp] theorem operationTokens_nil : operationTokens [] = [] := rfl

@[simp] theorem operationTokens_cons (operation : Operation) (operations : List Operation) :
    operationTokens (operation :: operations) =
      operation.1 :: (operation.2.tokens ++ operationTokens operations) := rfl

/-- Operations applied one after the other, so that the tree leans to the left. -/
def leaning (first : Node) (operations : List Operation) : Node :=
  operations.foldl (fun left operation => .binary left (.token operation.1) operation.2.tree) first

/-- The tokens that are an expression of a rank, and its tree. -/
inductive Expr (conditions : SideConditions) : Rank → List Token → Node → Prop where
  | literal {t : Token} (hkind : t.kind = .number ∨ t.kind = .string) :
    Expr conditions .primary [t] (.literal (Value.ofJson t.literal))
  | truth {t : Token} (hkind : t.kind = .trueWord) :
    Expr conditions .primary [t] (.literal (.boolean true))
  | falsity {t : Token} (hkind : t.kind = .falseWord) :
    Expr conditions .primary [t] (.literal (.boolean false))
  | nil {t : Token} (hkind : t.kind = .nilWord) : Expr conditions .primary [t] (.literal .nil)
  | name {t : Token} (hkind : t.kind = .identifier) :
    Expr conditions .primary [t] (.varRef (.token t))
  | grouping {opening closing : Token} {tokens : List Token} {tree : Node}
    (hopening : opening.kind = .leftParen) (hclosing : closing.kind = .rightParen)
    (hinner : Expr conditions .assignment tokens tree) :
    Expr conditions .primary (opening :: (tokens ++ [closing])) (.grouping tree)
  | unary {operator : Token} {tokens : List Token} {tree : Node}
    (hoperator : operator.kind ∈ [.bang, .minus]) (hoperand : Expr conditions .unary tokens tree) :
    Expr conditions .unary (operator :: tokens) (.unary (.token operator) tree)
  | primary {tokens : List Token} {tree : Node} (hprimary : Expr conditions .primary tokens tree) :
    Expr conditions .unary tokens tree
  | chain (level : Level) {tokens : List Token} {first : Node} {operations : List Operation}
    (hfirst : Expr conditions level.operand tokens first)
    (hoperators : ∀ operation ∈ operations, operation.1.kind ∈ level.operators)
    (hoperands : ∀ operation ∈ operations,
      Expr conditions level.operand operation.2.tokens operation.2.tree) :
    Expr conditions (.chain level) (tokens ++ operationTokens operations) (leaning first operations)
  | assign {before after : List Token} {equal : Token} {target name value : Node}
    (htarget : Expr conditions (.chain .equality) before target)
    (hname : conditions.target target = some name) (hequal : equal.kind = .equal)
    (hvalue : Expr conditions .assignment after value) :
    Expr conditions .assignment (before ++ equal :: after) (.assign name value)
  | equality {tokens : List Token} {tree : Node}
    (hequality : Expr conditions (.chain .equality) tokens tree) :
    Expr conditions .assignment tokens tree

/-! ## Statements and programs -/

/-- The symbols of the grammar that stand for statements. -/
inductive Clause where
  | declaration
  | statement
  deriving DecidableEq, Repr

def partTokens (parts : List Part) : List Token :=
  parts.flatMap Part.tokens

@[simp] theorem partTokens_nil : partTokens [] = [] := rfl

@[simp] theorem partTokens_cons (part : Part) (parts : List Part) :
    partTokens (part :: parts) = part.tokens ++ partTokens parts := rfl

/-- The tokens that are a statement or a declaration, and its tree. -/
inductive Stmt (conditions : SideConditions) : Clause → List Token → Node → Prop where
  | print {keyword semicolon : Token} {tokens : List Token} {value : Node}
    (hkeyword : keyword.kind = .printWord) (hsemicolon : semicolon.kind = .semicolon)
    (hvalue : Expr conditions .assignment tokens value) :
    Stmt conditions .statement (keyword :: (tokens ++ [semicolon])) (.printStmt value)
  | block {opening closing : Token} {parts : List Part} (hopening : opening.kind = .leftBrace)
    (hclosing : closing.kind = .rightBrace)
    (hparts : ∀ part ∈ parts, Stmt conditions .declaration part.tokens part.tree) :
    Stmt conditions .statement (opening :: (partTokens parts ++ [closing]))
      (.block (parts.map Part.tree))
  | ifThen {keyword opening closing : Token} {inner body : List Token}
    {condition thenBranch : Node} (hkeyword : keyword.kind = .ifWord)
    (hopening : opening.kind = .leftParen) (hclosing : closing.kind = .rightParen)
    (hcondition : Expr conditions .assignment inner condition)
    (hthen : Stmt conditions .statement body thenBranch) :
    Stmt conditions .statement (keyword :: opening :: (inner ++ closing :: body))
      (.ifStmt condition thenBranch .absent)
  | ifElse {keyword opening closing otherwise : Token} {inner body rest : List Token}
    {condition thenBranch elseBranch : Node} (hkeyword : keyword.kind = .ifWord)
    (hopening : opening.kind = .leftParen) (hclosing : closing.kind = .rightParen)
    (hotherwise : otherwise.kind = .elseWord)
    (hcondition : Expr conditions .assignment inner condition)
    (hthen : Stmt conditions .statement body thenBranch)
    (hbefore : conditions.beforeElse thenBranch = true)
    (helse : Stmt conditions .statement rest elseBranch) :
    Stmt conditions .statement
      (keyword :: opening :: (inner ++ closing :: (body ++ otherwise :: rest)))
      (.ifStmt condition thenBranch elseBranch)
  | whileLoop {keyword opening closing : Token} {inner tokens : List Token}
    {condition body : Node} (hkeyword : keyword.kind = .whileWord)
    (hopening : opening.kind = .leftParen) (hclosing : closing.kind = .rightParen)
    (hcondition : Expr conditions .assignment inner condition)
    (hbody : Stmt conditions .statement tokens body) :
    Stmt conditions .statement (keyword :: opening :: (inner ++ closing :: tokens))
      (.whileStmt condition body)
  | expression {semicolon : Token} {tokens : List Token} {value : Node}
    (hsemicolon : semicolon.kind = .semicolon)
    (hvalue : Expr conditions .assignment tokens value) :
    Stmt conditions .statement (tokens ++ [semicolon]) (.exprStmt value)
  | declare {keyword name semicolon : Token} (hkeyword : keyword.kind = .varWord)
    (hname : name.kind = .identifier) (hsemicolon : semicolon.kind = .semicolon) :
    Stmt conditions .declaration [keyword, name, semicolon] (.varDecl (.token name) .absent)
  | declareAs {keyword name equal semicolon : Token} {tokens : List Token} {value : Node}
    (hkeyword : keyword.kind = .varWord) (hname : name.kind = .identifier)
    (hequal : equal.kind = .equal) (hsemicolon : semicolon.kind = .semicolon)
    (hvalue : Expr conditions .assignment tokens value) :
    Stmt conditions .declaration (keyword :: name :: equal :: (tokens ++ [semicolon]))
      (.varDecl (.token name) value)
  | statement {tokens : List Token} {tree : Node}
    (hstatement : Stmt conditions .statement tokens tree) :
    Stmt conditions .declaration tokens tree

/-- Whether some tokens are a program with certain statements. -/
def Derives (conditions : SideConditions) (tokens : List Token) (statements : List Node) : Prop :=
  ∃ parts : List Part, (∀ part ∈ parts, Stmt conditions .declaration part.tokens part.tree) ∧
    tokens = partTokens parts ∧ statements = parts.map Part.tree

/-! ## How derivations begin -/

section Begin

variable {conditions : SideConditions} {tokens : List Token} {tree : Node}

def expressionStarts : List Kind :=
  [.number, .string, .trueWord, .falseWord, .nilWord, .identifier, .leftParen, .bang, .minus]

def statementStarts : List Kind :=
  [.printWord, .leftBrace, .ifWord, .whileWord] ++ expressionStarts

def Clause.starts : Clause → List Kind
  | statement => statementStarts
  | declaration => .varWord :: statementStarts

theorem Expr.begins {rank : Rank} (hexpr : Expr conditions rank tokens tree) :
    ∃ t rest, tokens = t :: rest ∧ t.kind ∈ expressionStarts := by
  induction hexpr with
  | @literal t hkind =>
    refine ⟨t, [], rfl, ?_⟩
    rcases hkind with hkind | hkind <;> simp [hkind, expressionStarts]
  | @truth t hkind | @falsity t hkind | @nil t hkind | @name t hkind =>
    exact ⟨t, [], rfl, by simp [hkind, expressionStarts]⟩
  | @grouping opening closing tokens _ hopening _ _ _ =>
    exact ⟨opening, tokens ++ [closing], rfl, by simp [hopening, expressionStarts]⟩
  | @unary operator tokens _ hoperator _ _ =>
    refine ⟨operator, tokens, rfl, ?_⟩
    simp only [List.mem_cons, List.not_mem_nil, or_false] at hoperator
    rcases hoperator with hkind | hkind <;> simp [hkind, expressionStarts]
  | primary _ ih | equality _ ih => exact ih
  | @chain _ _ _ operations _ _ _ ih _ =>
    obtain ⟨t, rest, rfl, hkind⟩ := ih
    exact ⟨t, rest ++ operationTokens operations, rfl, hkind⟩
  | @assign _ after equal _ _ _ _ _ _ _ ih _ =>
    obtain ⟨t, rest, rfl, hkind⟩ := ih
    exact ⟨t, rest ++ equal :: after, rfl, hkind⟩

theorem Stmt.begins {clause : Clause} (hstmt : Stmt conditions clause tokens tree) :
    ∃ t rest, tokens = t :: rest ∧ t.kind ∈ clause.starts := by
  induction hstmt with
  | print hkeyword => exact ⟨_, _, rfl, by simp [hkeyword, Clause.starts, statementStarts]⟩
  | block hopening => exact ⟨_, _, rfl, by simp [hopening, Clause.starts, statementStarts]⟩
  | ifThen hkeyword | ifElse hkeyword =>
    exact ⟨_, _, rfl, by simp [hkeyword, Clause.starts, statementStarts]⟩
  | whileLoop hkeyword => exact ⟨_, _, rfl, by simp [hkeyword, Clause.starts, statementStarts]⟩
  | @expression semicolon _ _ _ hvalue =>
    obtain ⟨t, rest, rfl, hkind⟩ := hvalue.begins
    exact ⟨t, rest ++ [semicolon], rfl, List.mem_append_right _ hkind⟩
  | declare hkeyword | declareAs hkeyword => exact ⟨_, _, rfl, by simp [hkeyword, Clause.starts]⟩
  | statement _ ih =>
    obtain ⟨t, rest, htokens, hkind⟩ := ih
    exact ⟨t, rest, htokens, List.mem_cons_of_mem _ hkind⟩

theorem Stmt.ne_absent {clause : Clause} (hstmt : Stmt conditions clause tokens tree) :
    tree ≠ .absent := by
  induction hstmt with
  | statement _ ih => exact ih
  | _ => exact nofun

end Begin

/-! ## Which tokens derivations have -/

section Kinds

variable {conditions : SideConditions} {tokens : List Token} {tree : Node}

def expressionKinds : List Kind :=
  expressionStarts ++ [.rightParen, .equal, .equalEqual, .bangEqual, .greater, .greaterEqual, .less,
    .lessEqual, .plus, .star, .slash]

theorem operators_subset_expressionKinds (level : Level) : level.operators ⊆ expressionKinds := by
  cases level <;> decide

theorem Expr.kind_mem {rank : Rank} (hexpr : Expr conditions rank tokens tree) :
    ∀ t ∈ tokens, t.kind ∈ expressionKinds := by
  induction hexpr with
  | literal hkind => rcases hkind with hkind | hkind <;> simp [hkind] <;> decide
  | truth hkind | falsity hkind | nil hkind | name hkind => simp [hkind]; decide
  | grouping hopening hclosing _ ih =>
    have hparens : Kind.leftParen ∈ expressionKinds ∧ Kind.rightParen ∈ expressionKinds := by decide
    simpa [hopening, hclosing, hparens, or_imp, forall_and] using ih
  | @unary operator _ _ hoperator _ ih =>
    have hkind : operator.kind ∈ expressionKinds := by
      simp only [List.mem_cons, List.not_mem_nil, or_false] at hoperator
      rcases hoperator with hkind | hkind <;> rw [hkind] <;> decide
    exact List.forall_mem_cons.2 ⟨hkind, ih⟩
  | primary _ ih | equality _ ih => exact ih
  | chain level _ hoperators _ ih ihs =>
    refine List.forall_mem_append.2 ⟨ih, fun t ht => ?_⟩
    obtain ⟨operation, hmem, ht⟩ := List.mem_flatMap.1 ht
    rcases List.mem_cons.1 ht with rfl | ht
    · exact operators_subset_expressionKinds level (hoperators operation hmem)
    · exact ihs operation hmem t ht
  | @assign _ _ equal _ _ _ _ _ hequal _ ih ih' =>
    have hkind : equal.kind ∈ expressionKinds := by rw [hequal]; decide
    exact List.forall_mem_append.2 ⟨ih, List.forall_mem_cons.2 ⟨hkind, ih'⟩⟩

/-- The end of a text is no part of an expression, and neither is what ends a statement or opens or
closes a block. -/
theorem Expr.kind_ne {rank : Rank} (hexpr : Expr conditions rank tokens tree) :
    ∀ t ∈ tokens, t.kind ∉ [.eof, .semicolon, .leftBrace, .rightBrace] := by
  intro t ht
  have hdisjoint : ∀ kind ∈ expressionKinds,
      kind ∉ [Kind.eof, .semicolon, .leftBrace, .rightBrace] := by decide
  exact hdisjoint t.kind (hexpr.kind_mem t ht)

theorem Expr.ne_eof {rank : Rank} (hexpr : Expr conditions rank tokens tree) :
    ∀ t ∈ tokens, t.kind ≠ .eof :=
  fun t ht hkind => hexpr.kind_ne t ht (by simp [hkind])

theorem Stmt.ne_eof {clause : Clause} (hstmt : Stmt conditions clause tokens tree) :
    ∀ t ∈ tokens, t.kind ≠ .eof := by
  induction hstmt with
  | print hkeyword hsemicolon hvalue =>
    simpa [hkeyword, hsemicolon, or_imp, forall_and] using hvalue.ne_eof
  | @block _ _ parts hopening hclosing _ ih =>
    have hparts : ∀ t ∈ partTokens parts, t.kind ≠ .eof := by
      intro t ht
      obtain ⟨part, hmem, ht⟩ := List.mem_flatMap.1 ht
      exact ih part hmem t ht
    simpa [hopening, hclosing, or_imp, forall_and] using hparts
  | ifThen hkeyword hopening hclosing hcondition _ ih =>
    simpa [hkeyword, hopening, hclosing, or_imp, forall_and] using ⟨hcondition.ne_eof, ih⟩
  | ifElse hkeyword hopening hclosing hotherwise hcondition _ _ _ ih ih' =>
    simpa [hkeyword, hopening, hclosing, hotherwise, or_imp, forall_and] using
      ⟨hcondition.ne_eof, ih, ih'⟩
  | whileLoop hkeyword hopening hclosing hcondition _ ih =>
    simpa [hkeyword, hopening, hclosing, or_imp, forall_and] using ⟨hcondition.ne_eof, ih⟩
  | expression hsemicolon hvalue =>
    simpa [hsemicolon, or_imp, forall_and] using hvalue.ne_eof
  | declare hkeyword hname hsemicolon => simp [hkeyword, hname, hsemicolon]
  | declareAs hkeyword hname hequal hsemicolon hvalue =>
    simpa [hkeyword, hname, hequal, hsemicolon, or_imp, forall_and] using hvalue.ne_eof
  | statement _ ih => exact ih

end Kinds

end Grammar

end Lox
