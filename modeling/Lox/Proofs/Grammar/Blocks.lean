import Mathlib.Data.List.Perm.Basic
import Lox.Proofs.Grammar.Basic

/-!
# The blocks of a program

Where the blocks of a program begin and end is told by its tree: a tree that the grammar derives
from some tokens has as many tokens as its nodes ask for (`Node.width`), so counting from the left
gives the tokens that open and close each block (`Node.blocksFrom`). In a derivation these are all
the braces there are, and between the two braces of a block stand its statements (`Encloses`).
-/

namespace Lox

/-- A block: how many tokens come before its opening brace and before its closing one, and its
statements. -/
structure BlockSpan where
  opening : Nat
  closing : Nat
  statements : List Node

namespace Node

/-- The number of tokens that lead to an optional part: one if the part is there. -/
def lead : Node → Nat
  | absent => 0
  | _ => 1

theorem lead_of_ne_absent {node : Node} (hnode : node ≠ absent) : node.lead = 1 := by
  cases node with
  | absent => exact absurd rfl hnode
  | _ => rfl

mutual
def width : Node → Nat
  | absent => 0
  | token _ | literal _ => 1
  | program statements => widthAll statements
  | unary operator right => operator.width + right.width
  | binary left operator right => left.width + operator.width + right.width
  | grouping expression => expression.width + 2
  | varRef name => name.width
  | assign name value => name.width + value.width + 1
  | exprStmt expression => expression.width + 1
  | printStmt expression => expression.width + 2
  | varDecl name initializer => name.width + (initializer.lead + initializer.width) + 2
  | block statements => widthAll statements + 2
  | ifStmt condition thenBranch elseBranch =>
    condition.width + 3 + thenBranch.width + (elseBranch.lead + elseBranch.width)
  | whileStmt condition body => condition.width + 3 + body.width
def widthAll : List Node → Nat
  | [] => 0
  | node :: rest => node.width + widthAll rest
end

mutual
/-- The blocks of a tree whose tokens stand behind `start` others, outer blocks first. -/
def blocksFrom (start : Nat) : Node → List BlockSpan
  | block statements =>
    ⟨start, start + 1 + widthAll statements, statements⟩ :: blocksFromAll (start + 1) statements
  | ifStmt condition thenBranch elseBranch =>
    thenBranch.blocksFrom (start + (condition.width + 3)) ++
      elseBranch.blocksFrom (start + (condition.width + 3 + thenBranch.width + elseBranch.lead))
  | whileStmt condition body => body.blocksFrom (start + (condition.width + 3))
  | _ => []
def blocksFromAll (start : Nat) : List Node → List BlockSpan
  | [] => []
  | node :: rest => node.blocksFrom start ++ blocksFromAll (start + node.width) rest
end

end Node

namespace Grammar

/-! ## How many tokens a tree has -/

theorem width_leaning {operations : List Operation}
    (hwidth : ∀ operation ∈ operations, operation.2.tokens.length = operation.2.tree.width)
    (first : Node) :
    (leaning first operations).width = first.width + (operationTokens operations).length := by
  induction operations generalizing first with
  | nil => rfl
  | cons operation operations ih =>
    obtain ⟨hfirst, hrest⟩ := List.forall_mem_cons.1 hwidth
    rw [leaning, List.foldl_cons, ← leaning, ih hrest]
    simp only [Node.width, operationTokens_cons, List.length_cons, List.length_append, hfirst]
    omega

theorem Expr.length_eq {rank : Rank} {tokens : List Token} {tree : Node}
    (hexpr : Expr .language rank tokens tree) : tokens.length = tree.width := by
  induction hexpr with
  | literal | truth | falsity | nil | name => rfl
  | grouping _ _ _ ih => simp [Node.width, ih]
  | unary _ _ ih =>
    simp only [List.length_cons, Node.width, ih]
    omega
  | primary _ ih | equality _ ih => exact ih
  | chain _ _ _ _ ih ihs => rw [width_leaning ihs, List.length_append, ih]
  | assign _ hname _ _ ih ih' =>
    rw [SideConditions.language_target] at hname
    subst hname
    simp only [Node.width] at ih ⊢
    simp only [List.length_append, List.length_cons, ih, ih']
    omega

theorem Expr.ne_absent {rank : Rank} {tokens : List Token} {tree : Node}
    (hexpr : Expr .language rank tokens tree) : tree ≠ .absent := by
  rintro rfl
  obtain ⟨t, rest, rfl, -⟩ := hexpr.begins
  cases hexpr.length_eq

theorem widthAll_parts {parts : List Part}
    (hwidth : ∀ part ∈ parts, part.tokens.length = part.tree.width) :
    Node.widthAll (parts.map Part.tree) = (partTokens parts).length := by
  induction parts with
  | nil => rfl
  | cons part parts ih =>
    obtain ⟨hfirst, hrest⟩ := List.forall_mem_cons.1 hwidth
    rw [List.map_cons, Node.widthAll, ih hrest, partTokens_cons, List.length_append, hfirst]

theorem Stmt.length_eq {clause : Clause} {tokens : List Token} {tree : Node}
    (hstmt : Stmt .language clause tokens tree) : tokens.length = tree.width := by
  induction hstmt with
  | print _ _ hvalue => simp [Node.width, hvalue.length_eq]
  | block _ _ _ ih => simp [Node.width, widthAll_parts ih]
  | ifThen _ _ _ hcondition _ ih =>
    simp only [List.length_cons, List.length_append, hcondition.length_eq, ih, Node.width,
      Node.lead]
    omega
  | ifElse _ _ _ _ hcondition _ _ helse ih ih' =>
    simp only [List.length_cons, List.length_append, hcondition.length_eq, ih, ih', Node.width,
      Node.lead_of_ne_absent helse.ne_absent]
    omega
  | whileLoop _ _ _ hcondition _ ih =>
    simp only [List.length_cons, List.length_append, hcondition.length_eq, ih, Node.width]
    omega
  | expression _ hvalue => simp [Node.width, hvalue.length_eq]
  | declare => rfl
  | declareAs _ _ _ _ hvalue =>
    simp only [List.length_cons, List.length_append, List.length_nil, hvalue.length_eq, Node.width,
      Node.lead_of_ne_absent hvalue.ne_absent]
    omega
  | statement _ ih => exact ih

/-! ## Braces -/

def Braceless (tokens : List Token) : Prop :=
  ∀ t ∈ tokens, t.kind ≠ .leftBrace ∧ t.kind ≠ .rightBrace

@[simp] theorem braceless_nil : Braceless [] := nofun

@[simp] theorem braceless_cons {t : Token} {tokens : List Token} :
    Braceless (t :: tokens) ↔ (t.kind ≠ .leftBrace ∧ t.kind ≠ .rightBrace) ∧ Braceless tokens :=
  List.forall_mem_cons

@[simp] theorem braceless_append {tokens more : List Token} :
    Braceless (tokens ++ more) ↔ Braceless tokens ∧ Braceless more :=
  List.forall_mem_append

theorem Expr.braceless {conditions : SideConditions} {rank : Rank} {tokens : List Token}
    {tree : Node} (hexpr : Expr conditions rank tokens tree) : Braceless tokens := by
  intro t ht
  have hkind := hexpr.kind_ne t ht
  simp only [List.mem_cons, List.not_mem_nil, or_false, not_or] at hkind
  exact ⟨hkind.2.2.1, hkind.2.2.2⟩

/-- How many tokens come before each token of a kind, if the first of them stands behind `start`
others. -/
def positions (kind : Kind) (start : Nat) (tokens : List Token) : List Nat :=
  ((tokens.zipIdx start).filter (·.1.kind = kind)).map Prod.snd

theorem positions_append (kind : Kind) (start : Nat) (tokens more : List Token) :
    positions kind start (tokens ++ more) =
      positions kind start tokens ++ positions kind (start + tokens.length) more := by
  rw [positions, List.zipIdx_append, List.filter_append, List.map_append]
  rfl

theorem positions_cons (kind : Kind) (start : Nat) (t : Token) (tokens : List Token) :
    positions kind start (t :: tokens) =
      if t.kind = kind then start :: positions kind (start + 1) tokens
      else positions kind (start + 1) tokens := by
  rw [positions, List.zipIdx_cons, List.filter_cons]
  by_cases hkind : t.kind = kind <;> simp [hkind, positions]

theorem positions_eq_nil {kind : Kind} {tokens : List Token} (hnone : ∀ t ∈ tokens, t.kind ≠ kind)
    (start : Nat) : positions kind start tokens = [] := by
  induction tokens generalizing start with
  | nil => rfl
  | cons t tokens ih =>
    obtain ⟨hfirst, hrest⟩ := List.forall_mem_cons.1 hnone
    rw [positions_cons, if_neg hfirst, ih hrest]

/-! ## Spans of blocks -/

/-- A span of some tokens that stand behind `start` others is a block: it begins and ends with a
brace, and its statements are derived from the tokens between. -/
def IsBlock (start : Nat) (tokens : List Token) (span : BlockSpan) : Prop :=
  ∃ before opening inner closing after,
    tokens = before ++ opening :: (inner ++ closing :: after) ∧
      span.opening = start + before.length ∧ span.closing = span.opening + 1 + inner.length ∧
      opening.kind = .leftBrace ∧ closing.kind = .rightBrace ∧
      Derives .language inner span.statements

/-- Spans are the blocks of some tokens that stand behind `start` others: each of them is a block,
and no other token is a brace. -/
structure Encloses (start : Nat) (tokens : List Token) (spans : List BlockSpan) : Prop where
  blocks : ∀ span ∈ spans, IsBlock start tokens span
  openings : (positions .leftBrace start tokens).Perm (spans.map BlockSpan.opening)
  closings : (positions .rightBrace start tokens).Perm (spans.map BlockSpan.closing)

section Encloses

variable {start : Nat} {tokens more : List Token} {spans spans' : List BlockSpan}

theorem Braceless.encloses (hnone : Braceless tokens) (start : Nat) :
    Encloses start tokens [] where
  blocks := nofun
  openings := by rw [positions_eq_nil fun t ht => (hnone t ht).1]; rfl
  closings := by rw [positions_eq_nil fun t ht => (hnone t ht).2]; rfl

theorem IsBlock.append_right {span : BlockSpan} (hblock : IsBlock start tokens span)
    (more : List Token) : IsBlock start (tokens ++ more) span := by
  obtain ⟨before, opening, inner, closing, after, rfl, hspan⟩ := hblock
  exact ⟨before, opening, inner, closing, after ++ more, by simp, hspan⟩

theorem IsBlock.append_left {span : BlockSpan} (tokens : List Token)
    (hblock : IsBlock (start + tokens.length) more span) : IsBlock start (tokens ++ more) span := by
  obtain ⟨before, opening, inner, closing, after, rfl, hopening, hspan⟩ := hblock
  refine ⟨tokens ++ before, opening, inner, closing, after, by simp, ?_, hspan⟩
  rw [hopening, List.length_append, Nat.add_assoc]

theorem Encloses.append (h : Encloses start tokens spans)
    (h' : Encloses (start + tokens.length) more spans') :
    Encloses start (tokens ++ more) (spans ++ spans') where
  blocks := by
    intro span hspan
    rcases List.mem_append.1 hspan with hspan | hspan
    · exact (h.blocks span hspan).append_right more
    · exact (h'.blocks span hspan).append_left tokens
  openings := by
    rw [positions_append, List.map_append]
    exact h.openings.append h'.openings
  closings := by
    rw [positions_append, List.map_append]
    exact h.closings.append h'.closings

/-- Braces around the tokens of some statements make one more block. -/
theorem Encloses.wrap {opening closing : Token} {statements : List Node}
    (h : Encloses (start + 1) tokens spans) (hopening : opening.kind = .leftBrace)
    (hclosing : closing.kind = .rightBrace) (hinner : Derives .language tokens statements) :
    Encloses start (opening :: (tokens ++ [closing]))
      (⟨start, start + 1 + tokens.length, statements⟩ :: spans) where
  blocks := by
    intro span hspan
    rcases List.mem_cons.1 hspan with rfl | hspan
    · exact ⟨[], opening, tokens, closing, [], rfl, rfl, rfl, hopening, hclosing, hinner⟩
    · exact ((h.blocks span hspan).append_right [closing]).append_left [opening]
  openings := by
    simpa [positions_cons, positions_append, positions_eq_nil, hopening, hclosing] using h.openings
  closings := by
    have hpositions : positions .rightBrace start (opening :: (tokens ++ [closing])) =
        positions .rightBrace (start + 1) tokens ++ [start + 1 + tokens.length] := by
      simp [positions_cons, positions_append, positions_eq_nil, hopening, hclosing]
    rw [hpositions]
    exact (List.perm_append_singleton _ _).trans (h.closings.cons _)

end Encloses

/-! ## Derivations -/

/-- The tokens of several parts have the blocks of each part, one part after another. -/
theorem encloses_parts {parts : List Part}
    (hparts : ∀ part ∈ parts, Stmt .language .declaration part.tokens part.tree)
    (hblocks : ∀ part ∈ parts, ∀ start, Encloses start part.tokens (part.tree.blocksFrom start))
    (start : Nat) :
    Encloses start (partTokens parts) (Node.blocksFromAll start (parts.map Part.tree)) := by
  induction parts generalizing start with
  | nil => exact braceless_nil.encloses start
  | cons part parts ih =>
    obtain ⟨hpart, hparts⟩ := List.forall_mem_cons.1 hparts
    obtain ⟨hblock, hblocks⟩ := List.forall_mem_cons.1 hblocks
    rw [partTokens_cons, List.map_cons, Node.blocksFromAll, ← hpart.length_eq]
    exact (hblock start).append (ih hparts hblocks _)

/-- The words in front of the body of a conditional or a loop hold no brace. -/
theorem encloses_head {keyword opening closing : Token} {inner : List Token} {condition : Node}
    (hkeyword : keyword.kind = .ifWord ∨ keyword.kind = .whileWord)
    (hopening : opening.kind = .leftParen) (hclosing : closing.kind = .rightParen)
    (hcondition : Expr .language .assignment inner condition) (start : Nat) {body : List Token}
    {spans : List BlockSpan} (hbody : Encloses (start + (condition.width + 3)) body spans) :
    Encloses start (keyword :: opening :: (inner ++ closing :: body)) spans := by
  have hhead : Braceless (keyword :: opening :: (inner ++ [closing])) := by
    rcases hkeyword with hkeyword | hkeyword <;>
      simp [hkeyword, hopening, hclosing, hcondition.braceless]
  have hlength : (keyword :: opening :: (inner ++ [closing])).length = condition.width + 3 := by
    simp [hcondition.length_eq]
  have hwhole := (hhead.encloses start).append (hlength ▸ hbody)
  simpa using hwhole

/-- The blocks of a statement are where its tree says. -/
theorem Stmt.encloses {clause : Clause} {tokens : List Token} {tree : Node}
    (hstmt : Stmt .language clause tokens tree) (start : Nat) :
    Encloses start tokens (tree.blocksFrom start) := by
  induction hstmt generalizing start with
  | print hkeyword hsemicolon hvalue =>
    refine Braceless.encloses ?_ start
    simp [hkeyword, hsemicolon, hvalue.braceless]
  | @block _ _ parts hopening hclosing hparts ih =>
    have hinner := (encloses_parts hparts ih (start + 1)).wrap hopening hclosing
      ⟨parts, hparts, rfl, rfl⟩
    rwa [← widthAll_parts fun part hpart => (hparts part hpart).length_eq] at hinner
  | ifThen hkeyword hopening hclosing hcondition hthen ih =>
    have hbody := encloses_head (.inl hkeyword) hopening hclosing hcondition start (ih _)
    simpa [Node.blocksFrom] using hbody
  | @ifElse _ _ _ otherwise _ body _ condition _ _ hkeyword hopening hclosing hotherwise hcondition
      hthen _ helse ih ih' =>
    have hword : Braceless [otherwise] := by simp [hotherwise]
    have hrest := (hword.encloses (start + (condition.width + 3) + body.length)).append (ih' _)
    refine encloses_head (.inl hkeyword) hopening hclosing hcondition start ((ih _).append ?_)
    simpa [Node.lead_of_ne_absent helse.ne_absent, hthen.length_eq, Nat.add_assoc] using hrest
  | whileLoop hkeyword hopening hclosing hcondition hbody ih =>
    exact encloses_head (.inr hkeyword) hopening hclosing hcondition start (ih _)
  | expression hsemicolon hvalue =>
    refine Braceless.encloses ?_ start
    simp [hsemicolon, hvalue.braceless]
  | declare hkeyword hname hsemicolon =>
    refine Braceless.encloses ?_ start
    simp [hkeyword, hname, hsemicolon]
  | declareAs hkeyword hname hequal hsemicolon hvalue =>
    refine Braceless.encloses ?_ start
    simp [hkeyword, hname, hequal, hsemicolon, hvalue.braceless]
  | statement _ ih => exact ih start

/-- The blocks of a program are where the trees of its statements say. -/
theorem Derives.encloses {tokens : List Token} {statements : List Node}
    (hderives : Derives .language tokens statements) :
    Encloses 0 tokens (Node.blocksFromAll 0 statements) := by
  obtain ⟨parts, hparts, rfl, rfl⟩ := hderives
  exact encloses_parts hparts (fun part hpart start => (hparts part hpart).encloses start) 0

end Grammar

end Lox
