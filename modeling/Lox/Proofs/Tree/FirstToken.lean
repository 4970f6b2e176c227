import Mathlib.Algebra.GroupWithZero.Nat
import Lox.Node.Line
import Lox.Proofs.Run.Blame

/-!
# The first token of a tree

The line of a tree is that of the first of the tokens that it stores, and it is found with a stack
instead of a recursion. The search is told here turn by turn: the fields of a node are put on the
stack from the last to the first, so that what is pending, read from the top, are the rest of the
fields of every node on the way down. Each turn takes more off the stack than it puts there, so the
search ends, and it ends at the first token that is pending.

In a program that was parsed no token stands on an earlier line than one before it, so the line of a
statement is the earliest of its tokens (`line_is_earliest`).
-/

namespace Lox

/-- The line of the first of some tokens, or zero if there is none. -/
def Token.firstLine : List Token → Int
  | [] => 0
  | t :: _ => t.line

open Token (firstLine)

theorem Token.firstLine_le {tokens : List Token}
    (htokens : tokens.Pairwise fun t later => t.line ≤ later.line) {t : Token} (ht : t ∈ tokens) :
    firstLine tokens ≤ t.line := by
  cases tokens with
  | nil => cases ht
  | cons first rest =>
    rcases List.mem_cons.1 ht with rfl | ht
    · exact Int.le_refl _
    · exact (List.pairwise_cons.1 htokens).1 t ht

namespace Node

/-! ## The search -/

/-- What may be pending in a search: a node, the statements of a program or of a block, or the value
of a literal. -/
inductive Item where
  | node (node : Node)
  | list (nodes : List Node)
  | value (value : Value)

namespace Item

def fields : Node → List Item
  | program statements | block statements => [list statements]
  | literal given => [value given]
  | other => other.children.map node

/-- What is looked at in place of an item: the fields of a node, or the items of a list. The data in
a literal may be a list, which holds no nodes. -/
def parts : Item → List Item
  | node inner => fields inner
  | list nodes => nodes.map node
  | value (.list items) => items.map fun item => value (Value.ofJson item)
  | value _ => []

def tokens : Item → List Token
  | node inner => inner.storedTokens
  | list nodes => storedAll nodes
  | value _ => []

noncomputable def weight : Item → Nat
  | node inner => sizeOf inner
  | list nodes => sizeOf nodes
  | value given => sizeOf given

end Item

open Item

/-- The answer of a search, if it is over within a number of turns. While something is pending, a
turn takes the item on top, at the end of the list. It is over if this is a token; of any other item
the parts are put on the stack, the last of them first. -/
def search : Nat → List Item → Option Int
  | 0, _ => none
  | turns + 1, pending =>
    match pending.getLast? with
    | none => some 0
    | some (.node (.token t)) => some t.line
    | some item => search turns (pending.dropLast ++ item.parts.reverse)

theorem flatMap_tokens_map_node (nodes : List Node) :
    (nodes.map Item.node).flatMap tokens = storedAll nodes := by
  rw [storedAll_eq_flatMap, List.flatMap_map]
  rfl

/-- An item that is no token has the tokens of its parts. -/
theorem flatMap_tokens_parts {item : Item} (hitem : ∀ t, item ≠ .node (.token t)) :
    item.parts.flatMap tokens = item.tokens := by
  cases item with
  | list nodes => exact flatMap_tokens_map_node nodes
  | value given => cases given <;> simp [parts, tokens]
  | node inner =>
    have hinner : ∀ t, inner ≠ token t := by
      rintro t rfl
      exact hitem t rfl
    rw [tokens, ← storedAll_children hinner, ← flatMap_tokens_map_node]
    cases inner with
    | program statements | block statements =>
      exact (List.append_nil _).trans (flatMap_tokens_map_node statements).symm
    | _ => rfl

theorem sum_map_sizeOf_lt {α : Type} [SizeOf α] (items : List α) :
    (items.map sizeOf).sum < sizeOf items := by
  induction items with
  | nil => simp
  | cons item rest ih =>
    rw [List.map_cons, List.sum_cons, List.cons.sizeOf_spec]
    omega

theorem sizeOf_ofJson (item : Json) : sizeOf (Value.ofJson item) = sizeOf item := by
  cases item <;> simp [Value.ofJson]

/-- The parts of an item weigh less than the item. -/
theorem sum_weight_parts (item : Item) : (item.parts.map weight).sum < item.weight := by
  cases item with
  | list nodes =>
    rw [parts, List.map_map]
    exact sum_map_sizeOf_lt nodes
  | value given =>
    cases given with
    | list items =>
      have hsizes : (weight ∘ fun item => value (Value.ofJson item)) = sizeOf :=
        funext sizeOf_ofJson
      have hitems := sum_map_sizeOf_lt items
      rw [parts, List.map_map, hsizes, weight, Value.list.sizeOf_spec]
      omega
    | _ => simp +arith [parts, weight]
  | node inner =>
    cases inner <;> simp [parts, fields, children, weight] <;> omega

theorem search_concat_token (turns : Nat) (below : List Item) (t : Token) :
    search (turns + 1) (below ++ [.node (.token t)]) = some t.line := by
  rw [search, List.getLast?_concat]

theorem search_concat (turns : Nat) (below : List Item) {top : Item}
    (htop : ∀ t, top ≠ .node (.token t)) :
    search (turns + 1) (below ++ [top]) = search turns (below ++ top.parts.reverse) := by
  rw [search, List.getLast?_concat, List.dropLast_concat]
  cases top with
  | node inner =>
    cases inner with
    | token t => exact absurd rfl (htop t)
    | _ => rfl
  | _ => rfl

/-- A search with more turns than the weight of what is pending ends, and it ends at the first token
from the top. -/
theorem search_of_weight {turns : Nat} {pending : List Item}
    (hturns : (pending.map weight).sum < turns) :
    search turns pending = some (firstLine (pending.reverse.flatMap tokens)) := by
  induction turns generalizing pending with
  | zero => omega
  | succ turns ih =>
    rcases List.eq_nil_or_concat pending with rfl | ⟨below, top, rfl⟩
    · rfl
    · rw [List.concat_eq_append] at hturns ⊢
      rw [List.reverse_concat, List.flatMap_cons]
      by_cases htop : ∃ t, top = .node (.token t)
      · obtain ⟨t, rfl⟩ := htop
        exact search_concat_token turns below t
      · have hother : ∀ t, top ≠ .node (.token t) := fun t ht => htop ⟨t, ht⟩
        have hparts := sum_weight_parts top
        have hweight : ((below ++ top.parts.reverse).map weight).sum < turns := by
          simp only [List.map_append, List.map_reverse, List.sum_append, List.sum_reverse,
            List.map_cons, List.map_nil, List.sum_cons, List.sum_nil] at hturns hparts ⊢
          omega
        rw [search_concat turns below hother, ih hweight, List.reverse_append,
          List.reverse_reverse, List.flatMap_append, flatMap_tokens_parts hother]

/-! ## The line -/

theorem storedAll_append (nodes more : List Node) :
    storedAll (nodes ++ more) = storedAll nodes ++ storedAll more := by
  rw [storedAll_eq_flatMap, List.flatMap_append, ← storedAll_eq_flatMap, ← storedAll_eq_flatMap]

theorem lineOf_eq_firstLine (pending : List Node) :
    lineOf pending = firstLine (storedAll pending) := by
  fun_induction lineOf pending with
  | case1 => rfl
  | case2 => rfl
  | case3 node rest hnode ih =>
    rw [ih, storedAll_append, storedAll_children hnode]
    rfl

theorem line_eq_firstLine (node : Node) : node.line = firstLine node.storedTokens := by
  rw [line, lineOf_eq_firstLine, storedAll, storedAll, List.append_nil]

end Node

/-! ## Programs -/

/-- No token of a source text stands on an earlier line than one before it. -/
theorem pairwise_line_sourceTokens (source : String) :
    (sourceTokens source).Pairwise fun t later => t.line ≤ later.line := by
  rw [sourceTokens, ← Piece.located_map_snd, List.pairwise_map]
  have hplaces := Piece.pairwise_located (Piece.allStand_pieces source.toList) []
  refine hplaces.imp_of_mem ?_
  intro place later hplace hlater hless
  rw [(Piece.of_mem_located hplace).2, (Piece.of_mem_located hlater).2]
  have hcount : (source.toList.take place.1).count '\n' ≤ (source.toList.take later.1).count '\n' :=
    (List.take_sublist_take_left (Nat.le_of_lt hless)).count_le _
  omega

theorem pairwise_line_of_occurs {limit : Nat} {source : String} {site : Site} {node : Node}
    (hpart : Occurs (parse limit (scan source).tokens).statements site node) :
    node.storedTokens.Pairwise fun t later => t.line ≤ later.line :=
  (pairwise_line_sourceTokens source).sublist
    ((Node.storedTokens_sublist_of_occurs hpart).trans
      (storedAll_sublist_sourceTokens source limit))

/-- The line of a tree is that of the first token stored in it, or zero if there is none, and the
search for it with a stack ends with this line. In a statement of a program that was parsed,
wherever it stands, no stored token is on an earlier line. -/
theorem line_is_earliest :
    (∀ node : Node, node.line = firstLine node.storedTokens ∧
      ∃ enough, ∀ turns, enough ≤ turns → Node.search turns [.node node] = some node.line) ∧
    ∀ limit source site node, Occurs (parse limit (scan source).tokens).statements site node →
      ∀ t ∈ node.storedTokens, node.line ≤ t.line := by
  constructor
  · intro node
    refine ⟨Node.line_eq_firstLine node, Node.Item.weight (.node node) + 1, fun turns hturns => ?_⟩
    have hweight : ([Node.Item.node node].map Node.Item.weight).sum < turns := by
      simpa using Nat.lt_of_succ_le hturns
    rw [Node.search_of_weight hweight, Node.line_eq_firstLine, List.reverse_singleton,
      List.flatMap_singleton]
    rfl
  · intro limit source site node hpart t ht
    rw [Node.line_eq_firstLine]
    exact Token.firstLine_le (pairwise_line_of_occurs hpart) ht

/-- Two statements over five lines. The loop begins on the second line and its condition on the
third one. -/
def loopOverLines : String :=
  "var x =\n1; while\n(x) \x7b\nprint -\nx; \x7d"

theorem line_is_earliest_loopOverLines :
    ∃ loop, Occurs (parse 9 (scan loopOverLines).tokens).statements [] loop ∧
      loop.storedTokens.map Token.line = [3, 4, 5] ∧ loop.line = 3 ∧
      (∀ t ∈ loop.storedTokens, loop.line ≤ t.line) ∧
      ∃ enough, ∀ turns, enough ≤ turns → Node.search turns [.node loop] = some loop.line := by
  have hparse : 1 < (parse 9 (scan loopOverLines).tokens).statements.length := by decide +kernel
  have hlines :
      (parse 9 (scan loopOverLines).tokens).statements[1].storedTokens.map Token.line = [3, 4, 5] ∧
      (parse 9 (scan loopOverLines).tokens).statements[1].line = 3 := by
    decide +kernel +revert
  have hoccurs : Occurs (parse 9 (scan loopOverLines).tokens).statements []
      (parse 9 (scan loopOverLines).tokens).statements[1] := .top (List.getElem_mem _)
  exact ⟨_, hoccurs, hlines.1, hlines.2, line_is_earliest.2 _ _ _ _ hoccurs,
    (line_is_earliest.1 _).2⟩

end Lox
