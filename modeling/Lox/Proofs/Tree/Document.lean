import Lox.Proofs.Json.RoundTrip
import Lox.Proofs.Run.Safety
import Lox.Proofs.Tree.Canonical

/-!
# Documents of trees

The document of a tree that comes from a source text describes that tree and no other, since the tree
is canonical. The text of the document is read back too, unless it nests too far for the reader.
-/

namespace Lox

open Grammar

theorem Token.Spelled.canonical {t : Token} (ht : t.Spelled) : t.Canonical :=
  fun hkind => .inr (ht.number hkind)

namespace Node

/-! ## Trees from source text -/

section

variable {admits : Token → Prop} {holds : Value → Prop} {node : Node}

theorem IsExpr.madeOf (hnode : node.IsExpr admits holds) : node.MadeOf admits holds := by
  induction hnode with
  | literal hvalue => exact .literal hvalue
  | grouping _ ih => exact .inner rfl (by simpa [children] using ih)
  | varRef _ ht => exact .inner rfl (by simpa [children] using MadeOf.token ht)
  | assign _ ht _ ih | unary _ ht _ ih =>
    exact .inner rfl (by simpa [children] using ⟨MadeOf.token ht, ih⟩)
  | binary _ ht _ _ ihleft ihright =>
    exact .inner rfl (by simpa [children] using ⟨ihleft, MadeOf.token ht, ihright⟩)

theorem IsStmt.madeOf {clause : Clause} (hnode : node.IsStmt admits holds clause) :
    node.MadeOf admits holds := by
  have habsent : absent.MadeOf admits holds := .inner rfl (List.forall_mem_nil _)
  induction hnode with
  | exprStmt hvalue | printStmt hvalue =>
    exact .inner rfl (by simpa [children] using hvalue.madeOf)
  | block _ ih => exact .inner rfl ih
  | ifThen hcondition _ ih =>
    exact .inner rfl (by simpa [children] using ⟨hcondition.madeOf, ih, habsent⟩)
  | ifElse hcondition _ _ ihthen ihelse =>
    exact .inner rfl (by simpa [children] using ⟨hcondition.madeOf, ihthen, ihelse⟩)
  | whileStmt hcondition _ ih =>
    exact .inner rfl (by simpa [children] using ⟨hcondition.madeOf, ih⟩)
  | declare _ ht => exact .inner rfl (by simpa [children] using ⟨MadeOf.token ht, habsent⟩)
  | declareAs _ ht hvalue =>
    exact .inner rfl (by simpa [children] using ⟨MadeOf.token ht, hvalue.madeOf⟩)
  | statement _ ih => exact ih

end

/-- The tree of a source text is read back from its document. -/
theorem readsBack_program (source : String) (limit : Nat) :
    ReadsBack (program (parse limit (scan source).tokens).statements) := by
  refine Canonical.readsBack (.inner rfl fun node hmem => ?_)
  exact (fromSource_of_mem_parse hmem).madeOf.mono (fun _ => Token.Spelled.canonical)
    fun _ => Value.isCanonical_of_isProper

end Node

/-! ## The text of a document

The reader takes the text of such a document for itself, unless it nests too far: the keys of a node
differ, no number of a source text has a sign, and lines are counted with few digits. -/

/-- A token as the scanner makes it, on a line that is counted with few digits. -/
structure Token.Plain (t : Token) : Prop where
  spelled : t.Spelled
  literal : t.literal.Plain
  line : (Nat.toDigits 10 t.line.natAbs).length ≤ Numeral.digitLimit

namespace Piece

theorem plain_literalOf (kind : Kind) (text : List Char) : (literalOf kind text).Plain := by
  unfold literalOf
  split
  · exact .float (Decimal.unsigned_toFloat _)
  · exact .str
  · exact .null

theorem length_le_of_mem_placed {before : List Char} {list : List Piece}
    {entry : List Char × Piece} (hentry : entry ∈ placed before list) :
    entry.1.length ≤ (before ++ list.flatMap text).length := by
  induction list generalizing before with
  | nil => cases hentry
  | cons piece rest ih =>
    rw [placed, List.mem_cons] at hentry
    rcases hentry with rfl | hentry
    · simp
    · have hle := ih hentry
      simpa using hle

/-- The line of a token is one more than the newlines before it, which lie in the source. -/
theorem line_of_mem_gather {cs : List Char} {t : Token}
    (hmem : t ∈ gather token? [] (pieces cs)) :
    t.literal.Plain ∧ ∃ before, before.length ≤ cs.length ∧ t.line = lineAfter before := by
  obtain ⟨⟨before, piece⟩, hplaced, htoken⟩ := List.mem_filterMap.1 hmem
  have hlength := length_le_of_mem_placed hplaced
  rw [List.nil_append, text_pieces] at hlength
  cases piece with
  | lexeme kind text =>
    cases htoken
    exact ⟨plain_literalOf kind text, before, hlength, rfl⟩
  | _ => cases htoken

theorem length_toDigits_lineAfter {before cs : List Char} (hle : before.length ≤ cs.length)
    (hcs : cs.length + 1 < 10 ^ Numeral.digitLimit) :
    (Nat.toDigits 10 (lineAfter before).natAbs).length ≤ Numeral.digitLimit := by
  have hcount : before.count '\n' ≤ before.length := List.count_le_length
  have hline : (lineAfter before).natAbs = 1 + before.count '\n' := by
    rw [lineAfter]
    omega
  rw [Nat.length_toDigits_le_iff (by decide) (by decide)]
  omega

end Piece

theorem plain_of_mem_scan {source : String}
    (hsource : source.toList.length + 1 < 10 ^ Numeral.digitLimit) {t : Token}
    (hmem : t ∈ (scan source).tokens) : t.Plain := by
  have hspelled := spelled_of_mem_scan hmem
  rw [scan_eq] at hmem
  rcases List.mem_append.1 hmem with hmem | hmem
  · obtain ⟨hliteral, before, hle, hline⟩ := Piece.line_of_mem_gather hmem
    refine ⟨hspelled, hliteral, ?_⟩
    rw [hline]
    exact Piece.length_toDigits_lineAfter hle hsource
  · rw [List.mem_singleton] at hmem
    subst hmem
    exact ⟨hspelled, .null, Piece.length_toDigits_lineAfter (Nat.le_refl _) hsource⟩

/-- The literals of such tokens are of the kinds of the language, and no number has a sign. -/
theorem literals_plain :
    Literals Token.Plain fun value => value.isProper = true ∧ value.toJson.Plain where
  token t ht hkind := by
    have hjson : (Value.ofJson t.literal).toJson = t.literal := by cases t.literal <;> rfl
    refine ⟨literals_spelled.token t ht.spelled hkind, ?_⟩
    rw [hjson]
    exact ht.literal
  boolean _ := ⟨rfl, .bool⟩
  nil := ⟨rfl, .obj (by simp [Value.nilFields]) (by simp [Value.nilFields, Json.Plain.str])⟩

namespace Node

theorem plain_token {t : Token} (ht : t.Plain) : (token t).toJson.Plain := by
  obtain ⟨s, hlexeme⟩ := ht.spelled.lexeme
  have hfields : t.lexeme.Plain := hlexeme ▸ .str
  refine .obj (by simp) ?_
  simpa [Json.Plain.str, hfields, ht.literal] using Json.Plain.int ht.line

theorem plain_literal {value : Value} (hvalue : value.toJson.Plain) :
    (literal value).toJson.Plain := by
  refine .obj (by simp) ?_
  simpa [Json.Plain.str] using hvalue

theorem plain_allToJson {nodes : List Node} (hnodes : ∀ node ∈ nodes, node.toJson.Plain) :
    ∀ document ∈ allToJson nodes, document.Plain := by
  induction nodes with
  | nil => exact List.forall_mem_nil _
  | cons node rest ih =>
    obtain ⟨hnode, hrest⟩ := List.forall_mem_cons.1 hnodes
    rw [allToJson]
    exact List.forall_mem_cons.2 ⟨hnode, ih hrest⟩

theorem plain_of_children {node : Node} (hinner : node.isInner = true)
    (hchildren : ∀ child ∈ node.children, child.toJson.Plain) : node.toJson.Plain := by
  cases node with
  | absent => exact .null
  | token | literal => cases hinner
  | program statements | block statements =>
    have hall : (Json.arr (allToJson statements)).Plain := .arr (plain_allToJson hchildren)
    refine .obj (by simp) ?_
    simpa [Json.Plain.str] using hall
  | _ =>
    refine .obj (by simp) ?_
    simpa [children, Json.Plain.str] using hchildren

/-- The document of a tree is plain if those of its tokens and literals are. -/
theorem MadeOf.plain {node : Node}
    (hnode : node.MadeOf Token.Plain fun value => value.isProper = true ∧ value.toJson.Plain) :
    node.toJson.Plain := by
  induction hnode with
  | token ht => exact plain_token ht
  | literal hvalue => exact plain_literal hvalue.2
  | inner hinner _ ih => exact plain_of_children hinner ih

/-- The document of the tree of a source text is read back from its text, unless it nests too far for
the reader. -/
theorem read_program {source : String} {limit : Nat}
    (hsource : source.toList.length + 1 < 10 ^ Numeral.digitLimit)
    (hnesting : (program (parse limit (scan source).tokens).statements).toJson.nesting ≤
      Json.depthLimit) :
    Json.read (program (parse limit (scan source).tokens).statements).toJson.indented =
      .ok (program (parse limit (scan source).tokens).statements).toJson := by
  have hplain : (program (parse limit (scan source).tokens).statements).toJson.Plain := by
    refine plain_of_children rfl fun node hmem => MadeOf.plain ?_
    exact (parse_wellFormed literals_plain limit (fun t => plain_of_mem_scan hsource) node
      hmem).madeOf
  exact Json.read_textAt hplain hnesting (some 0)

end Node

end Lox
