import Lox.Node.Document

/-!
# Trees that are their own documents

A document may spell one tree in many ways: an integer for a number, a text for a line, an object
with fields that nobody asks for. Reading settles all of this at once. The trees that come out of it
are the canonical ones, which are read back from their own documents as they are; and a tree is read
back only if it is canonical (`readsBack_iff`). So a document that was read and written once stays
the same however often this is repeated.

What makes a tree canonical is said of its tokens and literals alone (`Node.MadeOf`), since the nodes
around them may stand in any place. A node is read back if the nodes below it are, because its fields
are found under the keys they were written with.
-/

namespace Lox

theorem Kind.ofName?_name (kind : Kind) : Kind.ofName? kind.name = some kind := by
  cases kind <;> decide

/-! ## Results that may be missing -/

/-- If a reader returns something, it is of some kind. -/
def Yields {ε α : Type} (P : α → Prop) (result : Except ε α) : Prop :=
  ∀ a, result = .ok a → P a

section Yields

variable {ε α β : Type} {P : α → Prop} {Q : β → Prop}

theorem yields_pure {a : α} (ha : P a) : Yields P (pure a : Except ε α) := by
  rintro _ ⟨⟩
  exact ha

theorem yields_error (error : ε) : Yields P (.error error) :=
  nofun

theorem Yields.bind {result : Except ε α} {next : α → Except ε β} (hresult : Yields P result)
    (hnext : ∀ a, P a → Yields Q (next a)) : Yields Q (result >>= next) := by
  cases result with
  | error error => exact yields_error error
  | ok a => exact hnext a (hresult a rfl)

theorem Yields.map {result : Except ε α} {f : α → β} (hresult : Yields P result)
    (hf : ∀ a, P a → Q (f a)) : Yields Q (result.map f) := by
  cases result with
  | error error => exact yields_error error
  | ok a => exact yields_pure (hf a (hresult a rfl))

/-- Nothing is asked of a result that does not matter. -/
theorem yields_any (result : Except ε α) : Yields (fun _ => True) result :=
  fun _ _ => trivial

end Yields

/-! ## Values -/

namespace Value

/-- Whether a value is what its document stands for. An integer is not, since its document stands
for a number, and an object is not if it says that it stands for `nil`. -/
def isCanonical : Value → Bool
  | integer _ => false
  | object fields => !meansNil fields
  | _ => true

theorem isCanonical_of_isProper {value : Value} (hvalue : value.isProper = true) :
    value.isCanonical = true := by
  cases value with
  | number | string | boolean | nil => rfl
  | null | integer | list | object => cases hvalue

theorem decode?_toJson {value : Value} (hvalue : value.isCanonical = true) :
    decode? value.toJson = some value := by
  cases value with
  | nil => rfl
  | object fields =>
    have hfields : meansNil fields = false := by simpa [isCanonical] using hvalue
    simp [toJson, decode?, hfields]
  | integer => cases hvalue
  | _ => rfl

theorem isCanonical_of_decode? {document : Json} {value : Value}
    (hdecode : decode? document = some value) : value.isCanonical = true := by
  cases document with
  | int n =>
    obtain ⟨x, -, rfl⟩ := Option.map_eq_some_iff.1 hdecode
    rfl
  | obj fields =>
    rw [decode?, Option.some.injEq] at hdecode
    subst hdecode
    split
    · rfl
    · next hfields => simpa [isCanonical] using hfields
  | _ =>
    cases hdecode
    rfl

end Value

/-! ## Tokens -/

namespace Token

/-- A literal that a token of some kind may have: that of a number token is a number, if there is
one. -/
def TakesLiteral (kind : Kind) (literal : Json) : Prop :=
  kind = .number → literal = .null ∨ ∃ x, literal = .float x

/-- A token whose literal is taken as it stands. -/
def Canonical (t : Token) : Prop :=
  TakesLiteral t.kind t.literal

theorem literalOf_of_ne_number {kind : Kind} (hkind : kind ≠ .number) (literal : Json) :
    literalOf kind literal = .ok literal := by
  unfold literalOf
  split
  · contradiction
  · contradiction
  · rfl

theorem literalOf_literal {t : Token} (ht : t.Canonical) :
    literalOf t.kind t.literal = .ok t.literal := by
  by_cases hkind : t.kind = .number
  · rw [hkind]
    rcases ht hkind with hliteral | ⟨x, hliteral⟩
    · rw [hliteral]
      rfl
    · rw [hliteral]
      rfl
  · exact literalOf_of_ne_number hkind t.literal

theorem literalOf_number {literal : Json} (hliteral : literal ≠ .null) :
    literalOf .number literal = (numberOf literal).map .float := by
  cases literal with
  | null => contradiction
  | _ => rfl

theorem yields_literalOf (kind : Kind) (literal : Json) :
    Yields (TakesLiteral kind) (literalOf kind literal) := by
  by_cases hkind : kind = .number
  · subst hkind
    by_cases hliteral : literal = .null
    · subst hliteral
      exact yields_pure fun _ => .inl rfl
    · rw [literalOf_number hliteral]
      exact (yields_any _).map fun x _ _ => .inr ⟨x, rfl⟩
  · exact fun _ _ hnumber => absurd hnumber hkind

theorem yields_ofFields (fields : List (String × Json)) : Yields Canonical (ofFields fields) := by
  refine (yields_any _).bind fun named _ => (yields_any _).bind fun kind _ => ?_
  refine (yields_literalOf kind _).bind fun literal hliteral => ?_
  refine (yields_any _).bind fun lexeme _ => (yields_any _).bind fun told _ => ?_
  exact (yields_any _).bind fun line _ => yields_pure hliteral

end Token

namespace Node

/-! ## Documents of trees -/

/-- The document of a tree describes it. -/
def ReadsBack (node : Node) : Prop :=
  ofJson node.toJson = .ok node

theorem readsBack_token {t : Token} (ht : t.Canonical) : ReadsBack (token t) := by
  have hliteral := Token.literalOf_literal ht
  simp [ReadsBack, toJson, Token.toJson, ofJson, ofReadings, Json.field?, Token.ofFields,
    Json.required, Kind.ofJson, Kind.ofName?_name, Token.lineOf, hliteral, bind, Except.bind, pure,
    Except.pure]

theorem readsBack_literal {value : Value} (hvalue : value.isCanonical = true) :
    ReadsBack (literal value) := by
  have hdecode := Value.decode?_toJson hvalue
  simp [ReadsBack, toJson, ofJson, ofReadings, Json.field?, literalOf, Json.required, hdecode, bind,
    Except.bind, pure, Except.pure]

theorem allOfJson_allToJson {nodes : List Node} (hnodes : ∀ node ∈ nodes, node.ReadsBack) :
    allOfJson (allToJson nodes) = .ok nodes := by
  induction nodes with
  | nil => rfl
  | cons node rest ih =>
    obtain ⟨hnode, hrest⟩ := List.forall_mem_cons.1 hnodes
    have hread : ofJson node.toJson = .ok node := hnode
    rw [allToJson, allOfJson, hread, ih hrest]
    rfl

/-- Whether a node is neither a token nor a literal, so that its document is made of those of the
nodes below it. -/
def isInner : Node → Bool
  | token _ | literal _ => false
  | _ => true

/-- An inner node is read back from its document if all nodes below it are: the document keeps them
in the order of the fields, each under a key of its own. -/
theorem readsBack_of_children {node : Node} (hinner : node.isInner = true)
    (hchildren : ∀ child ∈ node.children, child.ReadsBack) : node.ReadsBack := by
  cases node with
  | absent => rfl
  | token | literal => cases hinner
  | program statements | block statements =>
    have hall : allOfJson (allToJson statements) = .ok statements := allOfJson_allToJson hchildren
    simp [ReadsBack, toJson, ofJson, ofReadings, Json.field?, requiredNodes, readFields, listOfJson,
      hall, bind, Except.bind, pure, Except.pure]
  | _ =>
    simp only [children, List.forall_mem_cons, ReadsBack] at hchildren
    simp [ReadsBack, toJson, ofJson, ofReadings, Json.field?, requiredNode, optionalNode, readFields,
      hchildren, bind, Except.bind, pure, Except.pure]

/-- A tree of which only the tokens and the literals are looked at: any node may stand in any place,
and any place may be empty. -/
inductive MadeOf (admits : Token → Prop) (holds : Value → Prop) : Node → Prop where
  | token {t : Token} (ht : admits t) : MadeOf admits holds (.token t)
  | literal {value : Value} (hvalue : holds value) : MadeOf admits holds (.literal value)
  | inner {node : Node} (hinner : node.isInner = true)
    (hchildren : ∀ child ∈ node.children, MadeOf admits holds child) : MadeOf admits holds node

theorem MadeOf.mono {admits admits' : Token → Prop} {holds holds' : Value → Prop} {node : Node}
    (hnode : node.MadeOf admits holds) (hadmits : ∀ t, admits t → admits' t)
    (hholds : ∀ value, holds value → holds' value) : node.MadeOf admits' holds' := by
  induction hnode with
  | token ht => exact .token (hadmits _ ht)
  | literal hvalue => exact .literal (hholds _ hvalue)
  | inner hinner _ ih => exact .inner hinner ih

/-- A tree of tokens and literals that are taken as they stand. -/
abbrev Canonical : Node → Prop :=
  MadeOf Token.Canonical (Value.isCanonical · = true)

theorem Canonical.readsBack {node : Node} (hnode : node.Canonical) : node.ReadsBack := by
  induction hnode with
  | token ht => exact readsBack_token ht
  | literal hvalue => exact readsBack_literal hvalue
  | inner hinner _ ih => exact readsBack_of_children hinner ih

/-! ## What comes out of reading -/

/-- What a field reads as, as a node or as a list of nodes, is canonical. -/
structure FieldReading.Sound (reading : FieldReading) : Prop where
  node : Yields Canonical reading.node
  nodes : Yields (∀ node ∈ ·, node.Canonical) reading.nodes

section Readings

variable {readings : List FieldReading} (hreadings : ∀ reading ∈ readings, reading.Sound)
include hreadings

theorem yields_requiredNode (key : String) : Yields Canonical (requiredNode readings key) := by
  rw [requiredNode]
  split
  · next reading hfound => exact (hreadings reading (List.mem_of_find?_eq_some hfound)).node
  · exact yields_error _

theorem yields_requiredNodes (key : String) :
    Yields (∀ node ∈ ·, node.Canonical) (requiredNodes readings key) := by
  rw [requiredNodes]
  split
  · next reading hfound => exact (hreadings reading (List.mem_of_find?_eq_some hfound)).nodes
  · exact yields_error _

theorem yields_optionalNode (key : String) : Yields Canonical (optionalNode readings key) := by
  rw [optionalNode]
  split
  · next reading hfound => exact (hreadings reading (List.mem_of_find?_eq_some hfound)).node
  · exact yields_pure (.inner rfl (List.forall_mem_nil _))

end Readings

theorem yields_literalOf (fields : List (String × Json)) : Yields Canonical (literalOf fields) := by
  refine (yields_any _).bind fun document _ => ?_
  split
  · next value hdecode => exact yields_pure (.literal (Value.isCanonical_of_decode? hdecode))
  · exact yields_error _

/-- Whatever type an object names, the node it describes is canonical if what its fields read as
is. -/
theorem yields_ofReadings (fields : List (String × Json)) {readings : List FieldReading}
    (hreadings : ∀ reading ∈ readings, reading.Sound) :
    Yields Canonical (ofReadings fields readings) := by
  have hone := yields_requiredNode hreadings
  have hmany := yields_requiredNodes hreadings
  have hperhaps := yields_optionalNode hreadings
  rw [ofReadings]
  split
  · exact (Token.yields_ofFields fields).bind fun t ht => yields_pure (.token ht)
  · exact (hmany "statements").bind fun nodes hnodes => yields_pure (.inner rfl hnodes)
  · exact yields_literalOf fields
  · exact (hone "operator").bind fun operator hoperator => (hone "right").bind fun right hright =>
      yields_pure (.inner rfl (by simp [children, hoperator, hright]))
  · exact (hone "left").bind fun left hleft => (hone "operator").bind fun operator hoperator =>
      (hone "right").bind fun right hright =>
      yields_pure (.inner rfl (by simp [children, hleft, hoperator, hright]))
  · exact (hone "expression").bind fun expression hexpression =>
      yields_pure (.inner rfl (by simp [children, hexpression]))
  · exact (hone "name").bind fun name hname => yields_pure (.inner rfl (by simp [children, hname]))
  · exact (hone "name").bind fun name hname => (hone "value").bind fun value hvalue =>
      yields_pure (.inner rfl (by simp [children, hname, hvalue]))
  · exact (hone "expression").bind fun expression hexpression =>
      yields_pure (.inner rfl (by simp [children, hexpression]))
  · exact (hone "expression").bind fun expression hexpression =>
      yields_pure (.inner rfl (by simp [children, hexpression]))
  · exact (hone "name").bind fun name hname =>
      (hperhaps "initializer").bind fun initializer hinitializer =>
      yields_pure (.inner rfl (by simp [children, hname, hinitializer]))
  · exact (hmany "statements").bind fun nodes hnodes => yields_pure (.inner rfl hnodes)
  · exact (hone "condition").bind fun condition hcondition =>
      (hone "then_branch").bind fun thenBranch hthen =>
      (hperhaps "else_branch").bind fun elseBranch helse =>
      yields_pure (.inner rfl (by simp [children, hcondition, hthen, helse]))
  · exact (hone "condition").bind fun condition hcondition => (hone "body").bind fun body hbody =>
      yields_pure (.inner rfl (by simp [children, hcondition, hbody]))
  · exact yields_error _

mutual
/-- Every tree that is read from a document is canonical. -/
theorem yields_ofJson : ∀ document : Json, Yields Canonical (ofJson document)
  | .null => yields_pure (.inner rfl (List.forall_mem_nil _))
  | .obj fields => yields_ofReadings fields (sound_readFields fields)
  | .bool _ | .int _ | .float _ | .str _ | .arr _ => yields_error _
theorem yields_listOfJson :
    ∀ document : Json, Yields (∀ node ∈ ·, node.Canonical) (listOfJson document)
  | .arr items => yields_allOfJson items
  | .str s => by
    rw [listOfJson]
    split
    · exact yields_pure (List.forall_mem_nil _)
    · exact yields_error _
  | .obj fields => by
    rw [listOfJson]
    split
    · exact yields_pure (List.forall_mem_nil _)
    · exact yields_error _
  | .null | .bool _ | .int _ | .float _ => yields_error _
theorem yields_allOfJson :
    ∀ items : List Json, Yields (∀ node ∈ ·, node.Canonical) (allOfJson items)
  | [] => yields_pure (List.forall_mem_nil _)
  | item :: rest => by
    have hitem := yields_ofJson item
    have hrest := yields_allOfJson rest
    rw [allOfJson]
    split
    · exact yields_error _
    · next node hnode =>
      exact hrest.map fun nodes hnodes => List.forall_mem_cons.2 ⟨hitem node hnode, hnodes⟩
theorem sound_readFields :
    ∀ fields : List (String × Json), ∀ reading ∈ readFields fields, reading.Sound
  | [] => List.forall_mem_nil _
  | (_, value) :: rest => List.forall_mem_cons.2
      ⟨⟨yields_ofJson value, yields_listOfJson value⟩, sound_readFields rest⟩
end

/-- The canonical trees are those that their documents describe, and no other tree is read from any
document. -/
theorem readsBack_iff {node : Node} : node.ReadsBack ↔ node.Canonical :=
  ⟨yields_ofJson node.toJson node, Canonical.readsBack⟩

end Node

/-! ## Trees of the language -/

/-- A token with a text as its lexeme and nothing as its literal, unless it is a number, where it may
be a float, or of another kind, where it may be a text. -/
inductive Token.Ordinary : Token → Prop where
  | bare (kind : Kind) (lexeme : String) (line : Int) :
    Ordinary ⟨kind, .str lexeme, .null, line⟩
  | number (lexeme : String) (literal : Float) (line : Int) :
    Ordinary ⟨.number, .str lexeme, .float literal, line⟩
  | text {kind : Kind} (hkind : kind ≠ .number) (lexeme literal : String) (line : Int) :
    Ordinary ⟨kind, .str lexeme, .str literal, line⟩

theorem Token.Ordinary.canonical {t : Token} (ht : t.Ordinary) : t.Canonical := by
  cases ht with
  | bare => exact fun _ => .inl rfl
  | number lexeme literal => exact fun _ => .inr ⟨literal, rfl⟩
  | text hkind => exact fun hnumber => absurd hnumber hkind

namespace Node

/-- Put a tree together from any nodes in any places, with places left empty, from ordinary tokens on
any lines and from values of the language, whatever bits their numbers have. Its document describes
this very tree. -/
theorem ofJson_toJson {node : Node}
    (hnode : node.MadeOf Token.Ordinary (Value.isProper · = true)) :
    ofJson node.toJson = .ok node := by
  have hcanonical : node.Canonical :=
    hnode.mono (fun _ => Token.Ordinary.canonical) fun _ => Value.isCanonical_of_isProper
  exact hcanonical.readsBack

/-- A condition that is a number on a line below zero, without a branch to take. -/
def oddBranches : Node :=
  .program [.ifStmt (.token ⟨.number, .str "x", .float (0.0 / 0.0), -3⟩) .absent (.literal .nil),
    .absent, .unary (.block []) (.literal (.number (-0.0)))]

theorem ofJson_toJson_oddBranches :
    oddBranches.MadeOf Token.Ordinary (Value.isProper · = true) ∧
      ofJson oddBranches.toJson = .ok oddBranches := by
  have habsent : Node.absent.MadeOf Token.Ordinary (Value.isProper · = true) :=
    .inner rfl (List.forall_mem_nil _)
  have hblock : (Node.block []).MadeOf Token.Ordinary (Value.isProper · = true) :=
    .inner rfl (List.forall_mem_nil _)
  have hmade : oddBranches.MadeOf Token.Ordinary (Value.isProper · = true) := by
    refine .inner rfl (List.forall_mem_cons.2 ⟨.inner rfl ?_, List.forall_mem_cons.2 ⟨habsent,
      List.forall_mem_singleton.2 (.inner rfl ?_)⟩⟩)
    · exact List.forall_mem_cons.2 ⟨.token (.number ..), List.forall_mem_cons.2 ⟨habsent,
        List.forall_mem_singleton.2 (.literal rfl)⟩⟩
    · exact List.forall_mem_cons.2 ⟨hblock, List.forall_mem_singleton.2 (.literal rfl)⟩
  exact ⟨hmade, ofJson_toJson hmade⟩

/-- The document of the tree that a document describes. -/
def resaved (document : Json) : Except DecodeError Json :=
  (ofJson document).map toJson

/-- Take any document that is read as a tree, whatever it spells in its own way. The document of that
tree describes the same tree, so that reading and writing once more changes nothing. -/
theorem resaving_settles {document : Json} {node : Node} (hread : ofJson document = .ok node) :
    ofJson node.toJson = .ok node ∧ resaved document = .ok node.toJson ∧
      resaved node.toJson = .ok node.toJson := by
  have hback : ofJson node.toJson = .ok node :=
    Canonical.readsBack (yields_ofJson document node hread)
  refine ⟨hback, ?_, ?_⟩
  · rw [resaved, hread]
    rfl
  · rw [resaved, hback]
    rfl

def looseDocument : Json :=
  .obj [("type", .str "Binary"), ("left", .obj [("value", .int 3), ("type", .str "Literal")]),
    ("operator", .obj [("type", .str "Token"), ("kind", .str "NUMBER"), ("literal", .bool true),
      ("lexeme", .arr []), ("line", .str " 7 "), ("note", .null)]),
    ("right", .obj [("type", .str "Block"), ("statements", .str "")])]

def looseTree : Node :=
  .binary (.literal (.number 3)) (.token ⟨.number, .arr [], .float 1, 7⟩) (.block [])

/-- An integer, a literal that is no number, a line in a text and statements that are no list. -/
theorem resaving_settles_looseDocument :
    ofJson looseDocument = .ok looseTree ∧ ofJson looseTree.toJson = .ok looseTree ∧
      resaved looseDocument = .ok looseTree.toJson ∧
      resaved looseTree.toJson = .ok looseTree.toJson := by
  have hread : ofJson looseDocument = .ok looseTree := rfl
  exact ⟨hread, resaving_settles hread⟩

end Node

end Lox
