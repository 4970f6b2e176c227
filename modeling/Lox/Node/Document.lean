import Lox.Node.Basic
import Lox.Token.Document

/-!
# Trees as documents

How a tree is kept in a tree file, and how it is read back. Every node is an object that names its
type. Reading accepts any node in any place and ignores fields it does not know; it fails at the
first field, in a fixed order, that is missing or no node.
-/

namespace Lox.Node

/-! ## Writing -/

mutual
def toJson : Node → Json
  | absent => .null
  | token t => t.toJson
  | program statements =>
    .obj [("type", .str "Program"), ("statements", .arr (allToJson statements))]
  | literal value => .obj [("type", .str "Literal"), ("value", value.toJson)]
  | unary operator right =>
    .obj [("type", .str "Unary"), ("operator", operator.toJson), ("right", right.toJson)]
  | binary left operator right =>
    .obj [("type", .str "Binary"), ("left", left.toJson), ("operator", operator.toJson),
      ("right", right.toJson)]
  | grouping expression => .obj [("type", .str "Grouping"), ("expression", expression.toJson)]
  | varRef name => .obj [("type", .str "Variable"), ("name", name.toJson)]
  | assign name value =>
    .obj [("type", .str "Assign"), ("name", name.toJson), ("value", value.toJson)]
  | exprStmt expression => .obj [("type", .str "ExprStmt"), ("expression", expression.toJson)]
  | printStmt expression => .obj [("type", .str "PrintStmt"), ("expression", expression.toJson)]
  | varDecl name initializer =>
    .obj [("type", .str "VarDecl"), ("name", name.toJson), ("initializer", initializer.toJson)]
  | block statements =>
    .obj [("type", .str "Block"), ("statements", .arr (allToJson statements))]
  | ifStmt condition thenBranch elseBranch =>
    .obj [("type", .str "IfStmt"), ("condition", condition.toJson),
      ("then_branch", thenBranch.toJson), ("else_branch", elseBranch.toJson)]
  | whileStmt condition body =>
    .obj [("type", .str "WhileStmt"), ("condition", condition.toJson), ("body", body.toJson)]
def allToJson : List Node → List Json
  | [] => []
  | node :: rest => node.toJson :: allToJson rest
end

/-- The document of a value that stands where a node belongs. Only missing data has one; of any
other value the result is the name of its type, which no node has. -/
def documentOfValue : Value → Except String Json
  | .null => .ok .null
  | .nil => .error "NilVal"
  | other => .error other.toJson.typeName

/-- The complaint about a value of some type that stands where a node belongs. -/
def noDocumentMessage (type : String) : String :=
  "Unsupported node for serialization: " ++ type

/-! ## Reading

The fields of an object are read before it is known which of them its type asks for: each one as a
node and as a list of nodes. What a type does not ask for is dropped, faults included. -/

/-- A field read as a node and as a list of nodes. -/
structure FieldReading where
  key : String
  node : Except DecodeError Node
  nodes : Except DecodeError (List Node)

def requiredNode (readings : List FieldReading) (key : String) : Except DecodeError Node :=
  match readings.find? (·.key = key) with
  | some reading => reading.node
  | none => .error (.missingField key)

def requiredNodes (readings : List FieldReading) (key : String) :
    Except DecodeError (List Node) :=
  match readings.find? (·.key = key) with
  | some reading => reading.nodes
  | none => .error (.missingField key)

def optionalNode (readings : List FieldReading) (key : String) : Except DecodeError Node :=
  match readings.find? (·.key = key) with
  | some reading => reading.node
  | none => .ok .absent

/-- The literal that the fields of an object describe. -/
def literalOf (fields : List (String × Json)) : Except DecodeError Node := do
  match Value.decode? (← Json.required fields "value") with
  | some value => return literal value
  | none => .error .numberTooLarge

/-- The node that the fields of an object describe, given what they read as. -/
def ofReadings (fields : List (String × Json)) (readings : List FieldReading) :
    Except DecodeError Node := do
  let one := requiredNode readings
  let type := (Json.field? fields "type").getD .null
  match type with
  | .str "Token" => return token (← Token.ofFields fields)
  | .str "Program" => return program (← requiredNodes readings "statements")
  | .str "Literal" => literalOf fields
  | .str "Unary" => return unary (← one "operator") (← one "right")
  | .str "Binary" => return binary (← one "left") (← one "operator") (← one "right")
  | .str "Grouping" => return grouping (← one "expression")
  | .str "Variable" => return varRef (← one "name")
  | .str "Assign" => return assign (← one "name") (← one "value")
  | .str "ExprStmt" => return exprStmt (← one "expression")
  | .str "PrintStmt" => return printStmt (← one "expression")
  | .str "VarDecl" => return varDecl (← one "name") (← optionalNode readings "initializer")
  | .str "Block" => return block (← requiredNodes readings "statements")
  | .str "IfStmt" =>
    return ifStmt (← one "condition") (← one "then_branch") (← optionalNode readings "else_branch")
  | .str "WhileStmt" => return whileStmt (← one "condition") (← one "body")
  | _ => .error (.unknownType type)

mutual
def ofJson : Json → Except DecodeError Node
  | .null => .ok absent
  | .obj fields => ofReadings fields (readFields fields)
  | _ => .error .notANode
/-- The trees that a document lists. An empty string or object lists none; what a longer one lists
are no nodes. -/
def listOfJson : Json → Except DecodeError (List Node)
  | .arr items => allOfJson items
  | .str s => if s.isEmpty then .ok [] else .error .notANode
  | .obj fields => if fields.isEmpty then .ok [] else .error .notANode
  | other => .error (.notAList other)
/-- The trees that some documents describe; the first fault wins. -/
def allOfJson : List Json → Except DecodeError (List Node)
  | [] => .ok []
  | item :: rest =>
    match ofJson item with
    | .error error => .error error
    | .ok node => (allOfJson rest).map (node :: ·)
/-- The fields of an object read as nodes and as lists of nodes. -/
def readFields : List (String × Json) → List FieldReading
  | [] => []
  | (key, value) :: rest => ⟨key, ofJson value, listOfJson value⟩ :: readFields rest
end

end Lox.Node
