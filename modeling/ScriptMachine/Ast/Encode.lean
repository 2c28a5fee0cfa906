import ScriptMachine.Ast.Basic
import ScriptMachine.Json.Basic

/-!
# Programs as documents

The document form of a program: a node is an object with one member, named for the kind of node and
holding its parts. Optional parts that are absent are `null`, and every part is written.
-/

namespace ScriptMachine

/-- A span as an object. -/
def Span.toJson (s : Span) : Json :=
  .obj [("start", .int s.start), ("end", .int s.stop), ("line", .int s.line)]

def Ident.toJson (id : Ident) : Json :=
  .obj [("name", .str id.name), ("span", id.span.toJson)]

def Literal.toJson : Literal → Json
  | .int n => .obj [("Integer", .int n.toInt)]
  | .float x => .obj [("Float", .float x)]
  | .str s => .obj [("String", .str s)]
  | .bool b => .obj [("Boolean", .bool b)]
  | .null => .str "Null"

/-- An optional part. -/
def Json.ofOption {α : Type} (f : α → Json) : Option α → Json
  | none => .null
  | some a => f a

/-- A node: its kind and its parts. -/
def Json.node (kind : String) (parts : List (String × Json)) : Json :=
  .obj [(kind, .obj parts)]

mutual

def Expr.toJson : Expr → Json
  | .literal l s => .obj [("Literal", .arr [l.toJson, s.toJson])]
  | .ident id => .obj [("Identifier", id.toJson)]
  | .unary op e s =>
    .node "Prefix" [("operator", .str op), ("operand", e.toJson), ("span", s.toJson)]
  | .binary op l r s =>
    .node "Infix"
      [("operator", .str op), ("left", l.toJson), ("right", r.toJson), ("span", s.toJson)]
  | .ternary c y n s =>
    .node "Ternary" [("condition", c.toJson), ("then_branch", y.toJson),
      ("else_branch", n.toJson), ("span", s.toJson)]
  | .cond c y none s =>
    .node "If" [("condition", c.toJson), ("consequence", y.toJson), ("alternative", .null),
      ("span", s.toJson)]
  | .cond c y (some n) s =>
    .node "If" [("condition", c.toJson), ("consequence", y.toJson), ("alternative", n.toJson),
      ("span", s.toJson)]
  | .function f => .obj [("Function", f.toJson)]
  | .call f args s =>
    .node "Call" [("callee", f.toJson), ("args", .arr (exprsToJson args)), ("span", s.toJson)]
  | .array es ordered s =>
    .node "ArrayLiteral" [("elements", .arr (elementsToJson es)), ("ordered", .bool ordered),
      ("span", s.toJson)]
  | .index t i s => .node "Index" [("target", t.toJson), ("index", i.toJson), ("span", s.toJson)]
  | .hash ps s => .node "HashLiteral" [("pairs", .arr (pairsToJson ps)), ("span", s.toJson)]
  | .assign t v s =>
    .node "Assign" [("target", t.toJson), ("value", v.toJson), ("span", s.toJson)]
  | .indexAssign t i v s =>
    .node "IndexAssign"
      [("target", t.toJson), ("index", i.toJson), ("value", v.toJson), ("span", s.toJson)]
  | .member t m s =>
    .node "Member" [("target", t.toJson), ("member", m.toJson), ("span", s.toJson)]
  | .memberAssign t m v s =>
    .node "MemberAssign"
      [("target", t.toJson), ("member", m.toJson), ("value", v.toJson), ("span", s.toJson)]
  | .spawn f args s =>
    .node "Spawn" [("callee", f.toJson), ("args", .arr (exprsToJson args)), ("span", s.toJson)]
  | .channel none s => .node "Channel" [("capacity", .null), ("span", s.toJson)]
  | .channel (some c) s => .node "Channel" [("capacity", c.toJson), ("span", s.toJson)]
  | .send c v s => .node "Send" [("channel", c.toJson), ("value", v.toJson), ("span", s.toJson)]
  | .receive c s => .node "Receive" [("channel", c.toJson), ("span", s.toJson)]
  | .this s => .obj [("This", s.toJson)]
  | .super m s => .node "Super" [("method", m.toJson), ("span", s.toJson)]
termination_by structural e => e

def exprsToJson : List Expr → List Json
  | [] => []
  | e :: es => e.toJson :: exprsToJson es
termination_by structural es => es

def elementsToJson : List Element → List Json
  | [] => []
  | e :: es => e.toJson :: elementsToJson es
termination_by structural es => es

def Element.toJson : Element → Json
  | ⟨none, v⟩ => .obj [("key", .null), ("value", v.toJson)]
  | ⟨some k, v⟩ => .obj [("key", k.toJson), ("value", v.toJson)]
termination_by structural e => e

def pairsToJson : List (Expr × Expr) → List Json
  | [] => []
  | (k, v) :: ps => .arr [k.toJson, v.toJson] :: pairsToJson ps
termination_by structural ps => ps

def Block.toJson : Block → Json
  | ⟨ss, s⟩ => .obj [("statements", .arr (stmtsToJson ss)), ("span", s.toJson)]
termination_by structural b => b

def FunctionLiteral.toJson : FunctionLiteral → Json
  | ⟨name, params, body, s⟩ =>
    .obj [("name", .ofOption .str name), ("params", .arr (params.map Ident.toJson)),
      ("body", body.toJson), ("span", s.toJson)]
termination_by structural f => f

def CatchClause.toJson : CatchClause → Json
  | ⟨param, body⟩ => .obj [("param", .ofOption Ident.toJson param), ("body", body.toJson)]
termination_by structural c => c

def Stmt.toJson : Stmt → Json
  | .bind name v constant s =>
    .node "Let" [("name", name.toJson), ("value", v.toJson), ("constant", .bool constant),
      ("span", s.toJson)]
  | .expr e s => .node "Expr" [("expr", e.toJson), ("span", s.toJson)]
  | .block b => .obj [("Block", b.toJson)]
  | .ret none s => .node "Return" [("value", .null), ("span", s.toJson)]
  | .ret (some v) s => .node "Return" [("value", v.toJson), ("span", s.toJson)]
  | .forLoop init condition update body s =>
    .node "For" [("init", optStmtToJson init), ("condition", optExprToJson condition),
      ("update", optExprToJson update), ("body", body.toJson), ("span", s.toJson)]
  | .whileLoop c body s =>
    .node "While" [("condition", c.toJson), ("body", body.toJson), ("span", s.toJson)]
  | .breakLoop s => .obj [("Break", s.toJson)]
  | .continueLoop s => .obj [("Continue", s.toJson)]
  | .classDecl name parent body s =>
    .node "Class" [("name", name.toJson), ("parent", .ofOption Ident.toJson parent),
      ("body", .arr (stmtsToJson body)), ("span", s.toJson)]
  | .tryCatch body handler cleanup s =>
    .node "Try" [("body", body.toJson), ("catch", optCatchToJson handler),
      ("finally", optBlockToJson cleanup), ("span", s.toJson)]
  | .throw v s => .node "Throw" [("value", v.toJson), ("span", s.toJson)]
termination_by structural s => s

def stmtsToJson : List Stmt → List Json
  | [] => []
  | s :: ss => s.toJson :: stmtsToJson ss
termination_by structural ss => ss

def optStmtToJson : Option Stmt → Json
  | none => .null
  | some s => s.toJson
termination_by structural s => s

def optExprToJson : Option Expr → Json
  | none => .null
  | some e => e.toJson
termination_by structural e => e

def optBlockToJson : Option Block → Json
  | none => .null
  | some b => b.toJson
termination_by structural b => b

def optCatchToJson : Option CatchClause → Json
  | none => .null
  | some c => c.toJson
termination_by structural c => c

end

namespace Program

/-- A program as a document. -/
def toJson (p : Program) : Json := .obj [("statements", .arr (stmtsToJson p.statements))]

/-- A program as a document that names its version. -/
def toVersionedJson (version : Nat) (p : Program) : Json :=
  .obj [("ast_version", .int version), ("statements", .arr (stmtsToJson p.statements))]

/-- Whether two programs have the same document form. -/
def same (a b : Program) : Bool := a.toJson == b.toJson

end Program

end ScriptMachine
