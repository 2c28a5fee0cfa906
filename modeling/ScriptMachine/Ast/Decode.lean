import ScriptMachine.Ast.Encode
import ScriptMachine.Decimal.Text
import ScriptMachine.Json.Parser
import ScriptMachine.Word

/-!
# Reading programs from documents

A node is an object with exactly one member, named for its kind. Its parts may stand in an object, in
any order and among unknown members, or in an array, by position and complete. An optional part may
be missing or `null`. Reading descends at most as deep as the document nests.

A node without parts may be written as its bare name or with an empty part. A document that names its
version also takes an empty object for the empty part; `Leniency` tells the two readings apart.
-/

namespace ScriptMachine

/-- Whether an empty object stands for an empty part. -/
abbrev Leniency := Bool

namespace Json

/-- The parts with the given names, in that order: members of an object, where unknown ones are
ignored and a repeated one is refused, or all items of an array. -/
def parts? (names : List String) (j : Json) : Option (List (Option Json)) :=
  match j with
  | .obj fields =>
    names.mapM fun name =>
      match fields.filter fun f => f.1 == name with
      | [] => some none
      | [(_, v)] => some (some v)
      | _ => none
  | .arr items => if items.length == names.length then some (items.map some) else none
  | _ => none

/-- Kind and content of a node. -/
def variant? (j : Json) : Option (String × Option Json) :=
  match j with
  | .obj [(kind, content)] => some (kind, some content)
  | .str kind => some (kind, none)
  | _ => none

/-- Read an optional part: missing and `null` mean absent. -/
def optional? {α : Type} (f : Json → Option α) : Option Json → Option (Option α)
  | none => some none
  | some .null => some none
  | some j => (f j).map some

end Json

/-- Read a span. -/
def Span.ofJson? (j : Json) : Option Span := do
  match ← j.parts? ["start", "end", "line"] with
  | [some start, some stop, some line] =>
    let line ← line.nat?
    if line < Word.limit32 then some ⟨← start.nat?, ← stop.nat?, line⟩ else none
  | _ => none

/-- Read an identifier. -/
def Ident.ofJson? (j : Json) : Option Ident := do
  match ← j.parts? ["name", "span"] with
  | [some name, some span] => some ⟨← name.str?, ← Span.ofJson? span⟩
  | _ => none

/-- The double nearest to an integer. -/
def Decimal.ofInt (n : Int) : Float :=
  let x := nearest n.natAbs 0
  if n < 0 then -x else x

/-- Whether a document is an empty part. -/
def Json.isEmptyPart (lenient : Leniency) : Json → Bool
  | .null => true
  | .obj [] => lenient
  | _ => false

/-- Read a literal. Integers must be written as integers in the range of signed 64-bit words; floats
may be any number. -/
def Literal.ofJson? (lenient : Leniency) (j : Json) : Option Literal := do
  match ← j.variant? with
  | ("Integer", some (.int n)) => (Word.signed64? n).map .int
  | ("Float", some (.int n)) => some (.float (Decimal.ofInt n))
  | ("Float", some (.float x)) => some (.float x)
  | ("String", some (.str s)) => some (.str s)
  | ("Boolean", some (.bool b)) => some (.bool b)
  | ("Null", none) => some .null
  | ("Null", some part) => if part.isEmptyPart lenient then some .null else none
  | _ => none

mutual

/-- Read an expression that nests at most `fuel` deep. -/
def Expr.read? (lenient : Leniency) (fuel : Nat) (j : Json) : Option Expr :=
  match fuel with
  | 0 => none
  | fuel + 1 => do
    let (kind, content) ← j.variant?
    let c ← content
    match kind with
    | "Literal" =>
      match c with
      | .arr [l, s] => some (.literal (← Literal.ofJson? lenient l) (← Span.ofJson? s))
      | _ => none
    | "Identifier" => (Ident.ofJson? c).map .ident
    | "Prefix" =>
      match ← c.parts? ["operator", "operand", "span"] with
      | [some op, some e, some s] =>
        some (.unary (← op.str?) (← Expr.read? lenient fuel e) (← Span.ofJson? s))
      | _ => none
    | "Infix" =>
      match ← c.parts? ["operator", "left", "right", "span"] with
      | [some op, some l, some r, some s] =>
        some (.binary (← op.str?) (← Expr.read? lenient fuel l) (← Expr.read? lenient fuel r)
          (← Span.ofJson? s))
      | _ => none
    | "Ternary" =>
      match ← c.parts? ["condition", "then_branch", "else_branch", "span"] with
      | [some c, some y, some n, some s] =>
        some (.ternary (← Expr.read? lenient fuel c) (← Expr.read? lenient fuel y)
          (← Expr.read? lenient fuel n) (← Span.ofJson? s))
      | _ => none
    | "If" =>
      match ← c.parts? ["condition", "consequence", "alternative", "span"] with
      | [some c, some y, n, some s] =>
        some (.cond (← Expr.read? lenient fuel c) (← Block.read? lenient fuel y)
          (← Json.optional? (Block.read? lenient fuel) n) (← Span.ofJson? s))
      | _ => none
    | "Function" => (FunctionLiteral.read? lenient fuel c).map .function
    | "Call" =>
      match ← c.parts? ["callee", "args", "span"] with
      | [some f, some args, some s] =>
        some (.call (← Expr.read? lenient fuel f)
          (← (← args.items?).mapM (Expr.read? lenient fuel)) (← Span.ofJson? s))
      | _ => none
    | "ArrayLiteral" =>
      match ← c.parts? ["elements", "ordered", "span"] with
      | [some es, ordered, some s] =>
        let ordered ← match ordered with
          | none => some false
          | some b => b.bool?
        some (.array (← (← es.items?).mapM (Element.read? lenient fuel)) ordered (← Span.ofJson? s))
      | _ => none
    | "Index" =>
      match ← c.parts? ["target", "index", "span"] with
      | [some t, some i, some s] =>
        some (.index (← Expr.read? lenient fuel t) (← Expr.read? lenient fuel i) (← Span.ofJson? s))
      | _ => none
    | "HashLiteral" =>
      match ← c.parts? ["pairs", "span"] with
      | [some ps, some s] =>
        let pairs ← (← ps.items?).mapM fun p =>
          match p with
          | .arr [k, v] => do
            some (← Expr.read? lenient fuel k, ← Expr.read? lenient fuel v)
          | _ => none
        some (.hash pairs (← Span.ofJson? s))
      | _ => none
    | "Assign" =>
      match ← c.parts? ["target", "value", "span"] with
      | [some t, some v, some s] =>
        some (.assign (← Ident.ofJson? t) (← Expr.read? lenient fuel v) (← Span.ofJson? s))
      | _ => none
    | "IndexAssign" =>
      match ← c.parts? ["target", "index", "value", "span"] with
      | [some t, some i, some v, some s] =>
        some (.indexAssign (← Expr.read? lenient fuel t) (← Expr.read? lenient fuel i)
          (← Expr.read? lenient fuel v) (← Span.ofJson? s))
      | _ => none
    | "Member" =>
      match ← c.parts? ["target", "member", "span"] with
      | [some t, some m, some s] =>
        some (.member (← Expr.read? lenient fuel t) (← Ident.ofJson? m) (← Span.ofJson? s))
      | _ => none
    | "MemberAssign" =>
      match ← c.parts? ["target", "member", "value", "span"] with
      | [some t, some m, some v, some s] =>
        some (.memberAssign (← Expr.read? lenient fuel t) (← Ident.ofJson? m)
          (← Expr.read? lenient fuel v) (← Span.ofJson? s))
      | _ => none
    | "Spawn" =>
      match ← c.parts? ["callee", "args", "span"] with
      | [some f, some args, some s] =>
        some (.spawn (← Expr.read? lenient fuel f)
          (← (← args.items?).mapM (Expr.read? lenient fuel)) (← Span.ofJson? s))
      | _ => none
    | "Channel" =>
      match ← c.parts? ["capacity", "span"] with
      | [capacity, some s] =>
        some (.channel (← Json.optional? (Expr.read? lenient fuel) capacity) (← Span.ofJson? s))
      | _ => none
    | "Send" =>
      match ← c.parts? ["channel", "value", "span"] with
      | [some ch, some v, some s] =>
        some (.send (← Expr.read? lenient fuel ch) (← Expr.read? lenient fuel v) (← Span.ofJson? s))
      | _ => none
    | "Receive" =>
      match ← c.parts? ["channel", "span"] with
      | [some ch, some s] => some (.receive (← Expr.read? lenient fuel ch) (← Span.ofJson? s))
      | _ => none
    | "This" => (Span.ofJson? c).map .this
    | "Super" =>
      match ← c.parts? ["method", "span"] with
      | [some m, some s] => some (.super (← Ident.ofJson? m) (← Span.ofJson? s))
      | _ => none
    | _ => none
termination_by structural fuel

def Element.read? (lenient : Leniency) (fuel : Nat) (j : Json) : Option Element :=
  match fuel with
  | 0 => none
  | fuel + 1 => do
    match ← j.parts? ["key", "value"] with
    | [key, some v] =>
      some ⟨← Json.optional? (Expr.read? lenient fuel) key, ← Expr.read? lenient fuel v⟩
    | _ => none
termination_by structural fuel

def Block.read? (lenient : Leniency) (fuel : Nat) (j : Json) : Option Block :=
  match fuel with
  | 0 => none
  | fuel + 1 => do
    match ← j.parts? ["statements", "span"] with
    | [some ss, some s] =>
      some ⟨← (← ss.items?).mapM (Stmt.read? lenient fuel), ← Span.ofJson? s⟩
    | _ => none
termination_by structural fuel

def FunctionLiteral.read? (lenient : Leniency) (fuel : Nat) (j : Json) : Option FunctionLiteral :=
  match fuel with
  | 0 => none
  | fuel + 1 => do
    match ← j.parts? ["name", "params", "body", "span"] with
    | [name, some params, some body, some s] =>
      some ⟨← Json.optional? Json.str? name, ← (← params.items?).mapM Ident.ofJson?,
        ← Block.read? lenient fuel body, ← Span.ofJson? s⟩
    | _ => none
termination_by structural fuel

def CatchClause.read? (lenient : Leniency) (fuel : Nat) (j : Json) : Option CatchClause :=
  match fuel with
  | 0 => none
  | fuel + 1 => do
    match ← j.parts? ["param", "body"] with
    | [param, some body] =>
      some ⟨← Json.optional? Ident.ofJson? param, ← Block.read? lenient fuel body⟩
    | _ => none
termination_by structural fuel

/-- Read a statement that nests at most `fuel` deep. -/
def Stmt.read? (lenient : Leniency) (fuel : Nat) (j : Json) : Option Stmt :=
  match fuel with
  | 0 => none
  | fuel + 1 => do
    let (kind, content) ← j.variant?
    let c ← content
    match kind with
    | "Let" =>
      match ← c.parts? ["name", "value", "constant", "span"] with
      | [some name, some v, some constant, some s] =>
        some (.bind (← Ident.ofJson? name) (← Expr.read? lenient fuel v) (← constant.bool?)
          (← Span.ofJson? s))
      | _ => none
    | "Expr" =>
      match ← c.parts? ["expr", "span"] with
      | [some e, some s] => some (.expr (← Expr.read? lenient fuel e) (← Span.ofJson? s))
      | _ => none
    | "Block" => (Block.read? lenient fuel c).map .block
    | "Return" =>
      match ← c.parts? ["value", "span"] with
      | [v, some s] =>
        some (.ret (← Json.optional? (Expr.read? lenient fuel) v) (← Span.ofJson? s))
      | _ => none
    | "For" =>
      match ← c.parts? ["init", "condition", "update", "body", "span"] with
      | [init, condition, update, some body, some s] =>
        some (.forLoop (← Json.optional? (Stmt.read? lenient fuel) init)
          (← Json.optional? (Expr.read? lenient fuel) condition)
          (← Json.optional? (Expr.read? lenient fuel) update)
          (← Block.read? lenient fuel body) (← Span.ofJson? s))
      | _ => none
    | "While" =>
      match ← c.parts? ["condition", "body", "span"] with
      | [some condition, some body, some s] =>
        some (.whileLoop (← Expr.read? lenient fuel condition) (← Block.read? lenient fuel body)
          (← Span.ofJson? s))
      | _ => none
    | "Break" => (Span.ofJson? c).map .breakLoop
    | "Continue" => (Span.ofJson? c).map .continueLoop
    | "Class" =>
      match ← c.parts? ["name", "parent", "body", "span"] with
      | [some name, parent, some body, some s] =>
        some (.classDecl (← Ident.ofJson? name) (← Json.optional? Ident.ofJson? parent)
          (← (← body.items?).mapM (Stmt.read? lenient fuel)) (← Span.ofJson? s))
      | _ => none
    | "Try" =>
      match ← c.parts? ["body", "catch", "finally", "span"] with
      | [some body, handler, cleanup, some s] =>
        some (.tryCatch (← Block.read? lenient fuel body)
          (← Json.optional? (CatchClause.read? lenient fuel) handler)
          (← Json.optional? (Block.read? lenient fuel) cleanup) (← Span.ofJson? s))
      | _ => none
    | "Throw" =>
      match ← c.parts? ["value", "span"] with
      | [some v, some s] => some (.throw (← Expr.read? lenient fuel v) (← Span.ofJson? s))
      | _ => none
    | _ => none
termination_by structural fuel

end

namespace Program

/-- Read the statements of a program. -/
def readStatements? (lenient : Leniency) (j : Json) : Option Program := do
  some ⟨← (← j.items?).mapM (Stmt.read? lenient j.depth)⟩

/-- Read a program. -/
def ofJson? (j : Json) : Option Program := do
  match ← j.parts? ["statements"] with
  | [some ss] => readStatements? false ss
  | _ => none

/-- Read a program together with the version that its document names. -/
def ofVersionedJson? (j : Json) : Option (Nat × Program) := do
  match j with
  | .obj _ =>
    match ← j.parts? ["ast_version", "statements"] with
    | [some version, some ss] =>
      let version ← version.nat?
      if version < Word.limit32 then some (version, ← readStatements? true ss) else none
    | _ => none
  | _ => none

/-- Deepest nesting of containers in the text of a program. -/
def textDepth : Nat := 127

/-- Read the text of a program that names its version. -/
def ofText? (text : String) : Option (Nat × Program) :=
  (Json.parse? (some textDepth) text).bind ofVersionedJson?

end Program

end ScriptMachine
