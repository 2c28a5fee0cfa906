import ScriptMachine.Span

/-!
# Programs as trees

A program arrives as a finished tree: this library has no source text and no grammar. Every node
carries the span of the token it came from. Operators are kept as text, so that an unknown one is
an error of compilation and not of reading.
-/

namespace ScriptMachine

/-- A name in the program. -/
structure Ident where
  name : String
  span : Span
deriving DecidableEq, Repr, Inhabited

/-- A literal value. -/
inductive Literal where
  | int (n : Int64)
  | float (x : Float)
  | str (s : String)
  | bool (b : Bool)
  | null
deriving Repr, Inhabited

mutual

/-- An expression. -/
inductive Expr where
  | literal (value : Literal) (span : Span)
  | ident (id : Ident)
  /-- `op operand` -/
  | unary (op : String) (operand : Expr) (span : Span)
  /-- `left op right` -/
  | binary (op : String) (left right : Expr) (span : Span)
  /-- `condition ? yes : no` -/
  | ternary (condition yes no : Expr) (span : Span)
  /-- An `if`, whose value is that of the last expression of the branch taken. -/
  | cond (condition : Expr) (yes : Block) (no : Option Block) (span : Span)
  | function (f : FunctionLiteral)
  | call (callee : Expr) (args : List Expr) (span : Span)
  /-- A list of elements; it stands for an ordered map if so marked or if any element has a key. -/
  | array (elements : List Element) (ordered : Bool) (span : Span)
  /-- `target[index]` -/
  | index (target index : Expr) (span : Span)
  | hash (pairs : List (Expr × Expr)) (span : Span)
  /-- `target = value` -/
  | assign (target : Ident) (value : Expr) (span : Span)
  /-- `target[index] = value` -/
  | indexAssign (target index value : Expr) (span : Span)
  /-- `target.member` -/
  | member (target : Expr) (member : Ident) (span : Span)
  /-- `target.member = value` -/
  | memberAssign (target : Expr) (member : Ident) (value : Expr) (span : Span)
  /-- Start a task that calls `callee`. -/
  | spawn (callee : Expr) (args : List Expr) (span : Span)
  | channel (capacity : Option Expr) (span : Span)
  | send (channel value : Expr) (span : Span)
  | receive (channel : Expr) (span : Span)
  | this (span : Span)
  /-- `super.method`, which only makes sense as a callee inside a method. -/
  | super (method : Ident) (span : Span)

/-- A statement. -/
inductive Stmt where
  /-- A `let` or, when `constant`, a `const` declaration. -/
  | bind (name : Ident) (value : Expr) (constant : Bool) (span : Span)
  | expr (e : Expr) (span : Span)
  | block (b : Block)
  | ret (value : Option Expr) (span : Span)
  | forLoop (init : Option Stmt) (condition update : Option Expr) (body : Block) (span : Span)
  | whileLoop (condition : Expr) (body : Block) (span : Span)
  | breakLoop (span : Span)
  | continueLoop (span : Span)
  | classDecl (name : Ident) (parent : Option Ident) (body : List Stmt) (span : Span)
  | tryCatch (body : Block) (handler : Option CatchClause) (cleanup : Option Block) (span : Span)
  | throw (value : Expr) (span : Span)

/-- A braced list of statements. -/
structure Block where
  statements : List Stmt
  span : Span

/-- A function literal, named if declared by name or bound directly by a declaration. -/
structure FunctionLiteral where
  name : Option String
  params : List Ident
  body : Block
  span : Span

/-- An element of an array or ordered map. -/
structure Element where
  key : Option Expr
  value : Expr

/-- The handler of a `try`. -/
structure CatchClause where
  param : Option Ident
  body : Block

end

instance : Inhabited Expr := ⟨.this .dummy⟩
instance : Inhabited Stmt := ⟨.breakLoop .dummy⟩

/-- One unit of compilation. -/
structure Program where
  statements : List Stmt
deriving Inhabited

/-- Version of the tree's document form. -/
def astVersion : Nat := 1

namespace Expr

/-- The span of an expression. -/
def span : Expr → Span
  | .literal _ s | .this s => s
  | .ident id => id.span
  | .function f => f.span
  | .unary _ _ s | .binary _ _ _ s | .ternary _ _ _ s | .cond _ _ _ s | .call _ _ s
  | .array _ _ s | .index _ _ s | .hash _ s | .assign _ _ s | .indexAssign _ _ _ s
  | .member _ _ s | .memberAssign _ _ _ s | .spawn _ _ s | .channel _ s | .send _ _ s
  | .receive _ s | .super _ s => s

/-- The literal that an expression is, if it is one. -/
def literal? : Expr → Option Literal
  | .literal l _ => some l
  | _ => none

end Expr

/-- The span of a statement. -/
def Stmt.span : Stmt → Span
  | .bind _ _ _ s | .expr _ s | .ret _ s | .forLoop _ _ _ _ s | .whileLoop _ _ s
  | .breakLoop s | .continueLoop s | .classDecl _ _ _ s | .tryCatch _ _ _ s | .throw _ s => s
  | .block b => b.span

/-- Whether a list of elements makes an ordered map. -/
def Element.makeOrderedMap (elements : List Element) (ordered : Bool) : Bool :=
  ordered || elements.any fun e => e.key.isSome

end ScriptMachine
