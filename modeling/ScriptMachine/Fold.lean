import ScriptMachine.Ast.Basic
import ScriptMachine.Value.Arithmetic

/-!
# Folding constants

An operator whose operands are literals is replaced by the literal of its result, from the leaves up.
Folding computes with the operators of the machine, so a folded literal is what the machine would
have computed; what the machine would refuse stays in place. Null is never folded. The number of
replaced nodes is counted along the way.
-/

namespace ScriptMachine

/-- A result and a count. -/
structure Counted (α : Type) where
  val : α
  count : Nat
deriving DecidableEq, Repr

namespace Counted

instance : Monad Counted where
  pure a := ⟨a, 0⟩
  bind x f := ⟨(f x.val).val, x.count + (f x.val).count⟩

@[simp] theorem pure_val {α : Type} (a : α) : (pure a : Counted α).val = a := rfl
@[simp] theorem pure_count {α : Type} (a : α) : (pure a : Counted α).count = 0 := rfl

@[simp] theorem bind_val {α β : Type} (x : Counted α) (f : α → Counted β) :
    (x >>= f).val = (f x.val).val := rfl

@[simp] theorem bind_count {α β : Type} (x : Counted α) (f : α → Counted β) :
    (x >>= f).count = x.count + (f x.val).count := rfl

end Counted

namespace Fold

/-- The value of a literal that takes part in folding. -/
def foldable? : Expr → Option Value
  | .literal (.int n) _ => some (.int n)
  | .literal (.float x) _ => some (.float x)
  | .literal (.str s) _ => some (.str s)
  | .literal (.bool b) _ => some (.bool b)
  | _ => none

/-- The literal of a value. -/
def literal? : Value → Option Literal
  | .int n => some (.int n)
  | .float x => some (.float x)
  | .bool b => some (.bool b)
  | .str s => some (.str s)
  | _ => none

/-- The literal that a unary operator gives. -/
def unary? (op : String) (operand : Expr) : Option Literal := do
  let v ← foldable? operand
  match op with
  | "-" =>
    match v.negate with
    | .ok r => literal? r
    | .error _ => none
  | "!" => literal? v.logicalNot
  | _ => none

/-- The literal that a binary operator gives; `&&` and `||` give the operand that decides. -/
def binary? (op : String) (left right : Expr) : Option Literal := do
  let a ← foldable? left
  let b ← foldable? right
  match op with
  | "&&" => literal? (if a.isTruthy then b else a)
  | "||" => literal? (if a.isTruthy then a else b)
  | op =>
    let (op, swap) ← BinaryOp.ofText? op
    let result := if swap then op.apply .empty b a else op.apply .empty a b
    match result with
    | .ok r => literal? r
    | .error _ => none

/-- A literal in place of a node, counted once; without one the node itself. -/
def replace (l : Option Literal) (span : Span) (node : Expr) : Counted Expr :=
  match l with
  | some l => ⟨.literal l span, 1⟩
  | none => ⟨node, 0⟩

mutual

/-- Fold an expression. -/
def expr : Expr → Counted Expr
  | .literal l s => pure (.literal l s)
  | .ident id => pure (.ident id)
  | .this s => pure (.this s)
  | .super m s => pure (.super m s)
  | .unary op e s => do
    let e ← expr e
    replace (unary? op e) s (.unary op e s)
  | .binary op l r s => do
    let l ← expr l
    let r ← expr r
    replace (binary? op l r) s (.binary op l r s)
  | .ternary c y n s => do return .ternary (← expr c) (← expr y) (← expr n) s
  | .cond c y n s => do return .cond (← expr c) (← block y) (← optBlock n) s
  | .function f => do return .function (← functionLiteral f)
  | .call f args s => do return .call (← expr f) (← exprs args) s
  | .array es ordered s => do return .array (← elements es) ordered s
  | .index t i s => do return .index (← expr t) (← expr i) s
  | .hash ps s => do return .hash (← pairs ps) s
  | .assign t v s => do return .assign t (← expr v) s
  | .indexAssign t i v s => do return .indexAssign (← expr t) (← expr i) (← expr v) s
  | .member t m s => do return .member (← expr t) m s
  | .memberAssign t m v s => do return .memberAssign (← expr t) m (← expr v) s
  | .spawn f args s => do return .spawn (← expr f) (← exprs args) s
  | .channel c s => do return .channel (← optExpr c) s
  | .send c v s => do return .send (← expr c) (← expr v) s
  | .receive c s => do return .receive (← expr c) s
termination_by structural e => e

def exprs : List Expr → Counted (List Expr)
  | [] => pure []
  | e :: es => do return (← expr e) :: (← exprs es)
termination_by structural es => es

def optExpr : Option Expr → Counted (Option Expr)
  | none => pure none
  | some e => do return some (← expr e)
termination_by structural e => e

def elements : List Element → Counted (List Element)
  | [] => pure []
  | e :: es => do return (← element e) :: (← elements es)
termination_by structural es => es

def element : Element → Counted Element
  | ⟨key, v⟩ => do return ⟨← optExpr key, ← expr v⟩
termination_by structural e => e

def pairs : List (Expr × Expr) → Counted (List (Expr × Expr))
  | [] => pure []
  | (k, v) :: ps => do return (← expr k, ← expr v) :: (← pairs ps)
termination_by structural ps => ps

/-- Fold the statements of a block. -/
def block : Block → Counted Block
  | ⟨ss, s⟩ => do return ⟨← stmts ss, s⟩
termination_by structural b => b

def optBlock : Option Block → Counted (Option Block)
  | none => pure none
  | some b => do return some (← block b)
termination_by structural b => b

def functionLiteral : FunctionLiteral → Counted FunctionLiteral
  | ⟨name, params, body, s⟩ => do return ⟨name, params, ← block body, s⟩
termination_by structural f => f

def optCatch : Option CatchClause → Counted (Option CatchClause)
  | none => pure none
  | some c => do return some (← catchClause c)
termination_by structural c => c

def catchClause : CatchClause → Counted CatchClause
  | ⟨param, body⟩ => do return ⟨param, ← block body⟩
termination_by structural c => c

/-- Fold a statement. -/
def stmt : Stmt → Counted Stmt
  | .bind name v constant s => do return .bind name (← expr v) constant s
  | .expr e s => do return .expr (← expr e) s
  | .block b => do return .block (← block b)
  | .ret v s => do return .ret (← optExpr v) s
  | .forLoop init c u body s => do
    return .forLoop (← optStmt init) (← optExpr c) (← optExpr u) (← block body) s
  | .whileLoop c body s => do return .whileLoop (← expr c) (← block body) s
  | .breakLoop s => pure (.breakLoop s)
  | .continueLoop s => pure (.continueLoop s)
  | .classDecl name parent body s => do return .classDecl name parent (← stmts body) s
  | .tryCatch body handler cleanup s => do
    return .tryCatch (← block body) (← optCatch handler) (← optBlock cleanup) s
  | .throw v s => do return .throw (← expr v) s
termination_by structural s => s

def optStmt : Option Stmt → Counted (Option Stmt)
  | none => pure none
  | some s => do return some (← stmt s)
termination_by structural s => s

def stmts : List Stmt → Counted (List Stmt)
  | [] => pure []
  | s :: ss => do return (← stmt s) :: (← stmts ss)
termination_by structural ss => ss

end

section

-- The equations of these functions are derived here, once for all modules that open them.
attribute [local simp] expr exprs optExpr elements element pairs block optBlock functionLiteral optCatch
  catchClause stmt optStmt stmts

end

/-- Fold a program. -/
def program (p : Program) : Counted Program := do return ⟨← stmts p.statements⟩

end Fold

/-- Folding as a configurable stage: how often it runs, if at all. -/
structure Optimizer where
  enabled : Bool
  passes : Nat
deriving DecidableEq, Repr, Inhabited

/-- What a stage did. -/
structure OptimizerStats where
  folded : Nat
  passes : Nat
deriving DecidableEq, Repr

namespace Optimizer

/-- A stage that does nothing. -/
def off : Optimizer := ⟨false, 0⟩

/-- One pass of folding. -/
def standard : Optimizer := ⟨true, 1⟩

/-- Fold `passes` times. -/
def repeatFold : Nat → Program → Program × OptimizerStats
  | 0, p => (p, ⟨0, 0⟩)
  | n + 1, p =>
    let once := Fold.program p
    let (p, stats) := repeatFold n once.val
    (p, ⟨once.count + stats.folded, stats.passes + 1⟩)

/-- Run the stage. -/
def run (o : Optimizer) (p : Program) : Program × OptimizerStats :=
  if o.enabled then repeatFold o.passes p else (p, ⟨0, 0⟩)

end Optimizer

end ScriptMachine
