import ScriptMachine.Ast.Build
import ScriptMachine.Decimal.Text
import ScriptMachine.Json.Basic
import ScriptMachine.Word

/-!
# Compact programs

A short document form for programs built by hand: a node is an array whose first item names the
constructor and whose other items are its arguments in order; `null` stands for an absent optional.
-/

namespace ScriptMachine.Compact

/-- Read `null` as absent and anything else by `f`. -/
def option? {α : Type} (f : Json → Option α) (j : Json) : Option (Option α) :=
  if j.isNull then some none else (f j).map some

/-- Read an array item by item. -/
def list? {α : Type} (f : Json → Option α) (j : Json) : Option (List α) :=
  j.items?.bind fun items => items.mapM f

/-- Read a signed decimal integer that fits a 64-bit word. -/
def int64? (text : String) : Option Int64 := do
  let (negative, digits) := match text.toList with
    | '-' :: r => (true, r)
    | '+' :: r => (false, r)
    | r => (false, r)
  if digits.isEmpty || !digits.all Char.isDigit then none
  else
    let n : Int := Decimal.digitsValue digits
    let n := if negative then -n else n
    Word.signed64? n

mutual

/-- Read an expression that nests at most `fuel` deep. -/
def expr? (fuel : Nat) (j : Json) : Option Expr :=
  match fuel with
  | 0 => none
  | fuel + 1 =>
    match j with
    | .arr [.str "int", n] => (n.str?.bind int64?).map Build.int
    | .arr [.str "float", x] => (x.str?.bind Decimal.readFloat?).map Build.float
    | .arr [.str "string", s] => s.str?.map Build.string
    | .arr [.str "boolean", b] => b.bool?.map Build.boolean
    | .arr [.str "null"] => some Build.null
    | .arr [.str "id", name] => name.str?.map Build.id
    | .arr [.str "prefix", op, e] => do some (Build.unary (← op.str?) (← expr? fuel e))
    | .arr [.str "infix", op, l, r] => do
      some (Build.binary (← op.str?) (← expr? fuel l) (← expr? fuel r))
    | .arr [.str "ternary", c, y, n] => do
      some (Build.ternary (← expr? fuel c) (← expr? fuel y) (← expr? fuel n))
    | .arr [.str "if", c, y, n] => do
      some (Build.cond (← expr? fuel c) (← list? (stmt? fuel) y)
        (← option? (list? (stmt? fuel)) n))
    | .arr [.str "func", ps, body] => do
      some (Build.function none (← list? Json.str? ps) (← list? (stmt? fuel) body))
    | .arr [.str "named_func", name, ps, body] => do
      some (Build.function (some (← name.str?)) (← list? Json.str? ps) (← list? (stmt? fuel) body))
    | .arr [.str "call", f, args] => do
      some (Build.call (← expr? fuel f) (← list? (expr? fuel) args))
    | .arr [.str "array", vs] => (list? (expr? fuel) vs).map Build.array
    | .arr [.str "ordered", es] => do
      let entries ← list? (fun e =>
        match e with
        | .arr [k, v] => do some (← option? (expr? fuel) k, ← expr? fuel v)
        | _ => none) es
      some (Build.ordered entries)
    | .arr [.str "hash", ps] => do
      let pairs ← list? (fun p =>
        match p with
        | .arr [k, v] => do some (← expr? fuel k, ← expr? fuel v)
        | _ => none) ps
      some (Build.hash pairs)
    | .arr [.str "index", t, i] => do some (Build.index (← expr? fuel t) (← expr? fuel i))
    | .arr [.str "assign", name, v] => do some (Build.assign (← name.str?) (← expr? fuel v))
    | .arr [.str "index_assign", t, i, v] => do
      some (Build.indexAssign (← expr? fuel t) (← expr? fuel i) (← expr? fuel v))
    | .arr [.str "member", t, name] => do some (Build.member (← expr? fuel t) (← name.str?))
    | .arr [.str "member_assign", t, name, v] => do
      some (Build.memberAssign (← expr? fuel t) (← name.str?) (← expr? fuel v))
    | .arr [.str "method_call", t, name, args] => do
      some (Build.methodCall (← expr? fuel t) (← name.str?) (← list? (expr? fuel) args))
    | .arr [.str "spawn", f, args] => do
      some (Build.spawn (← expr? fuel f) (← list? (expr? fuel) args))
    | .arr [.str "channel", c] => (option? (expr? fuel) c).map Build.channel
    | .arr [.str "send", c, v] => do some (Build.send (← expr? fuel c) (← expr? fuel v))
    | .arr [.str "recv", c] => (expr? fuel c).map Build.receive
    | .arr [.str "this"] => some Build.this
    | .arr [.str "super_call", name, args] => do
      some (Build.superCall (← name.str?) (← list? (expr? fuel) args))
    | _ => none
termination_by structural fuel

/-- Read a statement that nests at most `fuel` deep. -/
def stmt? (fuel : Nat) (j : Json) : Option Stmt :=
  match fuel with
  | 0 => none
  | fuel + 1 =>
    match j with
    | .arr [.str "let", name, v] => do some (Build.bind (← name.str?) (← expr? fuel v))
    | .arr [.str "const", name, v] => do some (Build.const (← name.str?) (← expr? fuel v))
    | .arr [.str "expr", e] => (expr? fuel e).map Build.expr
    | .arr [.str "ret", v] => do some (Build.ret (some (← expr? fuel v)))
    | .arr [.str "ret_void"] => some (Build.ret none)
    | .arr [.str "while", c, body] => do
      some (Build.whileLoop (← expr? fuel c) (← list? (stmt? fuel) body))
    | .arr [.str "for", init, c, u, body] => do
      some (Build.forLoop (← option? (stmt? fuel) init) (← option? (expr? fuel) c)
        (← option? (expr? fuel) u) (← list? (stmt? fuel) body))
    | .arr [.str "break"] => some Build.breakLoop
    | .arr [.str "continue"] => some Build.continueLoop
    | .arr [.str "block", body] => do some (.block (Build.block (← list? (stmt? fuel) body)))
    | .arr [.str "class", name, parent, body] => do
      some (Build.classDecl (← name.str?) (← option? Json.str? parent)
        (← list? (stmt? fuel) body))
    | .arr [.str "method", name, ps, body] => do
      some (Build.method (← name.str?) (← list? Json.str? ps) (← list? (stmt? fuel) body))
    | .arr [.str "property", name] => name.str?.map Build.property
    | .arr [.str "try", body, handler, cleanup] => do
      let handler ← option? (fun h =>
        match h with
        | .arr [param, body] => do
          some (← option? Json.str? param, ← list? (stmt? fuel) body)
        | _ => none) handler
      some (Build.tryCatch (← list? (stmt? fuel) body) handler
        (← option? (list? (stmt? fuel)) cleanup))
    | .arr [.str "throw", v] => (expr? fuel v).map Build.throw
    | _ => none
termination_by structural fuel

end

/-- Read a program from the array of its statements. -/
def program? (j : Json) : Option Program :=
  (list? (stmt? j.depth) j).map Program.mk

end ScriptMachine.Compact
