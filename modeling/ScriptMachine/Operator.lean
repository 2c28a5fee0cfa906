import ScriptMachine.Code.Opcode

/-!
# Binary operators

The operators that have an instruction. `<` and `<=` have none: `a < b` is `b > a`.
-/

namespace ScriptMachine

/-- A binary operator with an instruction of its own. -/
inductive BinaryOp where
  | add
  | sub
  | mul
  | div
  | mod
  | equal
  | notEqual
  | greater
  | greaterEqual
deriving DecidableEq, Repr

namespace BinaryOp

/-- The operator written as `text`, and whether its operands change places. -/
def ofText? (text : String) : Option (BinaryOp × Bool) :=
  match text with
  | "+" => some (.add, false)
  | "-" => some (.sub, false)
  | "*" => some (.mul, false)
  | "/" => some (.div, false)
  | "%" => some (.mod, false)
  | "==" => some (.equal, false)
  | "!=" => some (.notEqual, false)
  | ">" => some (.greater, false)
  | ">=" => some (.greaterEqual, false)
  | "<" => some (.greater, true)
  | "<=" => some (.greaterEqual, true)
  | _ => none

/-- The instruction of an operator. -/
def opcode : BinaryOp → Opcode
  | .add => .add
  | .sub => .sub
  | .mul => .mul
  | .div => .div
  | .mod => .mod
  | .equal => .equal
  | .notEqual => .notEqual
  | .greater => .greater
  | .greaterEqual => .greaterEqual

/-- The operator as written in messages. -/
def symbol : BinaryOp → String
  | .add => "+"
  | .sub => "-"
  | .mul => "*"
  | .div => "/"
  | .mod => "%"
  | .equal => "=="
  | .notEqual => "!="
  | .greater => ">"
  | .greaterEqual => ">="

end BinaryOp

end ScriptMachine
