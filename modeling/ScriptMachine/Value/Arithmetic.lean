import ScriptMachine.Decimal.Binary64
import ScriptMachine.Fault
import ScriptMachine.Value.Equal

/-!
# What operators compute

Integers are 64-bit words and wrap around; an integer next to a float becomes a float; two strings
are joined by `+` and ordered by their characters. Equality never fails. Folding of constants and
the machine share these definitions.
-/

namespace ScriptMachine

namespace BinaryOp

/-- An operator on two integers. Division truncates toward zero; the remainder has the sign of the
dividend. -/
def onInts (op : BinaryOp) (x y : Int64) : Except Cause Value :=
  match op with
  | .add => .ok (.int (x + y))
  | .sub => .ok (.int (x - y))
  | .mul => .ok (.int (x * y))
  | .div => if y == 0 then .error .divideByZero else .ok (.int (x / y))
  | .mod => if y == 0 then .error .divideByZero else .ok (.int (x % y))
  | .equal => .ok (.bool (x == y))
  | .notEqual => .ok (.bool (x != y))
  | .greater => .ok (.bool (decide (y < x)))
  | .greaterEqual => .ok (.bool (decide (y ≤ x)))

/-- An operator on two floats. -/
def onFloats (op : BinaryOp) (x y : Float) : Except Cause Value :=
  match op with
  | .add => .ok (.float (x + y))
  | .sub => .ok (.float (x - y))
  | .mul => .ok (.float (x * y))
  | .div => if y == 0.0 then .error .divideByZero else .ok (.float (x / y))
  | .mod => if y == 0.0 then .error .divideByZero else .ok (.float (Decimal.remainder x y))
  | .equal => .ok (.bool (x == y))
  | .notEqual => .ok (.bool (x != y))
  | .greater => .ok (.bool (decide (y < x)))
  | .greaterEqual => .ok (.bool (decide (y ≤ x)))

/-- An operator on two strings, where it is defined. -/
def onStrings? (op : BinaryOp) (x y : String) : Option Value :=
  match op with
  | .add => some (.str (x ++ y))
  | .greater => some (.bool (decide (y < x)))
  | .greaterEqual => some (.bool (!decide (x < y)))
  | _ => none

/-- A number as a float, integers rounded to the nearest one. -/
def float? : Value → Option Float
  | .int n => some (Float.ofInt n.toInt)
  | .float x => some x
  | _ => none

/-- Apply an operator. -/
def apply (h : Heap) (op : BinaryOp) (a b : Value) : Except Cause Value :=
  match a, b with
  | .int x, .int y => op.onInts x y
  | a, b =>
    match op with
    | .equal => .ok (.bool (h.equal a b))
    | .notEqual => .ok (.bool (!h.equal a b))
    | op =>
      match float? a, float? b with
      | some x, some y => op.onFloats x y
      | _, _ =>
        let refuse : Except Cause Value :=
          .error (.typeMismatch (.operands op a.typeName b.typeName))
        match a, b with
        | .str x, .str y =>
          match op.onStrings? x y with
          | some v => .ok v
          | none => refuse
        | _, _ => refuse

end BinaryOp

namespace Value

/-- Unary minus. -/
def negate : Value → Except Cause Value
  | .int n => .ok (.int (-n))
  | .float x => .ok (.float (-x))
  | v => .error (.typeMismatch (.negate v.typeName))

/-- Logical not. -/
def logicalNot (v : Value) : Value := .bool (!v.isTruthy)

end Value

end ScriptMachine
