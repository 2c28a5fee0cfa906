import ScriptMachine.Ast.Basic
import ScriptMachine.Machine.Access
import ScriptMachine.Symbol

/-!
# A reference evaluator for expressions

What an expression without calls, functions and jumps means, said by recursion on the expression: a
value, or the fault at which evaluation stops. The evaluator knows the heap and the globals, and nothing
of stacks, offsets or instructions.

* `Expr.eval` — the evaluator. Operands are evaluated from left to right, except that `a < b` and
  `a <= b` are `b > a` and `b >= a`; `&&` and `||` yield the operand that decides.
* `Expr.Simple` — the expressions that it covers. Their names are those of globals that an instruction
  can address.
* `Expr.room` — how many values the evaluation of an expression keeps at a time.
-/

namespace ScriptMachine

/-- What expressions act on. -/
structure Store where
  heap : Heap
  globals : Array Value

/-- A computation on the store that may stop. -/
abbrev Eval := EStateM Abort Store

namespace Eval

/-- The result of an operator, whose cause arises at `span`. -/
def ofExcept (span : Span) : Except Cause Value → Eval Value
  | .ok v => pure v
  | .error c => throw (.fault (c.placed span))

/-- Apply a binary operator. -/
def binary (op : BinaryOp) (span : Span) (a b : Value) : Eval Value := do
  ofExcept span (op.apply (← get).heap a b)

/-- Read an item. -/
def item (span : Span) (target index : Value) : Eval Value := do
  ofExcept span ((← get).heap.getItem target index)

/-- Make an array of the given items. -/
def array (items : List Value) : Eval Value :=
  modifyGet fun s =>
    let (v, heap) := s.heap.newArray items.toArray
    (v, { s with heap })

/-- Read a global. -/
def readGlobal (slot : Nat) : Eval Value := do return Globals.get (← get).globals slot

/-- Write a global. -/
def writeGlobal (slot : Nat) (v : Value) : Eval Value := do
  modify fun s => { s with globals := Globals.set s.globals slot v }
  return v

/-- A form that the evaluator does not cover. -/
def unknown : Eval Value := throw (.crash "expression not covered")

end Eval

/-- The value of a literal. -/
def Literal.value : Literal → Value
  | .int n => .int n
  | .float x => .float x
  | .str s => .str s
  | .bool b => .bool b
  | .null => .null

mutual

/-- Evaluate an expression; `slot` tells the slots of the globals. -/
def Expr.eval (slot : String → Option Nat) : Expr → Eval Value
  | .literal l _ => pure l.value
  | .ident id =>
    match slot id.name with
    | some k => Eval.readGlobal k
    | none => Eval.unknown
  | .unary op x span => do
    let v ← x.eval slot
    match op with
    | "-" => Eval.ofExcept span v.negate
    | "!" => return v.logicalNot
    | _ => Eval.unknown
  | .binary op l r span =>
    if op == "&&" then do
      let v ← l.eval slot
      if v.isTruthy then r.eval slot else return v
    else if op == "||" then do
      let v ← l.eval slot
      if v.isTruthy then return v else r.eval slot
    else
      match BinaryOp.ofText? op with
      | some (op, false) => do
        let a ← l.eval slot
        let b ← r.eval slot
        Eval.binary op span a b
      | some (op, true) => do
        let b ← r.eval slot
        let a ← l.eval slot
        Eval.binary op span b a
      | none => Eval.unknown
  | .ternary c y n _ => do
    if (← c.eval slot).isTruthy then y.eval slot else n.eval slot
  | .cond c y n _ => do
    if (← c.eval slot).isTruthy then y.eval slot
    else
      match n with
      | some n => n.eval slot
      | none => return .null
  | .array es ordered _ =>
    if Element.makeOrderedMap es ordered then Eval.unknown
    else do
      let items ← Element.evalAll slot es
      Eval.array items
  | .index t i span => do
    let target ← t.eval slot
    let index ← i.eval slot
    Eval.item span target index
  | .assign target e _ => do
    let v ← e.eval slot
    match slot target.name with
    | some k => Eval.writeGlobal k v
    | none => Eval.unknown
  | _ => Eval.unknown

/-- Evaluate the values of array elements. -/
def Element.evalAll (slot : String → Option Nat) : List Element → Eval (List Value)
  | [] => pure []
  | ⟨_, value⟩ :: es => do
    let v ← value.eval slot
    let vs ← Element.evalAll slot es
    return v :: vs

/-- Evaluate a branch: its value is that of its last expression. -/
def Block.eval (slot : String → Option Nat) : Block → Eval Value
  | ⟨ss, _⟩ => Stmt.evalLast slot ss

/-- Evaluate expression statements. -/
def Stmt.evalLast (slot : String → Option Nat) : List Stmt → Eval Value
  | [] => return .null
  | [.expr e _] => e.eval slot
  | .expr e _ :: ss => do
    discard <| e.eval slot
    Stmt.evalLast slot ss
  | _ => Eval.unknown

end

/-! ## The expressions covered -/

mutual

/-- The expressions that the evaluator covers: without calls, functions and jumps, with names of globals
that an instruction can address, and with arrays whose elements an instruction can count. -/
def Expr.Simple (slot : String → Option Nat) : Expr → Prop
  | .literal _ _ => True
  | .ident id => ∃ k < 65536, slot id.name = some k
  | .unary _ x _ => x.Simple slot
  | .binary _ l r _ => l.Simple slot ∧ r.Simple slot
  | .ternary c y n _ => c.Simple slot ∧ y.Simple slot ∧ n.Simple slot
  | .cond c y n _ =>
    c.Simple slot ∧ y.Simple slot ∧
      match n with
      | some n => n.Simple slot
      | none => True
  | .array es ordered _ =>
    Element.makeOrderedMap es ordered = false ∧ es.length < 65536 ∧ Element.AllSimple slot es
  | .index t i _ => t.Simple slot ∧ i.Simple slot
  | .assign target e _ => (∃ k < 65536, slot target.name = some k) ∧ e.Simple slot
  | _ => False

def Element.AllSimple (slot : String → Option Nat) : List Element → Prop
  | [] => True
  | ⟨_, value⟩ :: es => value.Simple slot ∧ Element.AllSimple slot es

def Block.Simple (slot : String → Option Nat) : Block → Prop
  | ⟨ss, _⟩ => Stmt.AllSimple slot ss

/-- Expression statements alone. -/
def Stmt.AllSimple (slot : String → Option Nat) : List Stmt → Prop
  | [] => True
  | .expr e _ :: ss => e.Simple slot ∧ Stmt.AllSimple slot ss
  | _ => False

end

mutual

/-- How many values the evaluation of an expression keeps at a time. -/
def Expr.room : Expr → Nat
  | .unary _ x _ => x.room
  | .binary op l r _ =>
    if op == "&&" || op == "||" then max (max 2 l.room) r.room
    else
      match BinaryOp.ofText? op with
      | some (_, true) => max r.room (l.room + 1)
      | _ => max l.room (r.room + 1)
  | .ternary c y n _ => max c.room (max y.room n.room)
  | .cond c y n _ =>
    max c.room (max y.room
      (match n with
      | some n => n.room
      | none => 1))
  | .array es _ _ => max 1 (Element.roomAll es)
  | .index t i _ => max t.room (i.room + 1)
  | .assign _ e _ => e.room
  | _ => 1

def Element.roomAll : List Element → Nat
  | [] => 0
  | ⟨_, value⟩ :: es => max value.room (Element.roomAll es + 1)

def Block.room : Block → Nat
  | ⟨ss, _⟩ => Stmt.roomAll ss

def Stmt.roomAll : List Stmt → Nat
  | .expr e _ :: ss => max e.room (Stmt.roomAll ss)
  | _ => 1

end

end ScriptMachine
