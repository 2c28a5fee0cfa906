import Mathlib.Logic.Relation
import ScriptMachine.Compile.Lower

/-!
# Points of a block

What the code of a finished block looks like, instruction by instruction. A `Point` is an instruction
with its offset and three things that the source decides: the protected regions around it, the number
of operands below it on the stack, and what the instructions just before have set up for it. The
vocabulary here serves the layout relation of `Layout.Relation`:

* `Emitted.takes`, `Emitted.leaves` — what an instruction does to the height of the operand stack;
* `Region`, `Loop`, `Context` — what lies around a piece of the source;
* `Operand` — the expressions whose values an expression needs on the stack, in order;
* `Node` — the pieces of the source that get code of their own;
* `Site.parts` — the pieces that are compiled as part of another one, and where.
-/

namespace ScriptMachine

/-! ## Heights -/

namespace Opcode

/-- Whether control always goes on to the next instruction, as far as its own frame is concerned. -/
def isPlain : Opcode → Bool
  | .jump | .jumpIfFalse | .returnValue | .returnNull | .tryEnter | .finallyEnd | .throw | .rethrow
  | .halt => false
  | _ => true

/-- Whether an instruction never comes to a fault that can be caught, and never has to wait. -/
def isSure : Opcode → Bool
  | .setLocal | .setGlobal | .setFree | .pop | .null | .pushTrue | .pushFalse | .jump | .tryEnter
  | .finallyEnd | .returnValue | .returnNull => true
  | _ => false

/-- Byte lengths of the instructions with fixed shapes. -/
theorem lengths : length .jump = 3 ∧ length .jumpIfFalse = 3 ∧ length .finallyEnd = 3 ∧
    length .tryEnter = 5 ∧ length .dup = 1 ∧ length .pop = 1 ∧ length .null = 1 ∧
    length .pushFalse = 1 ∧ length .constant = 3 ∧ length .rethrow = 1 := by decide

end Opcode

namespace Emitted

/-- What is left of an operand that is written with a width of one or two bytes. -/
def cut (width n : Nat) : Nat := if width = 2 then n % 65536 else n % 256

/-- An operand as the machine reads it. -/
def operand (i : Emitted) (k : Nat) : Nat := cut (i.opcode.widths.getD k 0) (i.operands.getD k 0)

/-- Number of values that an instruction needs on top of the stack. -/
def takes (i : Emitted) : Nat :=
  match i.opcode with
  | .setLocal | .setGlobal | .setFree | .negate | .not | .pop | .dup | .getProperty | .receive
  | .jumpIfFalse | .returnValue | .throw => 1
  | .add | .sub | .mul | .div | .mod | .equal | .notEqual | .greater | .greaterEqual | .getIndex
  | .setProperty | .send | .rethrow => 2
  | .setIndex => 3
  | .array | .hash | .orderedMap => i.operand 0
  | .call | .spawn => i.operand 0 + 1
  | .invoke => i.operand 1 + 1
  | .invokeSuper => i.operand 1 + 2
  | .channel => if i.operand 0 = 0 then 0 else 1
  | _ => 0

/-- Number of values that an instruction leaves in place of those it needs. -/
def leaves (i : Emitted) : Nat :=
  match i.opcode with
  | .pop | .captureLocal | .captureFree | .captureSelf | .jump | .jumpIfFalse | .returnValue
  | .returnNull | .tryEnter | .finallyEnd | .throw | .rethrow | .halt => 0
  | .dup => 2
  | _ => 1

/-- The height of the stack after an instruction. -/
def after (i : Emitted) (height : Nat) : Nat := height - i.takes + i.leaves

/-- The slot that an instruction reads or writes in its frame, if it does. -/
def slot? (i : Emitted) : Option Nat :=
  match i.opcode with
  | .getLocal | .setLocal => some (i.operand 0)
  | _ => none

/-- The local that an instruction names. -/
def local? (i : Emitted) : Option Nat :=
  match i.opcode with
  | .getLocal | .setLocal | .captureLocal => some (i.operand 0)
  | _ => none

theorem local?_of_slot? {i : Emitted} {k : Nat} (h : i.slot? = some k) : i.local? = some k := by
  unfold slot? at h
  unfold local?
  split at h
  · next hop => rwa [hop]
  · next hop => rwa [hop]
  · cases h

/-- The instructions leave `m` values where there were `k`, and never need more than those. -/
def Balance : List Emitted → Nat → Nat → Prop
  | [], k, m => k = m
  | i :: is, k, m => i.takes ≤ k ∧ Balance is (i.after k) m

/-- The instructions leave at least `m` values where there were `k`, and never need more than those. -/
def Enough : List Emitted → Nat → Nat → Prop
  | [], k, m => m ≤ k
  | i :: is, k, m => i.takes ≤ k ∧ Enough is (i.after k) m

end Emitted

/-! ## Set-ups -/

/-- What the instructions just before have set up for an instruction. -/
inductive Setup where
  | nothing
  /-- Cells queued for a closure. -/
  | cells (n : Nat)
  /-- A constant on top of the stack. -/
  | constant (place : Nat)
deriving DecidableEq

namespace Setup

/-- Number of cells queued for a closure. -/
def queued : Setup → Nat
  | .cells n => n
  | _ => 0

/-- What an instruction sets up for the next one. -/
def after (u : Setup) (i : Emitted) : Setup :=
  match i.opcode with
  | .captureLocal | .captureFree | .captureSelf => .cells (u.queued + 1)
  | .constant => .constant (i.operand 0)
  | _ => .nothing

end Setup

/-! ## Regions, loops and points -/

/-- A protected region, as the code inside it knows it. -/
structure Region where
  /-- Offset of the instruction that enters the region. -/
  enter : Nat
  catchTarget : Option Nat
  finallyTarget : Option Nat
  /-- Height of the stack where the region is entered. -/
  height : Nat
  /-- The finally body that an early exit has to run. -/
  cleanup : Option Block

/-- The two statements that leave the body of a loop by a jump. -/
inductive Leap where
  | brk
  | cont
deriving DecidableEq

/-- A loop, as the code inside it knows it. -/
structure Loop where
  /-- Where `break` goes. -/
  breakTo : Nat
  /-- Where `continue` goes; nowhere once the waiting jumps have been placed. -/
  continueTo : Option Nat
  /-- Whether `continue` jumps wait for their target. -/
  waits : Bool
  /-- The regions around the loop. -/
  regions : List Region
  /-- Height of the stack around the loop. -/
  height : Nat
  /-- Whether the code at hand belongs to a finally body that runs after one of these regions was
  left. -/
  left : Bool

/-- What lies around a piece of code. -/
structure Context where
  /-- Open regions, innermost first. -/
  regions : List Region
  /-- Loops, innermost first. -/
  loops : List Loop
  /-- Height of the stack. -/
  height : Nat

/-- An instruction of a finished block. -/
structure Point where
  offset : Nat
  item : Emitted
  /-- The regions around the instruction, innermost first. -/
  regions : List Region
  /-- Height of the stack before the instruction. -/
  height : Nat
  setup : Setup
  /-- For a jump that had to wait for its target: what it is for, and how many loops there are around
  it. -/
  leap : Option (Leap × Nat)

namespace Point

/-- Length of a piece of code in bytes. -/
def size : List Point → Nat
  | [] => 0
  | p :: code => p.item.opcode.length + size code

@[simp] theorem size_nil : size [] = 0 := rfl

@[simp] theorem size_cons (p : Point) (code : List Point) :
    size (p :: code) = p.item.opcode.length + size code := rfl

@[simp] theorem size_append (a b : List Point) : size (a ++ b) = size a + size b := by
  induction a with
  | nil => simp
  | cons p a ih => simp [ih, Nat.add_assoc]

/-- Some jump of a kind waits for the loop that is number `n` from outside. -/
def Waits (l : Leap) (n : Nat) (code : List Point) : Prop := ∃ p ∈ code, p.leap = some (l, n)

/-- Instructions in a row, the first one at `offset`, over `height` operands and after a set-up. -/
def rowFrom (u : Setup) (regions : List Region) (offset height : Nat) : List Emitted → List Point
  | [] => []
  | i :: is =>
    ⟨offset, i, regions, height, u, none⟩
      :: rowFrom (u.after i) regions (offset + i.opcode.length) (i.after height) is

/-- Instructions in a row for which nothing is set up. -/
abbrev row (regions : List Region) (offset height : Nat) (is : List Emitted) : List Point :=
  rowFrom .nothing regions offset height is

end Point

/-- The loop, once all regions above a depth were left. -/
def Loop.leave (depth : Nat) (l : Loop) : Loop :=
  { l with left := l.left || decide (depth < l.regions.length) }

namespace Context

/-- The body of a function, or the top level of a unit. -/
def top : Context := ⟨[], [], 0⟩

/-- With `k` more operands on the stack. -/
def up (Γ : Context) (k : Nat) : Context := { Γ with height := Γ.height + k }

/-- Inside one more region. -/
def enter (Γ : Context) (r : Region) : Context := { Γ with regions := r :: Γ.regions }

/-- Inside one more loop. -/
def loop (Γ : Context) (breakTo : Nat) (continueTo : Option Nat) (waits : Bool) : Context :=
  { Γ with loops := ⟨breakTo, continueTo, waits, Γ.regions, Γ.height, false⟩ :: Γ.loops }

/-- Once the regions inside `outer` were left. -/
def leave (Γ : Context) (outer : List Region) : Context :=
  { Γ with regions := outer, loops := Γ.loops.map (Loop.leave outer.length) }

/-- Where an exit from all regions above `depth` ends. -/
def exitTo (Γ : Context) (depth : Nat) : Context :=
  { Γ with regions := Γ.regions.drop (Γ.regions.length - depth) }

/-- An instruction with `k` operands of the piece at hand on the stack. -/
def point (Γ : Context) (offset k : Nat) (op : Opcode) (operands : List Nat) (span : Span) : Point :=
  ⟨offset, ⟨op, operands, span⟩, Γ.regions, Γ.height + k, .nothing, none⟩

@[simp] theorem point_item (Γ : Context) (o k : Nat) (op : Opcode) (xs : List Nat) (span : Span) :
    (Γ.point o k op xs span).item = ⟨op, xs, span⟩ := rfl

/-- A jump of `break` or `continue` that had to wait. -/
def leap (Γ : Context) (offset : Nat) (l : Leap) (target : Nat) (span : Span) : Point :=
  ⟨offset, ⟨.jump, [target], span⟩, Γ.regions, Γ.height, .nothing, some (l, Γ.loops.length)⟩

end Context

/-! ## Operands -/

/-- What has to be on the stack for an expression. -/
inductive Operand where
  | expr (e : Expr)
  /-- The key of an element without one. -/
  | index (n : Int64) (span : Span)

namespace Operand

/-- Keys and values of an ordered map, from the next implicit key on. -/
def ofElements (span : Span) (next : Int64) : List Element → List Operand
  | [] => []
  | ⟨some key, value⟩ :: es =>
    .expr key :: .expr value :: ofElements span (nextIndexAfter next (some key)) es
  | ⟨none, value⟩ :: es => .index next span :: .expr value :: ofElements span (next + 1) es

/-- Keys and values of a hash map. -/
def ofPairs : List (Expr × Expr) → List Operand
  | [] => []
  | (key, value) :: ps => .expr key :: .expr value :: ofPairs ps

end Operand

namespace Expr

/-- The operands of an expression in the order of their evaluation, if it evaluates all of them. -/
def operands? : Expr → Option (List Operand)
  | .literal _ _ | .ident _ | .function _ | .channel none _ | .this _ => some []
  | .unary _ e _ | .member e _ _ | .channel (some e) _ | .receive e _ | .assign _ e _ =>
    some [.expr e]
  | .binary op l r _ =>
    if op == "&&" || op == "||" then none
    else
      match BinaryOp.ofText? op with
      | some (_, true) => some [.expr r, .expr l]
      | some (_, false) => some [.expr l, .expr r]
      | none => none
  | .index t i _ => some [.expr t, .expr i]
  | .memberAssign t _ v _ => some [.expr t, .expr v]
  | .send c v _ => some [.expr c, .expr v]
  | .indexAssign t i v _ => some [.expr t, .expr i, .expr v]
  | .call (.member t _ _) args _ => some (.expr t :: args.map .expr)
  | .call (.super _ s) args _ => some (.expr (.this s) :: args.map .expr)
  | .call f args _ | .spawn f args _ => some (.expr f :: args.map .expr)
  | .array es ordered span =>
    if Element.makeOrderedMap es ordered then some (Operand.ofElements span 0 es)
    else some (es.map fun e => .expr e.value)
  | .hash ps _ => some (Operand.ofPairs ps)
  | .ternary _ _ _ _ | .cond _ _ _ _ | .super _ _ => none

/-- Whether the number of operands fits the instruction that counts them. -/
def Counted (e : Expr) : Prop :=
  match e with
  | .array _ _ _ | .hash _ _ => ∀ es, e.operands? = some es → es.length < 65536
  | _ => True

end Expr

/-- Instructions in a row that control runs through. They leave at least `m` values where there were
`k`, and exactly `m` provided that operands were counted right. -/
structure Straight (counted : Prop) (k m : Nat) (tail : List Emitted) : Prop where
  plain : ∀ i ∈ tail, i.opcode.isPlain = true
  sized : ∀ i ∈ tail, i.operands.length = i.opcode.widths.length
  enough : Emitted.Enough tail k m
  balance : counted → Emitted.Balance tail k m

/-- The instructions that make the value of an expression, or the effect of a statement, once its `k`
operands are there. -/
structure Tail (counted : Prop) (k m : Nat) (tail : List Emitted) : Prop extends
    Straight counted k m tail where
  nonempty : tail ≠ []

/-- The instructions that bind a value on top of the stack to a variable, or only drop it. -/
structure Binding (tail : List Emitted) : Prop extends Tail True 1 0 tail where
  sure : ∀ i ∈ tail, i.opcode.isSure = true

/-! ## Pieces of the source -/

/-- A piece of the source that gets code of its own. -/
inductive Node where
  | expr (e : Expr)
  /-- An expression, seen from inside. -/
  | form (e : Expr)
  /-- The operands of `e` from number `k` on. -/
  | operands (e : Expr) (k : Nat) (rest : List Operand)
  /-- A block that has a value. -/
  | value (b : Block)
  | alternative (b : Option Block) (span : Span)
  | stmt (s : Stmt)
  /-- A statement, seen from inside. -/
  | action (s : Stmt)
  | stmts (ss : List Stmt)
  | optStmt (s : Option Stmt)
  | test (condition : Option Expr) (span : Span)
  | update (update : Option Expr) (span : Span)
  /-- The way out of all regions above a depth. -/
  | exits (depth : Nat) (span : Span)
  /-- A function body. -/
  | body (b : Block)
  /-- The top level of a unit. -/
  | unit (ss : List Stmt)

/-! ## Parts

Which pieces are compiled on the way through a piece. An early exit compiles the finally bodies of the
regions it leaves, so these are parts of `return`, `break` and `continue`. A function body is a part
too, but a block of its own. -/

/-- What a piece of the source has to know of a loop around it. -/
structure LoopShape where
  /-- Number of regions around the loop. -/
  depth : Nat
  height : Nat
  /-- Whether nothing is left that could place a waiting `continue`. -/
  closed : Bool
  /-- Whether one of the regions around the loop was left. -/
  left : Bool

/-- What lies around a piece of the source. -/
structure Site where
  /-- Finally bodies of the open regions, innermost first. -/
  cleanups : Regions
  loops : List LoopShape
  height : Nat

namespace Site

def top : Site := ⟨[], [], 0⟩

def up (S : Site) (k : Nat) : Site := { S with height := S.height + k }

def enter (S : Site) (cleanup : Option Block) : Site := { S with cleanups := cleanup :: S.cleanups }

def loop (S : Site) (closed : Bool) : Site :=
  { S with loops := ⟨S.cleanups.length, S.height, closed, false⟩ :: S.loops }

def leave (S : Site) (outer : Regions) : Site :=
  { S with
    cleanups := outer
    loops := S.loops.map fun l => { l with left := l.left || decide (outer.length < l.depth) } }

/-- The bodies of the methods of a class. -/
def methodBodies (body : List Stmt) : List Block :=
  body.filterMap fun
    | .bind _ (.function f) _ _ | .expr (.function f) _ => some f.body
    | _ => none

/-- Parts of an expression. -/
def formParts (S : Site) (e : Expr) : List (Site × Node) :=
  match e with
  | .binary op l r _ =>
    if op == "&&" || op == "||" then [(S, .expr l), (S, .expr r)]
    else [(S, .operands e 0 (e.operands?.getD []))]
  | .ternary c y n _ => [(S, .expr c), (S, .expr y), (S, .expr n)]
  | .cond c y n span => [(S, .expr c), (S, .value y), (S, .alternative n span)]
  | .function f => [(S, .operands e 0 []), (top, .body f.body)]
  | e => [(S, .operands e 0 (e.operands?.getD []))]

/-- Parts of a statement. -/
def actionParts (S : Site) : Stmt → List (Site × Node)
  | .bind _ e _ _ | .expr e _ | .throw e _ => [(S, .expr e)]
  | .block b => [(S, .stmts b.statements)]
  | .ret none span => [(S, .exits 0 span)]
  | .ret (some e) span => [(S, .expr e), (S.up 1, .exits 0 span)]
  | .forLoop init c u b span =>
    [(S, .optStmt init), (S.loop false, .test c span), (S.loop false, .stmts b.statements),
      (S.loop true, .update u span)]
  | .whileLoop c b _ => [(S.loop false, .expr c), (S.loop false, .stmts b.statements)]
  | .breakLoop span | .continueLoop span => S.loops.head?.toList.map fun l => (S, .exits l.depth span)
  | .classDecl _ _ body _ => (methodBodies body).map fun b => (top, .body b)
  | .tryCatch b none none _ => [(S, .stmts b.statements)]
  | .tryCatch b (some c) none _ =>
    [(S.enter none, .stmts b.statements), (S, .stmts c.body.statements)]
  | .tryCatch b none (some f) _ =>
    [(S.enter (some f), .stmts b.statements), (S.up 2, .stmts f.statements)]
  | .tryCatch b (some c) (some f) _ =>
    [(S.enter (some f), .stmts b.statements), (S.enter (some f), .stmts c.body.statements),
      (S.up 2, .stmts f.statements)]

/-- Parts of a block with a value. -/
def valueParts (S : Site) (ss : List Stmt) : List (Site × Node) :=
  match ss.getLast? with
  | some (.expr e _) => [(S, .stmts ss.dropLast), (S, .expr e)]
  | _ => [(S, .stmts ss)]

theorem valueParts_of_not_endsWithExpr {S : Site} {ss : List Stmt} (h : endsWithExpr ss = false) :
    valueParts S ss = [(S, .stmts ss)] := by
  unfold valueParts
  split
  · next e s hlast => simp [endsWithExpr, hlast] at h
  · rfl

/-- Parts of the way out of all regions above a depth. -/
def exitParts (S : Site) (depth : Nat) (span : Span) : List (Site × Node) :=
  match S.cleanups with
  | [] => []
  | cleanup :: outer =>
    if depth ≤ outer.length then
      cleanup.toList.map (fun b => (S.leave outer, .stmts b.statements)) ++
        [(S.leave outer, .exits depth span)]
    else []

/-- The pieces that are compiled as parts of a piece, and what lies around them. -/
def parts (S : Site) : Node → List (Site × Node)
  | .expr e => [(S, .form e)]
  | .form e => formParts S e
  | .operands _ _ [] => []
  | .operands e k (.expr x :: xs) => [(S, .expr x), (S.up 1, .operands e (k + 1) xs)]
  | .operands e k (.index _ _ :: xs) => [(S.up 1, .operands e (k + 1) xs)]
  | .value b => valueParts S b.statements
  | .alternative b _ => b.toList.map fun b => (S, .value b)
  | .stmt s => [(S, .action s)]
  | .action s => actionParts S s
  | .stmts [] => []
  | .stmts (s :: ss) => [(S, .stmt s), (S, .stmts ss)]
  | .optStmt s => s.toList.map fun s => (S, .stmt s)
  | .test c _ | .update c _ => c.toList.map fun c => (S, .expr c)
  | .exits depth span => exitParts S depth span
  | .body b => valueParts S b.statements
  | .unit ss => [(S, .stmts ss)]

/-- A piece is compiled on the way through another one. -/
def Visits : Site × Node → Site × Node → Prop :=
  Relation.ReflTransGen fun a b => b ∈ parts a.1 a.2

end Site

/-- What the source knows of a context. -/
def Context.site (Γ : Context) : Site where
  cleanups := Γ.regions.map Region.cleanup
  loops := Γ.loops.map fun l => ⟨l.regions.length, l.height, l.continueTo.isNone, l.left⟩
  height := Γ.height

section

variable (Γ : Context)

@[simp] theorem Context.site_up (k : Nat) : (Γ.up k).site = Γ.site.up k := rfl

@[simp] theorem Context.site_enter (r : Region) : (Γ.enter r).site = Γ.site.enter r.cleanup := rfl

@[simp] theorem Context.site_loop (breakTo : Nat) (continueTo : Option Nat) (waits : Bool) :
    (Γ.loop breakTo continueTo waits).site = Γ.site.loop continueTo.isNone := by
  simp [Context.site, Context.loop, Site.loop]

@[simp] theorem Context.site_leave (rs : List Region) :
    (Γ.leave rs).site = Γ.site.leave (rs.map Region.cleanup) := by
  simp [Context.leave, Context.site, Site.leave, Loop.leave]

end

/-- What is known about a piece of the source once its block is finished. -/
inductive Note where
  /-- The code of a statement. -/
  | stmt (s : Stmt) (start stop : Nat) (Γ : Context)
  /-- The code of an expression. -/
  | expr (e : Expr) (start stop : Nat) (Γ : Context)
  /-- Operand number `k` of `e` is on the stack, under the rest of the operands, while control is
  between `start` and `stop`. -/
  | held (e : Expr) (k start stop : Nat) (Γ : Context)

end ScriptMachine
