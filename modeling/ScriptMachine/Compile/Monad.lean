import ScriptMachine.Compile.Block
import ScriptMachine.Compile.Constant
import ScriptMachine.Compile.Error
import ScriptMachine.Symbol

/-!
# The state of compilation

Compiling a unit reads and extends the symbol table and the constant pool, and fills the block of the
function at hand. All of this happens in place: a refusal can come up anywhere inside nested functions,
classes and loops, and leaves the state as it was at that moment.
-/

namespace ScriptMachine

/-- A loop around the code at hand. -/
structure LoopContext where
  /-- Where `continue` goes, if that is known already. -/
  continueTarget : Option Nat
  /-- Jumps of `continue` that wait for their target, oldest first. -/
  continueJumps : List Nat
  /-- Jumps of `break` that wait for the end of the loop, oldest first. -/
  breakJumps : List Nat
  /-- Number of protected regions open around the loop. -/
  tryDepth : Nat
deriving Inhabited

/-- A class whose methods are being compiled. -/
structure ClassContext where
  /-- Place of the class in the pool. -/
  constant : Nat
  hasParent : Bool
deriving Inhabited

/-- The function at hand. -/
structure FunctionContext where
  block : CodeBlock
  /-- Loops around the code at hand, innermost first. -/
  loops : List LoopContext
  isFunction : Bool
deriving Inhabited

namespace FunctionContext

/-- The top level of a unit. -/
def top : FunctionContext := ⟨.empty, [], false⟩

/-- The body of a function. -/
def body : FunctionContext := ⟨.empty, [], true⟩

end FunctionContext

/-- The state of compilation. -/
structure CompileState where
  pool : Pool
  symbols : SymbolTable
  function : FunctionContext
  /-- Classes around the code at hand, innermost first. -/
  classes : List ClassContext
  /-- Spans of the classes declared in this unit, latest first. -/
  classSpans : List (String × Span)
deriving Inhabited

/-- A step of compilation. A refusal keeps what was changed before it. -/
abbrev CompileM := EStateM CompileError CompileState

namespace CompileM

def fail {α : Type} (cause : CompileCause) (span : Span) : CompileM α := throw ⟨cause, span⟩

/-! ## Instructions -/

@[inline] def modifyFunction (f : FunctionContext → FunctionContext) : CompileM Unit :=
  modify fun s => { s with function := f s.function }

@[inline] def modifyBlock (f : CodeBlock → CodeBlock) : CompileM Unit :=
  modifyFunction fun c => { c with block := f c.block }

def getBlock : CompileM CodeBlock := do return (← get).function.block

/-- Offset of the next instruction. -/
def offset : CompileM Nat := do return (← getBlock).size

/-- Append an instruction and answer its place. -/
def emit (op : Opcode) (operands : List Nat) (span : Span) : CompileM Nat := do
  let place := (← getBlock).items.size
  modifyBlock fun b => b.emit op operands span
  return place

/-- Append an instruction. -/
def put (op : Opcode) (operands : List Nat) (span : Span) : CompileM Unit := do
  discard <| emit op operands span

/-- Append a jump whose target is not known yet. -/
def emitJump (op : Opcode) (span : Span) : CompileM Nat := emit op [Opcode.noTarget] span

/-- Refuse a target that the operand cannot hold. -/
def checkTarget (target : Nat) (span : Span) : CompileM Unit :=
  if Opcode.noTarget ≤ target then fail .jumpOutOfRange span else pure ()

/-- Set a target of an earlier instruction. -/
def patch (place operand target : Nat) (span : Span) : CompileM Unit := do
  checkTarget target span
  modifyBlock fun b => b.patch place operand target

/-- Let an earlier jump go to the next instruction. -/
def patchHere (place : Nat) (span : Span) : CompileM Unit := do
  patch place 0 (← offset) span

/-- Let several earlier jumps go to the next instruction. -/
def patchAllHere (span : Span) : List Nat → CompileM Unit
  | [] => pure ()
  | place :: rest => do
    patchHere place span
    patchAllHere span rest

/-- Append a jump to a known target. -/
def emitJumpTo (op : Opcode) (target : Nat) (span : Span) : CompileM Unit := do
  checkTarget target span
  put op [target] span

/-! ## Constants -/

/-- Add a constant and answer its place. -/
def addConstant (c : Constant) (span : Span) : CompileM Nat := do
  let place := (← get).pool.size
  if Pool.capacity ≤ place then fail .tooManyConstants span
  else
    modify fun s => { s with pool := s.pool.push c }
    return place

def emitConstant (c : Constant) (span : Span) : CompileM Unit := do
  let place ← addConstant c span
  put .constant [place] span

/-! ## Names -/

/-- Slots of locals and globals that operands can address. -/
def maxLocals : Nat := 256
def maxGlobals : Nat := 65536
/-- Arguments that a call can have. -/
def maxArgs : Nat := 255

/-- Declare a variable in the current scope. -/
def define (name : String) (constant : Bool) (span : Span) : CompileM Symbol := do
  let symbol ← modifyGet fun s =>
    let (symbol, symbols) := s.symbols.define name constant
    (symbol, { s with symbols })
  match symbol.storage with
  | .local => if maxLocals ≤ symbol.index then fail .tooManyLocals span else return symbol
  | .global => if maxGlobals ≤ symbol.index then fail .tooManyGlobals span else return symbol
  | _ => return symbol

/-- Find what a name stands for. -/
def resolve (name : String) (span : Span) : CompileM Symbol := do
  let symbol? ← modifyGet fun s =>
    let (symbol, symbols) := s.symbols.resolve name
    (symbol, { s with symbols })
  match symbol? with
  | some symbol => return symbol
  | none => fail (.unresolvedIdentifier name) span

/-- Push the value of a binding. -/
def load (symbol : Symbol) (span : Span) : CompileM Unit :=
  match symbol.storage with
  | .global => put .getGlobal [symbol.index] span
  | .local => put .getLocal [symbol.index] span
  | .free => put .getFree [symbol.index] span
  | .builtin => put .getBuiltin [symbol.index] span
  | .functionSelf => put .currentClosure [] span

/-- Queue the cell of a binding for the closure being built. Globals and host functions need no
cell. -/
def capture (symbol : Symbol) (span : Span) : CompileM Unit :=
  match symbol.storage with
  | .local => put .captureLocal [symbol.index] span
  | .free => put .captureFree [symbol.index] span
  | .functionSelf => put .captureSelf [] span
  | .global | .builtin => pure ()

/-- Queue the cells of several bindings. -/
def captureAll (span : Span) : List Symbol → CompileM Unit
  | [] => pure ()
  | s :: rest => do
    capture s span
    captureAll span rest

/-- Store the top of the stack into a binding and leave it there. -/
def store (symbol : Symbol) (span : Span) : CompileM Unit :=
  match symbol.storage with
  | .global => put .setGlobal [symbol.index] span
  | .local => put .setLocal [symbol.index] span
  | .free => put .setFree [symbol.index] span
  | .builtin | .functionSelf => fail (.invalidAssignmentTarget symbol.name) span

/-! ## Function bodies -/

/-- What compiling a function body yields. -/
structure Body where
  block : CodeBlock
  locals : Nat
  free : List Symbol

/-- Compile a function body in a scope of its own, and come back to the code at hand. -/
def inFunction (compileBody : CompileM Unit) : CompileM Body := do
  let outside := (← get).function
  modify fun s => { s with function := .body, symbols := s.symbols.enclose }
  compileBody
  let inner ← get
  modify fun s =>
    { s with function := outside, symbols := (s.symbols.leave?).getD .empty }
  return ⟨inner.function.block, inner.symbols.current.definitions, inner.symbols.current.free.toList⟩

/-! ## Loops -/

/-- Enter a loop with `tryDepth` protected regions around it. -/
def enterLoop (continueTarget : Option Nat) (tryDepth : Nat) : CompileM Unit :=
  modifyFunction fun c => { c with loops := ⟨continueTarget, [], [], tryDepth⟩ :: c.loops }

/-- Leave the innermost loop: its `break` jumps go to the next instruction. -/
def leaveLoop (span : Span) : CompileM Unit := do
  match (← get).function.loops with
  | [] => pure ()
  | ctx :: rest =>
    modifyFunction fun c => { c with loops := rest }
    patchAllHere span ctx.breakJumps

/-- Change the innermost loop. -/
def modifyLoop (f : LoopContext → LoopContext) : CompileM Unit :=
  modifyFunction fun c =>
    match c.loops with
    | [] => c
    | ctx :: rest => { c with loops := f ctx :: rest }

/-- Let the waiting `continue` jumps of the innermost loop go to the next instruction. -/
def placeContinues (span : Span) : CompileM Unit := do
  match (← get).function.loops with
  | [] => pure ()
  | ctx :: _ =>
    modifyLoop fun ctx => { ctx with continueJumps := [] }
    patchAllHere span ctx.continueJumps

end CompileM

end ScriptMachine
