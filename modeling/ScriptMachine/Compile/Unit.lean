import ScriptMachine.Compile.Link
import ScriptMachine.Compile.Lower
import ScriptMachine.Fold
import ScriptMachine.Native.Basic

/-!
# Compiling units

A compiler keeps its symbol table and its constant pool from unit to unit, and also what the last unit
left of its block, its loops and its classes, which the next one clears. A unit is compiled as a whole:
once it is refused, the symbol table of before is put back and the new constants are dropped.
-/

namespace ScriptMachine

/-- What the last unit left behind. -/
structure Scratch where
  function : FunctionContext := .top
  classes : List ClassContext := []
  classSpans : List (String × Span) := []
deriving Inhabited

/-- What is kept from unit to unit. -/
structure Compiler where
  symbols : SymbolTable
  pool : Pool
  optimizer : Optimizer
  scratch : Scratch
deriving Inhabited

/-- The top-level block of a compiled unit. -/
structure UnitCode where
  code : Array UInt8
  debug : Array DebugSpan

namespace CompileM

/-- Link the classes that were added to the pool from place `first` on. -/
def linkClasses (first : Nat) : CompileM Unit := do
  let s ← get
  match s.pool.link s.classSpans first with
  | .ok pool => modify fun s => { s with pool }
  | .error e => throw e

theorem linkClasses_eq (first : Nat) (σ : CompileState) :
    linkClasses first σ = match σ.pool.link σ.classSpans first with
      | .ok pool => .ok () { σ with pool }
      | .error e => .error e σ := by
  have hget : (get : CompileM CompileState) σ = .ok σ σ := rfl
  unfold linkClasses
  cases hlink : σ.pool.link σ.classSpans first with
  | ok pool | error e =>
    simp only [Bind.bind, EStateM.bind, hget, hlink]
    rfl

/-- Compile the statements of a unit, whose constants stand in the pool from place `first` on. -/
def unit (first : Nat) (ss : List Stmt) : CompileM CodeBlock := do
  stmts [] ss
  linkClasses first
  put .halt [] .dummy
  getBlock

end CompileM

namespace Compiler

/-- A table in which the functions of a registry are bound by number. -/
def symbolsOf (r : Registry) : SymbolTable :=
  (r.names.zipIdx).foldl (fun t e => (t.defineBuiltin e.2 e.1).2) .empty

/-- A compiler that knows the functions of a registry and starts from the given constants. -/
def new (r : Registry) (pool : Pool) (optimize : Bool) : Compiler :=
  ⟨symbolsOf r, pool, { Optimizer.standard with enabled := optimize }, {}⟩

/-- The state in which a unit starts. -/
def start (c : Compiler) : CompileState := ⟨c.pool, c.symbols, .top, [], []⟩

/-- Take over the state in which a unit ended. -/
def keep (c : Compiler) (s : CompileState) : Compiler :=
  { c with symbols := s.symbols, pool := s.pool, scratch := ⟨s.function, s.classes, s.classSpans⟩ }

/-- Take over the state in which a unit was refused: the symbol table of before is put back, and the
constants that were added are dropped. -/
def restore (c : Compiler) (s : CompileState) : Compiler :=
  { c.keep s with symbols := c.symbols, pool := s.pool.extract 0 c.pool.size }

/-- Compile a unit in place. -/
def attempt (c : Compiler) (p : Program) : Except CompileError UnitCode × Compiler :=
  match (CompileM.unit c.pool.size (c.optimizer.run p).1.statements).run c.start with
  | .ok block s => (.ok ⟨block.code, block.debug⟩, c.keep s)
  | .error e s => (.error e, c.restore s)

/-- Compile a unit; without an error also the compiler for the next one. -/
def compile (c : Compiler) (p : Program) : Except CompileError (UnitCode × Compiler) :=
  match c.attempt p with
  | (.ok unit, c) => .ok (unit, c)
  | (.error e, _) => .error e

end Compiler

end ScriptMachine
