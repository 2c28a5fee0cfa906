import ScriptMachine.Ast.Decode
import ScriptMachine.Compile.Load
import ScriptMachine.Compile.Unit
import ScriptMachine.Convert
import ScriptMachine.Native.Prelude
import ScriptMachine.Task.Scheduler

/-!
# Sessions

A session compiles and runs one unit after the other. Globals, symbols, constants, host functions and
tasks last from unit to unit; every unit and every call from outside gets a machine of its own.
-/

namespace ScriptMachine

/-- Why a request to a session fails. -/
inductive SessionError where
  | compile (e : CompileError)
  | fault (f : Fault)
  | registry (e : RegistryError)
  /-- The text of a unit is no program. -/
  | notAProgram
  | unknownFunction (name : String)
  /-- A host function crashed outside of any task. -/
  | crash (message : String)
  /-- Everybody waits for somebody else. -/
  | stuck
  | outOfFuel

/-- Wording of a call to a name that is no function. -/
def SessionError.unknownFunctionMessage (name : String) : String :=
  "No global function named '" ++ name ++ "'"

/-- A session. -/
structure Session where
  compiler : Compiler
  registry : Registry
  settings : Settings
  system : TaskSystem
  /-- Values of the constants, by place in the pool. -/
  constants : Array Value

namespace Session

/-- A session that knows the prelude. -/
def new (settings : Settings) : Session :=
  let registry := Prelude.registry 0
  { compiler := .new registry #[] settings.optimize
    registry
    settings
    system := ⟨.new Prelude.functions.toArray, #[], 0⟩
    constants := #[] }

def heap (s : Session) : Heap := s.system.world.heap

def globals (s : Session) : Array Value := s.system.world.globals

/-- Change the heap. -/
def withHeap {α : Type} (s : Session) (f : Heap → α × Heap) : α × Session :=
  let (a, heap) := f s.system.world.heap
  (a, { s with system := { s.system with world := { s.system.world with heap } } })

/-- A machine for the given top-level block, and the session with its constants loaded. -/
def machine (s : Session) (main : Function) : Machine × Session :=
  let (constants, s) := s.withHeap fun h => s.compiler.pool.load s.constants h
  let (closure, s) := s.withHeap fun h => h.newClosure main #[]
  (.new constants closure s.registry s.settings, { s with constants })

/-- The result of an outcome. -/
def resultOf : TaskSystem.Outcome → Except SessionError Value
  | .finished (.ok v) => .ok v
  | .finished (.error (.fault f)) => .error (.fault f)
  | .finished (.error (.crash message)) => .error (.crash message)
  | .stuck => .error .stuck
  | .outOfFuel => .error .outOfFuel

/-- Compile and run a unit. Its value is that of the expression statement executed last. -/
def run (fuel : Nat) (s : Session) (p : Program) : Except SessionError Value × Session :=
  match s.compiler.attempt p with
  | (.error e, compiler) => (.error (.compile e), { s with compiler })
  | (.ok unit, compiler) =>
    let (m, s) := { s with compiler }.machine (.main unit.code unit.debug)
    let (outcome, system, m) := s.system.runBlock fuel m
    let result := (resultOf outcome).map fun _ => m.lastPopped
    (result, { s with system })

/-- Run a unit given as text. -/
def runText (fuel : Nat) (s : Session) (text : String) : Except SessionError Value × Session :=
  match Program.ofText? text with
  | none => (.error .notAProgram, s)
  | some (_, p) => s.run fuel p

/-- The current value of a name at the top level. -/
def get? (s : Session) (name : String) : Option Value := do
  let symbol ← s.compiler.symbols.lookup? name
  match symbol.storage with
  | .global => some (Globals.get s.globals symbol.index)
  | .builtin => s.registry.get? symbol.index
  | _ => none

/-- Bind a global. -/
def set (s : Session) (name : String) (v : Value) : Session :=
  let existing : Option Nat := match s.compiler.symbols.lookup? name with
    | some symbol => if symbol.storage = .global then some symbol.index else none
    | none => none
  let (index, symbols) := match existing with
    | some index => (index, s.compiler.symbols)
    | none =>
      let (symbol, symbols) := s.compiler.symbols.define name false
      (symbol.index, symbols)
  let world := { s.system.world with globals := Globals.set s.system.world.globals index v }
  { s with
    compiler := { s.compiler with symbols }
    system := { s.system with world } }

/-- Call a function by name. -/
def call (fuel : Nat) (s : Session) (name : String) (args : List Value) :
    Except SessionError Value × Session :=
  match (s.get? name).filter Value.isCallable with
  | none => (.error (.unknownFunction name), s)
  | some callee =>
    let (m, s) := s.machine (.main #[] #[])
    let (outcome, system, _) := s.system.runCall fuel m callee args
    (resultOf outcome, { s with system })

/-- Call a function and read its result as host data, which is then written back as a value. -/
def callTyped (fuel : Nat) (s : Session) (name : String) (args : List Value) (type : HostType) :
    Except SessionError Value × Session :=
  match s.call fuel name args with
  | (.error e, s) => (.error e, s)
  | (.ok v, s) =>
    match type.ofValue s.heap v with
    | .error e =>
      (.error (.fault (Cause.placed (.typeMismatch (.hostConversion e.message)) .dummy)), s)
    | .ok data =>
      let (v, s) := s.withHeap fun h => type.toValue h data
      (.ok v, s)

/-- Register a host function for later units. -/
def register (s : Session) (n : Native) : Except RegistryError Nat × Session :=
  let id := s.system.world.natives.size
  match s.registry.register n.name id with
  | .error e => (.error e, s)
  | .ok (index, registry) =>
    let symbols := (s.compiler.symbols.defineBuiltin index n.name).2
    let world := { s.system.world with natives := s.system.world.natives.push n }
    (.ok index,
      { s with
        registry
        compiler := { s.compiler with symbols }
        system := { s.system with world } })

/-- Take a message from the channel bound to a name, without waiting. -/
def tryReceive (s : Session) (name : String) : Option Value × Session :=
  match s.get? name with
  | some (.channel ch _) =>
    match (s.heap.channel ch).dequeue? with
    | some (v, c) => s.withHeap fun h => (some v, h.setChannel ch c)
    | none => (none, s)
  | _ => (none, s)

/-- Wait for all tasks; answers how many were started since the last time. -/
def join (fuel : Nat) (s : Session) : Nat × Session :=
  let system := s.system.adopt
  (system.tracked, { s with system := system.join fuel })

end Session

end ScriptMachine
