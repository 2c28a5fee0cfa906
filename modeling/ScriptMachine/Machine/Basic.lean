import ScriptMachine.Fault
import ScriptMachine.Native.Basic
import ScriptMachine.Settings

/-!
# Machines

A `Machine` is the private state of one task: its operand stack, its frames and its handlers. What
tasks share is the `World`: the heap, the globals and the host functions. Both together make the
`State` that instructions act on.

The stack has a fixed number of slots. Slots at or above the stack pointer hold null, so the locals
of a new frame start out null.
-/

namespace ScriptMachine

/-! ## Frames and handlers -/

/-- How a frame was entered. -/
inductive FrameKind where
  | function
  | method
  /-- A constructor call, whose result is the new instance whatever the body returns. -/
  | constructor (object : Value)

/-- A call in progress. -/
structure Frame where
  closure : Closure
  ip : Nat
  /-- Stack slot of local zero. -/
  base : Nat
  kind : FrameKind
  /-- Cells of the locals that were captured; such a local lives in its cell only. -/
  cells : Array (Option Ref)

namespace Frame

/-- A frame about to execute its first instruction. -/
def enter (closure : Closure) (base : Nat) (kind : FrameKind) : Frame := ⟨closure, 0, base, kind, #[]⟩

/-- The cell of a captured local. -/
def cell? (f : Frame) (index : Nat) : Option Ref := f.cells[index]?.join

def code (f : Frame) : Array UInt8 := f.closure.function.code

/-- The slot that receives the result: that of the callee or receiver. -/
def resultSlot (f : Frame) : Nat :=
  match f.kind with
  | .function => f.base - 1
  | _ => f.base

/-- Remember the cell of a local. -/
def setCell (f : Frame) (index : Nat) (ref : Ref) : Frame :=
  let cells := f.cells ++ Array.replicate (index + 1 - f.cells.size) none
  { f with cells := cells.setIfInBounds index (some ref) }

/-- The cell of a local, made from its current value at the first capture. -/
def capture (f : Frame) (h : Heap) (index : Nat) (current : Value) : Ref × Frame × Heap :=
  match f.cell? index with
  | some ref => (ref, f, h)
  | none =>
    let (ref, h) := h.newCell current
    (ref, f.setCell index ref, h)

end Frame

/-- Where to go on when a value is thrown in a protected region. -/
structure Handler where
  catchTarget : Option Nat
  finallyTarget : Option Nat
  /-- Number of frames when the region was entered. -/
  depth : Nat
  /-- Stack pointer when the region was entered. -/
  sp : Nat
deriving DecidableEq, Repr

namespace Handler

/-- A jump target unless it is the mark of absence. -/
def target? (t : Nat) : Option Nat := if t == Opcode.noTarget then none else some t

def ofOperands (catchTarget finallyTarget depth sp : Nat) : Handler :=
  ⟨target? catchTarget, target? finallyTarget, depth, sp⟩

/-- Drop the innermost handlers that belong to frames at or above a depth. -/
def discard (handlers : List Handler) (depth : Nat) : List Handler :=
  handlers.dropWhile fun r => depth ≤ r.depth

end Handler

/-! ## Globals -/

namespace Globals

/-- The value of a global; one that was never set is null. -/
def get (g : Array Value) (index : Nat) : Value := g[index]?.getD .null

/-- Set a global; the table grows to hold it. -/
def set (g : Array Value) (index : Nat) (v : Value) : Array Value :=
  let g := g ++ Array.replicate (index + 1 - g.size) .null
  g.setIfInBounds index v

@[simp] theorem get_set_self (g : Array Value) (index : Nat) (v : Value) :
    get (set g index v) index = v := by
  unfold get set
  rw [Array.getElem?_setIfInBounds_self_of_lt (by simp; omega)]
  rfl

theorem get_set_of_ne (g : Array Value) {i j : Nat} (h : i ≠ j) (v : Value) :
    get (set g i v) j = get g j := by
  unfold get set
  rw [Array.getElem?_setIfInBounds_ne h, Array.getElem?_append]
  split
  · rfl
  · next hj =>
    have none_of : g[j]? = none := Array.getElem?_eq_none (by omega)
    rw [none_of, Array.getElem?_replicate]
    split <;> rfl

theorem size_set (g : Array Value) (index : Nat) (v : Value) :
    (set g index v).size = max g.size (index + 1) := by
  simp only [set, Array.size_setIfInBounds, Array.size_append, Array.size_replicate]
  omega

end Globals

/-! ## State -/

/-- What a machine waits for. -/
inductive Wait where
  /-- Room for a message in a bounded channel. -/
  | room (channel : Ref) (v : Value)
  /-- That message number `ticket` of an unbuffered channel is taken. -/
  | taken (channel : Ref) (ticket : Nat)
  /-- A message. -/
  | message (channel : Ref)

/-- The private state of one task. -/
structure Machine where
  stack : Array Value
  /-- The next free slot. -/
  sp : Nat
  frames : Array Frame
  /-- Active handlers, innermost first. -/
  handlers : List Handler
  /-- Cells queued for the next closure. -/
  captures : Array Ref
  constants : Array Value
  /-- The top-level block. -/
  main : Closure
  registry : Registry
  settings : Settings
  /-- The value that was popped last by an expression statement. -/
  lastPopped : Value
  /-- Offset of the instruction being executed. -/
  opOffset : Nat
  waiting : Option Wait

instance : Inhabited Machine :=
  ⟨⟨#[], 0, #[], [], #[], #[], default, default, default, .null, 0, none⟩⟩

namespace Machine

/-- A machine at rest. -/
def new (constants : Array Value) (main : Closure) (registry : Registry) (settings : Settings) :
    Machine :=
  { stack := Array.replicate settings.stackSize .null
    sp := 0
    frames := #[]
    handlers := []
    captures := #[]
    constants
    main
    registry
    settings
    lastPopped := .null
    opOffset := 0
    waiting := none }

/-- The machine of a task started by this one: stacks of its own, all else the same. -/
def child (m : Machine) : Machine := new m.constants m.main m.registry m.settings

/-- The span of the instruction being executed. -/
def span (m : Machine) : Span :=
  (m.frames.back?.bind fun f => f.closure.function.spanAt? m.opOffset).getD .dummy

/-- Summary of a machine, for inspection. -/
def inspect (h : Heap) (m : Machine) : String :=
  "Vm \x7b sp: " ++ toString m.sp ++ ", frames: " ++ toString m.frames.size ++ ", handlers: "
    ++ toString m.handlers.length ++ ", last_popped: " ++ h.inspect m.lastPopped ++ ", .. \x7d"

end Machine

/-- A task that was started and has not been taken over by the scheduler. -/
structure Spawned where
  machine : Machine
  callee : Value
  args : List Value
  /-- The channel that receives the outcome. -/
  result : Ref

/-- What all tasks share. -/
structure World where
  heap : Heap
  globals : Array Value
  natives : Array Native
  /-- Tasks started and not yet taken over, oldest first. -/
  spawned : Array Spawned

namespace World

/-- A world without objects and globals. -/
def new (natives : Array Native) : World := ⟨.empty, #[], natives, #[]⟩

end World

/-- What instructions act on. -/
structure State where
  world : World
  machine : Machine

/-- Why an execution stops before its end. -/
inductive Abort where
  | fault (f : Fault)
  /-- A host function crashed, or the machine used slots that its stack does not have. -/
  | crash (message : String)

/-- An execution that changes the state and may stop; what it changed before it stopped stays. -/
abbrev Exec := EStateM Abort State

end ScriptMachine
