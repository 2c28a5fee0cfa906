import ScriptMachine.Machine.Basic

/-!
# Stack, frames and operands

The primitive moves of a machine. A move that needs what is not there raises a fault at the span of
the current instruction; one that uses slots which the stack does not have crashes.
-/

namespace ScriptMachine.Exec

/-! ## State -/

@[inline] def getMachine : Exec Machine := do return (← get).machine

@[inline] def getHeap : Exec Heap := do return (← get).world.heap

@[inline] def modifyMachine (f : Machine → Machine) : Exec Unit :=
  modify fun s => { s with machine := f s.machine }

@[inline] def modifyHeap (f : Heap → Heap) : Exec Unit :=
  modify fun s => { s with world := { s.world with heap := f s.world.heap } }

/-- Make something on the heap. -/
@[inline] def allocate {α : Type} (f : Heap → α × Heap) : Exec α :=
  modifyGet fun s =>
    let (a, heap) := f s.world.heap
    (a, { s with world := { s.world with heap } })

/-- Stop with a fault at the current instruction. -/
def raise {α : Type} (c : Cause) : Exec α := do
  throw (.fault (c.placed (← getMachine).span))

/-- Stop because the code makes no sense. -/
def defect {α : Type} (d : Defect) : Exec α := raise (.invalidBytecode d)

/-- Crash because the stack has no slot at `index`. -/
def noSlot {α : Type} (index : Nat) : Exec α := do
  let size := (← getMachine).stack.size
  throw (.crash ("index out of bounds: the len is " ++ toString size ++ " but the index is "
    ++ toString index))

/-- Crash because the stack has no slots from `start` up to `stop`. -/
def noSlots {α : Type} (start stop : Nat) : Exec α := do
  let size := (← getMachine).stack.size
  throw (.crash (
    if stop < start then
      "slice index starts at " ++ toString start ++ " but ends at " ++ toString stop
    else
      "range end index " ++ toString stop ++ " out of range for slice of length " ++ toString size))

/-- The result of a pure operation, its cause raised here. -/
def ofExcept {α : Type} : Except Cause α → Exec α
  | .ok a => pure a
  | .error c => raise c

/-! ## The operand stack -/

def push (v : Value) : Exec Unit := do
  let m ← getMachine
  if m.stack.size ≤ m.sp then raise .stackOverflow
  else modifyMachine fun m => { m with stack := m.stack.setIfInBounds m.sp v, sp := m.sp + 1 }

def getSlot (slot : Nat) : Exec Value := do
  match (← getMachine).stack[slot]? with
  | some v => return v
  | none => noSlot slot

def setSlot (slot : Nat) (v : Value) : Exec Unit := do
  if (← getMachine).stack.size ≤ slot then noSlot slot
  else modifyMachine fun m => { m with stack := m.stack.setIfInBounds slot v }

/-- Pop the top of the stack; its slot becomes null. -/
def pop : Exec Value := do
  let m ← getMachine
  if m.sp == 0 then defect .stackUnderflow
  else
    let v ← getSlot (m.sp - 1)
    modifyMachine fun m =>
      { m with stack := m.stack.setIfInBounds (m.sp - 1) .null, sp := m.sp - 1 }
    return v

def peek : Exec Value := do
  let m ← getMachine
  if m.sp == 0 then defect .stackUnderflow else getSlot (m.sp - 1)

/-- Null the `count` slots from `start` on. -/
def clearSlots (stack : Array Value) (start : Nat) : Nat → Array Value
  | 0 => stack
  | count + 1 => clearSlots (stack.setIfInBounds start .null) (start + 1) count

/-- Move the stack pointer; slots given up become null. -/
def setSp (sp : Nat) : Exec Unit := do
  let m ← getMachine
  if sp < m.sp && m.stack.size < m.sp then noSlots sp m.sp
  else modifyMachine fun m => { m with stack := clearSlots m.stack sp (m.sp - sp), sp }

/-- The values in the slots from `start` up to the stack pointer. -/
def slotsFrom (start : Nat) : Exec (List Value) := do
  let m ← getMachine
  if m.sp < start || m.stack.size < m.sp then noSlots start m.sp
  else return (m.stack.extract start m.sp).toList

/-- Pop the top `count` values, oldest first. -/
def takeTop (count : Nat) : Exec (List Value) := do
  let m ← getMachine
  if m.sp < count then defect .stackUnderflow
  else
    let start := m.sp - count
    let values ← slotsFrom start
    setSp start
    return values

/-- The slot of the callee or receiver below `argc` arguments. -/
def calleeSlot (argc : Nat) : Exec Nat := do
  let m ← getMachine
  if m.sp < argc + 1 then defect .stackUnderflow else return m.sp - (argc + 1)

/-! ## The running frame -/

def currentFrame : Exec Frame := do
  match (← getMachine).frames.back? with
  | some f => return f
  | none => defect .noFrame

/-- Change the running frame. -/
@[inline] def modifyFrame (f : Frame → Frame) : Exec Unit :=
  modifyMachine fun m => { m with frames := m.frames.modify (m.frames.size - 1) f }

/-- Go on at a target. -/
def jumpTo (target : Nat) : Exec Unit := do
  discard currentFrame
  modifyFrame fun f => { f with ip := target }

/-- Read an operand of `width` bytes and step over it. -/
def operand (width : Nat) : Exec Nat := do
  let f ← currentFrame
  match operandAt? f.code f.ip width with
  | some n =>
    modifyFrame fun f => { f with ip := f.ip + width }
    return n
  | none => defect .truncated

/-- Read the index of a local, and find its slot. -/
def localOperand : Exec (Nat × Nat) := do
  let index ← operand 1
  let slot := (← currentFrame).base + index
  if (← getMachine).stack.size ≤ slot then defect (.localIndex index) else return (index, slot)

/-- A captured cell of the running closure. -/
def freeCell (index : Nat) : Exec Ref := do
  match (← currentFrame).closure.free[index]? with
  | some ref => return ref
  | none => defect (.freeIndex index)

def constant (index : Nat) : Exec Value := do
  match (← getMachine).constants[index]? with
  | some v => return v
  | none => defect (.constantIndex index)

/-- A constant that is a name. -/
def constantName (index : Nat) : Exec String := do
  match ← constant index with
  | .str s => return s
  | v => defect (.nameConstant v.typeName)

/-- A value as a key. -/
def keyOf (v : Value) : Exec Key := do
  match v.key? with
  | some k => return k
  | none => raise (.unhashable v.typeName)

end ScriptMachine.Exec
