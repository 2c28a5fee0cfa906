import ScriptMachine.Machine.Call

/-!
# Instructions

`step` executes the instruction at the running frame's position. Operands are read one after the
other as they are needed. An instruction that has to wait for a channel leaves the machine waiting;
`poll` then tries again.
-/

namespace ScriptMachine

/-- How a step ended. -/
inductive Signal where
  | next
  | halt
  /-- Nothing can be done until another task moves. -/
  | blocked
deriving DecidableEq, Repr

namespace Exec

/-! ## Variables -/

def getLocal : Exec Unit := do
  let (index, slot) ← localOperand
  match (← currentFrame).cell? index with
  | some ref => push ((← getHeap).cell ref)
  | none => push (← getSlot slot)

def setLocal : Exec Unit := do
  let (index, slot) ← localOperand
  let v ← peek
  match (← currentFrame).cell? index with
  | some ref => modifyHeap (·.setCell ref v)
  | none => setSlot slot v

def getGlobal : Exec Unit := do
  let index ← operand 2
  push (Globals.get (← get).world.globals index)

def setGlobal : Exec Unit := do
  let index ← operand 2
  let v ← peek
  modify fun s => { s with world := { s.world with globals := Globals.set s.world.globals index v } }

def getFree : Exec Unit := do
  let index ← operand 1
  let ref ← freeCell index
  push ((← getHeap).cell ref)

def setFree : Exec Unit := do
  let index ← operand 1
  let v ← peek
  let ref ← freeCell index
  modifyHeap (·.setCell ref v)

def getBuiltin : Exec Unit := do
  let index ← operand 1
  match (← getMachine).registry.get? index with
  | some v => push v
  | none => defect (.builtinIndex index)

/-- Queue a cell for the next closure. -/
def queueCapture (ref : Ref) : Exec Unit :=
  modifyMachine fun m => { m with captures := m.captures.push ref }

def captureLocal : Exec Unit := do
  let (index, slot) ← localOperand
  let current ← getSlot slot
  let frame ← currentFrame
  let (ref, frame) ← allocate fun h =>
    let (ref, frame, h) := frame.capture h index current
    ((ref, frame), h)
  modifyFrame fun _ => frame
  queueCapture ref

def captureFree : Exec Unit := do
  let index ← operand 1
  queueCapture (← freeCell index)

def captureSelf : Exec Unit := do
  let closure := (← currentFrame).closure
  queueCapture (← allocate fun h => h.newCell (.closure closure))

/-! ## Operators and control flow -/

def binary (op : BinaryOp) : Exec Unit := do
  let b ← pop
  let a ← pop
  push (← ofExcept (op.apply (← getHeap) a b))

def jumpIfFalse : Exec Unit := do
  let target ← operand 2
  if !(← pop).isTruthy then jumpTo target

/-! ## Functions and collections -/

def makeClosure : Exec Unit := do
  let index ← operand 2
  let count ← operand 1
  match ← constant index with
  | .function _ f =>
    let captures := (← getMachine).captures
    if captures.size < count then defect (.missingCaptures count)
    else
      let start := captures.size - count
      modifyMachine fun m => { m with captures := m.captures.extract 0 start }
      let closure ← allocate fun h => h.newClosure f (captures.extract start captures.size)
      push (.closure closure)
  | v => defect (.closureOver v.typeName)

def makeArray : Exec Unit := do
  let count ← operand 2
  let items ← takeTop count
  push (← allocate fun h => h.newArray items.toArray)

/-- Entries of keys and values in turn, later ones over earlier ones; a value left over is dropped. -/
def collectEntries (d : Dict Key Value) : List Value → Exec (Dict Key Value)
  | k :: v :: rest => do
    let key ← keyOf k
    collectEntries (d.insert key v) rest
  | _ => pure d

def makeHash : Exec Unit := do
  let count ← operand 2
  let entries ← collectEntries .empty (← takeTop count)
  push (← allocate fun h => h.newHash entries)

def makeMap : Exec Unit := do
  let count ← operand 2
  let entries ← collectEntries .empty (← takeTop count)
  push (← allocate fun h => h.newMap entries)

def getIndex : Exec Unit := do
  let index ← pop
  let target ← pop
  push (← ofExcept ((← getHeap).getItem target index))

def setIndex : Exec Unit := do
  let v ← pop
  let index ← pop
  let target ← pop
  let place ← ofExcept ((← getHeap).itemPlace target index)
  modifyHeap (·.write place v)
  push v

/-! ## Properties and methods -/

def getProperty : Exec Unit := do
  let index ← operand 2
  let name ← constantName index
  let target ← pop
  push (← ofExcept ((← getHeap).getProperty target name))

def setProperty : Exec Unit := do
  let index ← operand 2
  let name ← constantName index
  let v ← pop
  let target ← pop
  let place ← ofExcept (Heap.propertyPlace target name)
  modifyHeap (·.write place v)
  push v

def invokeMethod : Exec Unit := do
  let index ← operand 2
  let name ← constantName index
  let argc ← operand 1
  invoke name argc

def invokeSuperMethod : Exec Unit := do
  let index ← operand 2
  let name ← constantName index
  let argc ← operand 1
  invokeSuper name argc

/-! ## Protected regions -/

def tryEnter : Exec Unit := do
  let catchTarget ← operand 2
  let finallyTarget ← operand 2
  modifyMachine fun m =>
    let handler := Handler.ofOperands catchTarget finallyTarget m.frames.size m.sp
    { m with handlers := handler :: m.handlers }

def finallyEnd : Exec Unit := do
  let target ← operand 2
  modifyMachine fun m => { m with handlers := m.handlers.tail }
  jumpTo target

def rethrow : Exec Unit := do
  let pending ← pop
  let v ← pop
  if pending.isTruthy then throwValue v

/-! ## Channels -/

def makeChannel : Exec Unit := do
  let flag ← operand 1
  let capacity ←
    if flag == 0 then pure 0
    else
      match ← pop with
      | .int n =>
        if 0 ≤ n then pure n.toInt.toNat
        else raise (.typeMismatch (.channelCapacity (toString n.toInt)))
      | v => raise (.typeMismatch (.channelCapacity ((← getHeap).render v)))
  let ref ← allocate fun h => h.newChannel (some capacity)
  push (.channel ref (some capacity))

/-- Wait for something. -/
def waitFor (w : Wait) : Exec Unit := modifyMachine fun m => { m with waiting := some w }

/-- Try to send a message, and wait where the channel says so. -/
def trySend (ch : Ref) (v : Value) : Exec Unit := do
  let outcome ← allocate fun h =>
    let (outcome, c) := (h.channel ch).send v
    (outcome, h.setChannel ch c)
  match outcome with
  | .refused => raise .channelClosed
  | .full => waitFor (.room ch v)
  | .sent => push .null
  | .offered ticket => waitFor (.taken ch ticket)

/-- Try to receive a message, and wait if there is none. -/
def tryReceive (ch : Ref) : Exec Unit := do
  let outcome ← allocate fun h =>
    let (outcome, c) := (h.channel ch).recv
    (outcome, h.setChannel ch c)
  match outcome with
  | .received v => push v
  | .drained => push .null
  | .wait => waitFor (.message ch)

/-- Go on once the message was taken. -/
def tryFinishSend (ch : Ref) (ticket : Nat) : Exec Unit := do
  if ((← getHeap).channel ch).released ticket then push .null else waitFor (.taken ch ticket)

def send : Exec Unit := do
  let v ← pop
  match ← pop with
  | .channel ch _ => trySend ch v
  | w => raise (.typeMismatch (.sendOn w.typeName))

def receive : Exec Unit := do
  match ← pop with
  | .channel ch _ => tryReceive ch
  | v => raise (.typeMismatch (.receiveFrom v.typeName))

/-- Try again what the machine waits for. -/
def poll (w : Wait) : Exec Signal := do
  modifyMachine fun m => { m with waiting := none }
  match w with
  | .room ch v => trySend ch v
  | .taken ch ticket => tryFinishSend ch ticket
  | .message ch => tryReceive ch
  return if (← getMachine).waiting.isSome then .blocked else .next

/-! ## Dispatch -/

/-- Execute an instruction whose opcode has been read. -/
def perform (op : Opcode) : Exec Signal := do
  match op with
  | .constant => push (← constant (← operand 2))
  | .null => push .null
  | .pushTrue => push (.bool true)
  | .pushFalse => push (.bool false)
  | .getLocal => getLocal
  | .setLocal => setLocal
  | .getGlobal => getGlobal
  | .setGlobal => setGlobal
  | .getFree => getFree
  | .setFree => setFree
  | .getBuiltin => getBuiltin
  | .currentClosure => push (.closure (← currentFrame).closure)
  | .captureLocal => captureLocal
  | .captureFree => captureFree
  | .captureSelf => captureSelf
  | .add => binary .add
  | .sub => binary .sub
  | .mul => binary .mul
  | .div => binary .div
  | .mod => binary .mod
  | .equal => binary .equal
  | .notEqual => binary .notEqual
  | .greater => binary .greater
  | .greaterEqual => binary .greaterEqual
  | .negate => push (← ofExcept (← pop).negate)
  | .not => push (← pop).logicalNot
  | .jump => jumpTo (← operand 2)
  | .jumpIfFalse => jumpIfFalse
  | .call => callValue (← operand 1)
  | .returnValue => returnFromFrame (← pop)
  | .returnNull => returnFromFrame .null
  | .closure => makeClosure
  | .array => makeArray
  | .hash => makeHash
  | .orderedMap => makeMap
  | .getIndex => getIndex
  | .setIndex => setIndex
  | .pop =>
    let v ← pop
    modifyMachine fun m => { m with lastPopped := v }
  | .dup => push (← peek)
  | .getProperty => getProperty
  | .setProperty => setProperty
  | .invoke => invokeMethod
  | .invokeSuper => invokeSuperMethod
  | .tryEnter => tryEnter
  | .finallyEnd => finallyEnd
  | .throw => throwValue (← pop)
  | .rethrow => rethrow
  | .spawn => spawnTask (← operand 1)
  | .channel => makeChannel
  | .send => send
  | .receive => receive
  | .halt => return .halt
  return .next

/-- Execute the next instruction; running off the end of a block halts. -/
def step : Exec Signal := do
  let frame ← currentFrame
  let offset := frame.ip
  match frame.code[offset]? with
  | none => return .halt
  | some byte =>
    modifyFrame fun f => { f with ip := offset + 1 }
    modifyMachine fun m => { m with opOffset := offset }
    match Opcode.dispatch byte with
    | none => raise (.unknownOpcode byte offset)
    | some op => perform op

/-- Move on: try again what the machine waits for, or execute the next instruction. -/
def advance : Exec Signal := do
  match (← getMachine).waiting with
  | some w => poll w
  | none => step

/-- Move on, turning a catchable fault into a thrown error value while a handler is active. -/
def advanceCatching : Exec Signal :=
  tryCatch advance fun
    | .fault f => do
      if f.cause.isCatchable && !(← getMachine).handlers.isEmpty then
        throwValue (f.toValue (← getHeap))
        return .next
      else throw (.fault f)
    | a => throw a

end Exec

end ScriptMachine
