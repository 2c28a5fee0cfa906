import ScriptMachine.Machine.Access

/-!
# Calls, returns and throws

Entering and leaving frames, unwinding to handlers, and starting tasks.
-/

namespace ScriptMachine.Exec

/-- Enter a frame whose local zero is in slot `base`. -/
def pushFrame (closure : Closure) (base : Nat) (kind : FrameKind) : Exec Unit := do
  let m ← getMachine
  if m.settings.maxFrames ≤ m.frames.size then raise (.frameOverflow m.settings.maxFrames)
  else
    let top := base + closure.function.locals
    if m.stack.size < top then raise .stackOverflow
    else
      setSp top
      modifyMachine fun m => { m with frames := m.frames.push (.enter closure base kind) }

/-- Leave the running frame with a result; a constructor answers its instance. -/
def returnFromFrame (v : Value) : Exec Unit := do
  modifyMachine fun m => { m with handlers := Handler.discard m.handlers m.frames.size }
  match (← getMachine).frames.back? with
  | none => defect .returnWithoutFrame
  | some frame =>
    modifyMachine fun m => { m with frames := m.frames.pop }
    let result := match frame.kind with
      | .constructor object => object
      | _ => v
    setSp frame.resultSlot
    push result

/-- Unwind to the innermost handler and go on at its target. A handler with only a finally target also
gets the mark that a value is pending. -/
def throwValue (v : Value) : Exec Unit := do
  match (← getMachine).handlers with
  | [] => raise (.uncaught v)
  | handler :: rest =>
    modifyMachine fun m =>
      { m with handlers := rest, frames := m.frames.extract 0 handler.depth }
    setSp handler.sp
    push v
    match handler.catchTarget, handler.finallyTarget with
    | some target, _ => jumpTo target
    | none, some target =>
      push (.bool true)
      jumpTo target
    | none, none => defect .emptyHandler

/-- Push what a host function answered; an error value is thrown, at the current instruction unless it
says otherwise. -/
def deliverNative (v : Value) : Exec Unit := do
  match v with
  | .error message span =>
    let place ← match span with
      | some s => pure s
      | none => pure (← getMachine).span
    throwValue (.error message (some place))
  | v => push v

/-- Call the host function in the table at `id`; an unknown one answers null. -/
def callNative (id : Nat) (slot : Nat) : Exec Unit := do
  let args ← slotsFrom (slot + 1)
  let outcome ← modifyGet fun s =>
    match s.world.natives[id]? with
    | some n =>
      let (outcome, heap) := n.call s.world.heap args
      (outcome, { s with world := { s.world with heap } })
    | none => (.value .null, s)
  match outcome with
  | .crash message => throw (.crash message)
  | .value v =>
    setSp slot
    deliverNative v

/-- Push null `count` times. -/
def pushNulls : Nat → Exec Unit
  | 0 => pure ()
  | count + 1 => do
    push .null
    pushNulls count

/-- Make an instance and run its constructor, if there is one. A constructor takes as many arguments
as it has parameters: extra ones are dropped, missing ones are null. -/
def construct (c : Class) (slot argc : Nat) : Exec Unit := do
  let args ← slotsFrom (slot + 1)
  let object ← allocate fun h => h.newObject c args
  match c.constructor? with
  | none =>
    setSp slot
    push object
  | some constructor =>
    setSlot slot object
    let params := constructor.function.params
    if params < argc then setSp ((← getMachine).sp - (argc - params))
    else pushNulls (params - argc)
    pushFrame constructor slot (.constructor object)

/-- The fault of a closure called with a wrong number of arguments. -/
def checkArity (closure : Closure) (argc : Nat) : Exec Unit := do
  let expected := closure.function.params
  if expected != argc then raise (.arityMismatch closure.function.displayName expected argc)

/-- Call the value below the top `argc` slots. -/
def callValue (argc : Nat) : Exec Unit := do
  let slot ← calleeSlot argc
  match ← getSlot slot with
  | .closure closure =>
    checkArity closure argc
    pushFrame closure (slot + 1) .function
  | .native id _ => callNative id slot
  | .cls c => construct c slot argc
  | v => raise (.notCallable v.typeName)

/-- Call a method whose receiver is in `slot`. -/
def callMethod (method : Closure) (slot argc : Nat) : Exec Unit := do
  checkArity method argc
  pushFrame method slot .method

/-- A call of a method that does not exist gives null. -/
def missingMethod (slot : Nat) : Exec Unit := do
  setSp slot
  push .null

/-- Call a method of the receiver: a callable field is called as a plain function, otherwise the method
is looked up along the class chain. -/
def invoke (name : String) (argc : Nat) : Exec Unit := do
  let slot ← calleeSlot argc
  let receiver ← getSlot slot
  match (← getHeap).property? receiver name with
  | none => raise (.typeMismatch (.methodCall name receiver.typeName))
  | some field =>
    match field.filter Value.isCallable with
    | some callee =>
      setSlot slot callee
      callValue argc
    | none =>
      let method := match receiver with
        | .object _ c => c.findMethod? name
        | _ => none
      match method with
      | some method => callMethod method slot argc
      | none => missingMethod slot

/-- Pop a class and call the method of its parent on the receiver. -/
def invokeSuper (name : String) (argc : Nat) : Exec Unit := do
  match ← pop with
  | .cls c =>
    let slot ← calleeSlot argc
    match c.parent.bind fun parent => parent.findMethod? name with
    | some method => callMethod method slot argc
    | none => missingMethod slot
  | v => defect (.superCallOn v.typeName)

/-- Start a task that calls the value below the top `argc` slots, and push the channel of its
outcome. -/
def spawnTask (argc : Nat) : Exec Unit := do
  let slot ← calleeSlot argc
  let callee ← getSlot slot
  if !callee.isCallable then raise (.notCallable callee.typeName)
  else
    let args ← takeTop argc
    setSp slot
    let result ← allocate fun h => h.newChannel (some 1)
    modify fun s =>
      let task : Spawned := ⟨s.machine.child, callee, args, result⟩
      { s with world := { s.world with spawned := s.world.spawned.push task } }
    push (.channel result (some 1))

end ScriptMachine.Exec
