import ScriptMachine.Machine.Step

/-!
# Runs

A machine runs its top-level block, or calls a value from outside. A run proceeds in rounds of
bounded length, so that several machines can take turns: `Machine.Run` says what is to be done when
the execution ends, `Run.proceed` gives it a number of steps.
-/

namespace ScriptMachine

/-- How a round ended. -/
inductive Pause where
  | finished (result : Except Abort Unit)
  /-- The machine waits for another task. -/
  | blocked
  /-- The steps of the round are used up. -/
  | outOfFuel

namespace Exec

/-- Empty the machine: no frames, no handlers, an empty stack. -/
def reset : Exec Unit := do
  modifyMachine fun m => { m with frames := #[], handlers := [], captures := #[] }
  setSp 0

/-- Execute until no more than `stop` frames are left, at most `fuel` steps. -/
def execute (stop : Nat) : Nat → State → Pause × State
  | 0, s => (.outOfFuel, s)
  | fuel + 1, s =>
    if s.machine.frames.size ≤ stop then (.finished (.ok ()), s)
    else
      match advanceCatching.run s with
      | .ok .next s => execute stop fuel s
      | .ok .halt s => (.finished (.ok ()), s)
      | .ok .blocked s => (.blocked, s)
      | .error a s => (.finished (.error a), s)

/-- Push each value. -/
def pushAll : List Value → Exec Unit
  | [] => pure ()
  | v :: vs => do
    push v
    pushAll vs

/-- Begin to call a value: push it and its arguments and enter it. -/
def beginCall (callee : Value) (args : List Value) : Exec Unit := do
  push callee
  pushAll args
  callValue args.length

/-- After a failed call: drop its frames, handlers, cells and stack slots. -/
def abandonCall (stop sp : Nat) : Exec Unit := do
  modifyMachine fun m =>
    { m with
      frames := m.frames.extract 0 stop
      handlers := Handler.discard m.handlers (stop + 1)
      captures := #[]
      waiting := none }
  setSp sp

end Exec

/-- A run in progress. -/
inductive Run where
  /-- The top-level block; its result is null. -/
  | block
  /-- A call that began with `stop` frames and stack pointer `sp`. -/
  | call (stop sp : Nat)

/-- How far a run has come. -/
inductive Progress where
  | ended (result : Except Abort Value)
  | blocked (run : Run)
  | running (run : Run)

namespace Run

/-- The result of a call whose execution ended. -/
def endCall (stop sp : Nat) (result : Except Abort Unit) (s : State) : Progress × State :=
  let attempt : Exec Value := do
    match result with
    | .ok () => Exec.pop
    | .error a => throw a
  match attempt.run s with
  | .ok v s => (.ended (.ok v), s)
  | .error a s =>
    match (Exec.abandonCall stop sp).run s with
    | .ok _ s | .error _ s => (.ended (.error a), s)

/-- The result of a block whose execution ended; the machine is emptied. -/
def endBlock (result : Except Abort Unit) (s : State) : Progress × State :=
  match Exec.reset.run s with
  | .ok _ s | .error _ s => (.ended (result.map fun _ => .null), s)

/-- Give a run `fuel` more steps. -/
def proceed (fuel : Nat) (run : Run) (s : State) : Progress × State :=
  match run with
  | .block =>
    match Exec.execute 0 fuel s with
    | (.finished result, s) => endBlock result s
    | (.blocked, s) => (.blocked .block, s)
    | (.outOfFuel, s) => (.running .block, s)
  | .call stop sp =>
    match Exec.execute stop fuel s with
    | (.finished result, s) => endCall stop sp result s
    | (.blocked, s) => (.blocked run, s)
    | (.outOfFuel, s) => (.running run, s)

/-- Begin to run the top-level block. -/
def startBlock (s : State) : Progress × State :=
  let begin : Exec Unit := do
    Exec.reset
    Exec.pushFrame (← Exec.getMachine).main 0 .function
  match begin.run s with
  | .ok _ s => (.running .block, s)
  | .error a s => (.ended (.error a), s)

/-- Begin to call a value from outside. -/
def startCall (callee : Value) (args : List Value) (s : State) : Progress × State :=
  let stop := s.machine.frames.size
  let sp := s.machine.sp
  match (Exec.beginCall callee args).run s with
  | .ok _ s => (.running (.call stop sp), s)
  | .error a s => endCall stop sp (.error a) s

end Run

end ScriptMachine
