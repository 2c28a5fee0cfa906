import ScriptMachine.Machine.Run

/-!
# Tasks

A task calls a value on a machine of its own and puts the outcome into a channel with one slot, which
it then closes. Its life is a sequence of phases, and each turn moves it on as far as it can get in a
bounded number of steps.
-/

namespace ScriptMachine

/-- Whether a send would not have to wait for room. -/
def Channel.hasRoom {α : Type} (c : Channel α) : Bool :=
  c.closed || match c.capacity with
    | some 0 => true
    | some n => c.length < n
    | none => true

/-- Whether the thing waited for is there. -/
def Wait.isReady (h : Heap) : Wait → Bool
  | .room ch _ => (h.channel ch).hasRoom
  | .taken ch ticket => (h.channel ch).released ticket
  | .message ch => !(h.channel ch).isEmpty || (h.channel ch).closed

/-- Whether a machine can execute its next step. -/
def Machine.canMove (h : Heap) (m : Machine) : Bool :=
  match m.waiting with
  | some w => w.isReady h
  | none => true

/-- How far a task has come. -/
inductive TaskPhase where
  | ready (callee : Value) (args : List Value)
  | active (run : Run)
  /-- The call is over; its outcome waits for room in the channel. -/
  | delivering (outcome : Value)
  | done

/-- A task. -/
structure Task where
  machine : Machine
  phase : TaskPhase
  /-- The channel that receives the outcome. -/
  result : Ref

namespace Task

/-- A task about to begin. -/
def ofSpawned (s : Spawned) : Task := ⟨s.machine, .ready s.callee s.args, s.result⟩

/-- The value that stands for a task's result: what it returned, the error value that nobody caught,
or an error value with the text of the fault. -/
def outcome (h : Heap) : Except Abort Value → Value
  | .ok v => v
  | .error (.fault ⟨.uncaught (.error message span), _⟩) => .error message span
  | .error (.fault f) => f.toValue h
  | .error (.crash message) => .error ("task panicked: " ++ message) none

/-- Whether a task can move on. -/
def canMove (h : Heap) (t : Task) : Bool :=
  match t.phase with
  | .ready _ _ => true
  | .active _ => t.machine.canMove h
  | .delivering _ => (h.channel t.result).hasRoom
  | .done => false

def isDone (t : Task) : Bool :=
  match t.phase with
  | .done => true
  | _ => false

/-- Put the outcome into the channel and close it; a channel that is closed already is left alone. -/
def deliver (w : World) (t : Task) (v : Value) : Task × World :=
  let (step, c) := (w.heap.channel t.result).send v
  match step with
  | .full => ({ t with phase := .delivering v }, w)
  | _ =>
    let heap := (w.heap.setChannel t.result c).closeChannel t.result
    ({ t with phase := .done }, { w with heap })

/-- The task after a move of its run. -/
def settle (t : Task) : Progress × State → Task × World
  | (.ended r, ⟨w, m⟩) => deliver w { t with machine := m } (outcome w.heap r)
  | (.blocked run, ⟨w, m⟩) | (.running run, ⟨w, m⟩) =>
    ({ t with machine := m, phase := .active run }, w)

/-- Give a task a turn of at most `fuel` steps. -/
def turn (fuel : Nat) (t : Task) (w : World) : Task × World :=
  match t.phase with
  | .ready callee args => t.settle (Run.startCall callee args ⟨w, t.machine⟩)
  | .active run => t.settle (run.proceed fuel ⟨w, t.machine⟩)
  | .delivering v => t.deliver w v
  | .done => (t, w)

end Task

end ScriptMachine
