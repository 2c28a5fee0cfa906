import ScriptMachine.Task.Basic

/-!
# Taking turns

All tasks of a session share one world. A round gives every task that can move one turn, in the order
in which the tasks were started. A run of the session's own machine alternates with rounds, so that
every task moves on while others wait or compute.
-/

namespace ScriptMachine

/-- A world and the tasks at work in it. -/
structure TaskSystem where
  world : World
  /-- Tasks that are not done. -/
  tasks : Array Task
  /-- Number of tasks taken over since they were last waited for. -/
  tracked : Nat

namespace TaskSystem

/-- Steps of one turn. -/
def quantum : Nat := 512

/-- Take over the tasks that were started since. -/
def adopt (s : TaskSystem) : TaskSystem :=
  if s.world.spawned.isEmpty then s
  else
    { tasks := s.tasks ++ s.world.spawned.map Task.ofSpawned
      tracked := s.tracked + s.world.spawned.size
      world := { s.world with spawned := #[] } }

/-- One turn for each task of a list that can move; tasks that are done are dropped. -/
def turns (w : World) : List Task → Array Task → Array Task × World
  | [], kept => (kept, w)
  | t :: ts, kept =>
    if t.canMove w.heap then
      let (t, w) := t.turn quantum w
      turns w ts (if t.isDone then kept else kept.push t)
    else turns w ts (kept.push t)

/-- One round. -/
def round (s : TaskSystem) : TaskSystem :=
  let s := s.adopt
  let (tasks, world) := turns s.world s.tasks.toList #[]
  adopt { s with world, tasks }

/-- Whether any task can move. -/
def canMove (s : TaskSystem) : Bool := s.tasks.any fun t => t.canMove s.world.heap

/-- Run rounds until no task is left, none can move, or `fuel` rounds are over. -/
def drain (fuel : Nat) (s : TaskSystem) : TaskSystem :=
  match fuel with
  | 0 => s
  | fuel + 1 =>
    let s := s.adopt
    if s.canMove then drain fuel s.round else s

/-- Wait for all tasks. -/
def join (fuel : Nat) (s : TaskSystem) : TaskSystem := { s.drain fuel with tracked := 0 }

/-- How a run in a system ended. -/
inductive Outcome where
  | finished (result : Except Abort Value)
  /-- Everybody waits for somebody else. -/
  | stuck
  | outOfFuel

/-- Carry a run of `m` to its end, giving the tasks a round after each of its turns. -/
def finish : Nat → TaskSystem → Machine → Progress → Outcome × TaskSystem × Machine
  | 0, s, m, _ => (.outOfFuel, s, m)
  | _ + 1, s, m, .ended r => (.finished r, s.adopt, m)
  | fuel + 1, s, m, .running run =>
    let (progress, ⟨world, m⟩) := run.proceed quantum ⟨s.world, m⟩
    match progress with
    | .ended r => (.finished r, { s with world }.adopt, m)
    | progress => finish fuel { s with world }.round m progress
  | fuel + 1, s, m, .blocked run =>
    if m.canMove s.world.heap then
      let (progress, ⟨world, m⟩) := run.proceed quantum ⟨s.world, m⟩
      match progress with
      | .ended r => (.finished r, { s with world }.adopt, m)
      | progress => finish fuel { s with world }.round m progress
    else
      let s := s.adopt
      if s.canMove then finish fuel s.round m (.blocked run) else (.stuck, s, m)

/-- Run a machine's top-level block. -/
def runBlock (fuel : Nat) (s : TaskSystem) (m : Machine) : Outcome × TaskSystem × Machine :=
  let (progress, ⟨world, m⟩) := Run.startBlock ⟨s.world, m⟩
  finish fuel { s with world } m progress

/-- Call a value on a machine. -/
def runCall (fuel : Nat) (s : TaskSystem) (m : Machine) (callee : Value) (args : List Value) :
    Outcome × TaskSystem × Machine :=
  let (progress, ⟨world, m⟩) := Run.startCall callee args ⟨s.world, m⟩
  finish fuel { s with world } m progress

end TaskSystem

end ScriptMachine
