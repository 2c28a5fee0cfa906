import Mathlib.Logic.Relation
import ScriptMachine.Proofs.Machine.Safety
import ScriptMachine.Session

/-!
# Sessions and their tasks, step by step

A session serves one request of its host after the other, and its tasks go on beside it. How the run of a
request and the turns of the tasks take place is up to the scheduler; here they may take place in any
order and be of any length.

1. **Model**: `Session.Moment` is a session with the run that serves the request at hand;
   `Session.Moment.Step` is a step of the host, of that run or of one task.
2. **Requests**: every request to a session is a sequence of such steps, so what holds at every moment
   holds between requests (`Session.Moment.steps_run` and the like).
-/

namespace ScriptMachine

namespace TaskSystem

/-- What comes after a turn of the run of a system's own machine. -/
def afterTurn (fuel : Nat) (s : TaskSystem) (r : Progress × State) : Outcome × TaskSystem × Machine :=
  match r.1 with
  | .ended result => (.finished result, { s with world := r.2.world }.adopt, r.2.machine)
  | progress => finish fuel { s with world := r.2.world }.round r.2.machine progress

theorem finish_running (fuel : Nat) (s : TaskSystem) (m : Machine) (run : Run) :
    s.finish (fuel + 1) m (.running run) = s.afterTurn fuel (run.proceed quantum ⟨s.world, m⟩) := rfl

theorem finish_blocked (fuel : Nat) (s : TaskSystem) (m : Machine) (run : Run) :
    s.finish (fuel + 1) m (.blocked run) =
      if m.canMove s.world.heap then s.afterTurn fuel (run.proceed quantum ⟨s.world, m⟩)
      else if s.adopt.canMove then finish fuel s.adopt.round m (.blocked run) else (.stuck, s.adopt, m) := rfl

end TaskSystem

namespace Session

/-! ## Model -/

/-- What a host hands to a session: host functions, and values that may depend on the session. -/
structure Host where
  native : Native → Prop
  value : Session → Value → Prop

/-- A host that hands in anything. -/
def Host.any : Host := ⟨fun _ => True, fun _ _ => True⟩

/-- A moment in the life of a session. -/
structure Moment where
  session : Session
  /-- The run that serves the request at hand, and its machine. -/
  serving : Option (Run × Machine)

namespace Moment

/-- A moment between two requests. -/
def idle (s : Session) : Moment := ⟨s, none⟩

/-- The moment after a part of a run. -/
def after (s : Session) (r : Progress × State) : Moment :=
  ⟨{ s with system := { s.system with world := r.2.world } }, r.1.run?.map fun run => (run, r.2.machine)⟩

/-- The moment at which a new machine for the given top-level block has been set to work. -/
def begin (s : Session) (main : Function) (start : State → Progress × State) : Moment :=
  let (m, s) := s.machine main
  after s (start ⟨s.system.world, m⟩)

/-- A step of the host, of the run that serves its request, or of a task. -/
inductive Step (host : Host) : Moment → Moment → Prop where
  /-- A unit is refused. -/
  | refuse (s : Session) (p : Program) (e : CompileError) (compiler : Compiler) :
    s.compiler.attempt p = (.error e, compiler) → Step host (idle s) (idle { s with compiler })
  /-- A unit begins to run. -/
  | run (s : Session) (p : Program) (unit : UnitCode) (compiler : Compiler) :
    s.compiler.attempt p = (.ok unit, compiler) →
    Step host (idle s) (begin { s with compiler } (.main unit.code unit.debug) Run.startBlock)
  /-- A function is called by name. -/
  | call (s : Session) (name : String) (callee : Value) (args : List Value) :
    s.get? name = some callee → (∀ v ∈ args, host.value s v) →
    Step host (idle s) (begin s (.main #[] #[]) (Run.startCall callee args))
  /-- The run at hand goes on for some steps. -/
  | proceed (s : Session) (run : Run) (m : Machine) (fuel : Nat) :
    Step host ⟨s, some (run, m)⟩ (after s (run.proceed fuel ⟨s.system.world, m⟩))
  /-- The run at hand is given up. -/
  | abandon (s : Session) (run : Run) (m : Machine) : Step host ⟨s, some (run, m)⟩ (idle s)
  /-- Tasks that were started are taken over. -/
  | adopt (s : Session) (serving : Option (Run × Machine)) :
    Step host ⟨s, serving⟩ ⟨{ s with system := s.system.adopt }, serving⟩
  /-- A task has a turn. -/
  | turn (s : Session) (serving : Option (Run × Machine)) (before behind : Array Task) (t : Task)
      (fuel : Nat) : s.system.tasks = before ++ #[t] ++ behind →
    Step host ⟨s, serving⟩ ⟨{ s with system := { s.system with
      world := (t.turn fuel s.system.world).2
      tasks := before ++ #[(t.turn fuel s.system.world).1] ++ behind } }, serving⟩
  /-- A task that is done is forgotten. -/
  | dismiss (s : Session) (serving : Option (Run × Machine)) (before behind : Array Task) (t : Task) :
    s.system.tasks = before ++ #[t] ++ behind → t.isDone = true →
    Step host ⟨s, serving⟩ ⟨{ s with system := { s.system with tasks := before ++ behind } }, serving⟩
  /-- The tasks are counted anew. -/
  | recount (s : Session) (tracked : Nat) :
    Step host (idle s) (idle { s with system := { s.system with tracked } })
  | set (s : Session) (name : String) (v : Value) : host.value s v →
    Step host (idle s) (idle (s.set name v))
  | register (s : Session) (n : Native) : host.native n →
    Step host (idle s) (idle (s.register n).2)
  | tryReceive (s : Session) (name : String) : Step host (idle s) (idle (s.tryReceive name).2)
  /-- Host data is written back as a value. -/
  | write (s : Session) (type : HostType) (data : type.Data) :
    Step host (idle s) (idle (s.withHeap fun h => type.toValue h data).2)

/-- Any number of steps. -/
abbrev Steps (host : Host) (a b : Moment) : Prop := Relation.ReflTransGen (Step host) a b

/-- A moment of a session that began with the given settings. -/
def Reached (host : Host) (σ : Settings) (a : Moment) : Prop := Steps host (idle (.new σ)) a

variable {host : Host}

/-! ## Rounds -/

/-- The session with another system of tasks. -/
def inSystem (s : Session) (serving : Option (Run × Machine)) (system : TaskSystem) : Moment :=
  ⟨{ s with system }, serving⟩

variable {s : Session} {serving : Option (Run × Machine)}

theorem steps_adopt (system : TaskSystem) :
    Steps host (inSystem s serving system) (inSystem s serving system.adopt) :=
  .single (.adopt { s with system } serving)

/-- One turn after the other. -/
theorem steps_turns (w : World) (tracked : Nat) (ts : List Task) (kept : Array Task) :
    Steps host (inSystem s serving ⟨w, kept ++ ts.toArray, tracked⟩)
      (inSystem s serving ⟨(TaskSystem.turns w ts kept).2, (TaskSystem.turns w ts kept).1, tracked⟩) := by
  induction ts generalizing w kept with
  | nil => simpa [TaskSystem.turns] using .refl
  | cons t ts ih =>
    have hsplit : kept ++ (t :: ts).toArray = kept ++ #[t] ++ ts.toArray := by
      rw [List.toArray_cons, ← Array.append_assoc]
    have hpush : ∀ t' : Task, kept.push t' = kept ++ #[t'] := fun t' => Array.push_eq_append
    unfold TaskSystem.turns
    split
    · have hturn : Steps host (inSystem s serving ⟨w, kept ++ (t :: ts).toArray, tracked⟩)
          (inSystem s serving ⟨(t.turn TaskSystem.quantum w).2,
            kept ++ #[(t.turn TaskSystem.quantum w).1] ++ ts.toArray, tracked⟩) :=
        .single (.turn { s with system := ⟨w, _, tracked⟩ } serving kept ts.toArray t _ hsplit)
      refine hturn.trans ?_
      dsimp only
      split
      · next hdone =>
        refine .trans (.single (.dismiss { s with system := ⟨_, _, tracked⟩ } serving kept ts.toArray _
          rfl hdone)) ?_
        exact ih _ _
      · have hrest := ih (t.turn TaskSystem.quantum w).2 (kept.push (t.turn TaskSystem.quantum w).1)
        rwa [hpush] at hrest ⊢
    · have hrest := ih w (kept.push t)
      rw [hpush, ← hsplit] at hrest
      rwa [hpush]

theorem steps_round (system : TaskSystem) :
    Steps host (inSystem s serving system) (inSystem s serving system.round) := by
  unfold TaskSystem.round
  refine (steps_adopt system).trans ?_
  generalize system.adopt = adopted
  have hturns := @steps_turns host s serving adopted.world adopted.tracked adopted.tasks.toList #[]
  rw [Array.toArray_toList, Array.empty_append] at hturns
  exact hturns.trans (steps_adopt _)

theorem steps_drain (fuel : Nat) (system : TaskSystem) :
    Steps host (inSystem s serving system) (inSystem s serving (system.drain fuel)) := by
  induction fuel generalizing system with
  | zero => exact .refl
  | succ fuel ih =>
    unfold TaskSystem.drain
    refine (steps_adopt system).trans ?_
    dsimp only
    split
    · exact (steps_round _).trans (ih _)
    · exact .refl

/-! ## Requests -/

/-- A run that is over or given up leaves the session idle. -/
theorem steps_idle (a : Moment) : Steps host a (idle a.session) := by
  obtain ⟨s, serving⟩ := a
  cases serving with
  | none => exact .refl
  | some r => exact .single (.abandon s r.1 r.2)

/-- The moment at which a run has come to `progress`. -/
def during (s : Session) (system : TaskSystem) (m : Machine) (progress : Progress) : Moment :=
  inSystem s (progress.run?.map fun run => (run, m)) system

/-- Turns of the run and rounds of the tasks alternate until the run is over. -/
theorem steps_finish (fuel : Nat) (system : TaskSystem) (m : Machine) (progress : Progress) :
    Steps host (during s system m progress) (idle { s with system := (system.finish fuel m progress).2.1 }) := by
  induction fuel generalizing system m progress with
  | zero => exact steps_idle _
  | succ fuel ih =>
    -- what comes after a turn of the run
    have hafter : ∀ r : Progress × State, Steps host (after { s with system } r)
        (idle { s with system := (system.afterTurn fuel r).2.1 }) := by
      rintro ⟨progress, world, m'⟩
      cases progress with
      | ended result => exact steps_adopt _
      | blocked run | running run => exact (steps_round _).trans (ih _ _ _)
    cases progress with
    | ended r => exact steps_adopt _
    | running run =>
      refine .trans (.single (.proceed { s with system } run m TaskSystem.quantum)) ?_
      rw [TaskSystem.finish_running]
      exact hafter _
    | blocked run =>
      rw [TaskSystem.finish_blocked]
      split
      · refine .trans (.single (.proceed { s with system } run m TaskSystem.quantum)) ?_
        exact hafter _
      · refine (steps_adopt system).trans ?_
        split
        · exact (steps_round _).trans (ih _ _ _)
        · exact steps_idle _

/-- Running a unit. -/
theorem steps_run (fuel : Nat) (s : Session) (p : Program) :
    Steps host (idle s) (idle (s.run fuel p).2) := by
  unfold Session.run
  rcases hattempt : s.compiler.attempt p with ⟨_ | unit, compiler⟩
  · exact .single (.refuse s p _ compiler hattempt)
  · refine .trans (.single (.run s p unit compiler hattempt)) ?_
    exact steps_finish fuel _ _ _

/-- Calling a function by name. -/
theorem steps_call (fuel : Nat) (s : Session) (name : String) {args : List Value}
    (hargs : ∀ v ∈ args, host.value s v) : Steps host (idle s) (idle (s.call fuel name args).2) := by
  unfold Session.call
  split
  · exact .refl
  · next callee hcallee =>
    have hget : s.get? name = some callee := (Option.filter_eq_some_iff.mp hcallee).1
    refine .trans (.single (.call s name callee args hget hargs)) ?_
    exact steps_finish fuel _ _ _

theorem steps_callTyped (fuel : Nat) (s : Session) (name : String) {args : List Value} (type : HostType)
    (hargs : ∀ v ∈ args, host.value s v) :
    Steps host (idle s) (idle (s.callTyped fuel name args type).2) := by
  have hcall := steps_call fuel s name hargs
  unfold Session.callTyped
  rcases hresult : s.call fuel name args with ⟨_ | v, t⟩
  · rw [hresult] at hcall
    exact hcall
  · rw [hresult] at hcall
    dsimp only
    split
    · exact hcall
    · exact hcall.tail (.write t type _)

/-- Waiting for all tasks. -/
theorem steps_join (fuel : Nat) (s : Session) : Steps host (idle s) (idle (s.join fuel).2) := by
  unfold Session.join TaskSystem.join
  refine (@steps_adopt host s none s.system).trans ?_
  dsimp only
  exact (steps_drain fuel _).tail (.recount _ 0)

end Moment

end Session

end ScriptMachine
