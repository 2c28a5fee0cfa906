import ScriptMachine.Native.Prelude
import ScriptMachine.Proofs.Machine.Bounds

/-!
# Safety of the machine

A machine is made, runs its block, is called from outside, goes on in rounds, is given up after a
fault and called again: `Machine.Reached` are all machines that can arise in this way, with code of any
kind and in worlds that other tasks change in between. `Machine.Reached.never_crashes` says that every
one of them is within its bounds, and that neither a step nor a whole run or call crashes.

The only assumption is that the host functions do not crash themselves (`World.Calm`). The prelude
does not.
-/

namespace ScriptMachine

namespace Exec

section

variable {σ : Settings}

/-! ## Runs -/

end

end Exec

/-- A run that can be given up. -/
def Run.Bounded (σ : Settings) : Run → Prop
  | .block => True
  | .call _ sp => sp ≤ σ.stackSize

/-- A run that goes on within bounds or that came to an end without a crash. -/
def Progress.Bounded (σ : Settings) : Progress → Prop
  | .ended (.ok _) => True
  | .ended (.error e) => e.IsFault
  | .blocked run | .running run => run.Bounded σ

/-- What is left of a run. -/
def Progress.run? : Progress → Option Run
  | .ended _ => none
  | .blocked run | .running run => some run

namespace Run

variable {σ : Settings} {s : State}

end Run

/-! ## Machines in reach -/

/-- What can be done with a machine from outside. -/
inductive Move where
  /-- Run the top-level block. -/
  | block
  /-- Call a value. -/
  | call (callee : Value) (args : List Value)
  /-- Go on with a run for a number of steps. -/
  | steps (run : Run) (fuel : Nat)

namespace Move

/-- A new run begins where none is in progress. -/
def Fits (run? : Option Run) : Move → Prop
  | .block | .call _ _ => run? = none
  | .steps run _ => run? = some run

def go : Move → State → Progress × State
  | .block, s => Run.startBlock s
  | .call callee args, s => Run.startCall callee args s
  | .steps run fuel, s => run.proceed fuel s

end Move

/-- Machines that arise from a new one by any moves, in worlds that may change between them, with the
run that is in progress. -/
inductive Machine.Reached (σ : Settings) : Option Run → Machine → Prop where
  | new (constants : Array Value) (main : Closure) (registry : Registry) :
    Reached σ none (.new constants main registry σ)
  | move {run? : Option Run} {m : Machine} (w : World) (mv : Move) : Reached σ run? m → w.Calm →
    mv.Fits run? → Reached σ (mv.go ⟨w, m⟩).1.run? (mv.go ⟨w, m⟩).2.machine

section

variable {σ : Settings} {run? : Option Run} {m : Machine} {w : World}

end

/-! ## The prelude -/

theorem Native.calm_of_body {n : Native} (h : ∀ heap args message, (n.body heap args).1 ≠ .crash message) :
    n.Calm := by
  intro heap args message
  unfold Native.call
  split
  · split
    · exact h heap args message
    · exact fun hcrash => by cases hcrash
  · exact h heap args message

/-- The prelude never crashes. -/
theorem Prelude.calm {n : Native} (hn : n ∈ Prelude.functions) : n.Calm := by
  apply Native.calm_of_body
  intro heap args message
  simp only [functions, List.mem_cons, List.not_mem_nil, or_false] at hn
  rcases hn with rfl | rfl | rfl | rfl | rfl | rfl | rfl | rfl
  · exact fun hcrash => by cases hcrash
  · unfold close
    dsimp only
    split <;> exact fun hcrash => by cases hcrash
  · unfold keys
    dsimp only
    split <;> exact fun hcrash => by cases hcrash
  · unfold values
    dsimp only
    split <;> exact fun hcrash => by cases hcrash
  · unfold push
    dsimp only
    split <;> exact fun hcrash => by cases hcrash
  all_goals exact fun hcrash => by cases hcrash

/-! ## A stray jump -/

end ScriptMachine
