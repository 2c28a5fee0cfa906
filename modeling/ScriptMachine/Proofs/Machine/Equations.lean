import ScriptMachine.Machine.Run
import ScriptMachine.Proofs.Machine.Yields

/-!
# Steps of a machine as equations

What the primitives of a machine do where nothing stands in the way, and what a step does then. A run
that is known instruction by instruction is followed with `Exec.execute_next` and `Exec.execute_halt`.
-/

namespace ScriptMachine

namespace Exec

section

variable {s t : State} {fs : Array Frame} {f : Frame}

theorem bind_eq {α β : Type} {x : Exec α} {g : α → Exec β} {a : α} (h : x s = .ok a t) :
    (x >>= g) s = g a t := by
  simp only [bind, EStateM.bind, h]

theorem getMachine_eq (s : State) : getMachine s = .ok s.machine s := rfl

theorem get_eq (s : State) : (get : Exec State) s = .ok s s := rfl

theorem currentFrame_eq (hframes : s.machine.frames = fs.push f) : currentFrame s = .ok f s := by
  have hback : s.machine.frames.back? = some f := by rw [hframes, Array.back?_push]
  refine (bind_eq (getMachine_eq s)).trans ?_
  rw [hback]
  rfl

theorem modifyFrame_eq (hframes : s.machine.frames = fs.push f) (g : Frame → Frame) :
    modifyFrame g s = .ok () ⟨s.world, { s.machine with frames := fs.push (g f) }⟩ := by
  show EStateM.Result.ok () (⟨s.world, { s.machine with
    frames := s.machine.frames.modify (s.machine.frames.size - 1) g }⟩ : State) = _
  rw [hframes, modify_push]

/-- A step performs the instruction at the offset of the running frame. -/
theorem step_eq {op : Opcode} (hframes : s.machine.frames = fs.push f) (hbyte : f.code[f.ip]? = some op.toByte) :
    step s = perform op ⟨s.world, { s.machine with
      frames := fs.push { f with ip := f.ip + 1 }, opOffset := f.ip }⟩ := by
  have hdispatch : Opcode.dispatch op.toByte = some op := by
    rw [Opcode.dispatch_eq_ofByte?, Opcode.ofByte?_toByte]
  refine (bind_eq (currentFrame_eq hframes)).trans ?_
  dsimp only
  rw [hbyte]
  refine (bind_eq (modifyFrame_eq hframes _)).trans ?_
  dsimp only
  rw [hdispatch]
  rfl

/-- A machine that does not wait makes a step. -/
theorem advance_eq {op : Opcode} (hframes : s.machine.frames = fs.push f)
    (hwaiting : s.machine.waiting = none) (hbyte : f.code[f.ip]? = some op.toByte) :
    advance s = perform op ⟨s.world, { s.machine with
      frames := fs.push { f with ip := f.ip + 1 }, opOffset := f.ip }⟩ := by
  refine (bind_eq (getMachine_eq s)).trans ?_
  rw [hwaiting]
  exact step_eq hframes hbyte

/-- A step without a fault. -/
theorem advanceCatching_eq {signal : Signal} (h : advance s = .ok signal t) :
    advanceCatching.run s = .ok signal t := by
  show tryCatch advance _ s = _
  rw [tryCatch_apply, h]

theorem operand_eq {w n : Nat} (hframes : s.machine.frames = fs.push f)
    (hn : operandAt? f.code f.ip w = some n) :
    operand w s = .ok n ⟨s.world, { s.machine with frames := fs.push { f with ip := f.ip + w } }⟩ := by
  refine (bind_eq (currentFrame_eq hframes)).trans ?_
  rw [hn]
  exact bind_eq (modifyFrame_eq hframes _)

theorem push_eq (hroom : s.machine.sp < s.machine.stack.size) (v : Value) :
    push v s = .ok () ⟨s.world, { s.machine with
      stack := s.machine.stack.setIfInBounds s.machine.sp v, sp := s.machine.sp + 1 }⟩ := by
  refine (bind_eq (getMachine_eq s)).trans ?_
  rw [if_neg (Nat.not_le.mpr hroom)]
  rfl

theorem pop_eq {v : Value} (hpos : s.machine.sp ≠ 0)
    (htop : s.machine.stack[s.machine.sp - 1]? = some v) :
    pop s = .ok v ⟨s.world, { s.machine with
      stack := s.machine.stack.setIfInBounds (s.machine.sp - 1) .null, sp := s.machine.sp - 1 }⟩ := by
  have hslot : getSlot (s.machine.sp - 1) s = .ok v s := by
    refine (bind_eq (getMachine_eq s)).trans ?_
    rw [htop]
    rfl
  refine (bind_eq (getMachine_eq s)).trans ?_
  rw [if_neg (by simpa using hpos)]
  exact bind_eq hslot

theorem setSp_eq (h : s.machine.sp ≤ s.machine.stack.size) (sp : Nat) :
    setSp sp s = .ok () ⟨s.world, { s.machine with
      stack := clearSlots s.machine.stack sp (s.machine.sp - sp), sp }⟩ := by
  refine (bind_eq (getMachine_eq s)).trans ?_
  rw [if_neg (by simp only [Bool.and_eq_true, decide_eq_true_eq]; omega)]
  rfl

theorem reset_eq (h : s.machine.sp ≤ s.machine.stack.size) :
    reset s = .ok () ⟨s.world, { s.machine with
      frames := #[], handlers := [], captures := #[]
      stack := clearSlots s.machine.stack 0 s.machine.sp, sp := 0 }⟩ :=
  setSp_eq (s := ⟨s.world, { s.machine with frames := #[], handlers := [], captures := #[] }⟩) h 0

theorem perform_pop_eq {v : Value} (hpos : s.machine.sp ≠ 0)
    (htop : s.machine.stack[s.machine.sp - 1]? = some v) :
    perform .pop s = .ok .next ⟨s.world, { s.machine with
      stack := s.machine.stack.setIfInBounds (s.machine.sp - 1) .null
      sp := s.machine.sp - 1
      lastPopped := v }⟩ := by
  refine (bind_eq (pop_eq hpos htop)).trans ?_
  rfl

/-- The next step of an execution. -/
theorem execute_next {stop fuel : Nat} (hframes : stop < s.machine.frames.size)
    (h : advance s = .ok .next t) : execute stop (fuel + 1) s = execute stop fuel t := by
  rw [execute, if_neg (Nat.not_le.mpr hframes), advanceCatching_eq h]

/-- The last step of an execution. -/
theorem execute_halt {stop fuel : Nat} (hframes : stop < s.machine.frames.size)
    (h : advance s = .ok .halt t) : execute stop (fuel + 1) s = (.finished (.ok ()), t) := by
  rw [execute, if_neg (Nat.not_le.mpr hframes), advanceCatching_eq h]

end

end Exec

end ScriptMachine
