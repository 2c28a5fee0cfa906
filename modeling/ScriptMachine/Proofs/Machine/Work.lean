import ScriptMachine.Proofs.Layout.Bytes
import ScriptMachine.Proofs.Machine.Yields

/-!
# Work in the running frame

Most instructions work in the running frame only. They take some values from the top of the stack,
leave others in their place, and go on to the next instruction. `Exec.Does` states this for a part
of an instruction, with the number of values taken and left. There is one lemma for each kind of
instruction, and `yields_perform` puts them together: what an instruction does to the stack is what
its point in a layout says.

Calls enter frames and the instructions that are not `Opcode.isPlain` jump; they are not covered here.

What an instruction needs is a premise of its lemma: if it is missing the code is defective, and `D`
says whether that may be. `Emitted.Served` puts the needs of all instructions together.
-/

namespace ScriptMachine

/-! ## Frames and the slots below them -/

/-- A frame that differs at most in its position and in its cells. -/
structure Frame.Same (f g : Frame) : Prop where
  closure : g.closure = f.closure
  base : g.base = f.base
  kind : g.kind = f.kind

/-- Nothing below `low` is written, apart from the locals of the frame. -/
def Frame.Spares (f : Frame) (low : Nat) (a b : Array Value) : Prop :=
  ∀ i < low, i < f.base ∨ f.base + f.closure.function.locals ≤ i → b[i]? = a[i]?

namespace Frame.Spares

variable {f : Frame} {low k : Nat} {a b : Array Value}

theorem refl (f : Frame) (low : Nat) (a : Array Value) : f.Spares low a a := fun _ _ _ => rfl

theorem set (h : f.Spares low a b) (hk : low ≤ k) (v : Value) :
    f.Spares low a (b.setIfInBounds k v) := by
  intro i hi hout
  rw [Array.getElem?_setIfInBounds_ne (by omega)]
  exact h i hi hout

theorem setLocal (h : f.Spares low a b) (hk : k < f.closure.function.locals) (v : Value) :
    f.Spares low a (b.setIfInBounds (f.base + k) v) := by
  intro i hi hout
  rw [Array.getElem?_setIfInBounds_ne (by omega)]
  exact h i hi hout

theorem clear {start : Nat} (h : f.Spares low a b) (hstart : low ≤ start) (count : Nat) :
    f.Spares low a (Exec.clearSlots b start count) := by
  induction count generalizing b start with
  | zero => exact h
  | succ count ih => exact ih (h.set hstart .null) (by omega)

end Frame.Spares

/-! ## Work and breaks -/

/-- `m'` is `m` after work in the running frame `f`, which stands at `ip` then. A machine that waits
still owes a value, which counts for the stack pointer. -/
structure Machine.Works (m : Machine) (fs : Array Frame) (f : Frame) (low ip sp : Nat)
    (m' : Machine) : Prop where
  frames : ∃ g, m'.frames = fs.push g ∧ f.Same g ∧ g.ip = ip
  handlers : m'.handlers = m.handlers
  sp : m'.sp + (if m'.waiting.isSome then 1 else 0) = sp
  owes : m'.waiting.isSome = true → low ≤ m'.sp
  stack : f.Spares low m.stack m'.stack

/-- `m'` is `m` after work in the running frame `f` that came to a fault. -/
structure Machine.Breaks (m : Machine) (fs : Array Frame) (f : Frame) (low : Nat) (m' : Machine) :
    Prop where
  frames : ∃ g, m'.frames = fs.push g ∧ f.Same g
  handlers : m'.handlers = m.handlers
  waiting : m'.waiting = none
  stack : f.Spares low m.stack m'.stack

section

variable {m m' : Machine} {fs : Array Frame} {f : Frame} {low ip sp : Nat}

/-- Work without waiting. -/
theorem Machine.Works.moved (hframes : m'.frames = fs.push { f with ip })
    (hhandlers : m'.handlers = m.handlers) (hwaiting : m'.waiting = none)
    (hstack : f.Spares low m.stack m'.stack) (hsp : m'.sp = sp) :
    m.Works fs f low ip sp m' := by
  refine ⟨⟨_, hframes, ⟨rfl, rfl, rfl⟩, rfl⟩, hhandlers, ?_, ?_, hstack⟩
  · simp [hwaiting, hsp]
  · simp [hwaiting]

/-- One more value. -/
theorem Machine.Works.pushed (hw : m.waiting = none) {v : Value}
    (hframes : m'.frames = fs.push { f with ip }) (hhandlers : m'.handlers = m.handlers)
    (hwaiting : m'.waiting = m.waiting) (hstack : m'.stack = m.stack.setIfInBounds m.sp v)
    (hsp : m'.sp = m.sp + 1) : m.Works fs f (m.sp - 0) ip (m.sp - 0 + 1) m' := by
  refine .moved hframes hhandlers (hwaiting.trans hw) ?_ hsp
  rw [hstack]
  exact (Frame.Spares.refl f _ _).set (Nat.le_refl _) v

/-- A machine that waits owes one value. -/
theorem Machine.Works.waits {w : Wait} (hframes : m'.frames = fs.push { f with ip })
    (hhandlers : m'.handlers = m.handlers) (hwaiting : m'.waiting = some w)
    (hstack : f.Spares low m.stack m'.stack) (hsp : m'.sp = low) :
    m.Works fs f low ip (low + 1) m' := by
  refine ⟨⟨_, hframes, ⟨rfl, rfl, rfl⟩, rfl⟩, hhandlers, ?_, fun _ => Nat.le_of_eq hsp.symm, hstack⟩
  simp [hwaiting, hsp]

theorem Machine.Breaks.of_stack (hframes : m'.frames = fs.push { f with ip })
    (hhandlers : m'.handlers = m.handlers) (hwaiting : m'.waiting = none)
    (hstack : f.Spares low m.stack m'.stack) : m.Breaks fs f low m' :=
  ⟨⟨_, hframes, ⟨rfl, rfl, rfl⟩⟩, hhandlers, hwaiting, hstack⟩

end

/-- What has been set up is there. -/
structure Machine.Serves (m : Machine) (u : Setup) : Prop where
  queued : u.queued ≤ m.captures.size
  constant : ∀ place, u = .constant place →
    0 < m.sp ∧ m.stack[m.sp - 1]? = some (m.constants[place]?.getD .null)

theorem Machine.serves_nothing (m : Machine) : m.Serves .nothing :=
  ⟨Nat.zero_le _, fun _ h => by cases h⟩

/-- There is a function at the place, and there are enough cells for it. -/
def Machine.Closes (m : Machine) (place count : Nat) : Prop :=
  ∃ id f, m.constants[place]? = some (.function id f) ∧ count ≤ m.captures.size

/-! ## Causes -/

/-- The causes of pure operations have nothing to do with the code. -/
theorem BinaryOp.hasPlace_of_apply {h : Heap} {op : BinaryOp} {a b : Value} {c : Cause}
    (hc : op.apply h a b = .error c) : c.hasPlace = true := by
  have ints : ∀ {x y : Int64}, op.onInts x y = .error c → c.hasPlace = true := by
    intro x y hc
    cases op <;> simp only [onInts, reduceCtorEq] at hc <;> split at hc <;> cases hc <;> rfl
  have floats : ∀ {x y : Float}, op.onFloats x y = .error c → c.hasPlace = true := by
    intro x y hc
    cases op <;> simp only [onFloats, reduceCtorEq] at hc <;> split at hc <;> cases hc <;> rfl
  unfold apply at hc
  split at hc
  · exact ints hc
  · split at hc
    · cases hc
    · cases hc
    · split at hc
      · exact floats hc
      · dsimp only at hc
        split at hc
        · split at hc <;> cases hc
          rfl
        · cases hc
          rfl

theorem Value.hasPlace_of_negate {v : Value} {c : Cause} (hc : v.negate = .error c) :
    c.hasPlace = true := by
  unfold negate at hc
  split at hc <;> cases hc
  rfl

namespace Heap

variable {h : Heap} {target index : Value} {name : String} {c : Cause}

theorem hasPlace_of_keyOrCause {α : Type} {v : Value} {g : Key → α}
    (hc : (keyOrCause v).map g = .error c) : c.hasPlace = true := by
  unfold keyOrCause at hc
  split at hc <;> cases hc
  rfl

theorem hasPlace_of_getItem (hc : h.getItem target index = .error c) : c.hasPlace = true := by
  unfold getItem at hc
  split at hc
  · cases hc
  · cases hc
  · exact hasPlace_of_keyOrCause hc
  · exact hasPlace_of_keyOrCause hc
  all_goals
    cases hc
    rfl

theorem hasPlace_of_itemPlace (hc : h.itemPlace target index = .error c) : c.hasPlace = true := by
  unfold itemPlace at hc
  split at hc
  · dsimp only at hc
    split at hc <;> cases hc
    rfl
  · exact hasPlace_of_keyOrCause hc
  · exact hasPlace_of_keyOrCause hc
  all_goals
    cases hc
    rfl

theorem hasPlace_of_getProperty (hc : h.getProperty target name = .error c) : c.hasPlace = true := by
  unfold getProperty at hc
  split at hc <;> cases hc
  rfl

theorem hasPlace_of_propertyPlace (hc : propertyPlace target name = .error c) :
    c.hasPlace = true := by
  unfold propertyPlace at hc
  split at hc <;> cases hc
  rfl

end Heap

namespace Exec

/-- `x` takes and leaves the given numbers of values, and reads `length` bytes of operands. -/
def Does {α : Type} (D : Prop) (x : Exec α) (s : State) (fs : Array Frame) (f : Frame)
    (length takes leaves : Nat) : Prop :=
  Yields D x s
    (fun _ t => s.machine.Works fs f (s.machine.sp - takes) (f.ip + length)
      (s.machine.sp - takes + leaves) t.machine)
    (fun t => s.machine.Breaks fs f (s.machine.sp - takes) t.machine)

/-- `x` reads `length` bytes of operands and queues a cell. -/
def Queues {α : Type} (D : Prop) (x : Exec α) (s : State) (fs : Array Frame) (f : Frame)
    (length : Nat) : Prop :=
  Yields D x s
    (fun _ t => s.machine.Works fs f (s.machine.sp - 0) (f.ip + length) (s.machine.sp - 0 + 0) t.machine ∧
      t.machine.captures.size = s.machine.captures.size + 1)
    (fun t => s.machine.Breaks fs f (s.machine.sp - 0) t.machine)

section

variable {D : Prop} {s : State} {fs : Array Frame} {f : Frame} {n k : Nat}

/-! ## Variables -/

theorem does_push (h : s.machine.frames = fs.push f) (hw : s.machine.waiting = none) (v : Value) :
    Does D (push v) s fs f 0 0 1 := by
  simp only [Does, yields_push]
  intro _
  exact .pushed hw h rfl rfl rfl rfl

/-- The constant is left on top of the stack. -/
theorem yields_pushConstant (h : s.machine.frames = fs.push f) (hw : s.machine.waiting = none)
    (hn : operandAt? f.code f.ip 2 = some n) (hc : s.machine.constants[n]? = none → D) :
    Yields D (do push (← constant (← operand 2))) s
      (fun _ t => s.machine.Works fs f (s.machine.sp - 0) (f.ip + 2) (s.machine.sp - 0 + 1) t.machine ∧
        t.machine.Serves (.constant n))
      (fun t => s.machine.Breaks fs f (s.machine.sp - 0) t.machine) := by
  simp only [yields_bind, yields_operand h hn, yields_constant, yields_push]
  refine ⟨hc, fun v hv hroom => ⟨.pushed hw rfl rfl rfl rfl rfl, Nat.zero_le _, ?_⟩⟩
  rintro place ⟨⟩
  refine ⟨Nat.succ_pos _, ?_⟩
  simp only [Nat.add_sub_cancel, hv, Option.getD_some]
  exact Array.getElem?_setIfInBounds_self_of_lt hroom

theorem does_getLocal (h : s.machine.frames = fs.push f) (hw : s.machine.waiting = none)
    (hn : operandAt? f.code f.ip 1 = some n) (hslot : s.machine.stack.size ≤ f.base + n → D) :
    Does D getLocal s fs f 1 0 1 := by
  simp only [Does, getLocal, yields_bind, yields_localOperand h hn]
  refine ⟨hslot, fun _ => ?_⟩
  rw [@yields_currentFrame _ _ _ fs { f with ip := f.ip + 1 } _ rfl]
  split
  · simp only [yields_bind, yields_getHeap, yields_push]
    intro _
    exact .pushed hw rfl rfl rfl rfl rfl
  · simp only [yields_bind, yields_getSlot, yields_push]
    intro _ _
    exact .pushed hw rfl rfl rfl rfl rfl

theorem does_setLocal (h : s.machine.frames = fs.push f) (hw : s.machine.waiting = none)
    (hn : operandAt? f.code f.ip 1 = some n) (hlocal : n < f.closure.function.locals)
    (hslot : s.machine.stack.size ≤ f.base + n → D) (hsp : s.machine.sp < 1 → D) :
    Does D setLocal s fs f 1 1 1 := by
  simp only [Does, setLocal, yields_bind, yields_localOperand h hn, yields_peek]
  refine ⟨hslot, fun _ => ⟨fun hzero => hsp (by omega), fun hpos _ => ?_⟩⟩
  rw [@yields_currentFrame _ _ _ fs { f with ip := f.ip + 1 } _ rfl]
  split
  · simp only [yields_modifyHeap]
    exact .moved rfl rfl hw (.refl _ _ _) (by dsimp only; omega)
  · simp only [yields_setSlot]
    intro _
    exact .moved rfl rfl hw ((Frame.Spares.refl f _ _).setLocal hlocal _) (by dsimp only; omega)

theorem does_getGlobal (h : s.machine.frames = fs.push f) (hw : s.machine.waiting = none)
    (hn : operandAt? f.code f.ip 2 = some n) : Does D getGlobal s fs f 2 0 1 := by
  simp only [Does, getGlobal, yields_bind, yields_operand h hn, yields_get, yields_push]
  intro _
  exact .pushed hw rfl rfl rfl rfl rfl

theorem does_setGlobal (h : s.machine.frames = fs.push f) (hw : s.machine.waiting = none)
    (hn : operandAt? f.code f.ip 2 = some n) (hsp : s.machine.sp < 1 → D) :
    Does D setGlobal s fs f 2 1 1 := by
  simp only [Does, setGlobal, yields_bind, yields_operand h hn, yields_peek, yields_modify]
  refine ⟨fun hzero => hsp (by omega), fun hpos _ => ?_⟩
  exact .moved rfl rfl hw (.refl _ _ _) (by dsimp only; omega)

theorem does_getFree (h : s.machine.frames = fs.push f) (hw : s.machine.waiting = none)
    (hn : operandAt? f.code f.ip 1 = some n) (hcell : f.closure.free[n]? = none → D) :
    Does D getFree s fs f 1 0 1 := by
  simp only [Does, getFree, yields_bind, yields_operand h hn]
  rw [@yields_freeCell _ _ _ fs { f with ip := f.ip + 1 } _ rfl]
  refine ⟨hcell, fun ref _ => ?_⟩
  simp only [yields_getHeap, yields_push]
  intro _
  exact .pushed hw rfl rfl rfl rfl rfl

theorem does_setFree (h : s.machine.frames = fs.push f) (hw : s.machine.waiting = none)
    (hn : operandAt? f.code f.ip 1 = some n) (hcell : f.closure.free[n]? = none → D)
    (hsp : s.machine.sp < 1 → D) : Does D setFree s fs f 1 1 1 := by
  simp only [Does, setFree, yields_bind, yields_operand h hn, yields_peek]
  refine ⟨fun hzero => hsp (by omega), fun hpos _ => ?_⟩
  rw [@yields_freeCell _ _ _ fs { f with ip := f.ip + 1 } _ rfl]
  refine ⟨hcell, fun ref _ => ?_⟩
  simp only [yields_modifyHeap]
  exact .moved rfl rfl hw (.refl _ _ _) (by dsimp only; omega)

theorem does_getBuiltin (h : s.machine.frames = fs.push f) (hw : s.machine.waiting = none)
    (hn : operandAt? f.code f.ip 1 = some n) (hnative : s.machine.registry.get? n = none → D) :
    Does D getBuiltin s fs f 1 0 1 := by
  simp only [Does, getBuiltin, yields_bind, yields_operand h hn, yields_getMachine]
  split
  · simp only [yields_push]
    intro _
    exact .pushed hw rfl rfl rfl rfl rfl
  · next hnone => exact (yields_defect _).mpr (hnative hnone)

theorem does_currentClosure (h : s.machine.frames = fs.push f) (hw : s.machine.waiting = none) :
    Does D (do push (.closure (← currentFrame).closure)) s fs f 0 0 1 := by
  simp only [Does, yields_bind, yields_currentFrame h]
  exact does_push h hw _

theorem same_capture (f : Frame) (h : Heap) (index : Nat) (v : Value) :
    f.Same (f.capture h index v).2.1 ∧ (f.capture h index v).2.1.ip = f.ip := by
  unfold Frame.capture
  split <;> exact ⟨⟨rfl, rfl, rfl⟩, rfl⟩

theorem queues_captureLocal (h : s.machine.frames = fs.push f) (hw : s.machine.waiting = none)
    (hn : operandAt? f.code f.ip 1 = some n) (hslot : s.machine.stack.size ≤ f.base + n → D) :
    Queues D captureLocal s fs f 1 := by
  simp only [Queues, captureLocal, yields_bind, yields_localOperand h hn, yields_getSlot]
  refine ⟨hslot, fun _ _ => ?_⟩
  rw [@yields_currentFrame _ _ _ fs { f with ip := f.ip + 1 } _ rfl]
  simp only [yields_allocate]
  rw [@yields_modifyFrame _ _ _ fs { f with ip := f.ip + 1 } _ rfl]
  obtain ⟨hsame, hip⟩ := same_capture { f with ip := f.ip + 1 } s.world.heap n
    (s.machine.stack[f.base + n]?.getD .null)
  simp only [yields_queueCapture]
  refine ⟨⟨⟨_, rfl, ⟨hsame.closure, hsame.base, hsame.kind⟩, hip⟩, rfl, ?_, ?_, .refl _ _ _⟩, ?_⟩
  · simp [hw]
  · simp [hw]
  · simp

theorem queues_captureFree (h : s.machine.frames = fs.push f) (hw : s.machine.waiting = none)
    (hn : operandAt? f.code f.ip 1 = some n) (hcell : f.closure.free[n]? = none → D) :
    Queues D captureFree s fs f 1 := by
  simp only [Queues, captureFree, yields_bind, yields_operand h hn]
  rw [@yields_freeCell _ _ _ fs { f with ip := f.ip + 1 } _ rfl]
  refine ⟨hcell, fun ref _ => ?_⟩
  simp only [yields_queueCapture]
  exact ⟨.moved rfl rfl hw (.refl _ _ _) rfl, by simp⟩

theorem queues_captureSelf (h : s.machine.frames = fs.push f) (hw : s.machine.waiting = none) :
    Queues D captureSelf s fs f 0 := by
  simp only [Queues, captureSelf, yields_bind, yields_currentFrame h, yields_allocate,
    yields_queueCapture]
  exact ⟨.moved h rfl hw (.refl _ _ _) rfl, by simp⟩

/-! ## Operators and items -/

/-- The two topmost slots may be written. -/
theorem spares_two (f : Frame) (a : Array Value) (sp : Nat) (v w : Value) :
    f.Spares (sp - 2) a ((a.setIfInBounds (sp - 1) v).setIfInBounds (sp - 1 - 1) w) :=
  ((Frame.Spares.refl f _ a).set (by omega) v).set (by omega) w

/-- The three topmost slots may be written. -/
theorem spares_three (f : Frame) (a : Array Value) (sp : Nat) (u v w : Value) :
    f.Spares (sp - 3) a
      (((a.setIfInBounds (sp - 1) u).setIfInBounds (sp - 1 - 1) v).setIfInBounds (sp - 1 - 1 - 1) w) :=
  (((Frame.Spares.refl f _ a).set (by omega) u).set (by omega) v).set (by omega) w

/-- A cause that has a place is no defect of the code. -/
theorem no_defect {c : Cause} (hc : c.hasPlace = true) : c.hasPlace = false → D := by
  rw [hc]
  exact fun h => by cases h

/-- Two values are replaced by what a pure operation makes of them. -/
theorem does_combine (h : s.machine.frames = fs.push f) (hw : s.machine.waiting = none)
    (g : Heap → Value → Value → Except Cause Value)
    (hg : ∀ heap a b c, g heap a b = .error c → c.hasPlace = true) (hsp : s.machine.sp < 2 → D) :
    Does D (do
      let b ← pop
      let a ← pop
      push (← ofExcept (g (← getHeap) a b))) s fs f 0 2 1 := by
  simp only [Does, yields_bind, yields_pop, yields_getHeap, yields_ofExcept, yields_push]
  refine ⟨fun _ => hsp (by omega), fun _ _ => ⟨fun _ => hsp (by omega), fun _ _ => ⟨?_, ?_⟩⟩⟩
  · intro v _ _
    refine .moved h rfl hw ?_ (by dsimp only; omega)
    apply Frame.Spares.set _ (by omega)
    exact spares_two f _ _ _ _
  · intro c hc
    exact ⟨no_defect (hg _ _ _ c hc), fun _ => .of_stack h rfl hw (spares_two f _ _ _ _)⟩

theorem does_binary (h : s.machine.frames = fs.push f) (hw : s.machine.waiting = none)
    (op : BinaryOp) (hsp : s.machine.sp < 2 → D) : Does D (binary op) s fs f 0 2 1 :=
  does_combine h hw (fun heap a b => op.apply heap a b)
    (fun _ _ _ _ hc => BinaryOp.hasPlace_of_apply hc) hsp

theorem does_getIndex (h : s.machine.frames = fs.push f) (hw : s.machine.waiting = none)
    (hsp : s.machine.sp < 2 → D) : Does D getIndex s fs f 0 2 1 :=
  does_combine h hw (fun heap target index => heap.getItem target index)
    (fun _ _ _ _ hc => Heap.hasPlace_of_getItem hc) hsp

/-- One value is replaced by what a pure operation makes of it. -/
theorem does_unary (h : s.machine.frames = fs.push f) (hw : s.machine.waiting = none)
    (g : Heap → Value → Except Cause Value)
    (hg : ∀ heap a c, g heap a = .error c → c.hasPlace = true) (hsp : s.machine.sp < 1 → D) :
    Does D (do
      let a ← pop
      push (← ofExcept (g (← getHeap) a))) s fs f 0 1 1 := by
  simp only [Does, yields_bind, yields_pop, yields_getHeap, yields_ofExcept, yields_push]
  refine ⟨fun _ => hsp (by omega), fun _ _ => ⟨?_, ?_⟩⟩
  · intro v _ _
    refine .moved h rfl hw ?_ rfl
    apply Frame.Spares.set _ (by omega)
    exact (Frame.Spares.refl f _ _).set (Nat.le_refl _) _
  · intro c hc
    exact ⟨no_defect (hg _ _ c hc),
      fun _ => .of_stack h rfl hw ((Frame.Spares.refl f _ _).set (Nat.le_refl _) _)⟩

theorem does_negate (h : s.machine.frames = fs.push f) (hw : s.machine.waiting = none)
    (hsp : s.machine.sp < 1 → D) : Does D (do push (← ofExcept (← pop).negate)) s fs f 0 1 1 :=
  does_unary h hw (fun _ v => v.negate) (fun _ _ _ hc => Value.hasPlace_of_negate hc) hsp

theorem does_not (h : s.machine.frames = fs.push f) (hw : s.machine.waiting = none)
    (hsp : s.machine.sp < 1 → D) : Does D (do push (← pop).logicalNot) s fs f 0 1 1 := by
  have hunary := does_unary h hw (fun _ v => .ok v.logicalNot) (fun _ _ _ hc => by cases hc) hsp
  simpa [Does] using hunary

theorem does_pop (h : s.machine.frames = fs.push f) (hw : s.machine.waiting = none)
    (hsp : s.machine.sp < 1 → D) :
    Does D (do
      let v ← pop
      modifyMachine fun m => { m with lastPopped := v }) s fs f 0 1 0 := by
  simp only [Does, yields_bind, yields_pop, yields_modifyMachine]
  refine ⟨fun _ => hsp (by omega), fun _ _ => ?_⟩
  exact .moved h rfl hw ((Frame.Spares.refl f _ _).set (Nat.le_refl _) _) rfl

theorem does_dup (h : s.machine.frames = fs.push f) (hw : s.machine.waiting = none)
    (hsp : s.machine.sp < 1 → D) : Does D (do push (← peek)) s fs f 0 1 2 := by
  simp only [Does, yields_bind, yields_peek, yields_push]
  refine ⟨fun _ => hsp (by omega), fun _ _ _ => ?_⟩
  exact .moved h rfl hw ((Frame.Spares.refl f _ _).set (by omega) _) (by dsimp only; omega)

theorem does_setIndex (h : s.machine.frames = fs.push f) (hw : s.machine.waiting = none)
    (hsp : s.machine.sp < 3 → D) : Does D setIndex s fs f 0 3 1 := by
  simp only [Does, setIndex, yields_bind, yields_pop, yields_getHeap, yields_ofExcept,
    yields_modifyHeap, yields_push]
  refine ⟨fun _ => hsp (by omega), fun _ _ => ⟨fun _ => hsp (by omega), fun _ _ =>
    ⟨fun _ => hsp (by omega), fun _ _ => ⟨?_, ?_⟩⟩⟩⟩
  · intro _ _ _
    refine .moved h rfl hw ?_ (by dsimp only; omega)
    apply Frame.Spares.set _ (by omega)
    exact spares_three f _ _ _ _ _
  · intro c hc
    exact ⟨no_defect (Heap.hasPlace_of_itemPlace hc),
      fun _ => .of_stack h rfl hw (spares_three f _ _ _ _ _)⟩

theorem does_getProperty (h : s.machine.frames = fs.push f) (hw : s.machine.waiting = none)
    (hn : operandAt? f.code f.ip 2 = some n)
    (hname : (∀ name, s.machine.constants[n]? ≠ some (.str name)) → D) (hsp : s.machine.sp < 1 → D) :
    Does D getProperty s fs f 2 1 1 := by
  simp only [Does, getProperty, yields_bind, yields_operand h hn, yields_constantName, yields_pop,
    yields_getHeap, yields_ofExcept, yields_push]
  refine ⟨hname, fun name _ => ⟨fun _ => hsp (by omega), fun _ _ => ⟨?_, ?_⟩⟩⟩
  · intro _ _ _
    refine .moved rfl rfl hw ?_ rfl
    apply Frame.Spares.set _ (by omega)
    exact (Frame.Spares.refl f _ _).set (Nat.le_refl _) _
  · intro c hc
    exact ⟨no_defect (Heap.hasPlace_of_getProperty hc),
      fun _ => .of_stack rfl rfl hw ((Frame.Spares.refl f _ _).set (Nat.le_refl _) _)⟩

theorem does_setProperty (h : s.machine.frames = fs.push f) (hw : s.machine.waiting = none)
    (hn : operandAt? f.code f.ip 2 = some n)
    (hname : (∀ name, s.machine.constants[n]? ≠ some (.str name)) → D) (hsp : s.machine.sp < 2 → D) :
    Does D setProperty s fs f 2 2 1 := by
  simp only [Does, setProperty, yields_bind, yields_operand h hn, yields_constantName, yields_pop,
    yields_ofExcept, yields_modifyHeap, yields_push]
  refine ⟨hname, fun name _ => ⟨fun _ => hsp (by omega), fun _ _ =>
    ⟨fun _ => hsp (by omega), fun _ _ => ⟨?_, ?_⟩⟩⟩⟩
  · intro _ _ _
    refine .moved rfl rfl hw ?_ (by dsimp only; omega)
    apply Frame.Spares.set _ (by omega)
    exact spares_two f _ _ _ _
  · intro c hc
    exact ⟨no_defect (Heap.hasPlace_of_propertyPlace hc),
      fun _ => .of_stack rfl rfl hw (spares_two f _ _ _ _)⟩

/-! ## Collections, closures and tasks -/

theorem does_makeClosure (h : s.machine.frames = fs.push f) (hw : s.machine.waiting = none)
    (hn : operandAt? f.code f.ip 2 = some n) (hk : operandAt? f.code (f.ip + 2) 1 = some k)
    (hcloses : ¬ s.machine.Closes n k → D) : Does D makeClosure s fs f 3 0 1 := by
  simp only [Does, makeClosure, yields_bind, yields_operand h hn]
  rw [@yields_operand _ _ _ fs { f with ip := f.ip + 2 } _ rfl _ _ hk]
  simp only [yields_constant]
  refine ⟨fun hnone => hcloses ?_, fun c hc => ?_⟩
  · rintro ⟨id, g, hg, -⟩
    rw [hg] at hnone
    cases hnone
  · split
    · simp only [yields_bind, yields_getMachine, yields_ite, yields_defect, yields_modifyMachine,
        yields_allocate, yields_push]
      refine ⟨fun hlt => hcloses ?_, fun _ _ => ?_⟩
      · rintro ⟨id, g, -, hle⟩
        omega
      · exact .pushed hw rfl rfl rfl rfl rfl
    · next hne =>
      refine (yields_defect _).mpr (hcloses ?_)
      rintro ⟨id, g, hg, -⟩
      rw [hc, Option.some.injEq] at hg
      exact hne id g hg

theorem does_makeArray (h : s.machine.frames = fs.push f) (hw : s.machine.waiting = none)
    (hn : operandAt? f.code f.ip 2 = some n) (hsp : s.machine.sp < n → D) :
    Does D makeArray s fs f 2 n 1 := by
  simp only [Does, makeArray, yields_bind, yields_operand h hn, yields_takeTop, yields_allocate,
    yields_push]
  refine ⟨hsp, fun _ _ _ => ?_⟩
  refine .moved rfl rfl hw ?_ rfl
  apply Frame.Spares.set _ (Nat.le_refl _)
  exact (Frame.Spares.refl f _ _).clear (Nat.le_refl _) _

theorem yields_collectEntries {P : Dict Key Value → State → Prop} {E : State → Prop}
    (hP : ∀ d, P d s) (hE : E s) (d : Dict Key Value) (vs : List Value) :
    Yields D (collectEntries d vs) s P E := by
  fun_induction collectEntries d vs with
  | case1 d k v rest ih =>
    simp only [yields_bind, yields_keyOf]
    exact ⟨fun key _ => ih key, fun _ => hE⟩
  | case2 => exact hP _

/-- The topmost values are made into an object of their entries. -/
theorem does_collect (h : s.machine.frames = fs.push f) (hw : s.machine.waiting = none)
    (hn : operandAt? f.code f.ip 2 = some n) (hsp : s.machine.sp < n → D)
    (g : Heap → Dict Key Value → Value × Heap) :
    Does D (do
      let count ← operand 2
      let entries ← collectEntries .empty (← takeTop count)
      push (← allocate fun h => g h entries)) s fs f 2 n 1 := by
  simp only [Does, yields_bind, yields_operand h hn, yields_takeTop]
  refine ⟨hsp, fun _ _ => ?_⟩
  have hspares := (Frame.Spares.refl f (s.machine.sp - n) s.machine.stack).clear (Nat.le_refl _)
    (s.machine.sp - (s.machine.sp - n))
  apply yields_collectEntries
  · intro d
    simp only [yields_allocate, yields_push]
    intro _
    exact .moved rfl rfl hw (hspares.set (Nat.le_refl _) _) rfl
  · exact .of_stack rfl rfl hw hspares

theorem does_makeHash (h : s.machine.frames = fs.push f) (hw : s.machine.waiting = none)
    (hn : operandAt? f.code f.ip 2 = some n) (hsp : s.machine.sp < n → D) :
    Does D makeHash s fs f 2 n 1 :=
  does_collect h hw hn hsp fun h d => h.newHash d

theorem does_makeMap (h : s.machine.frames = fs.push f) (hw : s.machine.waiting = none)
    (hn : operandAt? f.code f.ip 2 = some n) (hsp : s.machine.sp < n → D) :
    Does D makeMap s fs f 2 n 1 :=
  does_collect h hw hn hsp fun h d => h.newMap d

theorem does_spawn (h : s.machine.frames = fs.push f) (hw : s.machine.waiting = none)
    (hn : operandAt? f.code f.ip 1 = some n) (hsp : s.machine.sp < n + 1 → D) :
    Does D (do spawnTask (← operand 1)) s fs f 1 (n + 1) 1 := by
  simp only [Does, spawnTask, yields_bind, yields_operand h hn, yields_calleeSlot, yields_getSlot,
    yields_ite, yields_raise, yields_takeTop, yields_setSp, yields_allocate, yields_modify,
    yields_push]
  refine ⟨hsp, fun hargc _ => ⟨fun _ => ⟨no_defect rfl, fun _ => ?_⟩, fun _ => ?_⟩⟩
  · exact .of_stack rfl rfl hw (.refl _ _ _)
  · refine ⟨fun _ => hsp (by omega), fun _ _ _ _ => ?_⟩
    refine .moved rfl rfl hw ?_ rfl
    apply Frame.Spares.set _ (Nat.le_refl _)
    apply Frame.Spares.clear _ (Nat.le_refl _)
    exact (Frame.Spares.refl f _ _).clear (by omega) _

/-! ## Channels -/

theorem does_makeChannel (h : s.machine.frames = fs.push f) (hw : s.machine.waiting = none)
    (hn : operandAt? f.code f.ip 1 = some n) (hsp : s.machine.sp < (if n = 0 then 0 else 1) → D) :
    Does D makeChannel s fs f 1 (if n = 0 then 0 else 1) 1 := by
  simp only [Does, makeChannel, yields_bind, yields_operand h hn]
  by_cases hzero : n = 0
  · subst hzero
    simp only [beq_self_eq_true, if_true, yields_bind, yields_pure, yields_allocate, yields_push]
    intro _
    exact .pushed hw rfl rfl rfl rfl rfl
  · rw [if_neg hzero] at hsp
    simp only [beq_iff_eq, if_neg hzero, yields_bind, yields_pop]
    refine ⟨fun _ => hsp (by omega), fun _ _ => ?_⟩
    have hspares := (Frame.Spares.refl f (s.machine.sp - 1) s.machine.stack).set (Nat.le_refl _) .null
    split
    · simp only [yields_ite, yields_bind, yields_pure, yields_raise, yields_allocate, yields_push]
      refine ⟨fun _ _ => ?_, fun _ => ⟨no_defect rfl, fun _ => ?_⟩⟩
      · exact .moved rfl rfl hw (hspares.set (Nat.le_refl _) _) rfl
      · exact .of_stack rfl rfl hw hspares
    · simp only [yields_bind, yields_getHeap, yields_raise]
      exact ⟨no_defect rfl, fun _ => .of_stack rfl rfl hw hspares⟩

/-- An attempt to send or to receive leaves one value, now or later. -/
theorem does_trySend (h : s.machine.frames = fs.push f) (hw : s.machine.waiting = none) (ch : Ref)
    (v : Value) : Does D (trySend ch v) s fs f 0 0 1 := by
  simp only [Does, trySend, yields_bind, yields_allocate]
  split
  · simp only [yields_raise]
    exact ⟨no_defect rfl, fun _ => .of_stack h rfl hw (.refl _ _ _)⟩
  · simp only [yields_waitFor]
    exact .waits h rfl rfl (.refl _ _ _) rfl
  · simp only [yields_push]
    intro _
    exact .pushed hw h rfl rfl rfl rfl
  · simp only [yields_waitFor]
    exact .waits h rfl rfl (.refl _ _ _) rfl

theorem does_tryReceive (h : s.machine.frames = fs.push f) (hw : s.machine.waiting = none)
    (ch : Ref) : Does D (tryReceive ch) s fs f 0 0 1 := by
  simp only [Does, tryReceive, yields_bind, yields_allocate]
  split
  · simp only [yields_push]
    intro _
    exact .pushed hw h rfl rfl rfl rfl
  · simp only [yields_push]
    intro _
    exact .pushed hw h rfl rfl rfl rfl
  · simp only [yields_waitFor]
    exact .waits h rfl rfl (.refl _ _ _) rfl

theorem does_tryFinishSend (h : s.machine.frames = fs.push f) (hw : s.machine.waiting = none)
    (ch : Ref) (ticket : Nat) : Does D (tryFinishSend ch ticket) s fs f 0 0 1 := by
  simp only [Does, tryFinishSend, yields_bind, yields_getHeap, yields_ite, yields_waitFor]
  refine ⟨fun _ => ?_, fun _ => ?_⟩
  · exact does_push h hw .null
  · exact .waits h rfl rfl (.refl _ _ _) rfl

/-- What comes before in the same frame. -/
theorem Does.after {α : Type} {x : Exec α} {t : State} {length takes leaves : Nat}
    (hx : Does D x t fs f length 0 leaves) (hhandlers : t.machine.handlers = s.machine.handlers)
    (hstack : f.Spares (s.machine.sp - takes) s.machine.stack t.machine.stack)
    (hsp : t.machine.sp = s.machine.sp - takes) :
    Yields D x t
      (fun _ u => s.machine.Works fs f (s.machine.sp - takes) (f.ip + length)
        (s.machine.sp - takes + leaves) u.machine)
      (fun u => s.machine.Breaks fs f (s.machine.sp - takes) u.machine) := by
  have hlow : t.machine.sp - 0 = s.machine.sp - takes := hsp
  unfold Does at hx
  rw [hlow] at hx
  have hspares : ∀ {c : Array Value}, f.Spares (s.machine.sp - takes) t.machine.stack c →
      f.Spares (s.machine.sp - takes) s.machine.stack c := by
    intro c hc i hi hout
    rw [hc i hi hout, hstack i hi hout]
  refine hx.mono ?_ ?_
  · exact fun _ u hu => ⟨hu.frames, hu.handlers.trans hhandlers, hu.sp, hu.owes, hspares hu.stack⟩
  · exact fun u hu => ⟨hu.frames, hu.handlers.trans hhandlers, hu.waiting, hspares hu.stack⟩

theorem does_send (h : s.machine.frames = fs.push f) (hw : s.machine.waiting = none)
    (hsp : s.machine.sp < 2 → D) : Does D send s fs f 0 2 1 := by
  simp only [Does, send, yields_bind, yields_pop]
  refine ⟨fun _ => hsp (by omega), fun _ _ => ⟨fun _ => hsp (by omega), fun _ _ => ?_⟩⟩
  split
  · refine @Does.after _ s _ _ _ _ _ _ 2 _ ?_ ?_ ?_ ?_
    · exact does_trySend (by exact h) (by exact hw) _ _
    · rfl
    · exact spares_two f _ _ _ _
    · dsimp only
      omega
  · simp only [yields_raise]
    exact ⟨no_defect rfl, fun _ => .of_stack h rfl hw (spares_two f _ _ _ _)⟩

theorem does_receive (h : s.machine.frames = fs.push f) (hw : s.machine.waiting = none)
    (hsp : s.machine.sp < 1 → D) : Does D receive s fs f 0 1 1 := by
  simp only [Does, receive, yields_bind, yields_pop]
  refine ⟨fun _ => hsp (by omega), fun _ _ => ?_⟩
  have hspares := (Frame.Spares.refl f (s.machine.sp - 1) s.machine.stack).set (Nat.le_refl _) .null
  split
  · refine @Does.after _ s _ _ _ _ _ _ 1 _ ?_ ?_ ?_ ?_
    · exact does_tryReceive (by exact h) (by exact hw) _
    · rfl
    · exact hspares
    · rfl
  · simp only [yields_raise]
    exact ⟨no_defect rfl, fun _ => .of_stack h rfl hw hspares⟩

end

end Exec

/-! ## Instructions -/

/-- Whether an instruction enters a frame or calls a host function. -/
def Opcode.isCall : Opcode → Bool
  | .call | .invoke | .invokeSuper => true
  | _ => false

/-- Whatever an instruction names is there when it is executed. -/
def Emitted.Finds (i : Emitted) (m : Machine) (f : Frame) : Prop :=
  match i.opcode with
  | .constant => i.operand 0 < m.constants.size
  | .getLocal | .setLocal | .captureLocal => f.base + i.operand 0 < m.stack.size
  | .getFree | .setFree | .captureFree => i.operand 0 < f.closure.free.size
  | .getBuiltin => (m.registry.get? (i.operand 0)).isSome
  | .getProperty | .setProperty | .invoke => ∃ name, m.constants[i.operand 0]? = some (.str name)
  | .invokeSuper =>
    (∃ name, m.constants[i.operand 0]? = some (.str name)) ∧ ∃ c, m.stack[m.sp - 1]? = some (.cls c)
  | .closure => m.Closes (i.operand 0) (i.operand 1)
  | _ => True

/-- Whatever an instruction needs is there when it is executed. -/
structure Emitted.Served (i : Emitted) (m : Machine) (f : Frame) : Prop where
  takes : i.takes ≤ m.sp
  finds : i.Finds m f

namespace Exec

section

variable {D : Prop} {s : State} {fs : Array Frame} {f : Frame}

/-- An instruction goes on with the next one, for which it has set up what its layout says. -/
theorem Yields.next {x : Exec Unit} {i : Emitted} {W : Machine → Prop} {Q : State → Prop}
    {E : State → Prop} (h : Yields D x s (fun _ t => W t.machine ∧ Q t) E)
    (hQ : ∀ u, s.machine.Serves u → ∀ t, Q t → t.machine.Serves (u.after i)) :
    Yields D (x >>= fun _ => pure Signal.next) s
      (fun signal t => signal = .next ∧ W t.machine ∧
        ∀ u, s.machine.Serves u → t.machine.Serves (u.after i)) E := by
  rw [yields_bind]
  exact h.mono (fun _ t ht => ⟨rfl, ht.1, fun u hu => hQ u hu t ht.2⟩) fun _ ht => ht

/-- An instruction that sets nothing up. -/
theorem Does.next {x : Exec Unit} {i : Emitted} {length takes leaves : Nat}
    (h : Does D x s fs f length takes leaves) (hafter : ∀ u, Setup.after u i = .nothing) :
    Yields D (x >>= fun _ => pure Signal.next) s
      (fun signal t => signal = .next ∧ s.machine.Works fs f (s.machine.sp - takes) (f.ip + length)
        (s.machine.sp - takes + leaves) t.machine ∧
        ∀ u, s.machine.Serves u → t.machine.Serves (u.after i))
      (fun t => s.machine.Breaks fs f (s.machine.sp - takes) t.machine) := by
  refine Yields.next (Q := fun _ => True) (h.mono (fun _ t ht => ⟨ht, trivial⟩) fun _ ht => ht) ?_
  intro u _ t _
  rw [hafter]
  exact t.machine.serves_nothing

/-- An instruction that queues one more cell. -/
theorem Queues.next {x : Exec Unit} {i : Emitted} {length : Nat} (h : Queues D x s fs f length)
    (hafter : ∀ u, Setup.after u i = .cells (u.queued + 1)) :
    Yields D (x >>= fun _ => pure Signal.next) s
      (fun signal t => signal = .next ∧ s.machine.Works fs f (s.machine.sp - 0) (f.ip + length)
        (s.machine.sp - 0 + 0) t.machine ∧ ∀ u, s.machine.Serves u → t.machine.Serves (u.after i))
      (fun t => s.machine.Breaks fs f (s.machine.sp - 0) t.machine) := by
  refine Yields.next h fun u hu t ht => ?_
  rw [hafter]
  refine ⟨?_, fun _ hplace => by cases hplace⟩
  rw [ht]
  exact Nat.succ_le_succ hu.queued

theorem operandAt?_of_one {op : Opcode} {code : Array UInt8} {pos w : Nat} {xs : List Nat}
    (h : readOperands? op code pos = some xs) (hw : op.widths = [w]) :
    operandAt? code pos w = some (xs.getD 0 0) := by
  simp only [readOperands?, hw, operandsAt?] at h
  split at h
  · next n hn =>
    simp only [Option.map_some, Option.some.injEq] at h
    rw [hn, ← h]
    rfl
  · cases h

theorem operandAt?_of_two {op : Opcode} {code : Array UInt8} {pos v w : Nat} {xs : List Nat}
    (h : readOperands? op code pos = some xs) (hw : op.widths = [v, w]) :
    operandAt? code pos v = some (xs.getD 0 0) ∧ operandAt? code (pos + v) w = some (xs.getD 1 0) := by
  simp only [readOperands?, hw, operandsAt?] at h
  split at h
  · next n hn =>
    split at h
    · next k hk =>
      simp only [Option.map_some, Option.some.injEq] at h
      rw [hn, hk, ← h]
      exact ⟨rfl, rfl⟩
    · cases h
  · cases h

/-- The operand of an instruction is where it is read. -/
theorem operandAt?_one {i : Emitted} {code : Array UInt8} {pos w : Nat}
    (hreads : readOperands? i.opcode code pos = some i.read) (hsized : i.Sized)
    (hw : i.opcode.widths = [w]) : operandAt? code pos w = some (i.operand 0) := by
  rw [operandAt?_of_one hreads hw, Emitted.read_one hsized hw]
  rfl

theorem operandAt?_two {i : Emitted} {code : Array UInt8} {pos v w : Nat}
    (hreads : readOperands? i.opcode code pos = some i.read) (hsized : i.Sized)
    (hw : i.opcode.widths = [v, w]) : operandAt? code pos v = some (i.operand 0) ∧
      operandAt? code (pos + v) w = some (i.operand 1) := by
  have hboth := operandAt?_of_two hreads hw
  rwa [Emitted.read_two hsized hw] at hboth

theorem found {α : Type} {a : Array α} {n : Nat} (h : n < a.size) : ¬ a[n]? = none := by
  simpa using h

/-- An instruction that neither calls nor jumps moves the stack as its layout says. -/
theorem yields_perform {i : Emitted} (h : s.machine.frames = fs.push f)
    (hw : s.machine.waiting = none) (hplain : i.opcode.isPlain = true) (hcall : i.opcode.isCall = false)
    (hreads : readOperands? i.opcode f.code f.ip = some i.read) (hsized : i.Sized)
    (hslot : ∀ k, i.slot? = some k → k < f.closure.function.locals)
    (hserved : ¬ D → i.Served s.machine f) :
    Yields D (perform i.opcode) s
      (fun signal t => signal = .next ∧ s.machine.Works fs f (s.machine.sp - i.takes)
        (f.ip + (i.opcode.length - 1)) (s.machine.sp - i.takes + i.leaves) t.machine ∧
        ∀ u, s.machine.Serves u → t.machine.Serves (u.after i))
      (fun t => s.machine.Breaks fs f (s.machine.sp - i.takes) t.machine) := by
  have one {w : Nat} := @operandAt?_one i f.code f.ip w hreads hsized
  have two {v w : Nat} := @operandAt?_two i f.code f.ip v w hreads hsized
  -- where something is missing, `D` holds
  have lack : ∀ {p : Prop}, (i.Served s.machine f → ¬ p) → p → D :=
    fun hp h => by_contra fun hD => hp (hserved hD) h
  have few : s.machine.sp < i.takes → D := lack fun hs => Nat.not_lt.mpr hs.takes
  clear hreads hsized hserved
  obtain ⟨op, xs, span⟩ := i
  dsimp only at hplain hcall one two hslot ⊢
  cases op with
  | constant =>
    have hnext := (yields_pushConstant h hw (one rfl) (lack fun hs => found hs.finds)).next
      (i := ⟨.constant, xs, span⟩) fun _ _ t ht => ht
    simp only [perform, yields_bind] at hnext ⊢
    exact hnext
  | null | pushTrue | pushFalse => exact (does_push h hw _).next fun _ => rfl
  | getLocal =>
    exact (does_getLocal h hw (one rfl) (lack fun hs => Nat.not_le.mpr hs.finds)).next fun _ => rfl
  | setLocal =>
    exact (does_setLocal h hw (one rfl) (hslot _ rfl) (lack fun hs => Nat.not_le.mpr hs.finds)
      few).next fun _ => rfl
  | getGlobal => exact (does_getGlobal h hw (one rfl)).next fun _ => rfl
  | setGlobal => exact (does_setGlobal h hw (one rfl) few).next fun _ => rfl
  | getFree =>
    exact (does_getFree h hw (one rfl) (lack fun hs => found hs.finds)).next fun _ => rfl
  | setFree =>
    exact (does_setFree h hw (one rfl) (lack fun hs => found hs.finds) few).next fun _ => rfl
  | getBuiltin =>
    exact (does_getBuiltin h hw (one rfl) (lack fun hs hnone => by
      have hsome : (s.machine.registry.get? _).isSome = true := hs.finds
      rw [hnone] at hsome
      cases hsome)).next fun _ => rfl
  | currentClosure =>
    have hnext := (does_currentClosure (D := D) h hw).next (i := ⟨.currentClosure, xs, span⟩) fun _ => rfl
    simp only [perform, yields_bind] at hnext ⊢
    exact hnext
  | captureLocal =>
    exact (queues_captureLocal h hw (one rfl) (lack fun hs => Nat.not_le.mpr hs.finds)).next
      fun _ => rfl
  | captureFree =>
    exact (queues_captureFree h hw (one rfl) (lack fun hs => found hs.finds)).next fun _ => rfl
  | captureSelf => exact (queues_captureSelf h hw).next fun _ => rfl
  | add | sub | mul | div | mod | equal | notEqual | greater | greaterEqual =>
    exact (does_binary h hw _ few).next fun _ => rfl
  | negate =>
    have hnext := (does_negate h hw few).next (i := ⟨.negate, xs, span⟩) fun _ => rfl
    simp only [perform, yields_bind] at hnext ⊢
    exact hnext
  | not =>
    have hnext := (does_not h hw few).next (i := ⟨.not, xs, span⟩) fun _ => rfl
    simp only [perform, yields_bind] at hnext ⊢
    exact hnext
  | closure =>
    exact (does_makeClosure h hw (two rfl).1 (two rfl).2
      (lack fun hs => not_not.mpr hs.finds)).next fun _ => rfl
  | array => exact (does_makeArray h hw (one rfl) few).next fun _ => rfl
  | hash => exact (does_makeHash h hw (one rfl) few).next fun _ => rfl
  | orderedMap => exact (does_makeMap h hw (one rfl) few).next fun _ => rfl
  | getIndex => exact (does_getIndex h hw few).next fun _ => rfl
  | setIndex => exact (does_setIndex h hw few).next fun _ => rfl
  | pop =>
    have hnext := (does_pop h hw few).next (i := ⟨.pop, xs, span⟩) fun _ => rfl
    simp only [perform, yields_bind] at hnext ⊢
    exact hnext
  | dup =>
    have hnext := (does_dup h hw few).next (i := ⟨.dup, xs, span⟩) fun _ => rfl
    simp only [perform, yields_bind] at hnext ⊢
    exact hnext
  | getProperty =>
    exact (does_getProperty h hw (one rfl) (lack fun hs hne => hne _ hs.finds.choose_spec)
      few).next fun _ => rfl
  | setProperty =>
    exact (does_setProperty h hw (one rfl) (lack fun hs hne => hne _ hs.finds.choose_spec)
      few).next fun _ => rfl
  | spawn =>
    have hnext := (does_spawn h hw (one rfl) few).next (i := ⟨.spawn, xs, span⟩) fun _ => rfl
    simp only [perform, yields_bind] at hnext ⊢
    exact hnext
  | channel => exact (does_makeChannel h hw (one rfl) few).next fun _ => rfl
  | send => exact (does_send h hw few).next fun _ => rfl
  | receive => exact (does_receive h hw few).next fun _ => rfl
  | call | invoke | invokeSuper => cases hcall
  | _ => cases hplain

end

end Exec

end ScriptMachine
