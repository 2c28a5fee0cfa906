import ScriptMachine.Proofs.Machine.Triple

/-!
# What executions yield

`Yields D x s P E` says how the execution of `x` in the state `s` ends: well, with a result and a state
that satisfy `P`, or with a fault. A fault that can be caught leaves a state that satisfies `E`, and
a defect of the code only comes up if `D`. So `D` is false where the code is known to make sense, and
true where that does not matter. Nothing is said about crashes, because they end the run.

There is one equation for each primitive move. With them `simp` executes an instruction
symbolically. The equations about the running frame need to know it, so they take the frames of the
state as a hypothesis.
-/

namespace ScriptMachine

namespace Exec

section

variable {α β : Type} {D : Prop} {s : State} {P : α → State → Prop} {E : State → Prop}

/-- `x` ends well with `P`, in a fault that can be caught with `E`, or if `D` in a defect. -/
def Yields (D : Prop) (x : Exec α) (s : State) (P : α → State → Prop) (E : State → Prop) : Prop :=
  match x s with
  | .ok a t => P a t
  | .error (.fault f) t => (f.cause.hasPlace = false → D) ∧ (f.cause.isCatchable = true → E t)
  | .error (.crash _) _ => True

theorem Yields.mono {x : Exec α} {P' : α → State → Prop} {E' : State → Prop} (h : Yields D x s P E)
    (hP : ∀ a t, P a t → P' a t) (hE : ∀ t, E t → E' t) : Yields D x s P' E' := by
  unfold Yields at h ⊢
  split
  · next heq =>
    rw [heq] at h
    exact hP _ _ h
  · next heq =>
    rw [heq] at h
    exact ⟨h.1, fun hcatch => hE _ (h.2 hcatch)⟩
  · trivial

theorem Yields.and {x : Exec α} {Q : α → State → Prop} {F : State → Prop}
    (h : Yields D x s P E) (h' : Yields D x s Q F) :
    Yields D x s (fun a t => P a t ∧ Q a t) fun t => E t ∧ F t := by
  unfold Yields at h h' ⊢
  split
  · next heq =>
    rw [heq] at h h'
    exact ⟨h, h'⟩
  · next heq =>
    rw [heq] at h h'
    exact ⟨h.1, fun hcatch => ⟨h.2 hcatch, h'.2 hcatch⟩⟩
  · trivial

theorem Yields.ok {x : Exec α} {a : α} {t : State} (h : Yields D x s P E) (hx : x.run s = .ok a t) :
    P a t := by
  unfold Yields at h
  rwa [show x s = .ok a t from hx] at h

/-- An invariant, as far as one execution is concerned. -/
theorem Keeps.yields {I : State → Prop} {A : Abort → Prop} {Q : α → Prop} {x : Exec α}
    (h : Keeps I A x Q) (hs : I s) : Yields True x s (fun a t => I t ∧ Q a) fun _ => True := by
  unfold Yields
  split
  · next heq => exact h.ok hs heq
  · exact ⟨fun _ => True.intro, fun _ => True.intro⟩
  · exact True.intro

/-! ## Control -/

@[simp] theorem yields_pure (a : α) : Yields D (pure a) s P E ↔ P a s := Iff.rfl

@[simp] theorem yields_bind (x : Exec β) (f : β → Exec α) :
    Yields D (x >>= f) s P E ↔ Yields D x s (fun b t => Yields D (f b) t P E) E := by
  simp only [Yields, bind, EStateM.bind]
  cases x s with
  | ok b t => rfl
  | error a t => cases a <;> rfl

@[simp] theorem yields_map (x : Exec β) (f : β → α) :
    Yields D (f <$> x) s P E ↔ Yields D x s (fun b t => P (f b) t) E := by
  simp only [Yields, Functor.map, EStateM.map]
  cases x s with
  | ok b t => rfl
  | error a t => cases a <;> rfl

theorem yields_ite (c : Prop) [Decidable c] (x y : Exec α) :
    Yields D (if c then x else y) s P E ↔ (c → Yields D x s P E) ∧ (¬ c → Yields D y s P E) := by
  split <;> simp_all

@[simp] theorem yields_raise (c : Cause) :
    Yields D (raise c : Exec α) s P E ↔ (c.hasPlace = false → D) ∧ (c.isCatchable = true → E s) :=
  Iff.rfl

@[simp] theorem yields_defect (d : Defect) : Yields D (defect d : Exec α) s P E ↔ D := by
  simp [defect, Cause.isCatchable, Cause.hasPlace]

@[simp] theorem yields_crash (message : String) :
    Yields D (throw (.crash message) : Exec α) s P E := trivial

@[simp] theorem yields_ofExcept (e : Except Cause α) :
    Yields D (ofExcept e) s P E ↔
      (∀ a, e = .ok a → P a s) ∧
        ∀ c, e = .error c → (c.hasPlace = false → D) ∧ (c.isCatchable = true → E s) := by
  cases e <;> simp [ofExcept]

/-! ## State -/

@[simp] theorem yields_get {P : State → State → Prop} : Yields D get s P E ↔ P s s := Iff.rfl

@[simp] theorem yields_modify {P : Unit → State → Prop} (f : State → State) :
    Yields D (modify f) s P E ↔ P () (f s) := Iff.rfl

@[simp] theorem yields_modifyGet (f : State → α × State) :
    Yields D (modifyGet f) s P E ↔ P (f s).1 (f s).2 := Iff.rfl

@[simp] theorem yields_getMachine {P : Machine → State → Prop} :
    Yields D getMachine s P E ↔ P s.machine s := Iff.rfl

@[simp] theorem yields_getHeap {P : Heap → State → Prop} :
    Yields D getHeap s P E ↔ P s.world.heap s := Iff.rfl

@[simp] theorem yields_modifyMachine {P : Unit → State → Prop} (f : Machine → Machine) :
    Yields D (modifyMachine f) s P E ↔ P () ⟨s.world, f s.machine⟩ := Iff.rfl

@[simp] theorem yields_modifyHeap {P : Unit → State → Prop} (f : Heap → Heap) :
    Yields D (modifyHeap f) s P E ↔ P () ⟨{ s.world with heap := f s.world.heap }, s.machine⟩ := Iff.rfl

@[simp] theorem yields_allocate (f : Heap → α × Heap) :
    Yields D (allocate f) s P E ↔
      P (f s.world.heap).1 ⟨{ s.world with heap := (f s.world.heap).2 }, s.machine⟩ := Iff.rfl

end

/-! ## The operand stack -/

section

variable {D : Prop} {s : State} {E : State → Prop}

@[simp] theorem yields_push {P : Unit → State → Prop} (v : Value) :
    Yields D (push v) s P E ↔ (s.machine.sp < s.machine.stack.size →
      P () ⟨s.world, { s.machine with
        stack := s.machine.stack.setIfInBounds s.machine.sp v
        sp := s.machine.sp + 1 }⟩) := by
  simp [push, yields_ite, Cause.isCatchable, Cause.hasPlace]

@[simp] theorem yields_noSlot {α : Type} {P : α → State → Prop} (index : Nat) :
    Yields D (noSlot index) s P E := trivial

@[simp] theorem yields_noSlots {α : Type} {P : α → State → Prop} (start stop : Nat) :
    Yields D (noSlots start stop) s P E := trivial

@[simp] theorem yields_getSlot {P : Value → State → Prop} (slot : Nat) :
    Yields D (getSlot slot) s P E ↔ (slot < s.machine.stack.size →
      P (s.machine.stack[slot]?.getD .null) s) := by
  simp only [getSlot, yields_bind, yields_getMachine]
  split
  · next v hv =>
    have hlt := (Array.getElem?_eq_some_iff.mp hv).1
    rw [hv]
    simp [hlt]
  · next hnone =>
    have hle := Array.getElem?_eq_none_iff.mp hnone
    simp [Nat.not_lt.mpr hle]

@[simp] theorem yields_setSlot {P : Unit → State → Prop} (slot : Nat) (v : Value) :
    Yields D (setSlot slot v) s P E ↔ (slot < s.machine.stack.size → P () ⟨s.world, { s.machine with
      stack := s.machine.stack.setIfInBounds slot v }⟩) := by
  simp [setSlot, yields_ite]

@[simp] theorem yields_pop {P : Value → State → Prop} :
    Yields D pop s P E ↔ (s.machine.sp = 0 → D) ∧
      (s.machine.sp ≠ 0 → s.machine.sp - 1 < s.machine.stack.size →
        P (s.machine.stack[s.machine.sp - 1]?.getD .null) ⟨s.world, { s.machine with
          stack := s.machine.stack.setIfInBounds (s.machine.sp - 1) .null
          sp := s.machine.sp - 1 }⟩) := by
  simp [pop, yields_ite]

@[simp] theorem yields_peek {P : Value → State → Prop} :
    Yields D peek s P E ↔ (s.machine.sp = 0 → D) ∧
      (s.machine.sp ≠ 0 → s.machine.sp - 1 < s.machine.stack.size →
        P (s.machine.stack[s.machine.sp - 1]?.getD .null) s) := by
  simp [peek, yields_ite]

@[simp] theorem yields_setSp {P : Unit → State → Prop} (sp : Nat) :
    Yields D (setSp sp) s P E ↔ ((sp < s.machine.sp → s.machine.sp ≤ s.machine.stack.size) →
      P () ⟨s.world, { s.machine with
        stack := clearSlots s.machine.stack sp (s.machine.sp - sp)
        sp }⟩) := by
  simp [setSp, yields_ite]

@[simp] theorem yields_slotsFrom {P : List Value → State → Prop} (start : Nat) :
    Yields D (slotsFrom start) s P E ↔
      (start ≤ s.machine.sp → s.machine.sp ≤ s.machine.stack.size →
        P (s.machine.stack.extract start s.machine.sp).toList s) := by
  simp [slotsFrom, yields_ite]

@[simp] theorem yields_takeTop {P : List Value → State → Prop} (count : Nat) :
    Yields D (takeTop count) s P E ↔ (s.machine.sp < count → D) ∧
      (count ≤ s.machine.sp → s.machine.sp ≤ s.machine.stack.size →
        P (s.machine.stack.extract (s.machine.sp - count) s.machine.sp).toList
          ⟨s.world, { s.machine with
            stack := clearSlots s.machine.stack (s.machine.sp - count)
              (s.machine.sp - (s.machine.sp - count))
            sp := s.machine.sp - count }⟩) := by
  simp +contextual [takeTop, yields_ite]

@[simp] theorem yields_calleeSlot {P : Nat → State → Prop} (argc : Nat) :
    Yields D (calleeSlot argc) s P E ↔ (s.machine.sp < argc + 1 → D) ∧
      (argc + 1 ≤ s.machine.sp → P (s.machine.sp - (argc + 1)) s) := by
  simp [calleeSlot, yields_ite]

@[simp] theorem yields_constant {P : Value → State → Prop} (index : Nat) :
    Yields D (constant index) s P E ↔ (s.machine.constants[index]? = none → D) ∧
      ∀ v, s.machine.constants[index]? = some v → P v s := by
  simp only [constant, yields_bind, yields_getMachine]
  split <;> simp_all

@[simp] theorem yields_constantName {P : String → State → Prop} (index : Nat) :
    Yields D (constantName index) s P E ↔
      ((∀ name, s.machine.constants[index]? ≠ some (.str name)) → D) ∧
        ∀ name, s.machine.constants[index]? = some (.str name) → P name s := by
  simp only [constantName, yields_bind, yields_constant]
  cases s.machine.constants[index]? with
  | none => simp
  | some v => cases v <;> simp

@[simp] theorem yields_keyOf {P : Key → State → Prop} (v : Value) :
    Yields D (keyOf v) s P E ↔ (∀ k, v.key? = some k → P k s) ∧ (v.key? = none → E s) := by
  unfold keyOf
  split <;> simp_all [Cause.isCatchable, Cause.hasPlace]

@[simp] theorem yields_waitFor {P : Unit → State → Prop} (w : Wait) :
    Yields D (waitFor w) s P E ↔ P () ⟨s.world, { s.machine with waiting := some w }⟩ := Iff.rfl

@[simp] theorem yields_queueCapture {P : Unit → State → Prop} (ref : Ref) :
    Yields D (queueCapture ref) s P E ↔
      P () ⟨s.world, { s.machine with captures := s.machine.captures.push ref }⟩ := Iff.rfl

end

/-! ## The running frame -/

section

variable {D : Prop} {s : State} {E : State → Prop} {fs : Array Frame} {f : Frame}

theorem modify_push (fs : Array Frame) (f : Frame) (g : Frame → Frame) :
    (fs.push f).modify ((fs.push f).size - 1) g = fs.push (g f) := by
  apply Array.ext
  · simp
  · intro i hi hi'
    rw [Array.getElem_modify, Array.getElem_push, Array.getElem_push]
    simp only [Array.size_modify, Array.size_push, Nat.add_sub_cancel] at hi ⊢
    split
    · next h => simp [← h]
    · next h => simp [show i < fs.size by omega]

theorem yields_currentFrame {P : Frame → State → Prop} (h : s.machine.frames = fs.push f) :
    Yields D currentFrame s P E ↔ P f s := by
  simp [currentFrame, h]

theorem yields_modifyFrame {P : Unit → State → Prop} (h : s.machine.frames = fs.push f)
    (g : Frame → Frame) :
    Yields D (modifyFrame g) s P E ↔ P () ⟨s.world, { s.machine with frames := fs.push (g f) }⟩ := by
  simp only [modifyFrame, yields_modifyMachine, h, modify_push]

theorem yields_operand {P : Nat → State → Prop} (h : s.machine.frames = fs.push f) {w n : Nat}
    (hoperand : operandAt? f.code f.ip w = some n) :
    Yields D (operand w) s P E ↔
      P n ⟨s.world, { s.machine with frames := fs.push { f with ip := f.ip + w } }⟩ := by
  simp [operand, yields_currentFrame h, hoperand, yields_modifyFrame h]

theorem yields_jumpTo {P : Unit → State → Prop} (h : s.machine.frames = fs.push f) (target : Nat) :
    Yields D (jumpTo target) s P E ↔
      P () ⟨s.world, { s.machine with frames := fs.push { f with ip := target } }⟩ := by
  have hmap : discard currentFrame = (fun _ => PUnit.unit) <$> currentFrame := rfl
  simp [jumpTo, hmap, yields_currentFrame h, yields_modifyFrame h]

theorem yields_localOperand {P : Nat × Nat → State → Prop} (h : s.machine.frames = fs.push f)
    {n : Nat} (hoperand : operandAt? f.code f.ip 1 = some n) :
    Yields D localOperand s P E ↔ (s.machine.stack.size ≤ f.base + n → D) ∧
      (f.base + n < s.machine.stack.size → P (n, f.base + n) ⟨s.world, { s.machine with frames := fs.push { f with ip := f.ip + 1 } }⟩) := by
  simp only [localOperand, yields_bind, yields_operand h hoperand]
  rw [@yields_currentFrame _ _ _ fs { f with ip := f.ip + 1 } _ rfl]
  simp [yields_ite]

theorem yields_freeCell {P : Ref → State → Prop} (h : s.machine.frames = fs.push f) (index : Nat) :
    Yields D (freeCell index) s P E ↔ (f.closure.free[index]? = none → D) ∧
      ∀ ref, f.closure.free[index]? = some ref → P ref s := by
  simp only [freeCell, yields_bind, yields_currentFrame h]
  split <;> simp_all

end

end Exec

end ScriptMachine
