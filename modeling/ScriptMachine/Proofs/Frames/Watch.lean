import ScriptMachine.Proofs.Machine.Bounds
import ScriptMachine.Proofs.Machine.Turn

/-!
# Slots that are left alone

An instruction writes only to the slots from its lowest operand on, and to the local that it sets. What it takes
off the stack it clears, so the slots at or above the stack pointer hold null again.

A `Watch` is kept on slots below the operands of an instruction. `Exec.Minds W k j x` says of a part `x` of an
instruction, which takes `k` values and leaves `j`, that it leaves the slots alone and clears what it takes.

1. **Null slots** and **Watches**.
2. **Primitive moves**, then **Calls, returns and throws**, and the other **Instructions**: one lemma for each of
   them.
3. **Turns**: what a whole turn does to the slots that are watched (`Exec.minds_turn`, `Exec.minds_turn_waiting`).
-/

namespace ScriptMachine

/-! ## Null slots -/

/-- The slots from `k` on hold null. -/
def NullFrom (a : Array Value) (k : Nat) : Prop := ∀ i v, k ≤ i → a[i]? = some v → v = .null

theorem Exec.getElem?_clearSlots_of_lt (a : Array Value) {i start : Nat} (h : i < start) (count : Nat) :
    (clearSlots a start count)[i]? = a[i]? := by
  induction count generalizing a start with
  | zero => rfl
  | succ count ih =>
    rw [clearSlots, ih _ (Nat.lt_succ_of_lt h), Array.getElem?_setIfInBounds_ne (Nat.ne_of_gt h)]

namespace NullFrom

variable {a : Array Value} {j k : Nat}

theorem mono (h : NullFrom a j) (hle : j ≤ k) : NullFrom a k := fun i v hi => h i v (Nat.le_trans hle hi)

/-- A slot further down is written. -/
theorem set (h : NullFrom a k) (hj : j < k) (v : Value) : NullFrom (a.setIfInBounds j v) k := by
  intro i w hi hw
  rw [Array.getElem?_setIfInBounds_ne (by omega)] at hw
  exact h i w hi hw

theorem push (h : NullFrom a k) (v : Value) : NullFrom (a.setIfInBounds k v) (k + 1) :=
  (h.mono (Nat.le_succ k)).set (Nat.lt_succ_self k) v

theorem pop (h : NullFrom a (k + 1)) : NullFrom (a.setIfInBounds k .null) k := by
  intro i w hi hw
  rcases Nat.eq_or_lt_of_le hi with rfl | hlt
  · rw [Array.getElem?_setIfInBounds_self] at hw
    split at hw <;> cases hw
    rfl
  · rw [Array.getElem?_setIfInBounds_ne (Nat.ne_of_lt hlt)] at hw
    exact h i w hlt hw

theorem clear {start count : Nat} (h : NullFrom a (start + count)) :
    NullFrom (Exec.clearSlots a start count) start := by
  induction count generalizing a start with
  | zero => exact h
  | succ count ih =>
    intro i w hi hw
    have hnext : NullFrom (a.setIfInBounds start .null) (start + 1 + count) := by
      rw [show start + 1 + count = start + (count + 1) by omega]
      exact h.set (by omega) .null
    rcases Nat.eq_or_lt_of_le hi with rfl | hlt
    · rw [Exec.clearSlots, Exec.getElem?_clearSlots_of_lt _ (Nat.lt_succ_self start),
        Array.getElem?_setIfInBounds_self] at hw
      split at hw <;> cases hw
      rfl
    · exact ih hnext i w hlt hw

/-- The stack pointer moves, up or down. -/
theorem setSp {n : Nat} (h : NullFrom a k) : NullFrom (Exec.clearSlots a n (k - n)) n :=
  (h.mono (by omega)).clear

end NullFrom

/-! ## Watches -/

/-- What is watched in the course of an instruction: some slots below its operands, the number of frames and the
handlers. -/
structure Watch where
  keep : Nat → Prop
  stack : Array Value
  floor : Nat
  depth : Nat
  handlers : List Handler
  below : ∀ i, keep i → i < floor

/-- Nothing has happened yet to what is watched. -/
structure Watch.Holds (W : Watch) (m : Machine) : Prop where
  clear : NullFrom m.stack m.sp
  kept : ∀ i, W.keep i → m.stack[i]? = W.stack[i]?
  depth : m.frames.size ≤ W.depth
  handlers : m.handlers = W.handlers

/-- Number of slots that a call hands over to a frame: those of its arguments, and that of the receiver. -/
def Frame.given (f : Frame) : Nat :=
  match f.kind with
  | .function => f.closure.function.params
  | _ => f.closure.function.params + 1

/-- What has become of the slots that are watched when a value was thrown: those below the handler are as they were. -/
structure Watch.Thrown (W : Watch) (m : Machine) : Prop where
  handler : ∃ h, W.handlers = h :: m.handlers ∧ m.frames.size ≤ h.depth ∧
    ∀ i, W.keep i → i < h.sp → m.stack[i]? = W.stack[i]?

/-- What has become of what is watched at the end of an instruction. -/
structure Watch.After (W : Watch) (m : Machine) : Prop where
  clear : NullFrom m.stack m.sp
  kept : (∀ i, W.keep i → m.stack[i]? = W.stack[i]?) ∨ W.Thrown m
  /-- If a frame was entered, only the slots that were handed over to it hold something, and it has room for its
  locals. -/
  entered : W.depth < m.frames.size → ∃ f, m.frames.back? = some f ∧ NullFrom m.stack (f.base + f.given) ∧
    f.base + f.closure.function.locals ≤ m.stack.size

section

variable {W : Watch} {m : Machine}

theorem Watch.Holds.after (h : W.Holds m) : W.After m :=
  ⟨h.clear, .inl h.kept, fun hlt => absurd h.depth (Nat.not_le.mpr hlt)⟩

/-- The handlers change. -/
theorem Watch.Holds.end (h : W.Holds m) {m' : Machine} (hstack : m'.stack = m.stack) (hsp : m'.sp = m.sp)
    (hframes : m'.frames.size = m.frames.size) : W.After m' := by
  refine ⟨?_, .inl fun i hi => ?_, fun hlt => ?_⟩
  · rw [hstack, hsp]
    exact h.clear
  · rw [hstack]
    exact h.kept i hi
  · exact absurd h.depth (by omega)

/-- The stack changes above the slots that are watched. -/
theorem Watch.Holds.write (h : W.Holds m) {stack : Array Value} {sp : Nat} (hclear : NullFrom stack sp)
    (hkept : ∀ i < W.floor, stack[i]? = m.stack[i]?) : W.Holds { m with stack, sp } :=
  ⟨hclear, fun i hi => (hkept i (W.below i hi)).trans (h.kept i hi), h.depth, h.handlers⟩

theorem Watch.Holds.push (h : W.Holds m) (hsp : W.floor ≤ m.sp) (v : Value) :
    W.Holds { m with stack := m.stack.setIfInBounds m.sp v, sp := m.sp + 1 } :=
  h.write (h.clear.push v) fun i hi => Array.getElem?_setIfInBounds_ne (by omega)

theorem Watch.Holds.setSp (h : W.Holds m) {n : Nat} (hn : W.floor ≤ n) :
    W.Holds { m with stack := Exec.clearSlots m.stack n (m.sp - n), sp := n } :=
  h.write h.clear.setSp fun _ hi => Exec.getElem?_clearSlots_of_lt _ (Nat.lt_of_lt_of_le hi hn) _

theorem Watch.Holds.set (h : W.Holds m) {slot : Nat} (hslot : W.floor ≤ slot) (hsp : slot < m.sp) (v : Value) :
    W.Holds { m with stack := m.stack.setIfInBounds slot v } :=
  h.write (h.clear.set hsp v) fun i hi => Array.getElem?_setIfInBounds_ne (by omega)

end

namespace Exec

/-- `x` takes `k` values and leaves `j`, above the slots that are watched. -/
def Minds {α : Type} (W : Watch) (k j : Nat) (x : Exec α) : Prop :=
  ∀ s : State, W.Holds s.machine → W.floor + k ≤ s.machine.sp →
    Yields True x s (fun _ t => W.Holds t.machine ∧ W.floor + j ≤ t.machine.sp) fun t => W.Holds t.machine

/-- `x` ends an instruction that began with `W`. -/
def MindsEnd {α : Type} (W : Watch) (x : Exec α) (s : State) : Prop :=
  Yields True x s (fun _ t => W.After t.machine) fun t => W.Holds t.machine

section

variable {α β : Type} {W : Watch} {j k n : Nat} {x : Exec α} {s : State}

theorem Minds.bind {f : α → Exec β} {i : Nat} (hx : Minds W k i x) (hf : ∀ a, Minds W i j (f a)) :
    Minds W k j (x >>= f) := by
  intro s hs hsp
  rw [yields_bind]
  exact (hx s hs hsp).mono (fun a t ht => hf a t ht.1 ht.2) fun _ ht => ht

/-- What does not end the instruction comes first. -/
theorem Minds.then {f : α → Exec β} (hx : Minds W k j x) (hs : W.Holds s.machine) (hsp : W.floor + k ≤ s.machine.sp)
    (hf : ∀ a t, W.Holds t.machine → W.floor + j ≤ t.machine.sp → MindsEnd W (f a) t) : MindsEnd W (x >>= f) s := by
  rw [MindsEnd, yields_bind]
  exact (hx s hs hsp).mono (fun a t ht => hf a t ht.1 ht.2) fun _ ht => ht

theorem Minds.ends (hx : Minds W k j x) (hs : W.Holds s.machine) (hsp : W.floor + k ≤ s.machine.sp) :
    MindsEnd W x s := (hx s hs hsp).mono (fun _ _ ht => ht.1.after) fun _ ht => ht

/-- An instruction ends with a signal. -/
theorem MindsEnd.next {x : Exec Unit} (h : MindsEnd W x s) : MindsEnd W (x >>= fun _ => pure Signal.next) s := by
  rw [MindsEnd, yields_bind]
  exact h

theorem minds_pure (a : α) : Minds W k k (pure a) := fun _ hs hsp => ⟨hs, hsp⟩

theorem Minds.next {x : Exec Unit} (hx : Minds W k j x) : Minds W k j (x >>= fun _ => pure Signal.next) :=
  hx.bind fun _ => minds_pure _

/-! ## Primitive moves -/

theorem minds_raise (c : Cause) : Minds W k j (raise c : Exec α) :=
  fun _ hs _ => (yields_raise c).mpr ⟨fun _ => trivial, fun _ => hs⟩

theorem minds_defect (d : Defect) : Minds W k j (defect d : Exec α) := minds_raise _

theorem minds_ofExcept (e : Except Cause α) : Minds W k k (ofExcept e) := by
  cases e with
  | ok a => exact minds_pure a
  | error c => exact minds_raise c

theorem minds_getMachine : Minds W k k getMachine := fun _ hs hsp => ⟨hs, hsp⟩

theorem minds_getHeap : Minds W k k getHeap := fun _ hs hsp => ⟨hs, hsp⟩

theorem minds_get : Minds W k k (get : Exec State) := fun _ hs hsp => ⟨hs, hsp⟩

theorem minds_modifyHeap (f : Heap → Heap) : Minds W k k (modifyHeap f) := fun _ hs hsp => ⟨hs, hsp⟩

theorem minds_allocate (f : Heap → α × Heap) : Minds W k k (allocate f) := fun _ hs hsp => ⟨hs, hsp⟩

/-- Neither the stack nor what is watched changes. -/
theorem minds_modifyMachine {f : Machine → Machine} (h : ∀ m, (f m).stack = m.stack ∧ (f m).sp = m.sp ∧
    (f m).frames.size = m.frames.size ∧ (f m).handlers = m.handlers) : Minds W k k (modifyMachine f) := by
  intro s hs hsp
  rcases h s.machine with ⟨hstack, hsp', hframes, hhandlers⟩
  rw [yields_modifyMachine]
  refine ⟨⟨?_, ?_, ?_, ?_⟩, ?_⟩
  · show NullFrom (f s.machine).stack (f s.machine).sp
    rw [hstack, hsp']
    exact hs.clear
  · show ∀ i, W.keep i → (f s.machine).stack[i]? = W.stack[i]?
    rw [hstack]
    exact hs.kept
  · exact hframes ▸ hs.depth
  · exact hhandlers.trans hs.handlers
  · exact hsp' ▸ hsp

theorem minds_push (v : Value) : Minds W k (k + 1) (push v) := by
  intro s hs hsp
  rw [yields_push]
  exact fun _ => ⟨hs.push (by omega) v, by dsimp only; omega⟩

theorem minds_getSlot (slot : Nat) : Minds W k k (getSlot slot) := by
  intro s hs hsp
  rw [yields_getSlot]
  exact fun _ => ⟨hs, hsp⟩

theorem minds_pop : Minds W (k + 1) k pop := by
  intro s hs hsp
  rw [yields_pop]
  refine ⟨fun _ => trivial, fun hpos _ => ⟨hs.write ?_ ?_, by dsimp only; omega⟩⟩
  · have hclear := hs.clear
    rw [show s.machine.sp = s.machine.sp - 1 + 1 by omega] at hclear
    exact hclear.pop
  · exact fun i hi => Array.getElem?_setIfInBounds_ne (by omega)

theorem minds_peek : Minds W k k peek := by
  intro s hs hsp
  rw [yields_peek]
  exact ⟨fun _ => trivial, fun _ _ => ⟨hs, hsp⟩⟩

theorem minds_takeTop (count : Nat) : Minds W (k + count) k (takeTop count) := by
  intro s hs hsp
  rw [yields_takeTop]
  exact ⟨fun _ => trivial, fun _ _ => ⟨hs.setSp (by omega), by dsimp only; omega⟩⟩

theorem minds_currentFrame : Minds W k k currentFrame := by
  refine minds_getMachine.bind fun m => ?_
  split
  · exact minds_pure _
  · exact minds_defect _

theorem minds_modifyFrame (g : Frame → Frame) : Minds W k k (modifyFrame g) :=
  minds_modifyMachine fun _ => ⟨rfl, rfl, Array.size_modify, rfl⟩

theorem minds_jumpTo (target : Nat) : Minds W k k (jumpTo target) := by
  have hmap : discard currentFrame = (fun _ => PUnit.unit) <$> currentFrame := rfl
  unfold jumpTo
  rw [hmap, ← bind_pure_comp]
  exact (minds_currentFrame.bind fun _ => minds_pure _).bind fun _ => minds_modifyFrame _

theorem minds_operand (width : Nat) : Minds W k k (operand width) := by
  refine minds_currentFrame.bind fun f => ?_
  split
  · exact (minds_modifyFrame _).bind fun _ => minds_pure _
  · exact minds_defect _

theorem minds_localOperand : Minds W k k localOperand := by
  refine (minds_operand 1).bind fun index => minds_currentFrame.bind fun f => minds_getMachine.bind fun m => ?_
  split
  · exact minds_defect _
  · exact minds_pure _

theorem minds_freeCell (index : Nat) : Minds W k k (freeCell index) := by
  refine minds_currentFrame.bind fun f => ?_
  split
  · exact minds_pure _
  · exact minds_defect _

theorem minds_constant (index : Nat) : Minds W k k (constant index) := by
  refine minds_getMachine.bind fun m => ?_
  split
  · exact minds_pure _
  · exact minds_defect _

theorem minds_constantName (index : Nat) : Minds W k k (constantName index) := by
  refine (minds_constant index).bind fun v => ?_
  split
  · exact minds_pure _
  · exact minds_defect _

theorem minds_keyOf (v : Value) : Minds W k k (keyOf v) := by
  unfold keyOf
  split
  · exact minds_pure _
  · exact minds_raise _

theorem minds_collectEntries (d : Dict Key Value) (vs : List Value) : Minds W k k (collectEntries d vs) := by
  fun_induction collectEntries d vs with
  | case1 d key v rest ih => exact (minds_keyOf key).bind fun _ => ih _
  | case2 => exact minds_pure _

/-! ## Calls, returns and throws -/

theorem yields_jumpTo_of {P : Unit → State → Prop} {E : State → Prop} (target : Nat)
    (h : P () ⟨s.world, { s.machine with
      frames := s.machine.frames.modify (s.machine.frames.size - 1) fun f => { f with ip := target } }⟩) :
    Yields True (jumpTo target) s P E := by
  have hmap : discard currentFrame = (fun _ => PUnit.unit) <$> currentFrame := rfl
  simp only [jumpTo, hmap, yields_bind, yields_map]
  simp only [currentFrame, yields_bind, yields_getMachine]
  split
  · exact h
  · exact (yields_defect _).mpr trivial

/-- The slots above those that are watched are given up, down to those below the handler. -/
theorem minds_throwValue (hs : W.Holds s.machine) (v : Value) : MindsEnd W (throwValue v) s := by
  unfold throwValue MindsEnd
  rw [yields_bind, yields_getMachine]
  split
  · exact (yields_raise _).mpr ⟨fun _ => trivial, fun _ => hs⟩
  · next handler rest hrest =>
    simp only [yields_bind, yields_modifyMachine, yields_setSp, yields_push]
    intro _ _
    have hclear := (hs.clear.setSp (n := handler.sp)).push v
    have hframes : ∀ g : Frame → Frame, ((s.machine.frames.extract 0 handler.depth).modify
        ((s.machine.frames.extract 0 handler.depth).size - 1) g).size ≤ min handler.depth W.depth := by
      intro g
      have := hs.depth
      simp only [Array.size_modify, Array.size_extract]
      omega
    have hthrown : ∀ {m : Machine}, m.handlers = rest → m.frames.size ≤ min handler.depth W.depth →
        NullFrom m.stack m.sp → (∀ i < handler.sp, m.stack[i]? = s.machine.stack[i]?) → W.After m := by
      intro m hhandlers hsize hnull hstack
      refine ⟨hnull, .inr ⟨handler, ?_, by omega, fun i hi hlt => ?_⟩, by omega⟩
      · rw [hhandlers, ← hs.handlers, hrest]
      · exact (hstack i hlt).trans (hs.kept i hi)
    have hbelow : ∀ i < handler.sp, ((clearSlots s.machine.stack handler.sp
        (s.machine.sp - handler.sp)).setIfInBounds handler.sp v)[i]? = s.machine.stack[i]? := by
      intro i hi
      rw [Array.getElem?_setIfInBounds_ne (Nat.ne_of_gt hi), getElem?_clearSlots_of_lt _ hi]
    split
    · exact yields_jumpTo_of _ (hthrown rfl (hframes _) hclear hbelow)
    · rw [yields_bind, yields_push]
      intro _
      refine yields_jumpTo_of _ (hthrown rfl (hframes _) (hclear.push _) fun i hi => ?_)
      refine (Array.getElem?_setIfInBounds_ne ?_).trans (hbelow i hi)
      exact Nat.ne_of_gt (Nat.lt_succ_of_lt hi)
    · exact (yields_defect _).mpr trivial

theorem minds_deliverNative (hs : W.Holds s.machine) (hsp : W.floor ≤ s.machine.sp) (v : Value) :
    MindsEnd W (deliverNative v) s := by
  unfold deliverNative
  split
  · split
    · exact minds_throwValue hs _
    · exact minds_throwValue hs _
  · exact (minds_push (k := 0) v).ends hs hsp

theorem minds_callNative (hs : W.Holds s.machine) (id : Nat) {slot : Nat} (hslot : W.floor ≤ slot) :
    MindsEnd W (callNative id slot) s := by
  unfold callNative MindsEnd
  simp only [yields_bind, yields_slotsFrom, yields_modifyGet]
  intro _ _
  have hworld : ∀ world v, MindsEnd W (do setSp slot; deliverNative v) ⟨world, s.machine⟩ := by
    intro world v
    rw [MindsEnd, yields_bind, yields_setSp]
    exact fun _ => minds_deliverNative (s := ⟨world, _⟩) (hs.setSp hslot) hslot v
  split
  · exact yields_crash _
  · split <;> exact hworld _ _

/-- A frame is entered. What has not been handed over to it is null. -/
theorem minds_pushFrame (hs : W.Holds s.machine) (closure : Closure) {base : Nat} {kind : FrameKind}
    (hbase : W.floor ≤ base) (hgiven : s.machine.sp ≤ base + (Frame.enter closure base kind).given) :
    MindsEnd W (pushFrame closure base kind) s := by
  unfold pushFrame MindsEnd
  simp only [yields_bind, yields_getMachine, yields_ite, yields_raise, Cause.isCatchable]
  refine ⟨by simp, fun _ => ⟨by simp, fun hroom => ?_⟩⟩
  simp only [yields_setSp, yields_modifyMachine]
  intro _
  have hset := hs.setSp (n := base + closure.function.locals) (by omega)
  have hsize : base + closure.function.locals ≤ (clearSlots s.machine.stack (base + closure.function.locals)
      (s.machine.sp - (base + closure.function.locals))).size := by
    rw [size_clearSlots]
    exact Nat.le_of_not_lt hroom
  refine ⟨hset.clear, .inl hset.kept, fun _ => ⟨_, Array.back?_push .., ?_, hsize⟩⟩
  rcases Nat.le_total s.machine.sp (base + closure.function.locals) with hle | hle
  · dsimp only
    rw [Nat.sub_eq_zero_of_le hle]
    exact hs.clear.mono hgiven
  · exact hset.clear.mono (Nat.le_trans hle hgiven)

theorem minds_checkArity (hs : W.Holds s.machine) (closure : Closure) (argc : Nat) {P : Unit → State → Prop}
    (h : closure.function.params = argc → P () s) :
    Yields True (checkArity closure argc) s P fun t => W.Holds t.machine := by
  unfold checkArity
  simp only [yields_ite, yields_raise, yields_pure, bne_iff_ne, ne_eq, not_not]
  exact ⟨fun _ => ⟨fun _ => trivial, fun _ => hs⟩, h⟩

theorem minds_pushNulls {x : Exec Unit} (count : Nat) (hs : W.Holds s.machine) (hsp : W.floor ≤ s.machine.sp)
    (hx : ∀ t : State, W.Holds t.machine → t.machine.sp = s.machine.sp + count → MindsEnd W x t) :
    MindsEnd W (pushNulls count >>= fun _ => x) s := by
  induction count generalizing s with
  | zero => exact hx s hs rfl
  | succ count ih =>
    rw [MindsEnd, pushNulls, bind_assoc, yields_bind, yields_push]
    intro _
    refine ih (hs.push hsp _) (Nat.le_succ_of_le hsp) fun t ht hcount => hx t ht ?_
    rw [hcount]
    dsimp only
    omega

/-- The arguments of a constructor are as many as its parameters. -/
theorem minds_construct (hs : W.Holds s.machine) (c : Class) {slot argc : Nat} (hslot : W.floor ≤ slot)
    (hargc : s.machine.sp = slot + (argc + 1)) : MindsEnd W (construct c slot argc) s := by
  unfold construct MindsEnd
  simp only [yields_bind, yields_slotsFrom, yields_allocate]
  intro _ _
  split
  · rw [yields_bind, yields_setSp]
    exact fun _ => (minds_push (k := 0) _).ends (s := ⟨_, _⟩) (hs.setSp hslot) hslot
  · next constructor _ =>
    rw [yields_bind, yields_setSlot]
    intro _
    have hset := hs.set hslot (by omega)
      (s.world.heap.newObject c (s.machine.stack.extract (slot + 1) s.machine.sp).toList).1
    have enters : ∀ (object : Value) (t : State), W.Holds t.machine →
        t.machine.sp = slot + (constructor.function.params + 1) →
        MindsEnd W (pushFrame constructor slot (.constructor object)) t :=
      fun _ _ ht hsp => minds_pushFrame ht constructor hslot (Nat.le_of_eq hsp)
    split
    · rw [yields_bind, yields_getMachine, yields_bind, yields_setSp]
      intro _
      refine enters _ ⟨_, _⟩ (hset.setSp (by dsimp only; omega)) ?_
      dsimp only
      omega
    · refine minds_pushNulls (s := ⟨_, _⟩) _ hset (by dsimp only; omega) fun t ht hsp => enters _ t ht ?_
      rw [hsp]
      dsimp only
      omega

theorem minds_callValue (hs : W.Holds s.machine) {argc : Nat} (hsp : W.floor + (argc + 1) ≤ s.machine.sp) :
    MindsEnd W (callValue argc) s := by
  unfold callValue MindsEnd
  simp only [yields_bind, yields_calleeSlot, yields_getSlot]
  refine ⟨fun _ => trivial, fun _ _ => ?_⟩
  have hslot : W.floor ≤ s.machine.sp - (argc + 1) := by omega
  split
  · next closure _ =>
    rw [yields_bind]
    refine minds_checkArity hs closure argc fun hparams => minds_pushFrame hs closure (by omega) ?_
    show _ ≤ _ + closure.function.params
    omega
  · exact minds_callNative hs _ hslot
  · exact minds_construct hs _ hslot (by omega)
  · exact (yields_raise _).mpr ⟨fun _ => trivial, fun _ => hs⟩

theorem minds_callMethod (hs : W.Holds s.machine) (method : Closure) {slot argc : Nat} (hslot : W.floor ≤ slot)
    (hargc : s.machine.sp = slot + (argc + 1)) : MindsEnd W (callMethod method slot argc) s := by
  unfold callMethod MindsEnd
  rw [yields_bind]
  refine minds_checkArity hs method argc fun hparams => minds_pushFrame hs method hslot ?_
  show _ ≤ _ + (method.function.params + 1)
  omega

theorem minds_missingMethod (hs : W.Holds s.machine) {slot : Nat} (hslot : W.floor ≤ slot) :
    MindsEnd W (missingMethod slot) s := by
  unfold missingMethod MindsEnd
  rw [yields_bind, yields_setSp]
  exact fun _ => (minds_push (k := 0) _).ends (s := ⟨_, _⟩) (hs.setSp hslot) hslot

theorem minds_invoke (hs : W.Holds s.machine) (name : String) {argc : Nat}
    (hsp : W.floor + (argc + 1) ≤ s.machine.sp) : MindsEnd W (invoke name argc) s := by
  unfold invoke MindsEnd
  simp only [yields_bind, yields_calleeSlot, yields_getSlot, yields_getHeap]
  refine ⟨fun _ => trivial, fun _ _ => ?_⟩
  have hslot : W.floor ≤ s.machine.sp - (argc + 1) := by omega
  split
  · exact (yields_raise _).mpr ⟨fun _ => trivial, fun _ => hs⟩
  · split
    · rw [yields_bind, yields_setSlot]
      exact fun _ => minds_callValue (s := ⟨_, _⟩) (hs.set hslot (by omega) _) hsp
    · split
      · exact minds_callMethod hs _ hslot (by omega)
      · exact minds_missingMethod hs hslot

theorem minds_invokeSuper (hs : W.Holds s.machine) (name : String) {argc : Nat}
    (hsp : W.floor + (argc + 2) ≤ s.machine.sp) : MindsEnd W (invokeSuper name argc) s := by
  refine (minds_pop (k := argc + 1)).then hs hsp fun v t ht hsp' => ?_
  split
  · rw [MindsEnd, yields_bind, yields_calleeSlot]
    refine ⟨fun _ => trivial, fun _ => ?_⟩
    have hslot : W.floor ≤ t.machine.sp - (argc + 1) := by omega
    split
    · exact minds_callMethod ht _ hslot (by omega)
    · exact minds_missingMethod ht hslot
  · exact (yields_defect _).mpr trivial

theorem minds_returnFromFrame {fs : Array Frame} {f : Frame} (hs : W.Holds s.machine)
    (hframes : s.machine.frames = fs.push f) (hslot : W.floor ≤ f.resultSlot) (v : Value) :
    MindsEnd W (returnFromFrame v) s := by
  unfold returnFromFrame MindsEnd
  simp only [yields_bind, yields_modifyMachine, yields_getMachine, hframes, Array.back?_push, Array.pop_push,
    yields_setSp, yields_push]
  intro _ _
  have hset := (hs.setSp hslot).push (by exact hslot) (f.answer v)
  refine ⟨hset.clear, .inl hset.kept, fun hlt => ?_⟩
  have hdepth := hs.depth
  rw [hframes, Array.size_push] at hdepth
  exact absurd hlt (by dsimp only; omega)

theorem minds_returnValue {fs : Array Frame} {f : Frame} (hs : W.Holds s.machine)
    (hframes : s.machine.frames = fs.push f) (hsp : W.floor + 1 ≤ s.machine.sp) (hslot : W.floor ≤ f.resultSlot) :
    MindsEnd W (do returnFromFrame (← pop)) s := by
  have hpop := minds_pop (k := 0) s hs hsp
  rw [yields_pop] at hpop
  rw [MindsEnd, yields_bind, yields_pop]
  refine ⟨fun _ => trivial, fun hpos hlt => ?_⟩
  exact minds_returnFromFrame (s := ⟨_, _⟩) (hpop.2 hpos hlt).1 hframes hslot _

/-! ## Instructions -/

theorem minds_spawnTask (argc : Nat) : Minds W (k + (argc + 1)) (k + 1) (spawnTask argc) := by
  intro s hs hsp
  simp only [spawnTask, yields_bind, yields_calleeSlot, yields_getSlot, yields_ite, yields_raise, yields_takeTop,
    yields_setSp, yields_allocate, yields_modify, yields_push]
  refine ⟨fun _ => trivial, fun _ _ => ⟨fun _ => ⟨fun _ => trivial, fun _ => hs⟩, fun _ => ⟨fun _ => trivial, ?_⟩⟩⟩
  intro _ _ _ _
  have htop := hs.setSp (n := s.machine.sp - argc) (by omega)
  have hslot := htop.setSp (n := s.machine.sp - (argc + 1)) (by omega)
  exact ⟨hslot.push (by dsimp only; omega) _, by omega⟩

theorem minds_queueCapture (ref : Ref) : Minds W k k (queueCapture ref) :=
  minds_modifyMachine fun _ => ⟨rfl, rfl, rfl, rfl⟩

theorem minds_waitFor (w : Wait) : Minds W k k (waitFor w) := minds_modifyMachine fun _ => ⟨rfl, rfl, rfl, rfl⟩

/-- An attempt to send or to receive leaves a value, or it has to wait. -/
theorem minds_waitOrPush {x : Exec α} (h : Minds W k (k + 1) x ∨ Minds W k k x) : Minds W k k x := by
  rcases h with h | h
  · exact fun s hs hsp => (h s hs hsp).mono (fun _ _ ht => ⟨ht.1, by omega⟩) fun _ ht => ht
  · exact h

theorem minds_trySend (ch : Ref) (v : Value) : Minds W k k (trySend ch v) := by
  refine (minds_allocate _).bind fun outcome => ?_
  split
  · exact minds_raise _
  · exact minds_waitFor _
  · exact minds_waitOrPush (.inl (minds_push _))
  · exact minds_waitFor _

theorem minds_tryReceive (ch : Ref) : Minds W k k (tryReceive ch) := by
  refine (minds_allocate _).bind fun outcome => ?_
  split
  · exact minds_waitOrPush (.inl (minds_push _))
  · exact minds_waitOrPush (.inl (minds_push _))
  · exact minds_waitFor _

theorem minds_tryFinishSend (ch : Ref) (ticket : Nat) : Minds W k k (tryFinishSend ch ticket) := by
  refine minds_getHeap.bind fun h => ?_
  split
  · exact minds_waitOrPush (.inl (minds_push _))
  · exact minds_waitFor _

theorem minds_makeClosure : Minds W k (k + 1) makeClosure := by
  refine (minds_operand 2).bind fun index => (minds_operand 1).bind fun count => ?_
  refine (minds_constant index).bind fun v => ?_
  split
  · refine minds_getMachine.bind fun m => ?_
    dsimp only
    split
    · exact minds_defect _
    · refine Minds.bind (minds_modifyMachine fun _ => ⟨rfl, rfl, rfl, rfl⟩) fun _ => ?_
      exact (minds_allocate _).bind fun _ => minds_push _
  · exact minds_defect _

theorem minds_captureLocal : Minds W k k captureLocal :=
  minds_localOperand.bind fun _ => (minds_getSlot _).bind fun _ => minds_currentFrame.bind fun _ =>
    (minds_allocate _).bind fun _ => (minds_modifyFrame _).bind fun _ => minds_queueCapture _

theorem minds_getLocal : Minds W k (k + 1) getLocal := by
  refine minds_localOperand.bind fun place => minds_currentFrame.bind fun f => ?_
  split
  · exact minds_getHeap.bind fun _ => minds_push _
  · exact (minds_getSlot _).bind fun _ => minds_push _

theorem minds_binary (op : BinaryOp) : Minds W (k + 2) (k + 1) (binary op) :=
  minds_pop.bind fun _ => minds_pop.bind fun _ => minds_getHeap.bind fun _ =>
    (minds_ofExcept _).bind fun _ => minds_push _

theorem minds_rethrow (hs : W.Holds s.machine) (hsp : W.floor + 2 ≤ s.machine.sp) : MindsEnd W rethrow s := by
  refine (minds_pop (k := 1)).then hs hsp fun pending t ht hsp => ?_
  refine (minds_pop (k := 0)).then ht hsp fun v u hu hsp => ?_
  split
  · exact minds_throwValue hu v
  · exact (minds_pure (k := 0) _).ends hu hsp

theorem minds_makeChannel {fs : Array Frame} {f : Frame} (h : s.machine.frames = fs.push f)
    (hn : operandAt? f.code f.ip 1 = some n) (hs : W.Holds s.machine)
    (hsp : W.floor + (if n = 0 then 0 else 1) ≤ s.machine.sp) : MindsEnd W makeChannel s := by
  have hmake : ∀ capacity : Nat, Minds W 0 1 (do
      let ref ← allocate fun h => h.newChannel (some capacity)
      push (.channel ref (some capacity))) := fun _ => (minds_allocate _).bind fun _ => minds_push _
  rw [MindsEnd, makeChannel, yields_bind, yields_operand h hn]
  have hs' : W.Holds { s.machine with frames := fs.push { f with ip := f.ip + 1 } } :=
    ⟨hs.clear, hs.kept, by simpa [h] using hs.depth, hs.handlers⟩
  split
  · next hzero =>
    rw [if_pos (by simpa using hzero)] at hsp
    exact ((minds_pure _).bind fun _ => hmake _).ends (s := ⟨_, _⟩) hs' hsp
  · next hne =>
    rw [if_neg (by simpa using hne)] at hsp
    refine (minds_pop (k := 0)).then (s := ⟨_, _⟩) hs' hsp fun v t ht hsp => ?_
    split
    · split
      · exact ((minds_pure _).bind fun _ => hmake _).ends ht hsp
      · exact ((minds_raise _).bind fun _ => hmake _).ends ht hsp
    · exact (minds_getHeap.bind fun _ => (minds_raise _).bind fun _ => hmake _).ends ht hsp

/-- Operands are read before anything else happens. -/
theorem minds_reads {fs : Array Frame} {f : Frame} {w : Nat} {g : Nat → Exec α}
    (h : s.machine.frames = fs.push f) (hn : operandAt? f.code f.ip w = some n) (hs : W.Holds s.machine)
    (hg : ∀ t : State, W.Holds t.machine → t.machine.sp = s.machine.sp →
      t.machine.frames = fs.push { f with ip := f.ip + w } → MindsEnd W (g n) t) :
    MindsEnd W (operand w >>= g) s := by
  rw [MindsEnd, yields_bind, yields_operand h hn]
  exact hg _ ⟨hs.clear, hs.kept, by simpa [h] using hs.depth, hs.handlers⟩ rfl rfl

theorem minds_setLocal {fs : Array Frame} {f : Frame} (h : s.machine.frames = fs.push f)
    (hn : operandAt? f.code f.ip 1 = some n) (hs : W.Holds s.machine) (hsp : f.base + n < s.machine.sp)
    (hkeep : ¬ W.keep (f.base + n)) : MindsEnd W setLocal s := by
  unfold setLocal MindsEnd
  simp only [yields_bind, yields_localOperand h hn, yields_peek]
  refine ⟨fun _ => trivial, fun _ => ⟨fun _ => trivial, fun _ _ => ?_⟩⟩
  rw [yields_currentFrame (f := { f with ip := f.ip + 1 }) rfl]
  have hs' : W.Holds { s.machine with frames := fs.push { f with ip := f.ip + 1 } } :=
    ⟨hs.clear, hs.kept, by simpa [h] using hs.depth, hs.handlers⟩
  split
  · exact hs'.after
  · rw [yields_setSlot]
    intro _
    refine Watch.Holds.after ⟨hs.clear.set hsp _, fun i hi => ?_, hs'.depth, hs'.handlers⟩
    refine (Array.getElem?_setIfInBounds_ne ?_).trans (hs.kept i hi)
    rintro rfl
    exact hkeep hi

end

end Exec

/-- What is watched is not in the way of an instruction of the frame `f`. -/
structure Watch.Fits (W : Watch) (m : Machine) (f : Frame) (i : Emitted) : Prop where
  takes : W.floor + i.takes ≤ m.sp
  writes : i.opcode = .setLocal → f.base + i.operand 0 < m.sp ∧ ¬ W.keep (f.base + i.operand 0)
  leaves : i.opcode = .returnValue ∨ i.opcode = .returnNull → W.floor ≤ f.resultSlot

namespace Exec

section

variable {W : Watch} {s : State} {fs : Array Frame} {f : Frame} {i : Emitted}

theorem minds_perform (h : s.machine.frames = fs.push f)
    (hreads : readOperands? i.opcode f.code f.ip = some i.read) (hsized : i.Sized) (hs : W.Holds s.machine)
    (hfits : W.Fits s.machine f i) : MindsEnd W (perform i.opcode) s := by
  have one {w : Nat} := @operandAt?_one i f.code f.ip w hreads hsized
  have two {v w : Nat} := @operandAt?_two i f.code f.ip v w hreads hsized
  rcases hfits with ⟨htakes, hwrites, hleaves⟩
  clear hreads hsized
  rcases i with ⟨op, xs, span⟩
  dsimp only at one two hwrites hleaves ⊢
  -- most parts end in the same way
  have ends {j k : Nat} {x : Exec Unit} (hx : Minds W k j x) (hk : Emitted.takes ⟨op, xs, span⟩ = k) :
      MindsEnd W (x >>= fun _ => pure Signal.next) s := (hx.ends hs (hk ▸ htakes)).next
  have whole {j k : Nat} {x : Exec Signal} (hx : Minds W k j x) (hk : Emitted.takes ⟨op, xs, span⟩ = k) :
      MindsEnd W x s := hx.ends hs (hk ▸ htakes)
  cases op with
  | constant =>
    exact whole ((minds_operand 2).bind fun _ => (minds_constant _).bind fun _ => (minds_push _).next) rfl
  | null | pushTrue | pushFalse => exact ends (minds_push _) rfl
  | getLocal => exact ends minds_getLocal rfl
  | setLocal => exact (minds_setLocal h (one rfl) hs (hwrites rfl).1 (hwrites rfl).2).next
  | getGlobal => exact ends ((minds_operand 2).bind fun _ => minds_get.bind fun _ => minds_push _) rfl
  | setGlobal =>
    have hset : Minds W 1 1 setGlobal :=
      (minds_operand 2).bind fun _ => minds_peek.bind fun _ => fun _ hs hsp => ⟨hs, hsp⟩
    exact ends hset rfl
  | getFree =>
    exact ends ((minds_operand 1).bind fun _ => (minds_freeCell _).bind fun _ => minds_getHeap.bind fun _ =>
      minds_push _) rfl
  | setFree =>
    exact ends ((minds_operand 1).bind fun _ => minds_peek.bind fun _ => (minds_freeCell _).bind fun _ =>
      minds_modifyHeap _) rfl
  | getBuiltin =>
    refine ends (j := 1) ((minds_operand 1).bind fun _ => minds_getMachine.bind fun m => ?_) rfl
    split
    · exact minds_push _
    · exact minds_defect _
  | currentClosure => exact whole (minds_currentFrame.bind fun _ => (minds_push _).next) rfl
  | captureLocal => exact ends minds_captureLocal rfl
  | captureFree =>
    exact ends ((minds_operand 1).bind fun _ => (minds_freeCell _).bind fun _ => minds_queueCapture _) rfl
  | captureSelf =>
    exact ends (minds_currentFrame.bind fun _ => (minds_allocate _).bind fun _ => minds_queueCapture _) rfl
  | add | sub | mul | div | mod | equal | notEqual | greater | greaterEqual =>
    exact ends (minds_binary (k := 0) _) rfl
  | negate =>
    exact whole ((minds_pop (k := 0)).bind fun _ => (minds_ofExcept _).bind fun _ => (minds_push _).next) rfl
  | not => exact whole ((minds_pop (k := 0)).bind fun _ => (minds_push _).next) rfl
  | jump => exact whole ((minds_operand 2).bind fun _ => (minds_jumpTo _).next) rfl
  | jumpIfFalse =>
    refine ends (j := 0) ((minds_operand 2).bind fun _ => (minds_pop (k := 0)).bind fun v => ?_) rfl
    split
    · exact minds_jumpTo _
    · exact minds_pure _
  | call =>
    refine minds_reads h (one rfl) hs fun t ht hsp _ => (minds_callValue ht ?_).next
    exact hsp ▸ htakes
  | returnValue =>
    have hreturn := (minds_returnValue hs h htakes (hleaves (.inl rfl))).next
    rw [bind_assoc] at hreturn
    exact hreturn
  | returnNull => exact (minds_returnFromFrame hs h (hleaves (.inr rfl)) _).next
  | closure => exact ends minds_makeClosure rfl
  | array =>
    refine (minds_reads h (one rfl) hs fun t ht hsp _ => ?_).next
    refine ((minds_takeTop (k := 0) _).bind fun _ => (minds_allocate _).bind fun _ => minds_push _).ends ht ?_
    rw [hsp, Nat.zero_add]
    exact htakes
  | hash | orderedMap =>
    refine (minds_reads h (one rfl) hs fun t ht hsp _ => ?_).next
    refine ((minds_takeTop (k := 0) _).bind fun _ => (minds_collectEntries _ _).bind fun _ =>
      (minds_allocate _).bind fun _ => minds_push _).ends ht ?_
    rw [hsp, Nat.zero_add]
    exact htakes
  | getIndex =>
    exact ends ((minds_pop (k := 1)).bind fun _ => minds_pop.bind fun _ => minds_getHeap.bind fun _ =>
      (minds_ofExcept _).bind fun _ => minds_push _) rfl
  | setIndex =>
    exact ends ((minds_pop (k := 2)).bind fun _ => minds_pop.bind fun _ => minds_pop.bind fun _ =>
      minds_getHeap.bind fun _ => (minds_ofExcept _).bind fun _ => (minds_modifyHeap _).bind fun _ => minds_push _) rfl
  | pop =>
    refine whole (j := 0) ((minds_pop (k := 0)).bind fun _ => Minds.next ?_) rfl
    exact minds_modifyMachine fun _ => ⟨rfl, rfl, rfl, rfl⟩
  | dup => exact whole (minds_peek.bind fun _ => (minds_push (k := 1) _).next) rfl
  | getProperty =>
    exact ends ((minds_operand 2).bind fun _ => (minds_constantName _).bind fun _ => (minds_pop (k := 0)).bind fun _ =>
      minds_getHeap.bind fun _ => (minds_ofExcept _).bind fun _ => minds_push _) rfl
  | setProperty =>
    exact ends ((minds_operand 2).bind fun _ => (minds_constantName _).bind fun _ => (minds_pop (k := 1)).bind fun _ =>
      minds_pop.bind fun _ => (minds_ofExcept _).bind fun _ => (minds_modifyHeap _).bind fun _ => minds_push _) rfl
  | invoke | invokeSuper =>
    refine (minds_reads h (two rfl).1 hs fun t ht hsp hframes => ?_).next
    rw [MindsEnd, yields_bind, yields_constantName]
    refine ⟨fun _ => trivial, fun name _ => minds_reads hframes (two rfl).2 ht fun u hu hsp' _ => ?_⟩
    first
      | exact minds_invoke hu name (hsp' ▸ hsp ▸ htakes)
      | exact minds_invokeSuper hu name (hsp' ▸ hsp ▸ htakes)
  | tryEnter =>
    refine (minds_reads h (two rfl).1 hs fun t ht _ hframes => ?_).next
    exact minds_reads hframes (two rfl).2 ht fun u hu _ _ => hu.end rfl rfl rfl
  | finallyEnd =>
    refine (minds_reads h (one rfl) hs fun t ht _ _ => ?_).next
    rw [MindsEnd, yields_bind, yields_modifyMachine]
    exact yields_jumpTo_of _ (ht.end rfl rfl Array.size_modify)
  | throw => exact (minds_pop (k := 0)).then hs htakes fun v t ht _ => (minds_throwValue ht v).next
  | rethrow => exact (minds_rethrow hs htakes).next
  | spawn =>
    refine minds_reads h (one rfl) hs fun t ht hsp _ => ((minds_spawnTask (k := 0) _).ends ht ?_).next
    rw [hsp, Nat.zero_add]
    exact htakes
  | channel => exact (minds_makeChannel h (one rfl) hs htakes).next
  | send =>
    refine ends (j := 0) ((minds_pop (k := 1)).bind fun v => (minds_pop (k := 0)).bind fun w => ?_) rfl
    split
    · exact minds_trySend _ _
    · exact minds_raise _
  | receive =>
    refine ends (j := 0) ((minds_pop (k := 0)).bind fun v => ?_) rfl
    split
    · exact minds_tryReceive _
    · exact minds_raise _
  | halt => exact hs.after

/-! ## Turns -/

/-- A fault that can be caught is thrown as a value. -/
theorem minds_catching (h : MindsEnd W advance s) :
    Yields True advanceCatching s (fun _ t => W.After t.machine) fun _ => True :=
  yields_catching h fun _ ht v => (minds_throwValue ht v).mono (fun _ _ hu => hu) fun _ _ => trivial

/-- A turn of a machine that does not wait. -/
theorem minds_turn (h : s.machine.frames = fs.push f) (hw : s.machine.waiting = none)
    (hcode : f.code[f.ip]? = some i.opcode.toByte)
    (hreads : readOperands? i.opcode f.code (f.ip + 1) = some i.read) (hsized : i.Sized) (hs : W.Holds s.machine)
    (hfits : W.Fits s.machine f i) :
    Yields True advanceCatching s (fun _ t => W.After t.machine) fun _ => True := by
  refine minds_catching ?_
  unfold advance step MindsEnd
  simp only [yields_bind, yields_getMachine, hw, yields_currentFrame h, hcode, yields_modifyFrame h,
    yields_modifyMachine, dispatch_toByte]
  refine minds_perform (f := { f with ip := f.ip + 1 }) rfl hreads hsized ?_ ⟨hfits.takes, hfits.writes, hfits.leaves⟩
  exact ⟨hs.clear, hs.kept, by simpa [h] using hs.depth, hs.handlers⟩

/-- A turn of a machine that waits. -/
theorem minds_turn_waiting {w : Wait} (hw : s.machine.waiting = some w) (hs : W.Holds s.machine)
    (hsp : W.floor ≤ s.machine.sp) :
    Yields True advanceCatching s (fun _ t => W.After t.machine) fun _ => True := by
  refine minds_catching ?_
  have hend : ∀ {x : Exec Unit}, Minds W 0 0 x → Minds W 0 0 (do
      modifyMachine fun m => { m with waiting := none }
      x
      return if (← getMachine).waiting.isSome then Signal.blocked else .next) := by
    intro x hx
    refine Minds.bind (minds_modifyMachine fun _ => ⟨rfl, rfl, rfl, rfl⟩) fun _ => hx.bind fun _ => ?_
    exact minds_getMachine.bind fun _ => minds_pure _
  unfold advance
  rw [MindsEnd, yields_bind, yields_getMachine, hw]
  cases w with
  | room ch v => exact (hend (minds_trySend ch v)).ends hs hsp
  | taken ch ticket => exact (hend (minds_tryFinishSend ch ticket)).ends hs hsp
  | message ch => exact (hend (minds_tryReceive ch)).ends hs hsp

end

end Exec

end ScriptMachine
