import ScriptMachine.Proofs.Lifting.Relation
import ScriptMachine.Proofs.Machine.Bounds
import ScriptMachine.Proofs.Machine.Equations

/-!
# Moves of lifted machines

Each primitive move and each instruction goes the same way on a lifted machine. An instruction that returns may leave no
frame (`Exec.MirrorsEnd`), and one that names a local goes the same way if the local is there
(`Exec.followsAt_localOperand`).
-/

namespace ScriptMachine

/-! ## Slots -/

/-- Null slots that are behind the others stay so. -/
theorem Exec.clearSlots_append (a : Array Value) (n start count : Nat) :
    clearSlots (a ++ Array.replicate n .null) start count = clearSlots a start count ++ Array.replicate n .null := by
  induction count generalizing a start with
  | zero => rfl
  | succ count ih =>
    have hset : (a ++ Array.replicate n Value.null).setIfInBounds start .null =
        a.setIfInBounds start .null ++ Array.replicate n Value.null := by
      by_cases hstart : start < a.size
      · rw [Array.setIfInBounds_append_left hstart]
      · have hout : a.setIfInBounds start .null = a := Array.setIfInBounds_eq_of_size_le (Nat.le_of_not_lt hstart)
        rw [Array.setIfInBounds_append_right (Nat.le_of_not_lt hstart), hout]
        congr 1
        apply Array.ext_getElem?
        intro i
        rw [Array.getElem?_setIfInBounds]
        split
        · next hi =>
          split
          · next hlt => rw [Array.getElem?_replicate, if_pos (by simpa [hi] using hlt)]
          · next hge => rw [Array.getElem?_replicate, if_neg (by simpa [hi] using hge)]
        · rfl
    rw [clearSlots, hset, ih]
    rfl

theorem Frame.capture_same (f : Frame) (h : Heap) (index : Nat) (v : Value) :
    (f.capture h index v).2.1.base = f.base ∧ (f.capture h index v).2.1.closure = f.closure := by
  unfold Frame.capture
  split
  · exact ⟨rfl, rfl⟩
  · exact ⟨rfl, rfl⟩

theorem Handler.discard_above (rs : List Handler) (n depth : Nat) :
    Handler.discard (rs.map (Handler.above n)) (n + depth) = (Handler.discard rs depth).map (Handler.above n) := by
  unfold Handler.discard
  rw [List.dropWhile_map]
  congr 2
  funext r
  simp [Handler.above, Nat.add_comm n]

theorem Machine.Lifted.clear {outer : Array Frame} {m m' : Machine} (h : m.Lifted outer m') (start count : Nat) :
    Lifted outer { m with stack := Exec.clearSlots m.stack start count }
      { m' with stack := Exec.clearSlots m'.stack start count } := by
  refine { h with stack := ?_, rooms := ?_ }
  · rcases h.stack with ⟨n, hn⟩
    refine ⟨n, ?_⟩
    show Exec.clearSlots m'.stack start count = _
    rw [hn, Exec.clearSlots_append]
  · intro f hf
    show _ ≤ (Exec.clearSlots m.stack start count).size
    rw [Exec.size_clearSlots]
    exact h.rooms f hf

namespace Exec

section

variable {α : Type} {outer : Array Frame} {s s' : State} {R : State → State → Prop}

/-! ## The operand stack -/

/-- A relation of states with lifted machines that depends, as far as machines go, on their frames and on the size of
the stack only. -/
structure Stable (outer : Array Frame) (R : State → State → Prop) : Prop where
  lifted : ∀ {t t' : State}, R t t' → t.machine.Lifted outer t'.machine
  move : ∀ {t t' : State} {m m' : Machine}, R t t' → m.Lifted outer m' → m.frames = t.machine.frames →
    m.stack.size = t.machine.stack.size → R ⟨t.world, m⟩ ⟨t'.world, m'⟩

theorem stable_lifted : Stable outer (State.Lifted outer) where
  lifted ht := ht.machine
  move ht hm _ _ := ⟨ht.world, hm⟩

theorem stable_covers : Stable outer (State.Covers outer) where
  lifted ht := ht.machine
  move ht hm hframes _ := ht.withMachine hm (hframes ▸ ht.live)

theorem Stable.push (hR : Stable outer R) (hs : R s s') (v : Value) :
    FollowsAt outer (fun _ => R) (push v) (push v) s s' := by
  have hm := hR.lifted hs
  show FollowsAt outer (fun _ => R) (if _ then _ else _) (if _ then _ else _) s s'
  by_cases hroom : s.machine.stack.size ≤ s.machine.sp
  · rw [if_pos hroom]
    exact followsAt_excused rfl (.inl rfl)
  · have hroom' : ¬ s'.machine.stack.size ≤ s'.machine.sp := by
      have := hm.size_le
      rw [hm.sp]
      omega
    rw [if_neg hroom, if_neg hroom']
    apply followsAt_modifyMachine
    rw [hm.sp]
    exact hR.move hs ((hm.write (Nat.lt_of_not_le hroom) v).withSp _) rfl (Array.size_setIfInBounds ..)

theorem Stable.setSp (hR : Stable outer R) (hs : R s s') (sp : Nat) :
    FollowsAt outer (fun _ => R) (setSp sp) (setSp sp) s s' := by
  have hm := hR.lifted hs
  show FollowsAt outer (fun _ => R) (if _ then _ else _) (if _ then _ else _) s s'
  rw [hm.sp]
  by_cases hcrash : (decide (sp < s.machine.sp) && decide (s.machine.stack.size < s.machine.sp)) = true
  · rw [if_pos hcrash]
    exact followsAt_noSlots _ _
  · have hcrash' : ¬ (decide (sp < s.machine.sp) && decide (s'.machine.stack.size < s.machine.sp)) = true := by
      have := hm.size_le
      simp only [Bool.and_eq_true, decide_eq_true_eq] at hcrash ⊢
      omega
    rw [if_neg hcrash, if_neg hcrash']
    apply followsAt_modifyMachine
    rw [hm.sp]
    exact hR.move hs ((hm.clear sp _).withSp sp) rfl (size_clearSlots ..)

theorem mirrors_push (v : Value) : Mirrors outer (push v) := fun _ _ hs => stable_covers.push hs v

theorem mirrors_setSp (sp : Nat) : Mirrors outer (setSp sp) := fun _ _ hs => stable_covers.setSp hs sp

/-- A slot that was read is there, and reading changes nothing. -/
theorem followsAt_getSlot (hs : s.Covers outer s') (slot : Nat) :
    FollowsAt outer (fun _ t t' => t = s ∧ t' = s' ∧ slot < s.machine.stack.size) (getSlot slot) (getSlot slot) s s' := by
  apply followsAt_withMachine
  cases hv : s.machine.stack[slot]? with
  | none => exact followsAt_noSlot slot
  | some v =>
    rw [hs.machine.slot hv]
    exact followsAt_pure v ⟨rfl, rfl, (Array.getElem?_eq_some_iff.mp hv).1⟩

theorem mirrors_getSlot (slot : Nat) : Mirrors outer (getSlot slot) := by
  intro s s' hs
  apply (followsAt_getSlot hs slot).mono
  rintro _ t t' ⟨rfl, rfl, -⟩
  exact hs

theorem mirrors_setSlot (slot : Nat) (v : Value) : Mirrors outer (setSlot slot v) := by
  apply follows_withMachine
  intro s s' hs
  by_cases hslot : s.machine.stack.size ≤ slot
  · rw [if_pos hslot]
    exact followsAt_noSlot slot
  · have hslot' : ¬ s'.machine.stack.size ≤ slot := by
      have := hs.machine.size_le
      omega
    rw [if_neg hslot, if_neg hslot']
    exact followsAt_modifyMachine (hs.withMachine (hs.machine.write (Nat.lt_of_not_le hslot) v) hs.live)

theorem mirrors_pop : Mirrors outer pop := by
  apply follows_withMachine
  intro s s' hs
  rw [hs.machine.sp]
  split
  · exact follows_defect _ s s' hs
  · refine (followsAt_getSlot hs _).bind ?_
    rintro v t t' ⟨rfl, rfl, hslot⟩
    refine FollowsAt.bind (followsAt_modifyMachine ?_) fun _ u u' hu => mirrors_pure v u u' hu
    rw [hs.machine.sp]
    exact hs.withMachine ((hs.machine.write hslot .null).withSp _) hs.live

theorem mirrors_peek : Mirrors outer peek := by
  apply follows_withMachine
  intro s s' hs
  rw [hs.machine.sp]
  split
  · exact follows_defect _ s s' hs
  · exact mirrors_getSlot _ s s' hs

theorem mirrors_slotsFrom (start : Nat) : Mirrors outer (slotsFrom start) := by
  apply follows_withMachine
  intro s s' hs
  rw [hs.machine.sp]
  by_cases hcrash : (decide (s.machine.sp < start) || decide (s.machine.stack.size < s.machine.sp)) = true
  · rw [if_pos hcrash]
    exact followsAt_noSlots _ _
  · have hcrash' : ¬ (decide (s.machine.sp < start) || decide (s'.machine.stack.size < s.machine.sp)) = true := by
      have := hs.machine.size_le
      simp only [Bool.or_eq_true, decide_eq_true_eq] at hcrash ⊢
      omega
    have hstop : s.machine.sp ≤ s.machine.stack.size := by
      simp only [Bool.or_eq_true, decide_eq_true_eq] at hcrash
      omega
    rw [if_neg hcrash, if_neg hcrash', hs.machine.extract hstop]
    exact followsAt_pure _ hs

theorem mirrors_takeTop (count : Nat) : Mirrors outer (takeTop count) := by
  apply follows_withMachine
  intro s s' hs
  rw [hs.machine.sp]
  split
  · exact follows_defect _ s s' hs
  · exact ((mirrors_slotsFrom _).bind fun vs => (mirrors_setSp _).bind fun _ => mirrors_pure vs) s s' hs

theorem mirrors_calleeSlot (argc : Nat) : Mirrors outer (calleeSlot argc) := by
  apply follows_withMachine
  intro s s' hs
  rw [hs.machine.sp]
  split
  · exact follows_defect _ s s' hs
  · exact followsAt_pure _ hs

/-! ## The running frame -/

/-- Both machines have the same running frame. -/
theorem followsAt_currentFrame (hs : s.Covers outer s') :
    FollowsAt outer (fun f t t' => t = s ∧ t' = s' ∧ s.machine.frames.back? = some f) currentFrame currentFrame s s' := by
  apply followsAt_withMachine
  rw [hs.back?]
  split
  · next hback => exact followsAt_pure _ ⟨rfl, rfl, hback⟩
  · exact follows_defect _ s s' hs

theorem mirrors_currentFrame : Mirrors outer currentFrame := by
  intro s s' hs
  apply (followsAt_currentFrame hs).mono
  rintro _ t t' ⟨rfl, rfl, -⟩
  exact hs

/-- What is done to the running frame leaves it its closure and its place. -/
theorem followsAt_modifyFrame (hs : s.Covers outer s') {g : Frame → Frame}
    (hg : ∀ f, s.machine.frames.back? = some f → (g f).base = f.base ∧ (g f).closure = f.closure) :
    FollowsAt outer (fun _ => State.Covers outer) (modifyFrame g) (modifyFrame g) s s' := by
  apply followsAt_modifyMachine
  by_cases hempty : s.machine.frames = #[]
  · have houter := hs.live hempty
    have hempty' : s'.machine.frames = #[] := by
      rw [hs.machine.frames, hempty, houter]
      rfl
    refine hs.withMachine { hs.machine with frames := ?_, rooms := ?_ } fun _ => houter
    · rw [hempty, hempty', houter]
      rfl
    · rw [hempty]
      simp
  · rcases Array.eq_push_of_size_ne_zero (mt Array.eq_empty_of_size_eq_zero hempty) with ⟨fs, f, hframes⟩
    have hframes' : s'.machine.frames = (outer ++ fs).push f := by
      rw [hs.machine.frames, hframes, Array.append_push]
    refine hs.withMachine { hs.machine with frames := ?_, rooms := ?_ } ?_
    · rw [hframes, hframes', modify_push, modify_push, Array.append_push]
    · have hrooms := hs.machine.rooms
      rw [hframes] at hrooms
      rw [hframes, modify_push]
      intro k hk
      rcases Array.mem_push.mp hk with hk | rfl
      · exact hrooms k (Array.mem_push_of_mem f hk)
      · have hsame := hg f (by rw [hframes, Array.back?_push])
        rw [hsame.1, hsame.2]
        exact hrooms f Array.mem_push_self
    · intro hnone
      rw [hframes, modify_push] at hnone
      exact absurd hnone Array.push_ne_empty

theorem mirrors_modifyFrame {g : Frame → Frame} (hg : ∀ f, (g f).base = f.base ∧ (g f).closure = f.closure) :
    Mirrors outer (modifyFrame g) := fun _ _ hs => followsAt_modifyFrame hs fun f _ => hg f

theorem mirrors_jumpTo (target : Nat) : Mirrors outer (jumpTo target) := by
  have hdiscard : Mirrors outer (discard currentFrame) :=
    mirrors_currentFrame.bind fun _ => mirrors_pure _
  exact hdiscard.bind fun _ => mirrors_modifyFrame fun _ => ⟨rfl, rfl⟩

theorem mirrors_operand (width : Nat) : Mirrors outer (operand width) := by
  refine mirrors_currentFrame.bind fun f => ?_
  split
  · refine Mirrors.bind (mirrors_modifyFrame ?_) fun _ => mirrors_pure _
    exact fun _ => ⟨rfl, rfl⟩
  · exact follows_defect _

theorem mirrors_freeCell (index : Nat) : Mirrors outer (freeCell index) := by
  refine mirrors_currentFrame.bind fun f => ?_
  split
  · exact mirrors_pure _
  · exact follows_defect _

theorem mirrors_constant (index : Nat) : Mirrors outer (constant index) := by
  apply follows_withMachine
  intro s s' hs
  rw [hs.machine.constants]
  split
  · exact followsAt_pure _ hs
  · exact follows_defect _ s s' hs

theorem mirrors_constantName (index : Nat) : Mirrors outer (constantName index) := by
  refine (mirrors_constant index).bind fun v => ?_
  split
  · exact mirrors_pure _
  · exact follows_defect _

theorem mirrors_keyOf (v : Value) : Mirrors outer (keyOf v) := by
  unfold keyOf
  split
  · exact mirrors_pure _
  · exact follows_raise _

/-! ## Calls, returns and throws -/

theorem mirrors_pushFrame (closure : Closure) (base : Nat) (kind : FrameKind) :
    Mirrors outer (pushFrame closure base kind) := by
  apply follows_withMachine
  intro s s' hs
  by_cases hfull : s.machine.settings.maxFrames ≤ s.machine.frames.size
  · rw [if_pos hfull]
    exact followsAt_excused rfl (.inr ⟨_, rfl⟩)
  · have hfull' : ¬ s'.machine.settings.maxFrames ≤ s'.machine.frames.size := by
      have := hs.machine.maxFrames
      rw [hs.machine.frames, Array.size_append]
      omega
    rw [if_neg hfull, if_neg hfull']
    dsimp only
    by_cases hroom : s.machine.stack.size < base + closure.function.locals
    · rw [if_pos hroom]
      exact followsAt_excused rfl (.inl rfl)
    · have hroom' : ¬ s'.machine.stack.size < base + closure.function.locals := by
        have := hs.machine.size_le
        omega
      rw [if_neg hroom, if_neg hroom']
      let R : State → State → Prop := fun t t' =>
        t.Covers outer t' ∧ base + closure.function.locals ≤ t.machine.stack.size
      have hR : Stable outer R :=
        { lifted := fun ht => ht.1.machine
          move := by
            intro t t' m m' ht hm hframes hsize
            exact ⟨stable_covers.move ht.1 hm hframes hsize, hsize ▸ ht.2⟩ }
      have hs : R s s' := ⟨hs, Nat.le_of_not_lt hroom⟩
      refine (hR.setSp hs _).bind fun _ t t' ht => followsAt_modifyMachine ?_
      rcases ht with ⟨ht, htop⟩
      refine ht.withMachine { ht.machine with frames := ?_, rooms := ?_ } ?_
      · rw [ht.machine.frames, Array.append_push]
      · intro k hk
        rcases Array.mem_push.mp hk with hk | rfl
        · exact ht.machine.rooms k hk
        · exact htop
      · exact fun hnone => absurd hnone Array.push_ne_empty

/-- The running frame is left, and it may be the last one of the first machine. -/
theorem mirrors_returnFromFrame (v : Value) : MirrorsEnd outer (returnFromFrame v) := by
  have hdiscard : Mirrors outer
      (modifyMachine fun m => { m with handlers := Handler.discard m.handlers m.frames.size }) := by
    refine mirrors_modifyMachine (fun m m' hm => { hm with handlers := ?_, depths := ?_ }) fun _ => rfl
    · rw [hm.handlers, hm.frames, Array.size_append]
      exact Handler.discard_above ..
    · exact fun r hr => hm.depths r (Handler.discard_sublist _ _ |>.mem hr)
  refine hdiscard.bind fun _ => follows_withMachine fun s s' hs => ?_
  rw [hs.back?]
  cases hback : s.machine.frames.back? with
  | none => exact follows_defect _ s s' hs
  | some f =>
    rcases Array.back?_eq_some_iff.mp hback with ⟨fs, hframes⟩
    refine FollowsAt.bind (S := fun _ => State.Lifted outer) (followsAt_modifyMachine ?_) fun _ t t' ht => ?_
    · refine ⟨hs.world, { hs.machine with frames := ?_, rooms := ?_ }⟩
      · rw [hs.machine.frames, hframes, Array.append_push, Array.pop_push, Array.pop_push]
      · have hrooms := hs.machine.rooms
        rw [hframes] at hrooms
        rw [hframes, Array.pop_push]
        exact fun k hk => hrooms k (Array.mem_push_of_mem f hk)
    · exact (stable_lifted.setSp ht _).bind fun _ u u' hu => stable_lifted.push hu _

/-- The innermost handler is one of the first machine. -/
theorem mirrors_throwValue (v : Value) : Mirrors outer (throwValue v) := by
  apply follows_withMachine
  intro s s' hs
  rw [hs.machine.handlers]
  cases hhandlers : s.machine.handlers with
  | nil => exact follows_raise _ s s' hs
  | cons r rest =>
    rw [List.map_cons]
    have hdepth := hs.machine.depths r (by rw [hhandlers]; exact List.mem_cons_self)
    refine FollowsAt.bind (S := fun _ => State.Covers outer) (followsAt_modifyMachine ?_) fun _ t t' ht => ?_
    · refine hs.withMachine { hs.machine with frames := ?_, handlers := rfl, rooms := ?_, depths := ?_ } ?_
      · show s'.machine.frames.extract 0 (r.depth + outer.size) = outer ++ s.machine.frames.extract 0 r.depth
        rw [hs.machine.frames, Array.extract_append, Nat.add_sub_cancel, Nat.zero_sub,
          Array.extract_eq_self_of_le (Nat.le_add_left _ _)]
      · intro k hk
        rcases Array.getElem_of_mem hk with ⟨i, hi, rfl⟩
        rw [Array.getElem_extract]
        exact hs.machine.rooms _ (Array.getElem_mem _)
      · intro k hk
        exact hs.machine.depths k (by rw [hhandlers]; exact List.mem_cons_of_mem _ hk)
      · intro hnone
        have hsize := congrArg Array.size hnone
        simp only [Array.size_extract, Array.size_empty] at hsize
        by_cases hzero : r.depth = 0
        · exact hdepth hzero
        · exact hs.live (Array.eq_empty_of_size_eq_zero (by omega))
    · refine (mirrors_setSp _ t t' ht).bind fun _ u u' hu => (mirrors_push v u u' hu).bind fun _ w w' hw => ?_
      dsimp only [Handler.above]
      cases r.catchTarget with
      | some target => exact mirrors_jumpTo _ w w' hw
      | none =>
        cases r.finallyTarget with
        | some target => exact ((mirrors_push _).bind fun _ => mirrors_jumpTo _) w w' hw
        | none => exact follows_defect _ w w' hw

theorem mirrors_deliverNative (v : Value) : Mirrors outer (deliverNative v) := by
  unfold deliverNative
  split
  · split
    · exact mirrors_throwValue _
    · apply follows_withMachine
      intro s s' hs
      rw [hs.span]
      exact mirrors_throwValue _ s s' hs
  · exact mirrors_push _

/-- A host function works on the heap, which is the same. -/
theorem mirrors_callNative (id slot : Nat) : Mirrors outer (callNative id slot) := by
  refine (mirrors_slotsFrom _).bind fun args => Mirrors.bind ?_ fun outcome => ?_
  · intro s s' hs
    have hnatives := hs.world.natives
    have hheap := hs.world.heap
    cases hn : s.world.natives[id]? with
    | none =>
      apply followsAt_modifyGet
      · rw [hnatives, hn]
      · rw [hnatives, hn]
        exact hs
    | some n =>
      apply followsAt_modifyGet
      · rw [hnatives, hn, hheap]
      · rw [hnatives, hn, hheap]
        exact hs.withWorld { hs.world with heap := rfl }
  · cases outcome with
    | crash message => exact follows_throw _
    | value v => exact (mirrors_setSp _).bind fun _ => mirrors_deliverNative _

theorem mirrors_pushNulls (count : Nat) : Mirrors outer (pushNulls count) := by
  induction count with
  | zero => exact mirrors_pure _
  | succ count ih => exact (mirrors_push _).bind fun _ => ih

theorem mirrors_construct (c : Class) (slot argc : Nat) : Mirrors outer (construct c slot argc) := by
  refine (mirrors_slotsFrom _).bind fun args => (mirrors_allocate _).bind fun object => ?_
  split
  · exact (mirrors_setSp _).bind fun _ => mirrors_push _
  · refine (mirrors_setSlot _ _).bind fun _ => ?_
    dsimp only
    split
    · apply follows_withMachine
      intro s s' hs
      rw [hs.machine.sp]
      exact ((mirrors_setSp _).bind fun _ => mirrors_pushFrame _ _ _) s s' hs
    · exact (mirrors_pushNulls _).bind fun _ => mirrors_pushFrame _ _ _

theorem mirrors_checkArity (closure : Closure) (argc : Nat) : Mirrors outer (checkArity closure argc) := by
  unfold checkArity
  dsimp only
  split
  · exact follows_raise _
  · exact mirrors_pure _

theorem mirrors_callValue (argc : Nat) : Mirrors outer (callValue argc) := by
  refine (mirrors_calleeSlot argc).bind fun slot => (mirrors_getSlot slot).bind fun callee => ?_
  split
  · exact (mirrors_checkArity _ _).bind fun _ => mirrors_pushFrame _ _ _
  · exact mirrors_callNative _ _
  · exact mirrors_construct _ _ _
  · exact follows_raise _

theorem mirrors_callMethod (method : Closure) (slot argc : Nat) : Mirrors outer (callMethod method slot argc) :=
  (mirrors_checkArity _ _).bind fun _ => mirrors_pushFrame _ _ _

theorem mirrors_missingMethod (slot : Nat) : Mirrors outer (missingMethod slot) :=
  (mirrors_setSp slot).bind fun _ => mirrors_push _

theorem mirrors_invoke (name : String) (argc : Nat) : Mirrors outer (invoke name argc) := by
  refine (mirrors_calleeSlot argc).bind fun slot => (mirrors_getSlot slot).bind fun receiver => ?_
  refine mirrors_getHeap.bind fun h => ?_
  split
  · exact follows_raise _
  · split
    · exact (mirrors_setSlot _ _).bind fun _ => mirrors_callValue _
    · dsimp only
      split
      · exact mirrors_callMethod _ _ _
      · exact mirrors_missingMethod _

theorem mirrors_invokeSuper (name : String) (argc : Nat) : Mirrors outer (invokeSuper name argc) := by
  refine mirrors_pop.bind fun v => ?_
  split
  · refine (mirrors_calleeSlot argc).bind fun slot => ?_
    split
    · exact mirrors_callMethod _ _ _
    · exact mirrors_missingMethod _
  · exact follows_defect _

/-- The task that is started has another machine on each side. -/
theorem mirrors_spawnTask (argc : Nat) : Mirrors outer (spawnTask argc) := by
  refine (mirrors_calleeSlot argc).bind fun slot => (mirrors_getSlot slot).bind fun callee => ?_
  split
  · exact follows_raise _
  · refine (mirrors_takeTop argc).bind fun args => (mirrors_setSp _).bind fun _ => ?_
    refine (mirrors_allocate _).bind fun result => Mirrors.bind ?_ fun _ => mirrors_push _
    intro s s' hs
    refine ⟨_, rfl, hs.withWorld { hs.world with spawned := ?_ }⟩
    rw [Array.map_push, Array.map_push, hs.world.spawned]
    rfl

/-! ## Instructions -/

/-- An operand that names a local is read, and the slot is the same on both sides, if the local is there. -/
theorem followsAt_localOperand (hs : s.Covers outer s')
    (hlocal : ∀ f n, s.machine.frames.back? = some f → operandAt? f.code f.ip 1 = some n →
      n < f.closure.function.locals) :
    FollowsAt outer (fun _ => State.Covers outer) localOperand localOperand s s' := by
  refine FollowsAt.bind (S := fun n t t' => t.Covers outer t' ∧ ∀ f, t.machine.frames.back? = some f →
    (t'.machine.stack.size ≤ f.base + n ↔ t.machine.stack.size ≤ f.base + n)) ?_ ?_
  · refine (followsAt_currentFrame hs).bind ?_
    rintro f t t' ⟨rfl, rfl, hback⟩
    cases hn : operandAt? f.code f.ip 1 with
    | none => exact follows_defect _ t t' hs
    | some n =>
      rcases Array.back?_eq_some_iff.mp hback with ⟨fs, hframes⟩
      have hframes' : t'.machine.frames = (outer ++ fs).push f := by
        rw [hs.machine.frames, hframes, Array.append_push]
      have hmodify : Mirrors outer (modifyFrame fun f => { f with ip := f.ip + 1 }) :=
        mirrors_modifyFrame fun _ => ⟨rfl, rfl⟩
      have hmodified := (hmodify t t' hs).also
        (fun _ u => u.machine.stack = t.machine.stack ∧ u.machine.frames.back? = some { f with ip := f.ip + 1 })
        (fun _ u => u.machine.stack = t'.machine.stack)
        (by
          intro a u hu
          rw [modifyFrame_eq hframes] at hu
          cases hu
          exact ⟨rfl, Array.back?_push ..⟩)
        (by
          intro a u hu
          rw [modifyFrame_eq hframes'] at hu
          cases hu
          rfl)
      refine hmodified.bind ?_
      rintro _ u u' ⟨hu, ⟨hstack, hback'⟩, hstack'⟩
      refine followsAt_pure n ⟨hu, ?_⟩
      intro g hg
      rw [hback'] at hg
      cases hg
      rw [hstack, hstack']
      show t'.machine.stack.size ≤ f.base + n ↔ t.machine.stack.size ≤ f.base + n
      have hle := hs.machine.size_le
      have hroom := hs.machine.rooms f (Array.mem_of_back? hback)
      have hlt := hlocal f n hback hn
      constructor <;> (intro h; omega)
  · rintro n t t' ⟨ht, hsame⟩
    refine (followsAt_currentFrame ht).bind ?_
    rintro f u u' ⟨rfl, rfl, hback⟩
    show FollowsAt outer _ (if _ then _ else _) (if _ then _ else _) u u'
    by_cases hslot : u.machine.stack.size ≤ f.base + n
    · rw [if_pos hslot, if_pos ((hsame f hback).mpr hslot)]
      exact follows_defect _ u u' ht
    · rw [if_neg hslot, if_neg (mt (hsame f hback).mp hslot)]
      exact followsAt_pure _ ht

theorem mirrors_queueCapture (ref : Ref) : Mirrors outer (queueCapture ref) :=
  mirrors_modifyMachine (fun _ _ hm => { hm with captures := congrArg (·.push ref) hm.captures }) fun _ => rfl

section Locals

variable (hs : s.Covers outer s')
  (hlocal : ∀ f n, s.machine.frames.back? = some f → operandAt? f.code f.ip 1 = some n →
    n < f.closure.function.locals)

include hs hlocal

theorem followsAt_getLocal : FollowsAt outer (fun _ => State.Covers outer) getLocal getLocal s s' := by
  refine (followsAt_localOperand hs hlocal).bind ?_
  rintro ⟨index, slot⟩ t t' ht
  refine (mirrors_currentFrame t t' ht).bind fun f u u' hu => ?_
  cases f.cell? index with
  | some ref => exact (mirrors_getHeap.bind fun _ => mirrors_push _) u u' hu
  | none => exact ((mirrors_getSlot _).bind fun _ => mirrors_push _) u u' hu

theorem followsAt_setLocal : FollowsAt outer (fun _ => State.Covers outer) setLocal setLocal s s' := by
  refine (followsAt_localOperand hs hlocal).bind ?_
  rintro ⟨index, slot⟩ t t' ht
  refine (mirrors_peek t t' ht).bind fun v u u' hu => (mirrors_currentFrame u u' hu).bind fun f w w' hw => ?_
  cases f.cell? index with
  | some ref => exact mirrors_modifyHeap _ w w' hw
  | none => exact mirrors_setSlot _ _ w w' hw

/-- A frame whose local has got a cell is the same otherwise. -/
theorem followsAt_captureLocal : FollowsAt outer (fun _ => State.Covers outer) captureLocal captureLocal s s' := by
  refine (followsAt_localOperand hs hlocal).bind ?_
  rintro ⟨index, slot⟩ t t' ht
  refine (mirrors_getSlot _ t t' ht).bind fun v u u' hu => (followsAt_currentFrame hu).bind ?_
  rintro f w w' ⟨rfl, rfl, hback⟩
  let capture : Heap → (Ref × Frame) × Heap := fun h =>
    (((f.capture h index v).1, (f.capture h index v).2.1), (f.capture h index v).2.2)
  have hcapture := (mirrors_allocate capture w w' hu).also
    (fun a x => x.machine = w.machine ∧ a.2.base = f.base ∧ a.2.closure = f.closure) (fun _ _ => True)
    (by
      intro a x hx
      cases hx
      exact ⟨rfl, f.capture_same ..⟩)
    (fun _ _ _ => trivial)
  refine hcapture.bind ?_
  rintro ⟨ref, frame⟩ x x' ⟨hx, ⟨hmachine, hbase, hclosure⟩, -⟩
  refine FollowsAt.bind (followsAt_modifyFrame hx ?_) fun _ y y' hy => ?_
  · intro g hg
    rw [hmachine, hback] at hg
    cases hg
    exact ⟨hbase, hclosure⟩
  · exact mirrors_queueCapture ref y y' hy

end Locals

theorem mirrors_getGlobal : Mirrors outer getGlobal := by
  refine (mirrors_operand 2).bind fun index => follows_get fun s s' hs => ?_
  rw [hs.world.globals]
  exact mirrors_push _ s s' hs

theorem mirrors_setGlobal : Mirrors outer setGlobal := by
  refine (mirrors_operand 2).bind fun index => mirrors_peek.bind fun v => ?_
  intro s s' hs
  refine ⟨_, rfl, hs.withWorld { hs.world with globals := ?_ }⟩
  rw [hs.world.globals]

theorem mirrors_getFree : Mirrors outer getFree :=
  (mirrors_operand 1).bind fun _ => (mirrors_freeCell _).bind fun _ => mirrors_getHeap.bind fun _ => mirrors_push _

theorem mirrors_setFree : Mirrors outer setFree :=
  (mirrors_operand 1).bind fun _ => mirrors_peek.bind fun _ => (mirrors_freeCell _).bind fun _ => mirrors_modifyHeap _

theorem mirrors_getBuiltin : Mirrors outer getBuiltin := by
  refine (mirrors_operand 1).bind fun index => follows_withMachine fun s s' hs => ?_
  rw [hs.machine.registry]
  split
  · exact mirrors_push _ s s' hs
  · exact follows_defect _ s s' hs

theorem mirrors_captureFree : Mirrors outer captureFree :=
  (mirrors_operand 1).bind fun _ => (mirrors_freeCell _).bind fun _ => mirrors_queueCapture _

theorem mirrors_captureSelf : Mirrors outer captureSelf :=
  mirrors_currentFrame.bind fun _ => (mirrors_allocate _).bind fun _ => mirrors_queueCapture _

theorem mirrors_binary (op : BinaryOp) : Mirrors outer (binary op) :=
  mirrors_pop.bind fun _ => mirrors_pop.bind fun _ => mirrors_getHeap.bind fun _ =>
    (mirrors_ofExcept _).bind fun _ => mirrors_push _

theorem mirrors_jumpIfFalse : Mirrors outer jumpIfFalse := by
  refine (mirrors_operand 2).bind fun target => mirrors_pop.bind fun v => ?_
  split
  · exact mirrors_jumpTo _
  · exact mirrors_pure _

theorem mirrors_makeClosure : Mirrors outer makeClosure := by
  refine (mirrors_operand 2).bind fun index => (mirrors_operand 1).bind fun count => ?_
  refine (mirrors_constant index).bind fun v => ?_
  split
  · refine follows_withMachine fun s s' hs => ?_
    rw [hs.machine.captures]
    dsimp only
    split
    · exact follows_defect _ s s' hs
    · refine FollowsAt.bind (S := fun _ => State.Covers outer) (followsAt_modifyMachine ?_) ?_
      · exact hs.withMachine { hs.machine with captures := by rw [hs.machine.captures] } hs.live
      · exact fun _ t t' ht => ((mirrors_allocate _).bind fun _ => mirrors_push _) t t' ht
  · exact follows_defect _

theorem mirrors_makeArray : Mirrors outer makeArray :=
  (mirrors_operand 2).bind fun _ => (mirrors_takeTop _).bind fun _ => (mirrors_allocate _).bind fun _ => mirrors_push _

theorem mirrors_collectEntries (d : Dict Key Value) (vs : List Value) : Mirrors outer (collectEntries d vs) := by
  induction d, vs using collectEntries.induct with
  | case1 d k v rest ih => exact (mirrors_keyOf k).bind fun key => ih key
  | case2 d vs h =>
    unfold collectEntries
    split
    · exact (h _ _ _ rfl).elim
    · exact mirrors_pure _

theorem mirrors_makeHash : Mirrors outer makeHash :=
  (mirrors_operand 2).bind fun _ => (mirrors_takeTop _).bind fun _ => (mirrors_collectEntries _ _).bind fun _ =>
    (mirrors_allocate _).bind fun _ => mirrors_push _

theorem mirrors_makeMap : Mirrors outer makeMap :=
  (mirrors_operand 2).bind fun _ => (mirrors_takeTop _).bind fun _ => (mirrors_collectEntries _ _).bind fun _ =>
    (mirrors_allocate _).bind fun _ => mirrors_push _

theorem mirrors_getIndex : Mirrors outer getIndex :=
  mirrors_pop.bind fun _ => mirrors_pop.bind fun _ => mirrors_getHeap.bind fun _ =>
    (mirrors_ofExcept _).bind fun _ => mirrors_push _

theorem mirrors_setIndex : Mirrors outer setIndex :=
  mirrors_pop.bind fun _ => mirrors_pop.bind fun _ => mirrors_pop.bind fun _ => mirrors_getHeap.bind fun _ =>
    (mirrors_ofExcept _).bind fun _ => (mirrors_modifyHeap _).bind fun _ => mirrors_push _

theorem mirrors_getProperty : Mirrors outer getProperty :=
  (mirrors_operand 2).bind fun _ => (mirrors_constantName _).bind fun _ => mirrors_pop.bind fun _ =>
    mirrors_getHeap.bind fun _ => (mirrors_ofExcept _).bind fun _ => mirrors_push _

theorem mirrors_setProperty : Mirrors outer setProperty :=
  (mirrors_operand 2).bind fun _ => (mirrors_constantName _).bind fun _ => mirrors_pop.bind fun _ =>
    mirrors_pop.bind fun _ => (mirrors_ofExcept _).bind fun _ => (mirrors_modifyHeap _).bind fun _ => mirrors_push _

/-- The handler remembers the number of frames, which is greater on the lifted machine. -/
theorem mirrors_tryEnter : Mirrors outer tryEnter := by
  refine (mirrors_operand 2).bind fun catchTarget => (mirrors_operand 2).bind fun finallyTarget => ?_
  intro s s' hs
  apply followsAt_modifyMachine
  refine hs.withMachine { hs.machine with handlers := ?_, depths := ?_ } hs.live
  · rw [hs.machine.handlers, hs.machine.frames, hs.machine.sp, Array.size_append, Nat.add_comm]
    rfl
  · intro r hr hzero
    rcases List.mem_cons.mp hr with rfl | hr
    · exact hs.live (Array.eq_empty_of_size_eq_zero hzero)
    · exact hs.machine.depths r hr hzero

theorem mirrors_finallyEnd : Mirrors outer finallyEnd := by
  refine (mirrors_operand 2).bind fun target => Mirrors.bind ?_ fun _ => mirrors_jumpTo _
  refine mirrors_modifyMachine (fun m m' hm => { hm with handlers := ?_, depths := ?_ }) fun _ => rfl
  · rw [hm.handlers, List.map_tail]
  · exact fun r hr => hm.depths r (List.mem_of_mem_tail hr)

theorem mirrors_rethrow : Mirrors outer rethrow := by
  refine mirrors_pop.bind fun pending => mirrors_pop.bind fun v => ?_
  split
  · exact mirrors_throwValue _
  · exact mirrors_pure _

theorem mirrors_makeChannel : Mirrors outer makeChannel := by
  refine (mirrors_operand 1).bind fun flag => ?_
  have hmake : ∀ capacity : Nat, Mirrors outer (do
      let ref ← allocate fun h => h.newChannel (some capacity)
      push (.channel ref (some capacity))) := fun _ => (mirrors_allocate _).bind fun _ => mirrors_push _
  split
  · exact (mirrors_pure _).bind fun _ => hmake _
  · refine mirrors_pop.bind fun v => ?_
    split
    · split
      · exact (mirrors_pure _).bind fun _ => hmake _
      · exact Mirrors.bind (follows_raise _) fun _ => hmake _
    · exact mirrors_getHeap.bind fun _ => Mirrors.bind (follows_raise _) fun _ => hmake _

theorem mirrors_waitFor (w : Wait) : Mirrors outer (waitFor w) :=
  mirrors_modifyMachine (fun _ _ hm => { hm with waiting := rfl }) fun _ => rfl

theorem mirrors_trySend (ch : Ref) (v : Value) : Mirrors outer (trySend ch v) := by
  refine (mirrors_allocate _).bind fun outcome => ?_
  split
  · exact follows_raise _
  · exact mirrors_waitFor _
  · exact mirrors_push _
  · exact mirrors_waitFor _

theorem mirrors_tryReceive (ch : Ref) : Mirrors outer (tryReceive ch) := by
  refine (mirrors_allocate _).bind fun outcome => ?_
  split
  · exact mirrors_push _
  · exact mirrors_push _
  · exact mirrors_waitFor _

theorem mirrors_tryFinishSend (ch : Ref) (ticket : Nat) : Mirrors outer (tryFinishSend ch ticket) := by
  refine mirrors_getHeap.bind fun h => ?_
  split
  · exact mirrors_push _
  · exact mirrors_waitFor _

theorem mirrors_send : Mirrors outer send := by
  refine mirrors_pop.bind fun v => mirrors_pop.bind fun w => ?_
  split
  · exact mirrors_trySend _ _
  · exact follows_raise _

theorem mirrors_receive : Mirrors outer receive := by
  refine mirrors_pop.bind fun v => ?_
  split
  · exact mirrors_tryReceive _
  · exact follows_raise _

theorem mirrors_poll (w : Wait) : Mirrors outer (poll w) := by
  have hclear : Mirrors outer (modifyMachine fun m => { m with waiting := none }) :=
    mirrors_modifyMachine (fun _ _ hm => { hm with waiting := rfl }) fun _ => rfl
  have hend : Mirrors outer (do return if (← getMachine).waiting.isSome then Signal.blocked else .next) := by
    refine follows_withMachine fun s s' hs => ?_
    rw [hs.machine.waiting]
    exact mirrors_pure _ s s' hs
  refine hclear.bind fun _ => ?_
  split
  · exact (mirrors_trySend _ _).bind fun _ => hend
  · exact (mirrors_tryFinishSend _ _).bind fun _ => hend
  · exact (mirrors_tryReceive _).bind fun _ => hend

/-! ## Steps -/

/-- If the instruction names a local, it is one that the running frame has. The position of the frame is that of the
first operand. -/
def Named (s : State) (op : Opcode) : Prop :=
  op = .getLocal ∨ op = .setLocal ∨ op = .captureLocal → ∀ f n, s.machine.frames.back? = some f →
    operandAt? f.code f.ip 1 = some n → n < f.closure.function.locals

theorem followsAt_perform (hs : s.Covers outer s') (op : Opcode) (hnamed : Named s op) :
    FollowsAt outer (fun _ => State.Lifted outer) (perform op) (perform op) s s' := by
  have next : ∀ {x : Exec Unit}, Mirrors outer x → Mirrors outer (x >>= fun _ => pure Signal.next) :=
    fun hx => hx.bind fun _ => mirrors_pure _
  have nextAt : ∀ {x : Exec Unit}, FollowsAt outer (fun _ => State.Covers outer) x x s s' →
      FollowsAt outer (fun _ => State.Lifted outer) (x >>= fun _ => pure Signal.next) (x >>= fun _ => pure Signal.next)
        s s' := fun hx => hx.bind fun _ t t' ht => followsAt_pure _ ht.toLifted
  have plain : ∀ {x : Exec Signal}, Mirrors outer x → FollowsAt outer (fun _ => State.Lifted outer) x x s s' :=
    fun hx => hx.toEnd s s' hs
  have returns : ∀ v : Value, MirrorsEnd outer (returnFromFrame v >>= fun _ => pure Signal.next) :=
    fun v t t' ht => (mirrors_returnFromFrame v t t' ht).bind fun _ u u' hu => followsAt_pure _ hu
  cases op with
  | getLocal => exact nextAt (followsAt_getLocal hs (hnamed (.inl rfl)))
  | setLocal => exact nextAt (followsAt_setLocal hs (hnamed (.inr (.inl rfl))))
  | captureLocal => exact nextAt (followsAt_captureLocal hs (hnamed (.inr (.inr rfl))))
  | returnValue => exact (mirrors_pop s s' hs).bind fun v t t' ht => returns v t t' ht
  | returnNull => exact returns .null s s' hs
  | constant =>
    exact plain ((mirrors_operand 2).bind fun _ => (mirrors_constant _).bind fun _ => next (mirrors_push _))
  | null | pushTrue | pushFalse => exact plain (next (mirrors_push _))
  | getGlobal => exact plain (next mirrors_getGlobal)
  | setGlobal => exact plain (next mirrors_setGlobal)
  | getFree => exact plain (next mirrors_getFree)
  | setFree => exact plain (next mirrors_setFree)
  | getBuiltin => exact plain (next mirrors_getBuiltin)
  | currentClosure => exact plain (mirrors_currentFrame.bind fun _ => next (mirrors_push _))
  | captureFree => exact plain (next mirrors_captureFree)
  | captureSelf => exact plain (next mirrors_captureSelf)
  | add | sub | mul | div | mod | equal | notEqual | greater | greaterEqual => exact plain (next (mirrors_binary _))
  | negate => exact plain (mirrors_pop.bind fun _ => (mirrors_ofExcept _).bind fun _ => next (mirrors_push _))
  | not => exact plain (mirrors_pop.bind fun _ => next (mirrors_push _))
  | jump => exact plain ((mirrors_operand 2).bind fun _ => next (mirrors_jumpTo _))
  | jumpIfFalse => exact plain (next mirrors_jumpIfFalse)
  | call => exact plain ((mirrors_operand 1).bind fun _ => next (mirrors_callValue _))
  | closure => exact plain (next mirrors_makeClosure)
  | array => exact plain (next mirrors_makeArray)
  | hash => exact plain (next mirrors_makeHash)
  | orderedMap => exact plain (next mirrors_makeMap)
  | getIndex => exact plain (next mirrors_getIndex)
  | setIndex => exact plain (next mirrors_setIndex)
  | pop =>
    refine plain (mirrors_pop.bind fun v => next ?_)
    exact mirrors_modifyMachine (fun _ _ hm => { hm with lastPopped := rfl }) fun _ => rfl
  | dup => exact plain (mirrors_peek.bind fun _ => next (mirrors_push _))
  | getProperty => exact plain (next mirrors_getProperty)
  | setProperty => exact plain (next mirrors_setProperty)
  | invoke =>
    exact plain (next ((mirrors_operand 2).bind fun _ => (mirrors_constantName _).bind fun _ =>
      (mirrors_operand 1).bind fun _ => mirrors_invoke _ _))
  | invokeSuper =>
    exact plain (next ((mirrors_operand 2).bind fun _ => (mirrors_constantName _).bind fun _ =>
      (mirrors_operand 1).bind fun _ => mirrors_invokeSuper _ _))
  | tryEnter => exact plain (next mirrors_tryEnter)
  | finallyEnd => exact plain (next mirrors_finallyEnd)
  | throw => exact plain (mirrors_pop.bind fun _ => next (mirrors_throwValue _))
  | rethrow => exact plain (next mirrors_rethrow)
  | spawn => exact plain ((mirrors_operand 1).bind fun _ => next (mirrors_spawnTask _))
  | channel => exact plain (next mirrors_makeChannel)
  | send => exact plain (next mirrors_send)
  | receive => exact plain (next mirrors_receive)
  | halt => exact plain (mirrors_pure _)

end

end Exec

end ScriptMachine
