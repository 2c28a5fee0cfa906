import ScriptMachine.Proofs.Machine.Triple

/-!
# Lifted machines

One machine does what another one does, on top of frames that the other one does not have, and with at least as much
room: its stack may have more slots, and it may have more frames. `Machine.Lifted outer m m'` says that `m'` is such
a machine for `m`.

`Exec.Mirrors outer x` says that `x` goes the same way on both: as long as the first machine neither runs out of room
nor crashes, both end well with the same result, or stop with the same fault, and the second one is lifted again.
There is a rule for each way of putting executions together, and one for each primitive move. What an instruction does
must not depend on the number of frames or the size of the stack, and this is where it is seen that none does, but for
one: an operand that names a local is checked against the size of the stack.
-/

namespace ScriptMachine

/-! ## The relation -/

/-- The handler in a machine that has `depth` frames more below. -/
def Handler.above (depth : Nat) (r : Handler) : Handler := { r with depth := r.depth + depth }

/-- The machine `m'` is like `m` with the frames `outer` below its own, and it has at least as much room. -/
structure Machine.Lifted (outer : Array Frame) (m m' : Machine) : Prop where
  stack : ∃ n, m'.stack = m.stack ++ Array.replicate n .null
  sp : m'.sp = m.sp
  frames : m'.frames = outer ++ m.frames
  handlers : m'.handlers = m.handlers.map (Handler.above outer.size)
  captures : m'.captures = m.captures
  constants : m'.constants = m.constants
  registry : m'.registry = m.registry
  maxFrames : m.settings.maxFrames + outer.size ≤ m'.settings.maxFrames
  lastPopped : m'.lastPopped = m.lastPopped
  opOffset : m'.opOffset = m.opOffset
  waiting : m'.waiting = m.waiting
  /-- There is room for the locals of each frame. -/
  rooms : ∀ f ∈ m.frames, f.base + f.closure.function.locals ≤ m.stack.size
  /-- Handlers belong to frames of the machine itself. -/
  depths : ∀ r ∈ m.handlers, r.depth = 0 → outer = #[]

/-- What a task was started with, apart from its machine. -/
def Spawned.order (t : Spawned) : Value × List Value × Ref := (t.callee, t.args, t.result)

/-- The same world, apart from the machines of the tasks that were started. -/
structure World.Alike (w w' : World) : Prop where
  heap : w'.heap = w.heap
  globals : w'.globals = w.globals
  natives : w'.natives = w.natives
  spawned : w'.spawned.map Spawned.order = w.spawned.map Spawned.order

structure State.Lifted (outer : Array Frame) (s s' : State) : Prop where
  world : s.world.Alike s'.world
  machine : s.machine.Lifted outer s'.machine

/-- Besides, the frames below are not in sight, since there are others above. -/
structure State.Covers (outer : Array Frame) (s s' : State) : Prop extends State.Lifted outer s s' where
  live : s.machine.frames = #[] → outer = #[]

/-- A machine has run out of room, or it has crashed. -/
def Abort.Excused : Abort → Prop
  | .crash _ => True
  | .fault f => f.cause = .stackOverflow ∨ ∃ limit, f.cause = .frameOverflow limit

/-! ## Lifted machines -/

namespace Machine.Lifted

variable {outer : Array Frame} {m m' : Machine}

theorem size_le (h : m.Lifted outer m') : m.stack.size ≤ m'.stack.size := by
  rcases h.stack with ⟨n, hn⟩
  rw [hn, Array.size_append]
  exact Nat.le_add_right _ _

/-- What is in a slot of the first machine is in the same slot of the second one. -/
theorem slot (h : m.Lifted outer m') {i : Nat} {v : Value} (hv : m.stack[i]? = some v) : m'.stack[i]? = some v := by
  rcases h.stack with ⟨n, hn⟩
  rw [hn, Array.getElem?_append_left (Array.getElem?_eq_some_iff.mp hv).1, hv]

theorem extract (h : m.Lifted outer m') {start stop : Nat} (hstop : stop ≤ m.stack.size) :
    m'.stack.extract start stop = m.stack.extract start stop := by
  rcases h.stack with ⟨n, hn⟩
  rw [hn, Array.extract_append, Nat.sub_eq_zero_of_le hstop]
  simp

/-- A slot of the first machine is written in both. -/
theorem write (h : m.Lifted outer m') {i : Nat} (hi : i < m.stack.size) (v : Value) :
    Lifted outer { m with stack := m.stack.setIfInBounds i v } { m' with stack := m'.stack.setIfInBounds i v } := by
  refine { h with stack := ?_, rooms := ?_ }
  · rcases h.stack with ⟨n, hn⟩
    refine ⟨n, ?_⟩
    show m'.stack.setIfInBounds i v = _
    rw [hn, Array.setIfInBounds_append_left hi]
  · intro f hf
    have hroom := h.rooms f hf
    rwa [Array.size_setIfInBounds]

theorem withSp (h : m.Lifted outer m') (sp : Nat) : Lifted outer { m with sp } { m' with sp } := { h with sp := rfl }

end Machine.Lifted

theorem World.alike_refl (w : World) : w.Alike w := ⟨rfl, rfl, rfl, rfl⟩

/-- Where no tasks were started worlds that are alike are the same. -/
theorem World.Alike.eq {w w' : World} (h : w.Alike w') (hspawned : w.spawned = #[]) : w' = w := by
  have hspawned' : w'.spawned = #[] := by
    have hmap := h.spawned
    rw [hspawned, Array.map_empty] at hmap
    exact Array.map_eq_empty_iff.mp hmap
  rcases w with ⟨heap, globals, natives, spawned⟩
  rcases w' with ⟨heap', globals', natives', spawned'⟩
  rcases h with ⟨hheap, hglobals, hnatives, -⟩
  simp only at hheap hglobals hnatives hspawned hspawned'
  rw [hheap, hglobals, hnatives, hspawned, hspawned']

namespace State.Covers

variable {outer : Array Frame} {s s' : State}

/-- Where the first machine has a running frame, it is the running frame of the second one. -/
theorem back? (h : s.Covers outer s') : s'.machine.frames.back? = s.machine.frames.back? := by
  rw [h.machine.frames, Array.back?_append]
  cases hback : s.machine.frames.back? with
  | some f => rfl
  | none =>
    have hempty := h.live (Array.back?_eq_none_iff.mp hback)
    rw [hempty]
    rfl

theorem span (h : s.Covers outer s') : s'.machine.span = s.machine.span := by
  unfold Machine.span
  rw [h.back?, h.machine.opOffset]

/-- The private state of both machines changes, and no frame is left. -/
theorem withMachine (h : s.Covers outer s') {m m' : Machine} (hm : m.Lifted outer m')
    (hlive : m.frames = #[] → outer = #[]) : State.Covers outer ⟨s.world, m⟩ ⟨s'.world, m'⟩ :=
  { world := h.world, machine := hm, live := hlive }

theorem withWorld (h : s.Covers outer s') {w w' : World} (hw : w.Alike w') :
    State.Covers outer ⟨w, s.machine⟩ ⟨w', s'.machine⟩ :=
  { world := hw, machine := h.machine, live := h.live }

end State.Covers

/-! ## Executions on both machines -/

namespace Exec

section

variable {α β : Type} {outer : Array Frame} {s s' : State} {R : α → State → State → Prop}
  {S : β → State → State → Prop}

/-- The execution `y` in the state `s'` goes the way of `x` in `s`, unless this one is excused. Where both end well, the
states are related as `R` says for the result. -/
def FollowsAt (outer : Array Frame) (R : α → State → State → Prop) (x y : Exec α) (s s' : State) : Prop :=
  match x s with
  | .ok a t => ∃ t', y s' = .ok a t' ∧ R a t t'
  | .error e t => e.Excused ∨ ∃ t', y s' = .error e t' ∧ t.Covers outer t'

/-- It does so in all states in which the machine has been lifted. -/
def Follows (outer : Array Frame) (R : α → State → State → Prop) (x : Exec α) : Prop :=
  ∀ s s', s.Covers outer s' → FollowsAt outer R x x s s'

/-- The execution goes the same way on a lifted machine, and leaves a frame. -/
abbrev Mirrors (outer : Array Frame) (x : Exec α) : Prop := Follows outer (fun _ => State.Covers outer) x

/-- The execution goes the same way on a lifted machine. -/
abbrev MirrorsEnd (outer : Array Frame) (x : Exec α) : Prop := Follows outer (fun _ => State.Lifted outer) x

/-! ### Putting executions together -/

theorem FollowsAt.mono {x y : Exec α} {R' : α → State → State → Prop} (h : FollowsAt outer R x y s s')
    (hR : ∀ a t t', R a t t' → R' a t t') : FollowsAt outer R' x y s s' := by
  unfold FollowsAt at h ⊢
  cases hx : x s with
  | ok a t =>
    rw [hx] at h
    rcases h with ⟨t', hy, ht⟩
    exact ⟨t', hy, hR a t t' ht⟩
  | error e t =>
    rw [hx] at h
    exact h

/-- What is known of the ends of both executions. -/
theorem FollowsAt.also {x y : Exec α} (h : FollowsAt outer R x y s s') (P P' : α → State → Prop)
    (hx : ∀ a t, x s = .ok a t → P a t) (hy : ∀ a t, y s' = .ok a t → P' a t) :
    FollowsAt outer (fun a t t' => R a t t' ∧ P a t ∧ P' a t') x y s s' := by
  unfold FollowsAt at h ⊢
  cases hrun : x s with
  | ok a t =>
    rw [hrun] at h
    rcases h with ⟨t', hrun', ht⟩
    exact ⟨t', hrun', ht, hx a t hrun, hy a t' hrun'⟩
  | error e t =>
    rw [hrun] at h
    exact h

theorem Mirrors.toEnd {x : Exec α} (h : Mirrors outer x) : MirrorsEnd outer x :=
  fun s s' hs => (h s s' hs).mono fun _ _ _ ht => ht.toLifted

theorem followsAt_pure (a : α) (h : R a s s') : FollowsAt outer R (pure a) (pure a) s s' := ⟨s', rfl, h⟩

theorem FollowsAt.bind {x y : Exec β} {f g : β → Exec α} (hx : FollowsAt outer S x y s s')
    (hf : ∀ b t t', S b t t' → FollowsAt outer R (f b) (g b) t t') :
    FollowsAt outer R (x >>= f) (y >>= g) s s' := by
  unfold FollowsAt at hx ⊢
  simp only [Bind.bind, EStateM.bind]
  cases hrun : x s with
  | ok b t =>
    rw [hrun] at hx
    rcases hx with ⟨t', hy, ht⟩
    simp only [hy]
    exact hf b t t' ht
  | error e t =>
    rw [hrun] at hx
    rcases hx with hexcused | ⟨t', hy, ht⟩
    · exact .inl hexcused
    · refine .inr ⟨t', ?_, ht⟩
      simp only [hy]

theorem followsAt_excused {x y : Exec α} {e : Abort} {t : State} (hx : x s = .error e t) (he : e.Excused) :
    FollowsAt outer R x y s s' := by
  unfold FollowsAt
  rw [hx]
  exact .inl he

theorem mirrors_pure (a : α) : Mirrors outer (pure a) := fun _ _ hs => followsAt_pure a hs

theorem Mirrors.bind {x : Exec β} {f : β → Exec α} (hx : Mirrors outer x) (hf : ∀ b, Follows outer R (f b)) :
    Follows outer R (x >>= f) :=
  fun s s' hs => (hx s s' hs).bind fun b t t' ht => hf b t t' ht

theorem follows_throw (e : Abort) : Follows outer R (throw e : Exec α) := fun _ s' hs => .inr ⟨s', rfl, hs⟩

/-- A handler leaves excused faults as they are, and goes the same way for others. -/
theorem FollowsAt.tryCatch {x y : Exec α} {f : Abort → Exec α} (h : FollowsAt outer R x y s s')
    (hexcused : ∀ e t, e.Excused → f e t = .error e t) (hf : ∀ e, Follows outer R (f e)) :
    FollowsAt outer R (tryCatch x f) (tryCatch y f) s s' := by
  unfold FollowsAt at h
  cases hx : x s with
  | ok a t =>
    rw [hx] at h
    rcases h with ⟨t', hy, ht⟩
    unfold FollowsAt
    rw [tryCatch_apply, tryCatch_apply, hx, hy]
    exact ⟨t', rfl, ht⟩
  | error e t =>
    rw [hx] at h
    rcases h with he | ⟨t', hy, ht⟩
    · refine followsAt_excused (e := e) (t := t) ?_ he
      rw [tryCatch_apply, hx]
      exact hexcused e t he
    · have hhandled := hf e t t' ht
      unfold FollowsAt at hhandled ⊢
      rw [tryCatch_apply, tryCatch_apply, hx, hy]
      exact hhandled

theorem follows_raise (c : Cause) : Follows outer R (raise c : Exec α) := by
  intro s s' hs
  refine .inr ⟨s', ?_, hs⟩
  show EStateM.Result.error (Abort.fault (c.placed s'.machine.span)) s' = _
  rw [hs.span]

theorem follows_defect (d : Defect) : Follows outer R (defect d : Exec α) := follows_raise _

theorem mirrors_ofExcept (e : Except Cause α) : Mirrors outer (ofExcept e) := by
  cases e with
  | ok a => exact mirrors_pure a
  | error c => exact follows_raise c

/-- Slots that the stack does not have are a crash. -/
theorem followsAt_noSlot {y : Exec α} (index : Nat) : FollowsAt outer R (noSlot index) y s s' :=
  followsAt_excused rfl trivial

theorem followsAt_noSlots {y : Exec α} (start stop : Nat) : FollowsAt outer R (noSlots start stop) y s s' :=
  followsAt_excused rfl trivial

/-! ### The state -/

/-- What is read from the machines may differ. -/
theorem followsAt_withMachine {f : Machine → Exec α} (h : FollowsAt outer R (f s.machine) (f s'.machine) s s') :
    FollowsAt outer R (getMachine >>= f) (getMachine >>= f) s s' := h

theorem follows_withMachine {f : Machine → Exec α}
    (h : ∀ s s', s.Covers outer s' → FollowsAt outer R (f s.machine) (f s'.machine) s s') :
    Follows outer R (getMachine >>= f) := h

theorem mirrors_getHeap : Mirrors outer getHeap := by
  intro s s' hs
  refine ⟨s', ?_, hs⟩
  show EStateM.Result.ok s'.world.heap s' = _
  rw [hs.world.heap]

/-- What is read from the states may differ. -/
theorem follows_get {f : State → Exec α}
    (h : ∀ s s', s.Covers outer s' → FollowsAt outer R (f s) (f s') s s') : Follows outer R (get >>= f) := h

theorem followsAt_modifyMachine {R : Unit → State → State → Prop} {f g : Machine → Machine} {s s' : State}
    (h : R () ⟨s.world, f s.machine⟩ ⟨s'.world, g s'.machine⟩) :
    FollowsAt outer R (modifyMachine f) (modifyMachine g) s s' := ⟨_, rfl, h⟩

theorem followsAt_modifyGet {f g : State → α × State} (hresult : (g s').1 = (f s).1)
    (h : R (f s).1 (f s).2 (g s').2) : FollowsAt outer R (modifyGet f) (modifyGet g) s s' := by
  refine ⟨(g s').2, ?_, h⟩
  show EStateM.Result.ok (g s').1 (g s').2 = _
  rw [hresult]

/-- Stack and frames stay as they are. -/
theorem mirrors_modifyMachine {f : Machine → Machine}
    (h : ∀ m m' : Machine, m.Lifted outer m' → (f m).Lifted outer (f m')) (hframes : ∀ m, (f m).frames = m.frames) :
    Mirrors outer (modifyMachine f) := by
  intro s s' hs
  apply followsAt_modifyMachine
  refine hs.withMachine (h _ _ hs.machine) ?_
  rw [hframes]
  exact hs.live

theorem mirrors_modifyHeap (f : Heap → Heap) : Mirrors outer (modifyHeap f) := by
  intro s s' hs
  refine ⟨_, rfl, hs.withWorld ?_⟩
  exact { hs.world with heap := congrArg f hs.world.heap }

theorem mirrors_allocate (f : Heap → α × Heap) : Mirrors outer (allocate f) := by
  intro s s' hs
  have hheap := congrArg f hs.world.heap
  apply followsAt_modifyGet
  · show (f s'.world.heap).1 = (f s.world.heap).1
    rw [hheap]
  · exact hs.withWorld { hs.world with heap := congrArg Prod.snd hheap }

end

end Exec

end ScriptMachine
