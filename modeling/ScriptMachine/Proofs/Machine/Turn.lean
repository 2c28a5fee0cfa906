import ScriptMachine.Proofs.Machine.Work

/-!
# What a turn of a machine does

A turn either works in the running frame, or it enters a frame, returns from one, or throws a value
(`Machine.Turns`). What it does to the frames, to the handlers and to the stack can be read off the
instruction at which the running frame stands. Nothing is assumed of the code: a turn in which an
instruction turns out to be defective does not come to an end.

* `Machine.Enters`, `Machine.Returns`, `Machine.Throws` — the turns that change frames.
* `Exec.yields_advanceCatching` — what a turn at an instruction does.
* `Exec.yields_poll` — what a turn of a machine that waits does.
-/

namespace ScriptMachine

/-! ## Turns -/

/-- A call enters a frame. The slots from `low` on belong to the call, and `ip` is where the caller goes
on. -/
structure Machine.Enters (m : Machine) (fs : Array Frame) (f : Frame) (low ip : Nat) (m' : Machine) :
    Prop where
  frames : ∃ caller callee, m'.frames = (fs.push caller).push callee ∧ f.Same caller ∧ caller.ip = ip ∧
    callee.ip = 0 ∧ callee.resultSlot = low ∧ m'.sp = callee.base + callee.closure.function.locals
  handlers : m'.handlers = m.handlers
  waiting : m'.waiting = none
  stack : f.Spares low m.stack m'.stack

/-- What a frame leaves in its result slot when it returns `v`. -/
def Frame.answer (f : Frame) (v : Value) : Value :=
  match f.kind with
  | .constructor object => object
  | _ => v

/-- The running frame is left, and what it answers is in its result slot. -/
structure Machine.Returns (m : Machine) (fs : Array Frame) (f : Frame) (low : Nat) (v : Value)
    (m' : Machine) : Prop where
  frames : m'.frames = fs
  handlers : m'.handlers = Handler.discard m.handlers (fs.size + 1)
  waiting : m'.waiting = none
  sp : m'.sp = f.resultSlot + 1
  result : m'.stack[f.resultSlot]? = some (f.answer v)
  stack : ∀ i < low, i < f.resultSlot → m'.stack[i]? = m.stack[i]?

/-- Where a handler goes on with a value, and with what on the stack. -/
inductive Handler.Receives (h : Handler) (v : Value) (m' : Machine) : Nat → Prop where
  | catches {target} : h.catchTarget = some target → m'.sp = h.sp + 1 → Receives h v m' target
  | cleans {target} : h.catchTarget = none → h.finallyTarget = some target → m'.sp = h.sp + 2 →
    m'.stack[h.sp + 1]? = some (.bool true) → Receives h v m' target

/-- A value is thrown: the frames above the innermost handler are left. -/
structure Machine.Throws (m : Machine) (fs : Array Frame) (f : Frame) (low : Nat) (v : Value)
    (m' : Machine) : Prop where
  handler : ∃ h target, m.handlers = h :: m'.handlers ∧ h.Receives v m' target ∧
    m'.stack[h.sp]? = some v ∧ f.Spares (min low h.sp) m.stack m'.stack ∧
    ∃ (f' g : Frame) (fs' : Array Frame), f.Same f' ∧ (fs.push f').extract 0 h.depth = fs'.push g ∧
      m'.frames = fs'.push { g with ip := target }
  waiting : m'.waiting = none

/-- The value that an instruction pushes whatever the machine is. -/
def Opcode.pushes? : Opcode → Option Value
  | .null => some .null
  | .pushTrue => some (.bool true)
  | .pushFalse => some (.bool false)
  | _ => none

/-- What a turn of a machine does whose running frame `f` stands at the instruction `i`. -/
inductive Machine.Turns (m : Machine) (fs : Array Frame) (f : Frame) (i : Emitted) (m' : Machine) :
    Prop where
  | works : i.opcode.isPlain = true →
    m.Works fs f (m.sp - i.takes) (f.ip + i.opcode.length) (m.sp - i.takes + i.leaves) m' →
    (i.opcode.isSure = true → m'.waiting = none ∧
      ∀ v, i.opcode.pushes? = some v → m'.stack[m.sp]? = some v) → Turns m fs f i m'
  | jumps : i.opcode = .jump → m.Works fs f m.sp (i.operand 0) m.sp m' → m'.waiting = none →
    Turns m fs f i m'
  | branches {ip} : i.opcode = .jumpIfFalse → ip = i.operand 0 ∨ ip = f.ip + 3 →
    m.Works fs f (m.sp - 1) ip (m.sp - 1) m' → Turns m fs f i m'
  | opens : i.opcode = .tryEnter →
    Machine.Works { m with
      handlers := .ofOperands (i.operand 0) (i.operand 1) m.frames.size m.sp :: m.handlers }
      fs f m.sp (f.ip + 5) m.sp m' → m'.waiting = none → Turns m fs f i m'
  | closes : i.opcode = .finallyEnd →
    Machine.Works { m with handlers := m.handlers.tail } fs f m.sp (i.operand 0) m.sp m' →
    m'.waiting = none → Turns m fs f i m'
  | resumes : i.opcode = .rethrow → (∀ b, m.stack[m.sp - 1]? = some (.bool b) → b = false) →
    m.Works fs f (m.sp - 2) (f.ip + 1) (m.sp - 2) m' → m'.waiting = none → Turns m fs f i m'
  | enters : i.opcode.isCall = true → m.Enters fs f (m.sp - i.takes) (f.ip + i.opcode.length) m' →
    Turns m fs f i m'
  | returns {v} : i.opcode = .returnValue ∧ m.stack[m.sp - 1]? = some v ∨
      i.opcode = .returnNull ∧ v = .null →
    m.Returns fs f (m.sp - i.takes) v m' → Turns m fs f i m'
  | throws {v} : (i.opcode = .throw → m.stack[m.sp - 1]? = some v) →
    (i.opcode = .rethrow → m.stack[m.sp - 2]? = some v ∧
      ∀ b, m.stack[m.sp - 1]? = some (.bool b) → b = true) →
    i.opcode.isSure = false → m.Throws fs f (m.sp - i.takes) v m' → Turns m fs f i m'

namespace Exec

section

variable {s : State} {fs : Array Frame} {f : Frame}

/-- The slots of the stack below those that are cleared. -/
theorem spares_clear (f : Frame) (a : Array Value) {low start count : Nat} (h : low ≤ start) :
    f.Spares low a (clearSlots a start count) := (Frame.Spares.refl f low a).clear h count

/-- Control cannot go on where there is no frame. -/
theorem yields_jumpTo_empty {D : Prop} {P : Unit → State → Prop} {E : State → Prop}
    (h : s.machine.frames = #[]) (target : Nat) : Yields D (jumpTo target) s P E ↔ D := by
  have hmap : discard currentFrame = (fun _ => PUnit.unit) <$> currentFrame := rfl
  simp only [jumpTo, hmap, yields_bind, yields_map]
  simp [currentFrame, h]

/-! ## Throws -/

theorem yields_throwValue (h : s.machine.frames = fs.push f) (hw : s.machine.waiting = none) (low : Nat)
    (v : Value) :
    Yields True (throwValue v) s
      (fun _ t => s.machine.Throws fs f low v t.machine) fun _ => False := by
  unfold throwValue
  simp only [yields_bind, yields_getMachine]
  split
  · simp [Cause.isCatchable]
  · next handler rest hrest =>
    simp only [yields_bind, yields_modifyMachine, yields_setSp, yields_push]
    intro _ hroom
    rcases Nat.eq_zero_or_pos (s.machine.frames.extract 0 handler.depth).size with hempty | hpos
    · -- no frame is left that could go on
      have hnil := Array.eq_empty_of_size_eq_zero hempty
      split
      · rw [yields_jumpTo_empty hnil]
        trivial
      · rw [yields_bind, yields_push]
        intro _
        rw [yields_jumpTo_empty hnil]
        trivial
      · simp
    · obtain ⟨fs', g, hg⟩ := Array.eq_push_of_size_ne_zero (Nat.ne_of_gt hpos)
      have hstack : f.Spares (min low handler.sp) s.machine.stack
          ((clearSlots s.machine.stack handler.sp (s.machine.sp - handler.sp)).setIfInBounds handler.sp v) :=
        (spares_clear f _ (Nat.min_le_right _ _)).set (Nat.min_le_right _ _) v
      have hv : ((clearSlots s.machine.stack handler.sp (s.machine.sp - handler.sp)).setIfInBounds
          handler.sp v)[handler.sp]? = some v := Array.getElem?_setIfInBounds_self_of_lt hroom
      have hframes : (fs.push f).extract 0 handler.depth = fs'.push g := by rw [← h, hg]
      split
      · next target hcatch =>
        rw [yields_jumpTo (f := g) hg]
        exact ⟨⟨handler, target, hrest, .catches hcatch rfl, hv, hstack, f, g, fs', ⟨rfl, rfl, rfl⟩, hframes, rfl⟩, hw⟩
      · next target hcatch hfinally =>
        rw [yields_bind, yields_push]
        intro hroom'
        rw [yields_jumpTo (f := g) hg]
        refine ⟨⟨handler, target, hrest, .cleans hcatch hfinally rfl ?_, ?_, ?_, f, g, fs', ⟨rfl, rfl, rfl⟩,
          hframes, rfl⟩, hw⟩
        · exact Array.getElem?_setIfInBounds_self_of_lt hroom'
        · dsimp only
          rw [Array.getElem?_setIfInBounds_ne (by omega)]
          exact hv
        · exact hstack.set (Nat.le_trans (Nat.min_le_right _ _) (Nat.le_succ _)) _
      · simp

/-! ## Calls -/

end

end Exec

/-- What a call may come to: a result, a new frame or a thrown value. -/
def Machine.Calls (m : Machine) (fs : Array Frame) (f : Frame) (low ip : Nat) (m' : Machine) : Prop :=
  m.Works fs f low ip (low + 1) m' ∨ m.Enters fs f low ip m' ∨ ∃ v, m.Throws fs f low v m'

/-- `m'` is `m` in the course of an instruction of the frame `f` that goes on at `ip`. -/
structure Machine.Amid (m : Machine) (fs : Array Frame) (f : Frame) (low ip : Nat) (m' : Machine) :
    Prop where
  frames : m'.frames = fs.push { f with ip }
  handlers : m'.handlers = m.handlers
  waiting : m'.waiting = none
  stack : f.Spares low m.stack m'.stack

/-- A machine that has read an opcode. -/
structure Machine.Fetches (m : Machine) (fs : Array Frame) (f : Frame) (m' : Machine) : Prop where
  frames : m'.frames = fs.push { f with ip := f.ip + 1 }
  handlers : m'.handlers = m.handlers
  waiting : m'.waiting = none
  sp : m'.sp = m.sp
  stack : m'.stack = m.stack

section

variable {m m₁ m' : Machine} {fs : Array Frame} {f g : Frame} {low low' ip : Nat} {a b c : Array Value}

theorem Frame.Same.symm (h : f.Same g) : g.Same f := ⟨h.closure.symm, h.base.symm, h.kind.symm⟩

theorem Frame.Same.trans {k : Frame} (h : f.Same g) (h' : g.Same k) : f.Same k :=
  ⟨h'.closure.trans h.closure, h'.base.trans h.base, h'.kind.trans h.kind⟩

theorem Frame.Spares.same (h : g.Spares low a b) (hfg : f.Same g) : f.Spares low a b := by
  intro i hi hout
  refine h i hi ?_
  rwa [hfg.base, hfg.closure]

theorem Frame.Spares.mono (h : f.Spares low a b) (hle : low' ≤ low) : f.Spares low' a b :=
  fun i hi hout => h i (Nat.lt_of_lt_of_le hi hle) hout

theorem Frame.Spares.trans (h : f.Spares low a b) (h' : f.Spares low b c) : f.Spares low a c :=
  fun i hi hout => (h' i hi hout).trans (h i hi hout)

theorem Machine.Amid.breaks (h : m.Amid fs f low ip m') : m.Breaks fs f low m' :=
  .of_stack h.frames h.handlers h.waiting h.stack

/-- More is written, from `low` on. -/
theorem Machine.Amid.write (h : m.Amid fs f low ip m') {stack : Array Value} (sp : Nat)
    (hstack : f.Spares low m'.stack stack) : m.Amid fs f low ip { m' with stack, sp } :=
  ⟨h.frames, h.handlers, h.waiting, h.stack.trans hstack⟩

/-- What comes before in the same frame. -/
theorem Machine.Throws.after {v : Value} (h : m₁.Throws fs g low v m') (hm : m.Breaks fs f low m₁)
    (hg : f.Same g) : m.Throws fs f low v m' := by
  obtain ⟨handler, target, hhandlers, hreceives, hv, hstack, f', k, fs', hsame, hextract, hframes⟩ := h.handler
  refine ⟨⟨handler, target, hm.handlers ▸ hhandlers, hreceives, hv, ?_, f', k, fs', hg.trans hsame,
    hextract, hframes⟩, h.waiting⟩
  exact (hm.stack.mono (Nat.min_le_left _ _)).trans (hstack.same hg)

end

namespace Exec

section

variable {s t : State} {m : Machine} {fs : Array Frame} {f : Frame} {low ip : Nat}

/-- A result takes the place of what belongs to the call. -/
theorem amid_push (h : m.Amid fs f low ip t.machine) (hsp : t.machine.sp = low) (v : Value) :
    Yields True (push v) t (fun _ u => m.Works fs f low ip (low + 1) u.machine) fun _ => False := by
  rw [yields_push]
  intro _
  refine .moved h.frames h.handlers h.waiting ?_ (by rw [hsp])
  exact (h.stack.trans ((Frame.Spares.refl f low _).set (Nat.le_of_eq hsp.symm) v))

theorem amid_throwValue (h : m.Amid fs f low ip t.machine) (v : Value) :
    Yields True (throwValue v) t (fun _ u => m.Throws fs f low v u.machine) fun _ => False :=
  (yields_throwValue h.frames h.waiting low v).mono
    (fun _ _ hthrows => hthrows.after h.breaks ⟨rfl, rfl, rfl⟩) fun _ he => he

theorem amid_pushFrame (h : m.Amid fs f low ip t.machine) (closure : Closure) {base : Nat}
    {kind : FrameKind} (hslot : (Frame.enter closure base kind).resultSlot = low) :
    Yields True (pushFrame closure base kind) t (fun _ u => m.Enters fs f low ip u.machine)
      fun _ => False := by
  have hbase : low ≤ base := by
    rw [← hslot]
    unfold Frame.resultSlot Frame.enter
    cases kind <;> dsimp only <;> omega
  unfold pushFrame
  simp only [yields_bind, yields_getMachine, yields_ite, yields_raise, Cause.isCatchable]
  refine ⟨by simp, fun _ => ⟨by simp, fun _ => ?_⟩⟩
  simp only [yields_setSp, yields_modifyMachine]
  intro _
  refine ⟨⟨{ f with ip }, .enter closure base kind, ?_, ⟨rfl, rfl, rfl⟩, rfl, rfl, hslot, rfl⟩, h.handlers, h.waiting, ?_⟩
  · dsimp only
    rw [h.frames]
  · exact h.stack.clear (by omega) _

theorem amid_checkArity (h : m.Amid fs f low ip t.machine) (closure : Closure) (argc : Nat)
    {P : Unit → State → Prop} (hP : P () t) :
    Yields True (checkArity closure argc) t P fun u => m.Breaks fs f low u.machine := by
  unfold checkArity
  dsimp only
  rw [yields_ite]
  exact ⟨fun _ => (yields_raise _).mpr ⟨fun _ => trivial, fun _ => h.breaks⟩, fun _ => hP⟩

/-- What is left of a call ends in one of the ways of a call, or it breaks. -/
def Ends (m : Machine) (fs : Array Frame) (f : Frame) (low ip : Nat) (x : Exec Unit) (t : State) : Prop :=
  Yields True x t (fun _ u => m.Calls fs f low ip u.machine) fun u => m.Breaks fs f low u.machine

theorem ends_setSp {x : Exec Unit} (h : m.Amid fs f low ip t.machine) {sp : Nat} (hsp : low ≤ sp)
    (hx : ∀ u : State, m.Amid fs f low ip u.machine → u.machine.sp = sp → Ends m fs f low ip x u) :
    Ends m fs f low ip (setSp sp >>= fun _ => x) t := by
  rw [Ends, yields_bind, yields_setSp]
  intro _
  exact hx _ (h.write _ (spares_clear f _ hsp)) rfl

theorem ends_push (h : m.Amid fs f low ip t.machine) (hsp : t.machine.sp = low) (v : Value) :
    Ends m fs f low ip (push v) t :=
  (amid_push h hsp v).mono (fun _ _ hworks => .inl hworks) fun _ he => he.elim

theorem ends_pushFrame (h : m.Amid fs f low ip t.machine) (closure : Closure) {base : Nat}
    {kind : FrameKind} (hslot : (Frame.enter closure base kind).resultSlot = low) :
    Ends m fs f low ip (pushFrame closure base kind) t :=
  (amid_pushFrame h closure hslot).mono (fun _ _ henters => .inr (.inl henters)) fun _ he => he.elim

theorem ends_deliverNative (h : m.Amid fs f low ip t.machine) (hsp : t.machine.sp = low) (v : Value) :
    Ends m fs f low ip (deliverNative v) t := by
  have throws : ∀ w, Ends m fs f low ip (throwValue w) t := fun w =>
    (amid_throwValue h w).mono (fun _ _ hthrows => .inr (.inr ⟨w, hthrows⟩))
      fun _ he => he.elim
  unfold deliverNative Ends
  split
  · split
    · simp only [yields_bind, yields_pure]
      exact throws _
    · simp only [yields_bind, yields_pure, yields_getMachine]
      exact throws _
  · exact ends_push h hsp v

theorem ends_callNative (h : m.Amid fs f low ip t.machine) (id : Nat) :
    Ends m fs f low ip (callNative id low) t := by
  unfold callNative Ends
  simp only [yields_bind, yields_slotsFrom, yields_modifyGet]
  intro _ _
  split
  · next message heq => exact yields_crash _
  · next v heq =>
    refine ends_setSp ?_ (Nat.le_refl _) fun u hu hsp => ends_deliverNative hu hsp v
    split <;> exact h

theorem ends_pushNulls {x : Exec Unit} (count : Nat) (h : m.Amid fs f low ip t.machine)
    (hsp : low ≤ t.machine.sp)
    (hx : ∀ u : State, m.Amid fs f low ip u.machine → Ends m fs f low ip x u) :
    Ends m fs f low ip (pushNulls count >>= fun _ => x) t := by
  induction count generalizing t with
  | zero =>
    rw [Ends, pushNulls, yields_bind, yields_pure]
    exact hx t h
  | succ count ih =>
    rw [Ends, pushNulls, bind_assoc, yields_bind, yields_push]
    intro _
    refine ih (h.write _ ((Frame.Spares.refl f low _).set hsp _)) ?_
    exact Nat.le_succ_of_le hsp

theorem ends_construct (h : m.Amid fs f low ip t.machine) (hsp : low < t.machine.sp) (c : Class)
    {argc : Nat} (hargc : low + (argc + 1) = t.machine.sp) : Ends m fs f low ip (construct c low argc) t := by
  unfold construct Ends
  simp only [yields_bind, yields_slotsFrom, yields_allocate]
  intro _ _
  split
  · refine ends_setSp (t := ⟨⟨(t.world.heap.newObject c (t.machine.stack.extract (low + 1)
      t.machine.sp).toList).2, _, _, _⟩, t.machine⟩) h (Nat.le_refl low) fun u hu hsp => ?_
    exact ends_push hu hsp _
  · next constructor _ =>
    simp only [yields_bind, yields_setSlot]
    intro _
    have hset := h.write t.machine.sp ((Frame.Spares.refl f low t.machine.stack).set (Nat.le_refl _)
      (t.world.heap.newObject c (t.machine.stack.extract (low + 1) t.machine.sp).toList).1)
    have enters : ∀ u : State, m.Amid fs f low ip u.machine → Ends m fs f low ip
        (pushFrame constructor low (.constructor (t.world.heap.newObject c
          (t.machine.stack.extract (low + 1) t.machine.sp).toList).1)) u :=
      fun _ hu => ends_pushFrame hu constructor rfl
    split
    · rw [yields_bind, yields_getMachine]
      exact ends_setSp (t := State.mk _ (Machine.mk _ _ _ _ _ _ _ _ _ _ _ _)) hset (by dsimp only; omega)
        fun u hu _ => enters u hu
    · exact ends_pushNulls (t := State.mk _ (Machine.mk _ _ _ _ _ _ _ _ _ _ _ _)) _ hset (Nat.le_of_lt hsp)
        enters

theorem ends_callValue (h : m.Amid fs f low ip t.machine) (argc : Nat)
    (hargc : argc + 1 ≤ t.machine.sp → low + (argc + 1) = t.machine.sp) :
    Ends m fs f low ip (callValue argc) t := by
  unfold callValue Ends
  simp only [yields_bind, yields_calleeSlot]
  refine ⟨fun _ => trivial, fun hle => ?_⟩
  have hslot : t.machine.sp - (argc + 1) = low := by
    have := hargc hle
    omega
  rw [hslot, yields_getSlot]
  intro _
  split
  · rw [yields_bind]
    exact amid_checkArity h _ _ (ends_pushFrame h _ rfl)
  · exact ends_callNative h _
  · exact ends_construct h (by have := hargc hle; omega) _ (hargc hle)
  · exact (yields_raise _).mpr ⟨fun _ => trivial, fun _ => h.breaks⟩

theorem ends_callMethod (h : m.Amid fs f low ip t.machine) (method : Closure) (argc : Nat) :
    Ends m fs f low ip (callMethod method low argc) t := by
  unfold callMethod Ends
  rw [yields_bind]
  exact amid_checkArity h _ _ (ends_pushFrame h _ rfl)

theorem ends_missingMethod (h : m.Amid fs f low ip t.machine) :
    Ends m fs f low ip (missingMethod low) t :=
  ends_setSp h (Nat.le_refl _) fun _ hu hsp => ends_push hu hsp _

theorem ends_invoke (h : m.Amid fs f low ip t.machine) (name : String) (argc : Nat)
    (hargc : argc + 1 ≤ t.machine.sp → low + (argc + 1) = t.machine.sp) :
    Ends m fs f low ip (invoke name argc) t := by
  unfold invoke Ends
  simp only [yields_bind, yields_calleeSlot]
  refine ⟨fun _ => trivial, fun hle => ?_⟩
  have hslot : t.machine.sp - (argc + 1) = low := by
    have := hargc hle
    omega
  rw [hslot, yields_getSlot]
  intro _
  rw [yields_getHeap]
  split
  · exact (yields_raise _).mpr ⟨fun _ => trivial, fun _ => h.breaks⟩
  · split
    · next callee _ =>
      rw [yields_bind, yields_setSlot]
      intro _
      have hset := h.write t.machine.sp
        ((Frame.Spares.refl f low t.machine.stack).set (Nat.le_refl low) callee)
      exact ends_callValue (t := ⟨t.world, _⟩) hset _ hargc
    · split
      · exact ends_callMethod h _ _
      · exact ends_missingMethod h

theorem ends_invokeSuper (h : m.Amid fs f low ip t.machine) (name : String) (argc : Nat)
    (hargc : argc + 2 ≤ t.machine.sp → low + (argc + 2) = t.machine.sp) (hlow : low ≤ t.machine.sp - 1) :
    Ends m fs f low ip (invokeSuper name argc) t := by
  unfold invokeSuper Ends
  simp only [yields_bind, yields_pop]
  refine ⟨fun _ => trivial, fun _ _ => ?_⟩
  have hpop := h.write (t.machine.sp - 1) ((Frame.Spares.refl f low _).set hlow .null)
  split
  · simp only [yields_bind, yields_calleeSlot]
    refine ⟨fun _ => trivial, fun hle => ?_⟩
    have hslot : t.machine.sp - 1 - (argc + 1) = low := by
      have := hargc (by omega)
      omega
    rw [hslot]
    split
    · exact ends_callMethod hpop _ _
    · exact ends_missingMethod hpop
  · exact (yields_defect _).mpr trivial


/-! ## Returns -/

theorem yields_returnFromFrame (h : m.Amid fs f low ip t.machine) (v : Value) :
    Yields True (returnFromFrame v) t (fun _ u => m.Returns fs f low v u.machine) fun _ => False := by
  unfold returnFromFrame
  simp only [yields_bind, yields_modifyMachine, yields_getMachine, h.frames, Array.back?_push,
    Array.pop_push, Array.size_push, yields_setSp, yields_push]
  intro _ hroom
  have hslot : f.resultSlot ≤ f.base := by
    unfold Frame.resultSlot
    split <;> omega
  refine ⟨rfl, by rw [← h.handlers], h.waiting, rfl, Array.getElem?_setIfInBounds_self_of_lt hroom,
    fun i hi hout => ?_⟩
  have hspares := ((h.stack.mono (Nat.min_le_left low f.resultSlot)).clear (Nat.min_le_right _ _)
    (t.machine.sp - f.resultSlot)).set (Nat.min_le_right low f.resultSlot) (f.answer v)
  exact hspares i (by omega) (.inl (by omega))

/-! ## Instructions -/

/-- An instruction that is sure of itself only fails if the code is defective. -/
theorem yields_sure {i : Emitted} (h : t.machine.frames = fs.push f) (hw : t.machine.waiting = none)
    (hplain : i.opcode.isPlain = true) (hsure : i.opcode.isSure = true)
    (hreads : readOperands? i.opcode f.code f.ip = some i.read) (hsized : i.Sized) :
    Yields True (perform i.opcode) t (fun _ u => u.machine.waiting = none ∧
      ∀ v, i.opcode.pushes? = some v → u.machine.stack[t.machine.sp]? = some v) fun _ => False := by
  have one {w : Nat} := @operandAt?_one i f.code f.ip w hreads hsized
  obtain ⟨op, xs, span⟩ := i
  dsimp only at hplain hsure one ⊢
  cases op with
  | setLocal =>
    simp only [perform, setLocal, yields_bind, yields_localOperand h (one rfl), yields_peek]
    refine ⟨fun _ => trivial, fun _ => ⟨fun _ => trivial, fun _ _ => ?_⟩⟩
    rw [yields_currentFrame (f := { f with ip := f.ip + 1 }) rfl]
    split <;> simp [hw, Opcode.pushes?]
  | setGlobal => simp [perform, setGlobal, yields_operand h (one rfl), hw, Opcode.pushes?]
  | setFree =>
    simp only [perform, setFree, yields_bind, yields_operand h (one rfl), yields_peek]
    refine ⟨fun _ => trivial, fun _ _ => ?_⟩
    rw [yields_freeCell (f := { f with ip := f.ip + 1 }) rfl]
    simp [hw, Opcode.pushes?]
  | pop => simp [perform, hw, Opcode.pushes?]
  | null | pushTrue | pushFalse =>
    simp only [perform, yields_bind, yields_push, yields_pure]
    refine fun hroom => ⟨hw, ?_⟩
    rintro v ⟨⟩
    exact Array.getElem?_setIfInBounds_self_of_lt hroom
  | jump | tryEnter | finallyEnd | returnValue | returnNull => cases hplain
  | _ => cases hsure

/-- How an instruction ends: the run halts, or the machine makes a turn. An instruction that throws has no
other fault that can be caught. -/
def Makes (m : Machine) (fs : Array Frame) (f : Frame) (i : Emitted) (x : Exec Signal) (t : State) : Prop :=
  Yields True x t (fun signal u => signal = .halt ∨ m.Turns fs f i u.machine)
    fun u => m.Breaks fs f (m.sp - i.takes) u.machine ∧ i.opcode ≠ .throw ∧ i.opcode ≠ .rethrow ∧
      i.opcode.isSure = false

variable {i : Emitted}

/-- An instruction that goes on in its own way. -/
theorem Yields.makes {x : Exec Unit} {P : Machine → Prop}
    (h : Yields True x t (fun _ u => P u.machine) fun _ => False) (hP : ∀ m', P m' → m.Turns fs f i m') :
    Makes m fs f i (x >>= fun _ => pure .next) t := by
  rw [Makes, yields_bind]
  exact h.mono (fun _ u hu => .inr (hP u.machine hu)) fun _ he => he.elim

theorem Ends.makes {x : Exec Unit}
    (h : Ends m fs f (m.sp - i.takes) (f.ip + i.opcode.length) x t) (hcall : i.opcode.isCall = true) :
    Makes m fs f i (x >>= fun _ => pure .next) t := by
  have hop : i.opcode = .call ∨ i.opcode = .invoke ∨ i.opcode = .invokeSuper := by
    revert hcall
    cases i.opcode <;> simp [Opcode.isCall]
  have hplain : i.opcode.isPlain = true ∧ i.leaves = 1 ∧ i.opcode ≠ .throw ∧ i.opcode ≠ .rethrow ∧
      i.opcode.isSure = false := by
    unfold Emitted.leaves
    rcases hop with hop | hop | hop <;> rw [hop] <;> decide
  rw [Makes, yields_bind]
  refine Yields.mono h (fun _ u hu => .inr ?_) fun u he => ⟨he, hplain.2.2⟩
  rcases hu with hworks | henters | ⟨v, hthrows⟩
  · refine .works hplain.1 (by rwa [hplain.2.1]) fun hsure => ?_
    rw [hplain.2.2.2.2] at hsure
    cases hsure
  · exact .enters hcall henters
  · exact .throws (fun h => (hplain.2.2.1 h).elim) (fun h => (hplain.2.2.2.1 h).elim) hplain.2.2.2.2
      hthrows

theorem makes_plain (h : m.Fetches fs f t.machine) (hplain : i.opcode.isPlain = true)
    (hcall : i.opcode.isCall = false)
    (hreads : readOperands? i.opcode f.code (f.ip + 1) = some i.read) (hsized : i.Sized)
    (hslot : ∀ k, i.slot? = some k → k < f.closure.function.locals) :
    Makes m fs f i (perform i.opcode) t := by
  have hlength : f.ip + 1 + (i.opcode.length - 1) = f.ip + i.opcode.length := by
    have := i.opcode.length_pos
    omega
  have hperform := yields_perform (D := True) (f := { f with ip := f.ip + 1 }) h.frames h.waiting hplain hcall
    hreads hsized hslot fun hD => (hD trivial).elim
  have hop : i.opcode ≠ .throw ∧ i.opcode ≠ .rethrow := by
    constructor <;> (intro hop; rw [hop] at hplain; cases hplain)
  have hworks : ∀ u : State, t.machine.Works fs { f with ip := f.ip + 1 } (t.machine.sp - i.takes)
      (f.ip + 1 + (i.opcode.length - 1)) (t.machine.sp - i.takes + i.leaves) u.machine →
        (i.opcode.isSure = true → u.machine.waiting = none ∧
          ∀ v, i.opcode.pushes? = some v → u.machine.stack[t.machine.sp]? = some v) →
          m.Turns fs f i u.machine := by
    intro u hu hsure
    rw [h.sp, hlength] at hu
    rw [h.sp] at hsure
    obtain ⟨g, hg, hsame, hip⟩ := hu.frames
    exact .works hplain ⟨⟨g, hg, ⟨hsame.closure, hsame.base, hsame.kind⟩, hip⟩,
      hu.handlers.trans h.handlers, hu.sp, hu.owes, by rw [← h.stack]; exact hu.stack⟩ hsure
  have hbreaks : ∀ u : State, t.machine.Breaks fs { f with ip := f.ip + 1 } (t.machine.sp - i.takes)
      u.machine → m.Breaks fs f (m.sp - i.takes) u.machine := by
    intro u hu
    rw [h.sp] at hu
    obtain ⟨g, hg, hsame⟩ := hu.frames
    exact ⟨⟨g, hg, ⟨hsame.closure, hsame.base, hsame.kind⟩⟩, hu.handlers.trans h.handlers, hu.waiting, by rw [← h.stack]; exact hu.stack⟩
  cases hsure : i.opcode.isSure with
  | true =>
    refine (hperform.and (yields_sure h.frames h.waiting hplain hsure hreads hsized)).mono ?_
      fun _ he => he.2.elim
    exact fun _ u hu => .inr (hworks u hu.1.2.1 fun _ => hu.2)
  | false =>
    refine hperform.mono (fun _ u hu => .inr (hworks u hu.2.1 fun h => ?_)) fun u he => ?_
    · rw [hsure] at h
      cases h
    · exact ⟨hbreaks u he, hop.1, hop.2, hsure⟩

/-- The operands of an instruction have been read. -/
theorem amid_fetches (h : m.Fetches fs f t.machine) (low ip : Nat) :
    m.Amid fs f low ip { t.machine with frames := fs.push { f with ip } } := by
  refine ⟨rfl, h.handlers, h.waiting, ?_⟩
  show f.Spares low m.stack t.machine.stack
  rw [h.stack]
  exact .refl _ _ _

theorem makes_call (h : m.Fetches fs f t.machine) (hcall : i.opcode.isCall = true)
    (hreads : readOperands? i.opcode f.code (f.ip + 1) = some i.read) (hsized : i.Sized) :
    Makes m fs f i (perform i.opcode) t := by
  have one {w : Nat} := @operandAt?_one i f.code (f.ip + 1) w hreads hsized
  have two {v w : Nat} := @operandAt?_two i f.code (f.ip + 1) v w hreads hsized
  have hamid := amid_fetches h (m.sp - i.takes)
  have hsp := h.sp
  obtain ⟨op, xs, span⟩ := i
  dsimp only at hcall one two ⊢
  cases op with
  | call =>
    simp only [perform, Makes, yields_bind, yields_operand h.frames (one rfl)]
    have hends := (ends_callValue (t := ⟨t.world, _⟩) (hamid (f.ip + 2))
      (Emitted.operand ⟨.call, xs, span⟩ 0) fun hle => by
        simp only [Emitted.takes] at hle ⊢
        omega).makes (i := ⟨.call, xs, span⟩) rfl
    rwa [Makes, yields_bind] at hends
  | invoke =>
    simp only [perform, invokeMethod, Makes, yields_bind, yields_operand h.frames (two rfl).1,
      yields_constantName]
    refine ⟨fun _ => trivial, fun name _ => ?_⟩
    rw [yields_operand (f := { f with ip := f.ip + 1 + 2 }) rfl (two rfl).2]
    have hends := (ends_invoke (t := ⟨t.world, _⟩) (hamid (f.ip + 4)) name
      (Emitted.operand ⟨.invoke, xs, span⟩ 1) fun hle => by
        simp only [Emitted.takes] at hle ⊢
        omega).makes (i := ⟨.invoke, xs, span⟩) rfl
    rwa [Makes, yields_bind] at hends
  | invokeSuper =>
    simp only [perform, invokeSuperMethod, Makes, yields_bind, yields_operand h.frames (two rfl).1,
      yields_constantName]
    refine ⟨fun _ => trivial, fun name _ => ?_⟩
    rw [yields_operand (f := { f with ip := f.ip + 1 + 2 }) rfl (two rfl).2]
    have hends := (ends_invokeSuper (t := ⟨t.world, _⟩) (hamid (f.ip + 4)) name
      (Emitted.operand ⟨.invokeSuper, xs, span⟩ 1) (fun hle => by
        simp only [Emitted.takes] at hle ⊢
        omega) (by
        simp only [Emitted.takes]
        omega)).makes (i := ⟨.invokeSuper, xs, span⟩) rfl
    rwa [Makes, yields_bind] at hends
  | _ => cases hcall

/-- An instruction that goes on elsewhere in its frame. -/
theorem works_leap {m₁ : Machine} {sp : Nat} (h : m.Fetches fs f t.machine) {stack : Array Value}
    (hframes : m₁.frames = fs.push { f with ip }) (hhandlers : m₁.handlers = t.machine.handlers)
    (hwaiting : m₁.waiting = t.machine.waiting) (hstack : m₁.stack = stack)
    (hspares : f.Spares low t.machine.stack stack) (hsp : m₁.sp = sp) : m.Works fs f low ip sp m₁ := by
  refine .moved hframes (hhandlers.trans h.handlers) (hwaiting.trans h.waiting) ?_ hsp
  rw [hstack, ← h.stack]
  exact hspares

theorem makes_control (h : m.Fetches fs f t.machine) (hframes : m.frames.size = fs.size + 1)
    (hplain : i.opcode.isPlain = false)
    (hreads : readOperands? i.opcode f.code (f.ip + 1) = some i.read) (hsized : i.Sized) :
    Makes m fs f i (perform i.opcode) t := by
  have one {w : Nat} := @operandAt?_one i f.code (f.ip + 1) w hreads hsized
  have two {v w : Nat} := @operandAt?_two i f.code (f.ip + 1) v w hreads hsized
  have hamid : ∀ low, m.Amid fs f low (f.ip + 1) t.machine := fun low =>
    ⟨h.frames, h.handlers, h.waiting, h.stack ▸ .refl _ _ _⟩
  have hpop : ∀ low, low ≤ t.machine.sp - 1 → f.Spares low t.machine.stack
      (t.machine.stack.setIfInBounds (t.machine.sp - 1) .null) :=
    fun low hlow => (Frame.Spares.refl f low t.machine.stack).set hlow .null
  have hsp := h.sp
  obtain ⟨op, xs, span⟩ := i
  dsimp only at hplain one two ⊢
  cases op with
  | jump =>
    simp only [perform, Makes, yields_bind, yields_operand h.frames (one rfl), yields_pure]
    rw [yields_jumpTo (f := { f with ip := f.ip + 1 + 2 }) rfl]
    exact .inr (.jumps rfl (works_leap h rfl rfl rfl rfl (.refl _ _ _) h.sp) h.waiting)
  | jumpIfFalse =>
    simp only [perform, jumpIfFalse, Makes, yields_bind, yields_operand h.frames (one rfl), yields_pop]
    refine ⟨fun _ => trivial, fun _ _ => ?_⟩
    have hspares := hpop (m.sp - 1) (by omega)
    split
    · rw [yields_jumpTo (f := { f with ip := f.ip + 1 + 2 }) rfl]
      exact .inr (.branches rfl (.inl rfl) (works_leap h rfl rfl rfl rfl hspares (by dsimp only; omega)))
    · exact .inr (.branches rfl (.inr rfl) (works_leap h rfl rfl rfl rfl hspares (by dsimp only; omega)))
  | returnValue =>
    simp only [perform, Makes, yields_bind, yields_pop]
    refine ⟨fun _ => trivial, fun _ hlt => ?_⟩
    have hreturns := yields_returnFromFrame (t := ⟨t.world, _⟩)
      ((hamid (m.sp - 1)).write (t.machine.sp - 1) (hpop _ (by omega)))
    refine (hreturns _).mono (fun _ _ hu => .inr (.returns (.inl ⟨rfl, ?_⟩) hu)) fun _ he => he.elim
    rw [← h.stack, ← h.sp, Array.getElem?_eq_getElem hlt]
    rfl
  | returnNull =>
    simp only [perform, Makes, yields_bind]
    exact (yields_returnFromFrame (hamid _) _).mono (fun _ _ hu => .inr (.returns (.inr ⟨rfl, rfl⟩) hu))
      fun _ he => he.elim
  | tryEnter =>
    simp only [perform, tryEnter, Makes, yields_bind, yields_operand h.frames (two rfl).1]
    rw [yields_operand (f := { f with ip := f.ip + 1 + 2 }) rfl (two rfl).2]
    simp only [yields_modifyMachine, yields_pure]
    refine .inr (.opens rfl (.moved rfl ?_ h.waiting ?_ h.sp) h.waiting)
    · dsimp only
      rw [h.handlers, h.sp, Array.size_push, hframes]
    · dsimp only
      rw [h.stack]
      exact .refl _ _ _
  | finallyEnd =>
    simp only [perform, finallyEnd, Makes, yields_bind, yields_operand h.frames (one rfl),
      yields_modifyMachine, yields_pure]
    rw [yields_jumpTo (f := { f with ip := f.ip + 1 + 2 }) rfl]
    refine .inr (.closes rfl (.moved rfl ?_ h.waiting ?_ h.sp) h.waiting)
    · dsimp only
      rw [h.handlers]
    · dsimp only
      rw [h.stack]
      exact .refl _ _ _
  | throw =>
    simp only [perform, Makes, yields_bind, yields_pop]
    refine ⟨fun _ => trivial, fun _ hlt => ?_⟩
    have hthrows := amid_throwValue (t := ⟨t.world, _⟩)
      ((hamid (m.sp - 1)).write (t.machine.sp - 1) (hpop _ (by omega)))
    refine (hthrows _).mono (fun _ _ hu => .inr (.throws (fun _ => ?_) (fun hop => by cases hop) rfl hu))
      fun _ he => he.elim
    rw [← h.stack, ← h.sp, Array.getElem?_eq_getElem hlt]
    rfl
  | rethrow =>
    simp only [perform, rethrow, Makes, yields_bind, yields_pop]
    refine ⟨fun _ => trivial, fun hpos hlt => ⟨fun _ => trivial, fun hpos' hlt' => ?_⟩⟩
    have hspares := (hpop (m.sp - 2) (by omega)).set (k := t.machine.sp - 1 - 1) (by omega) .null
    split
    · next htrue =>
      have hthrows := amid_throwValue (t := ⟨t.world, _⟩)
        ((hamid (m.sp - 2)).write (t.machine.sp - 1 - 1) hspares)
      refine (hthrows _).mono (fun _ _ hu => .inr (.throws (fun hop => by cases hop)
        (fun _ => ⟨?_, fun b hb => ?_⟩) rfl hu)) fun _ he => he.elim
      rotate_left
      · rw [← h.stack, ← h.sp] at hb
        rw [hb] at htrue
        simpa [Value.isTruthy] using htrue
      rw [Array.size_setIfInBounds] at hlt'
      rw [← h.stack, ← h.sp, Array.getElem?_setIfInBounds_ne (by omega),
        show t.machine.sp - 1 - 1 = t.machine.sp - 2 by omega, Array.getElem?_eq_getElem (by omega)]
      rfl
    · next hfalse =>
      refine .inr (.resumes rfl (fun b hb => ?_)
        (works_leap h h.frames rfl rfl rfl hspares (by dsimp only; omega)) h.waiting)
      rw [← h.stack, ← h.sp] at hb
      rw [hb] at hfalse
      simpa [Value.isTruthy] using hfalse
  | halt => exact .inl rfl
  | _ => cases hplain

/-- What an instruction does whose opcode has been read. -/
theorem makes_perform (h : m.Fetches fs f t.machine) (hframes : m.frames.size = fs.size + 1)
    (hreads : readOperands? i.opcode f.code (f.ip + 1) = some i.read) (hsized : i.Sized)
    (hslot : ∀ k, i.slot? = some k → k < f.closure.function.locals) :
    Makes m fs f i (perform i.opcode) t := by
  cases hplain : i.opcode.isPlain with
  | false => exact makes_control h hframes hplain hreads hsized
  | true =>
    cases hcall : i.opcode.isCall with
    | false => exact makes_plain h hplain hcall hreads hsized hslot
    | true => exact makes_call h hcall hreads hsized

theorem dispatch_toByte (op : Opcode) : Opcode.dispatch op.toByte = some op := by
  rw [Opcode.dispatch_eq_ofByte?, Opcode.ofByte?_toByte]

/-- A step executes the instruction at which the running frame stands. -/
theorem makes_step (h : s.machine.frames = fs.push f) (hw : s.machine.waiting = none)
    (hcode : f.code[f.ip]? = some i.opcode.toByte)
    (hreads : readOperands? i.opcode f.code (f.ip + 1) = some i.read) (hsized : i.Sized)
    (hslot : ∀ k, i.slot? = some k → k < f.closure.function.locals) :
    Makes s.machine fs f i step s := by
  unfold step Makes
  simp only [yields_bind, yields_currentFrame h, hcode, yields_modifyFrame h, yields_modifyMachine,
    dispatch_toByte]
  refine makes_perform ⟨rfl, rfl, hw, rfl, rfl⟩ ?_ hreads hsized hslot
  rw [h, Array.size_push]

/-- A fault that can be caught is thrown as a value. -/
theorem yields_catching {P : Signal → State → Prop} {E : State → Prop} (h : Yields True advance s P E)
    (hE : ∀ t, E t → ∀ v, Yields True (throwValue v) t (fun _ u => P .next u) fun _ => True) :
    Yields True advanceCatching s P fun _ => True := by
  unfold Yields at h
  unfold advanceCatching Yields
  rw [tryCatch_apply]
  cases hadvance : advance s with
  | ok a t =>
    rw [hadvance] at h
    exact h
  | error e t =>
    rw [hadvance] at h
    cases e with
    | crash => trivial
    | fault f =>
      show Yields True (do
        if f.cause.isCatchable && !(← getMachine).handlers.isEmpty then
          throwValue (f.toValue (← getHeap))
          return Signal.next
        else throw (.fault f)) t P fun _ => True
      simp only [yields_getMachine, yields_bind, yields_ite, Bool.and_eq_true]
      refine ⟨fun hcond => ?_, fun _ => ⟨fun _ => trivial, fun _ => trivial⟩⟩
      simp only [yields_getHeap, yields_pure]
      exact hE t (h.2 hcond.1) _

/-- A turn of a machine that does not wait executes an instruction, and throws what it raises. -/
theorem yields_advanceCatching (h : s.machine.frames = fs.push f) (hw : s.machine.waiting = none)
    (hcode : f.code[f.ip]? = some i.opcode.toByte)
    (hreads : readOperands? i.opcode f.code (f.ip + 1) = some i.read) (hsized : i.Sized)
    (hslot : ∀ k, i.slot? = some k → k < f.closure.function.locals) :
    Yields True advanceCatching s
      (fun signal t => signal = .halt ∨ s.machine.Turns fs f i t.machine) fun _ => True := by
  have hadvance : Makes s.machine fs f i advance s := by
    unfold advance Makes
    simp only [yields_bind, yields_getMachine, hw]
    exact makes_step h hw hcode hreads hsized hslot
  refine yields_catching hadvance fun t ht v => ?_
  obtain ⟨hbreaks, hthrow, hrethrow, hsure⟩ := ht
  obtain ⟨g, hg, hsame⟩ := hbreaks.frames
  refine (yields_throwValue hg hbreaks.waiting (s.machine.sp - i.takes) v).mono (fun _ u hu => .inr ?_)
    fun _ he => he.elim
  exact .throws (fun hop => (hthrow hop).elim) (fun hop => (hrethrow hop).elim) hsure
    (hu.after hbreaks hsame)

/-- A turn of a machine that waits works towards the value that it waits for, or throws. -/
theorem yields_advanceCatching_waiting (h : s.machine.frames = fs.push f) {w : Wait}
    (hw : s.machine.waiting = some w) :
    Yields True advanceCatching s
      (fun _ t => s.machine.Works fs f s.machine.sp f.ip (s.machine.sp + 1) t.machine ∨
        ∃ v, s.machine.Throws fs f s.machine.sp v t.machine) fun _ => True := by
  have hpoll : Yields True advance s
      (fun _ t => s.machine.Works fs f s.machine.sp f.ip (s.machine.sp + 1) t.machine)
      fun t => s.machine.Breaks fs f s.machine.sp t.machine := by
    unfold advance poll
    simp only [yields_bind, yields_getMachine, hw, yields_modifyMachine]
    have hspares : f.Spares (s.machine.sp - 0) s.machine.stack s.machine.stack := .refl _ _ _
    have hdone : ∀ {x : Exec Unit}, Does True x ⟨s.world, { s.machine with waiting := none }⟩ fs f 0 0 1 →
        Yields True x ⟨s.world, { s.machine with waiting := none }⟩
          (fun _ t => s.machine.Works fs f s.machine.sp f.ip (s.machine.sp + 1) t.machine)
          fun t => s.machine.Breaks fs f s.machine.sp t.machine := by
      intro x hx
      exact hx.after (s := s) (t := ⟨s.world, _⟩) rfl hspares rfl
    split
    · simp only [yields_bind, yields_getMachine, yields_pure]
      exact hdone (does_trySend (by exact h) rfl _ _)
    · simp only [yields_bind, yields_getMachine, yields_pure]
      exact hdone (does_tryFinishSend (by exact h) rfl _ _)
    · simp only [yields_bind, yields_getMachine, yields_pure]
      exact hdone (does_tryReceive (by exact h) rfl _)
  refine yields_catching (hpoll.mono (fun _ _ ht => .inl ht) fun _ he => he) fun t ht v => ?_
  obtain ⟨g, hg, hsame⟩ := ht.frames
  exact (yields_throwValue hg ht.waiting s.machine.sp v).mono
    (fun _ u hu => .inr ⟨v, hu.after ht hsame⟩) fun _ he => he.elim

end

end Exec

end ScriptMachine
