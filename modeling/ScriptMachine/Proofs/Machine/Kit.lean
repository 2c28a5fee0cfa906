import ScriptMachine.Proofs.Machine.Triple
import ScriptMachine.Task.Basic

/-!
# What a machine is given

A machine is given its constants, its top-level block, its host functions and its settings when it is
made. Executions work on the stack, on frames and handlers, on the heap and on the globals. They never
change what the machine was given, and a task that they start is given the same.

A property of states is steady if all that can end it is another kit or the loss of a task that was started. It is
tame if it can also be ended by a value that is dropped, by an instruction that begins, or by a global that is
written: of the instructions, `pop` and `setGlobal` alone can end it. `Exec.Leaves I x` says that `x` keeps the
property `I`. There is one lemma for each primitive move and each instruction; `Run.proceed_given` and the like are
about whole runs.
-/

namespace ScriptMachine

/-- What a machine is given when it is made. -/
structure Kit where
  constants : Array Value
  main : Closure
  registry : Registry
  settings : Settings

def Machine.kit (m : Machine) : Kit := ⟨m.constants, m.main, m.registry, m.settings⟩

/-- What a machine remembers of its instructions: the value dropped last, and where the current one stands. -/
def Machine.memory (m : Machine) : Value × Nat := (m.lastPopped, m.opOffset)

/-- The machine and the tasks that were started and not taken over yet have been given things with
`P`. -/
structure State.Given (P : Kit → Prop) (s : State) : Prop where
  machine : P s.machine.kit
  spawned : ∀ t ∈ s.world.spawned, P t.machine.kit

/-- A property of states that depends on the kit of the machine and on the tasks that were started, and that a task
which is given the same kit does not end. -/
class State.Steady (I : State → Prop) : Prop where
  machine : ∀ {s : State} {m : Machine}, I s → m.kit = s.machine.kit → I ⟨s.world, m⟩
  world : ∀ {s : State} {w : World}, I s → w.spawned = s.world.spawned → I ⟨w, s.machine⟩
  spawn : ∀ {s : State} {t : Spawned}, I s → t.machine.kit = s.machine.kit →
    I ⟨{ s.world with spawned := s.world.spawned.push t }, s.machine⟩

/-- A property of states that may depend on what the machine remembers and on the globals, too. -/
class State.Tame (I : State → Prop) : Prop where
  machine : ∀ {s : State} {m : Machine}, I s → m.kit = s.machine.kit → m.memory = s.machine.memory → I ⟨s.world, m⟩
  world : ∀ {s : State} {w : World}, I s → w.spawned = s.world.spawned → w.globals = s.world.globals →
    I ⟨w, s.machine⟩
  spawn : ∀ {s : State} {t : Spawned}, I s → t.machine.kit = s.machine.kit →
    I ⟨{ s.world with spawned := s.world.spawned.push t }, s.machine⟩

instance (I : State → Prop) [State.Steady I] : State.Tame I where
  machine hs hkit _ := State.Steady.machine hs hkit
  world hs hspawned _ := State.Steady.world hs hspawned
  spawn hs hkit := State.Steady.spawn hs hkit

instance (P : Kit → Prop) : State.Steady (State.Given P) where
  machine := by
    intro s m hs hkit
    exact ⟨(congrArg P hkit).mpr hs.machine, hs.spawned⟩
  world := by
    intro s w hs hspawned
    refine ⟨hs.machine, ?_⟩
    rw [hspawned]
    exact hs.spawned
  spawn := by
    intro s t hs hkit
    have ht : P t.machine.kit := (congrArg P hkit).mpr hs.machine
    exact ⟨hs.machine, Array.forall_mem_push.mpr ⟨ht, hs.spawned⟩⟩

namespace Exec

/-- However `x` ends, `I` holds again. -/
abbrev Leaves {α : Type} (I : State → Prop) (x : Exec α) : Prop := Keeps I (fun _ => True) x fun _ => True

section

variable {α β : Type} {I : State → Prop} {x : Exec α}

theorem Leaves.bind {f : α → Exec β} (hx : Leaves I x) (hf : ∀ a, Leaves I (f a)) : Leaves I (x >>= f) :=
  Keeps.seq hx hf

theorem leaves_pure (a : α) : Leaves I (pure a) := keeps_pure trivial

theorem leaves_throw (e : Abort) : Leaves I (throw e : Exec α) := triple_throw fun _ hs => ⟨hs, trivial⟩

/-! ## Primitive moves -/

theorem leaves_raise (c : Cause) : Leaves I (raise c : Exec α) := keeps_raise fun _ => trivial

theorem leaves_defect (d : Defect) : Leaves I (defect d : Exec α) := leaves_raise _

theorem leaves_ofExcept (e : Except Cause α) : Leaves I (ofExcept e) :=
  keeps_ofExcept (fun _ => trivial) fun _ _ => trivial

theorem leaves_getMachine : Leaves I getMachine := keeps_getMachine fun _ _ => trivial

theorem leaves_getHeap : Leaves I getHeap := keeps_getHeap fun _ _ => trivial

theorem leaves_get : Leaves I (get : Exec State) := keeps_get fun _ _ => trivial

variable [State.Tame I]

-- moves that only read keep any property, but callers should not have to tell them from the others
set_option linter.unusedSectionVars false

/-- The private state of a machine changes. -/
theorem leaves_modifyMachine {f : Machine → Machine} (hkit : ∀ m, (f m).kit = m.kit)
    (hmemory : ∀ m, (f m).memory = m.memory) : Leaves I (modifyMachine f) := by
  apply keeps_modifyMachine
  intro s hs
  exact State.Tame.machine hs (hkit s.machine) (hmemory s.machine)

theorem leaves_modifyHeap (f : Heap → Heap) : Leaves I (modifyHeap f) :=
  keeps_modifyHeap fun _ hs => State.Tame.world hs rfl rfl

theorem leaves_allocate (f : Heap → α × Heap) : Leaves I (allocate f) :=
  keeps_allocate fun _ hs => ⟨State.Tame.world hs rfl rfl, trivial⟩

theorem leaves_push (v : Value) : Leaves I (push v) := by
  refine leaves_getMachine.bind fun m => ?_
  split
  · exact leaves_raise _
  · exact leaves_modifyMachine (fun _ => rfl) fun _ => rfl

theorem leaves_noSlot (index : Nat) : Leaves I (noSlot index : Exec α) :=
  leaves_getMachine.bind fun _ => leaves_throw _

theorem leaves_noSlots (start stop : Nat) : Leaves I (noSlots start stop : Exec α) :=
  leaves_getMachine.bind fun _ => leaves_throw _

theorem leaves_getSlot (slot : Nat) : Leaves I (getSlot slot) := by
  refine leaves_getMachine.bind fun m => ?_
  split
  · exact leaves_pure _
  · exact leaves_noSlot _

theorem leaves_setSlot (slot : Nat) (v : Value) : Leaves I (setSlot slot v) := by
  refine leaves_getMachine.bind fun m => ?_
  split
  · exact leaves_noSlot _
  · exact leaves_modifyMachine (fun _ => rfl) fun _ => rfl

theorem leaves_pop : Leaves I pop := by
  refine leaves_getMachine.bind fun m => ?_
  split
  · exact leaves_defect _
  · refine (leaves_getSlot _).bind fun v => Leaves.bind (leaves_modifyMachine (fun _ => rfl) fun _ => rfl) fun _ => ?_
    exact leaves_pure v

theorem leaves_peek : Leaves I peek := by
  refine leaves_getMachine.bind fun m => ?_
  split
  · exact leaves_defect _
  · exact leaves_getSlot _

theorem leaves_setSp (sp : Nat) : Leaves I (setSp sp) := by
  refine leaves_getMachine.bind fun m => ?_
  split
  · exact leaves_noSlots _ _
  · exact leaves_modifyMachine (fun _ => rfl) fun _ => rfl

theorem leaves_slotsFrom (start : Nat) : Leaves I (slotsFrom start) := by
  refine leaves_getMachine.bind fun m => ?_
  split
  · exact leaves_noSlots _ _
  · exact leaves_pure _

theorem leaves_takeTop (count : Nat) : Leaves I (takeTop count) := by
  refine leaves_getMachine.bind fun m => ?_
  split
  · exact leaves_defect _
  · exact (leaves_slotsFrom _).bind fun vs => (leaves_setSp _).bind fun _ => leaves_pure vs

theorem leaves_calleeSlot (argc : Nat) : Leaves I (calleeSlot argc) := by
  refine leaves_getMachine.bind fun m => ?_
  split
  · exact leaves_defect _
  · exact leaves_pure _

/-! ## The running frame -/

theorem leaves_currentFrame : Leaves I currentFrame := by
  refine leaves_getMachine.bind fun m => ?_
  split
  · exact leaves_pure _
  · exact leaves_defect _

theorem leaves_modifyFrame (g : Frame → Frame) : Leaves I (modifyFrame g) :=
  leaves_modifyMachine (fun _ => rfl) fun _ => rfl

theorem leaves_jumpTo (target : Nat) : Leaves I (jumpTo target) := by
  have hmap : discard currentFrame = (fun _ => PUnit.unit) <$> currentFrame := rfl
  unfold jumpTo
  rw [hmap]
  exact (Keeps.map leaves_currentFrame).seq fun _ => leaves_modifyFrame _

theorem leaves_operand (width : Nat) : Leaves I (operand width) := by
  refine leaves_currentFrame.bind fun f => ?_
  split
  · exact (leaves_modifyFrame _).bind fun _ => leaves_pure _
  · exact leaves_defect _

theorem leaves_localOperand : Leaves I localOperand := by
  refine (leaves_operand 1).bind fun index => leaves_currentFrame.bind fun f => ?_
  refine leaves_getMachine.bind fun m => ?_
  split
  · exact leaves_defect _
  · exact leaves_pure _

theorem leaves_freeCell (index : Nat) : Leaves I (freeCell index) := by
  refine leaves_currentFrame.bind fun f => ?_
  split
  · exact leaves_pure _
  · exact leaves_defect _

theorem leaves_constant (index : Nat) : Leaves I (constant index) := by
  refine leaves_getMachine.bind fun m => ?_
  split
  · exact leaves_pure _
  · exact leaves_defect _

theorem leaves_constantName (index : Nat) : Leaves I (constantName index) := by
  refine (leaves_constant index).bind fun v => ?_
  split
  · exact leaves_pure _
  · exact leaves_defect _

/-! ## Calls, returns and throws -/

theorem leaves_pushFrame (closure : Closure) (base : Nat) (kind : FrameKind) :
    Leaves I (pushFrame closure base kind) := by
  refine leaves_getMachine.bind fun m => ?_
  split
  · exact leaves_raise _
  · dsimp only
    split
    · exact leaves_raise _
    · exact (leaves_setSp _).bind fun _ => leaves_modifyMachine (fun _ => rfl) fun _ => rfl

theorem leaves_returnFromFrame (v : Value) : Leaves I (returnFromFrame v) := by
  refine Leaves.bind (leaves_modifyMachine (fun _ => rfl) fun _ => rfl) fun _ => leaves_getMachine.bind fun m => ?_
  split
  · exact leaves_defect _
  · refine Leaves.bind (leaves_modifyMachine (fun _ => rfl) fun _ => rfl) fun _ => ?_
    exact (leaves_setSp _).bind fun _ => leaves_push _

theorem leaves_throwValue (v : Value) : Leaves I (throwValue v) := by
  refine leaves_getMachine.bind fun m => ?_
  split
  · exact leaves_raise _
  · refine Leaves.bind (leaves_modifyMachine (fun _ => rfl) fun _ => rfl) fun _ => ?_
    refine (leaves_setSp _).bind fun _ => (leaves_push v).bind fun _ => ?_
    split
    · exact leaves_jumpTo _
    · exact (leaves_push _).bind fun _ => leaves_jumpTo _
    · exact leaves_defect _

theorem leaves_deliverNative (v : Value) : Leaves I (deliverNative v) := by
  unfold deliverNative
  split
  · split
    · exact (leaves_pure _).bind fun _ => leaves_throwValue _
    · exact leaves_getMachine.bind fun _ => (leaves_pure _).bind fun _ => leaves_throwValue _
  · exact leaves_push _

/-- A host function works on the heap. -/
theorem leaves_callNative (id slot : Nat) : Leaves I (callNative id slot) := by
  refine (leaves_slotsFrom _).bind fun args => Leaves.bind (triple_modifyGet fun s hs => ?_) fun outcome => ?_
  · split <;> exact ⟨State.Tame.world hs rfl rfl, trivial⟩
  · cases outcome with
    | crash message => exact leaves_throw _
    | value v => exact (leaves_setSp _).bind fun _ => leaves_deliverNative _

theorem leaves_pushNulls (count : Nat) : Leaves I (pushNulls count) := by
  induction count with
  | zero => exact leaves_pure _
  | succ count ih => exact (leaves_push _).bind fun _ => ih

theorem leaves_construct (c : Class) (slot argc : Nat) : Leaves I (construct c slot argc) := by
  refine (leaves_slotsFrom _).bind fun args => (leaves_allocate _).bind fun object => ?_
  split
  · exact (leaves_setSp _).bind fun _ => leaves_push _
  · refine (leaves_setSlot _ _).bind fun _ => ?_
    dsimp only
    split
    · exact leaves_getMachine.bind fun m => (leaves_setSp _).bind fun _ => leaves_pushFrame _ _ _
    · exact (leaves_pushNulls _).bind fun _ => leaves_pushFrame _ _ _

theorem leaves_checkArity (closure : Closure) (argc : Nat) : Leaves I (checkArity closure argc) := by
  unfold checkArity
  dsimp only
  split
  · exact leaves_raise _
  · exact leaves_pure _

theorem leaves_callValue (argc : Nat) : Leaves I (callValue argc) := by
  refine (leaves_calleeSlot argc).bind fun slot => (leaves_getSlot slot).bind fun callee => ?_
  split
  · exact (leaves_checkArity _ _).bind fun _ => leaves_pushFrame _ _ _
  · exact leaves_callNative _ _
  · exact leaves_construct _ _ _
  · exact leaves_raise _

theorem leaves_callMethod (method : Closure) (slot argc : Nat) : Leaves I (callMethod method slot argc) :=
  (leaves_checkArity _ _).bind fun _ => leaves_pushFrame _ _ _

theorem leaves_missingMethod (slot : Nat) : Leaves I (missingMethod slot) :=
  (leaves_setSp slot).bind fun _ => leaves_push _

theorem leaves_invoke (name : String) (argc : Nat) : Leaves I (invoke name argc) := by
  refine (leaves_calleeSlot argc).bind fun slot => (leaves_getSlot slot).bind fun receiver => ?_
  refine leaves_getHeap.bind fun h => ?_
  split
  · exact leaves_raise _
  · split
    · exact (leaves_setSlot _ _).bind fun _ => leaves_callValue _
    · dsimp only
      split
      · exact leaves_callMethod _ _ _
      · exact leaves_missingMethod _

theorem leaves_invokeSuper (name : String) (argc : Nat) : Leaves I (invokeSuper name argc) := by
  refine leaves_pop.bind fun v => ?_
  split
  · refine (leaves_calleeSlot argc).bind fun slot => ?_
    split
    · exact leaves_callMethod _ _ _
    · exact leaves_missingMethod _
  · exact leaves_defect _

/-- A task is given what the machine that starts it was given. -/
theorem leaves_spawnTask (argc : Nat) : Leaves I (spawnTask argc) := by
  refine (leaves_calleeSlot argc).bind fun slot => (leaves_getSlot slot).bind fun callee => ?_
  split
  · exact leaves_raise _
  · refine (leaves_takeTop argc).bind fun args => (leaves_setSp _).bind fun _ => ?_
    refine (leaves_allocate _).bind fun result => Leaves.bind (keeps_modify fun s hs => ?_) fun _ => leaves_push _
    exact State.Tame.spawn hs rfl

/-! ## Instructions -/

theorem leaves_getLocal : Leaves I getLocal := by
  refine leaves_localOperand.bind fun place => leaves_currentFrame.bind fun f => ?_
  split
  · exact leaves_getHeap.bind fun _ => leaves_push _
  · exact (leaves_getSlot _).bind fun _ => leaves_push _

theorem leaves_setLocal : Leaves I setLocal := by
  refine leaves_localOperand.bind fun place => leaves_peek.bind fun v => leaves_currentFrame.bind fun f => ?_
  split
  · exact leaves_modifyHeap _
  · exact leaves_setSlot _ _

theorem leaves_getGlobal : Leaves I getGlobal :=
  (leaves_operand 2).bind fun _ => leaves_get.bind fun _ => leaves_push _

theorem leaves_getFree : Leaves I getFree :=
  (leaves_operand 1).bind fun _ => (leaves_freeCell _).bind fun _ => leaves_getHeap.bind fun _ => leaves_push _

theorem leaves_setFree : Leaves I setFree :=
  (leaves_operand 1).bind fun _ => leaves_peek.bind fun _ => (leaves_freeCell _).bind fun _ => leaves_modifyHeap _

theorem leaves_getBuiltin : Leaves I getBuiltin := by
  refine (leaves_operand 1).bind fun _ => leaves_getMachine.bind fun m => ?_
  split
  · exact leaves_push _
  · exact leaves_defect _

theorem leaves_queueCapture (ref : Ref) : Leaves I (queueCapture ref) :=
  leaves_modifyMachine (fun _ => rfl) fun _ => rfl

theorem leaves_captureLocal : Leaves I captureLocal := by
  refine leaves_localOperand.bind fun place => (leaves_getSlot _).bind fun v => leaves_currentFrame.bind fun f => ?_
  refine (leaves_allocate _).bind fun p => ?_
  exact (leaves_modifyFrame _).bind fun _ => leaves_queueCapture _

theorem leaves_captureFree : Leaves I captureFree :=
  (leaves_operand 1).bind fun _ => (leaves_freeCell _).bind fun _ => leaves_queueCapture _

theorem leaves_captureSelf : Leaves I captureSelf :=
  leaves_currentFrame.bind fun _ => (leaves_allocate _).bind fun _ => leaves_queueCapture _

theorem leaves_binary (op : BinaryOp) : Leaves I (binary op) :=
  leaves_pop.bind fun _ => leaves_pop.bind fun _ => leaves_getHeap.bind fun _ =>
    (leaves_ofExcept _).bind fun _ => leaves_push _

theorem leaves_jumpIfFalse : Leaves I jumpIfFalse := by
  refine (leaves_operand 2).bind fun target => leaves_pop.bind fun v => ?_
  split
  · exact leaves_jumpTo _
  · exact leaves_pure _

theorem leaves_makeClosure : Leaves I makeClosure := by
  refine (leaves_operand 2).bind fun index => (leaves_operand 1).bind fun count => ?_
  refine (leaves_constant index).bind fun v => ?_
  split
  · refine leaves_getMachine.bind fun m => ?_
    dsimp only
    split
    · exact leaves_defect _
    · refine Leaves.bind (leaves_modifyMachine (fun _ => rfl) fun _ => rfl) fun _ => ?_
      exact (leaves_allocate _).bind fun _ => leaves_push _
  · exact leaves_defect _

theorem leaves_makeArray : Leaves I makeArray :=
  (leaves_operand 2).bind fun _ => (leaves_takeTop _).bind fun _ => (leaves_allocate _).bind fun _ =>
    leaves_push _

theorem leaves_collectEntries (d : Dict Key Value) (vs : List Value) : Leaves I (collectEntries d vs) :=
  keeps_collectEntries (fun _ => trivial) trivial fun _ _ _ _ _ => trivial

theorem leaves_makeHash : Leaves I makeHash :=
  (leaves_operand 2).bind fun _ => (leaves_takeTop _).bind fun _ => (leaves_collectEntries _ _).bind fun _ =>
    (leaves_allocate _).bind fun _ => leaves_push _

theorem leaves_makeMap : Leaves I makeMap :=
  (leaves_operand 2).bind fun _ => (leaves_takeTop _).bind fun _ => (leaves_collectEntries _ _).bind fun _ =>
    (leaves_allocate _).bind fun _ => leaves_push _

theorem leaves_getIndex : Leaves I getIndex :=
  leaves_pop.bind fun _ => leaves_pop.bind fun _ => leaves_getHeap.bind fun _ =>
    (leaves_ofExcept _).bind fun _ => leaves_push _

theorem leaves_setIndex : Leaves I setIndex :=
  leaves_pop.bind fun _ => leaves_pop.bind fun _ => leaves_pop.bind fun _ => leaves_getHeap.bind fun _ =>
    (leaves_ofExcept _).bind fun _ => (leaves_modifyHeap _).bind fun _ => leaves_push _

theorem leaves_getProperty : Leaves I getProperty :=
  (leaves_operand 2).bind fun _ => (leaves_constantName _).bind fun _ => leaves_pop.bind fun _ =>
    leaves_getHeap.bind fun _ => (leaves_ofExcept _).bind fun _ => leaves_push _

theorem leaves_setProperty : Leaves I setProperty :=
  (leaves_operand 2).bind fun _ => (leaves_constantName _).bind fun _ => leaves_pop.bind fun _ =>
    leaves_pop.bind fun _ => (leaves_ofExcept _).bind fun _ => (leaves_modifyHeap _).bind fun _ => leaves_push _

theorem leaves_tryEnter : Leaves I tryEnter :=
  (leaves_operand 2).bind fun _ => (leaves_operand 2).bind fun _ => leaves_modifyMachine (fun _ => rfl) fun _ => rfl

theorem leaves_finallyEnd : Leaves I finallyEnd :=
  (leaves_operand 2).bind fun _ => Leaves.bind (leaves_modifyMachine (fun _ => rfl) fun _ => rfl) fun _ =>
    leaves_jumpTo _

theorem leaves_rethrow : Leaves I rethrow := by
  refine leaves_pop.bind fun pending => leaves_pop.bind fun v => ?_
  split
  · exact leaves_throwValue _
  · exact leaves_pure _

theorem leaves_makeChannel : Leaves I makeChannel := by
  refine (leaves_operand 1).bind fun flag => ?_
  have hmake : ∀ capacity : Nat, Leaves I (do
      let ref ← allocate fun h => h.newChannel (some capacity)
      push (.channel ref (some capacity))) := fun _ => (leaves_allocate _).bind fun _ => leaves_push _
  split
  · exact (leaves_pure _).bind fun _ => hmake _
  · refine leaves_pop.bind fun v => ?_
    split
    · split
      · exact (leaves_pure _).bind fun _ => hmake _
      · exact (leaves_raise _).bind fun _ => hmake _
    · exact leaves_getHeap.bind fun _ => (leaves_raise _).bind fun _ => hmake _

theorem leaves_waitFor (w : Wait) : Leaves I (waitFor w) := leaves_modifyMachine (fun _ => rfl) fun _ => rfl

theorem leaves_trySend (ch : Ref) (v : Value) : Leaves I (trySend ch v) := by
  refine (leaves_allocate _).bind fun outcome => ?_
  split
  · exact leaves_raise _
  · exact leaves_waitFor _
  · exact leaves_push _
  · exact leaves_waitFor _

theorem leaves_tryReceive (ch : Ref) : Leaves I (tryReceive ch) := by
  refine (leaves_allocate _).bind fun outcome => ?_
  split
  · exact leaves_push _
  · exact leaves_push _
  · exact leaves_waitFor _

theorem leaves_tryFinishSend (ch : Ref) (ticket : Nat) : Leaves I (tryFinishSend ch ticket) := by
  refine leaves_getHeap.bind fun h => ?_
  split
  · exact leaves_push _
  · exact leaves_waitFor _

theorem leaves_send : Leaves I send := by
  refine leaves_pop.bind fun v => leaves_pop.bind fun w => ?_
  split
  · exact leaves_trySend _ _
  · exact leaves_raise _

theorem leaves_receive : Leaves I receive := by
  refine leaves_pop.bind fun v => ?_
  split
  · exact leaves_tryReceive _
  · exact leaves_raise _

theorem leaves_poll (w : Wait) : Leaves I (poll w) := by
  refine Leaves.bind (leaves_modifyMachine (fun _ => rfl) fun _ => rfl) fun _ => ?_
  have hend : Leaves I (do return if (← getMachine).waiting.isSome then Signal.blocked else .next) :=
    leaves_getMachine.bind fun _ => leaves_pure _
  split
  · exact (leaves_trySend _ _).bind fun _ => hend
  · exact (leaves_tryFinishSend _ _).bind fun _ => hend
  · exact (leaves_tryReceive _).bind fun _ => hend

/-- An instruction that neither drops a value nor writes a global. -/
theorem leaves_perform_of_ne {op : Opcode} (hpop : op ≠ .pop) (hset : op ≠ .setGlobal) : Leaves I (perform op) := by
  have next : ∀ {x : Exec Unit}, Leaves I x → Leaves I (x >>= fun _ => pure Signal.next) :=
    fun hx => hx.bind fun _ => leaves_pure _
  cases op with
  | constant => exact (leaves_operand 2).bind fun _ => (leaves_constant _).bind fun _ => next (leaves_push _)
  | null | pushTrue | pushFalse => exact next (leaves_push _)
  | getLocal => exact next leaves_getLocal
  | setLocal => exact next leaves_setLocal
  | getGlobal => exact next leaves_getGlobal
  | setGlobal => exact absurd rfl hset
  | getFree => exact next leaves_getFree
  | setFree => exact next leaves_setFree
  | getBuiltin => exact next leaves_getBuiltin
  | currentClosure => exact leaves_currentFrame.bind fun _ => next (leaves_push _)
  | captureLocal => exact next leaves_captureLocal
  | captureFree => exact next leaves_captureFree
  | captureSelf => exact next leaves_captureSelf
  | add | sub | mul | div | mod | equal | notEqual | greater | greaterEqual => exact next (leaves_binary _)
  | negate => exact leaves_pop.bind fun _ => (leaves_ofExcept _).bind fun _ => next (leaves_push _)
  | not => exact leaves_pop.bind fun _ => next (leaves_push _)
  | jump => exact (leaves_operand 2).bind fun _ => next (leaves_jumpTo _)
  | jumpIfFalse => exact next leaves_jumpIfFalse
  | call => exact (leaves_operand 1).bind fun _ => next (leaves_callValue _)
  | returnValue => exact leaves_pop.bind fun _ => next (leaves_returnFromFrame _)
  | returnNull => exact next (leaves_returnFromFrame _)
  | closure => exact next leaves_makeClosure
  | array => exact next leaves_makeArray
  | hash => exact next leaves_makeHash
  | orderedMap => exact next leaves_makeMap
  | getIndex => exact next leaves_getIndex
  | setIndex => exact next leaves_setIndex
  | pop => exact absurd rfl hpop
  | dup => exact leaves_peek.bind fun _ => next (leaves_push _)
  | getProperty => exact next leaves_getProperty
  | setProperty => exact next leaves_setProperty
  | invoke =>
    exact next ((leaves_operand 2).bind fun _ => (leaves_constantName _).bind fun _ =>
      (leaves_operand 1).bind fun _ => leaves_invoke _ _)
  | invokeSuper =>
    exact next ((leaves_operand 2).bind fun _ => (leaves_constantName _).bind fun _ =>
      (leaves_operand 1).bind fun _ => leaves_invokeSuper _ _)
  | tryEnter => exact next leaves_tryEnter
  | finallyEnd => exact next leaves_finallyEnd
  | throw => exact leaves_pop.bind fun _ => next (leaves_throwValue _)
  | rethrow => exact next leaves_rethrow
  | spawn => exact (leaves_operand 1).bind fun _ => next (leaves_spawnTask _)
  | channel => exact next leaves_makeChannel
  | send => exact next leaves_send
  | receive => exact next leaves_receive
  | halt => exact leaves_pure _

/-! ## Beginning and ending runs -/

/-- What becomes of a fault while a handler is active. -/
theorem leaves_catching (f : Fault) : Leaves I (do
    if f.cause.isCatchable && !(← getMachine).handlers.isEmpty then
      throwValue (f.toValue (← getHeap))
      return .next
    else throw (.fault f) : Exec Signal) := by
  refine leaves_getMachine.bind fun m => ?_
  split
  · exact leaves_getHeap.bind fun h => (leaves_throwValue _).bind fun _ => leaves_pure _
  · exact leaves_throw _

theorem leaves_reset : Leaves I reset :=
  Leaves.bind (leaves_modifyMachine (fun _ => rfl) fun _ => rfl) fun _ => leaves_setSp _

theorem leaves_pushAll (vs : List Value) : Leaves I (pushAll vs) := by
  induction vs with
  | nil => exact leaves_pure _
  | cons v vs ih => exact (leaves_push v).bind fun _ => ih

theorem leaves_beginCall (callee : Value) (args : List Value) : Leaves I (beginCall callee args) :=
  (leaves_push callee).bind fun _ => (leaves_pushAll args).bind fun _ => leaves_callValue _

theorem leaves_abandonCall (stop sp : Nat) : Leaves I (abandonCall stop sp) :=
  Leaves.bind (leaves_modifyMachine (fun _ => rfl) fun _ => rfl) fun _ => leaves_setSp _

end

/-! ## Steps and runs -/

section

variable {I : State → Prop} [State.Steady I]

theorem leaves_setGlobal : Leaves I setGlobal :=
  (leaves_operand 2).bind fun _ => leaves_peek.bind fun _ => keeps_modify fun _ hs =>
    State.Steady.world hs rfl

theorem leaves_perform (op : Opcode) : Leaves I (perform op) := by
  have next : ∀ {x : Exec Unit}, Leaves I x → Leaves I (x >>= fun _ => pure Signal.next) :=
    fun hx => hx.bind fun _ => leaves_pure _
  by_cases hpop : op = .pop
  · subst hpop
    exact leaves_pop.bind fun _ => next (keeps_modifyMachine fun _ hs => State.Steady.machine hs rfl)
  · by_cases hset : op = .setGlobal
    · subst hset
      exact next leaves_setGlobal
    · exact leaves_perform_of_ne hpop hset

theorem leaves_step : Leaves I step := by
  refine leaves_currentFrame.bind fun frame => ?_
  dsimp only
  split
  · exact leaves_pure _
  · next byte _ =>
    generalize Opcode.dispatch byte = op?
    refine (leaves_modifyFrame _).bind fun _ => ?_
    refine Leaves.bind (keeps_modifyMachine fun _ hs => State.Steady.machine hs rfl) fun _ => ?_
    cases op? with
    | none => exact leaves_raise _
    | some op => exact leaves_perform op

theorem leaves_advance : Leaves I advance := by
  refine leaves_getMachine.bind fun m => ?_
  split
  · exact leaves_poll _
  · exact leaves_step

theorem leaves_advanceCatching : Leaves I advanceCatching := by
  refine Triple.handle leaves_advance fun e => Triple.pre (I := I) ?_ fun _ hs => hs.1
  cases e with
  | crash message => exact leaves_throw _
  | fault f => exact leaves_catching f

/-- Any number of steps. -/
theorem execute_given (stop fuel : Nat) {s : State} (hs : I s) : I (execute stop fuel s).2 := by
  induction fuel generalizing s with
  | zero => exact hs
  | succ fuel ih =>
    unfold execute
    split
    · exact hs
    · cases hrun : advanceCatching.run s with
      | ok signal t =>
        have ht := (leaves_advanceCatching.ok hs hrun).1
        cases signal with
        | next => exact ih ht
        | halt | blocked => exact ht
      | error e t => exact (leaves_advanceCatching.error hs hrun).1

end

end Exec

namespace Run

/-- The number of frames at which the execution of a run ends. -/
def stop : Run → Nat
  | .block => 0
  | .call stop _ => stop

section

variable {I : State → Prop} [State.Tame I] {s : State}

theorem endCall_given (stop sp : Nat) (result : Except Abort Unit) (hs : I s) :
    I (endCall stop sp result s).2 := by
  unfold endCall
  extract_lets attempt
  have hattempt : Exec.Leaves I attempt := by
    cases result with
    | ok _ => exact Exec.leaves_pop
    | error e => exact Exec.leaves_throw e
  split
  · next hrun => exact (hattempt.ok hs hrun).1
  · next hrun =>
    have ht := (hattempt.error hs hrun).1
    split
    · next habandon => exact ((Exec.leaves_abandonCall stop sp).ok ht habandon).1
    · next habandon => exact ((Exec.leaves_abandonCall stop sp).error ht habandon).1

theorem endBlock_given (result : Except Abort Unit) (hs : I s) : I (endBlock result s).2 := by
  unfold endBlock
  split
  · next hreset => exact (Exec.leaves_reset.ok hs hreset).1
  · next hreset => exact (Exec.leaves_reset.error hs hreset).1

/-- Whatever comes after its steps, a run keeps. -/
theorem proceed_of_execute (fuel : Nat) (run : Run) (hs : I (Exec.execute run.stop fuel s).2) :
    I (run.proceed fuel s).2 := by
  cases run with
  | block =>
    have hsteps : I (Exec.execute 0 fuel s).2 := hs
    simp only [proceed]
    generalize Exec.execute 0 fuel s = round at hsteps
    obtain ⟨pause, t⟩ := round
    cases pause with
    | finished result => exact endBlock_given result hsteps
    | blocked | outOfFuel => exact hsteps
  | call stop sp =>
    have hsteps : I (Exec.execute stop fuel s).2 := hs
    simp only [proceed]
    generalize Exec.execute stop fuel s = round at hsteps
    obtain ⟨pause, t⟩ := round
    cases pause with
    | finished result => exact endCall_given stop sp result hsteps
    | blocked | outOfFuel => exact hsteps

theorem startBlock_given (hs : I s) : I (startBlock s).2 := by
  have hbegin : Exec.Leaves I (do
      Exec.reset
      Exec.pushFrame (← Exec.getMachine).main 0 .function) :=
    Exec.leaves_reset.bind fun _ => Exec.leaves_getMachine.bind fun _ => Exec.leaves_pushFrame _ _ _
  unfold startBlock
  dsimp only
  split
  · next hrun => exact (hbegin.ok hs hrun).1
  · next hrun => exact (hbegin.error hs hrun).1

theorem startCall_given (callee : Value) (args : List Value) (hs : I s) :
    I (startCall callee args s).2 := by
  unfold startCall
  dsimp only
  split
  · next hrun => exact ((Exec.leaves_beginCall callee args).ok hs hrun).1
  · next hrun => exact endCall_given _ _ _ ((Exec.leaves_beginCall callee args).error hs hrun).1

end

theorem proceed_given {I : State → Prop} [State.Steady I] {s : State} (fuel : Nat) (run : Run) (hs : I s) :
    I (run.proceed fuel s).2 := proceed_of_execute fuel run (Exec.execute_given run.stop fuel hs)

end Run

namespace Task

variable {I : State → Prop} {t : Task} {w : World}

theorem deliver_given [State.Tame I] (v : Value) (h : I ⟨w, t.machine⟩) :
    I ⟨(t.deliver w v).2, (t.deliver w v).1.machine⟩ := by
  unfold Task.deliver
  dsimp only
  split <;> exact State.Tame.world h rfl rfl

theorem settle_given [State.Tame I] {r : Progress × State} (h : I r.2) :
    I ⟨(t.settle r).2, (t.settle r).1.machine⟩ := by
  obtain ⟨progress, w, m⟩ := r
  cases progress with
  | ended result => exact deliver_given (t := { t with machine := m }) _ h
  | blocked run | running run => exact h

/-- A turn of a task keeps what steps keep. -/
theorem turn_given [State.Steady I] (fuel : Nat) (h : I ⟨w, t.machine⟩) :
    I ⟨(t.turn fuel w).2, (t.turn fuel w).1.machine⟩ := by
  unfold Task.turn
  split
  · exact settle_given (Run.startCall_given _ _ h)
  · exact settle_given (Run.proceed_given _ _ h)
  · exact deliver_given _ h
  · exact h

end Task

end ScriptMachine
