import ScriptMachine.Proofs.Machine.Triple
import ScriptMachine.Proofs.Reach

/-!
# A machine runs what it can reach

`Machine.Over H` says that all functions a machine can get hold of satisfy `H`: those of its frames, of
its values and of its constants. Together with the same for the world (`World.Over`) this is an
invariant of execution: a step calls only what is in reach, and it brings nothing else into reach
(`Exec.confines_advanceCatching`).

What comes from outside has to keep to it, too. Host functions are honest, and what other tasks do to
the world between two steps leaves it over `H`, because their steps do.
-/

namespace ScriptMachine

variable {H : Function → Prop}

/-! ## Machines and worlds -/

/-- Closures of functions with `H`. -/
def Closure.Of (H : Function → Prop) (c : Closure) : Prop := H c.function

/-- A constant within reach: a function, or a value. -/
def Value.Loaded (H : Function → Prop) (v : Value) : Prop :=
  v.Over (Closure.Of H) ∧ ∀ id f, v = .function id f → H f

/-- A frame of a function with `H`. -/
structure Frame.Over (H : Function → Prop) (f : Frame) : Prop where
  closure : H f.closure.function
  kind : ∀ object, f.kind = .constructor object → object.Over (Closure.Of H)

/-- Everything within reach of a machine satisfies `H`. -/
structure Machine.Over (H : Function → Prop) (m : Machine) : Prop where
  stack : ∀ v ∈ m.stack, v.Over (Closure.Of H)
  frames : ∀ f ∈ m.frames, f.Over H
  constants : ∀ v ∈ m.constants, v.Loaded H
  waiting : ∀ ch v, m.waiting = some (.room ch v) → v.Over (Closure.Of H)

/-- A task that was started with what is within reach. -/
structure Spawned.Over (H : Function → Prop) (t : Spawned) : Prop where
  machine : t.machine.Over H
  callee : t.callee.Over (Closure.Of H)
  args : ∀ v ∈ t.args, v.Over (Closure.Of H)

/-- Everything within reach of all tasks satisfies `H`, and host functions are honest. -/
structure World.Over (H : Function → Prop) (w : World) : Prop where
  heap : w.heap.Over (Closure.Of H)
  globals : ∀ v ∈ w.globals, v.Over (Closure.Of H)
  honest : ∀ n ∈ w.natives, n.Honest
  spawned : ∀ t ∈ w.spawned, t.Over H

structure State.Over (H : Function → Prop) (s : State) : Prop where
  world : s.world.Over H
  machine : s.machine.Over H

section

variable {H' : Function → Prop} (hH : ∀ f, H f → H' f)

include hH

theorem Value.Loaded.mono {v : Value} (h : v.Loaded H) : v.Loaded H' :=
  ⟨h.1.mono fun c hc => hH c.function hc, fun id f hf => hH f (h.2 id f hf)⟩

theorem Frame.Over.mono {f : Frame} (h : f.Over H) : f.Over H' :=
  ⟨hH _ h.closure, fun object hkind => (h.kind object hkind).mono fun c hc => hH c.function hc⟩

theorem Machine.Over.mono {m : Machine} (h : m.Over H) : m.Over H' where
  stack v hv := (h.stack v hv).mono fun c hc => hH c.function hc
  frames f hf := (h.frames f hf).mono hH
  constants v hv := (h.constants v hv).mono hH
  waiting ch v hw := (h.waiting ch v hw).mono fun c hc => hH c.function hc

theorem World.Over.mono {w : World} (h : w.Over H) : w.Over H' where
  heap := h.heap.mono fun c hc => hH c.function hc
  globals v hv := (h.globals v hv).mono fun c hc => hH c.function hc
  honest := h.honest
  spawned t ht :=
    { machine := (h.spawned t ht).machine.mono hH
      callee := (h.spawned t ht).callee.mono fun c hc => hH c.function hc
      args := fun v hv => ((h.spawned t ht).args v hv).mono fun c hc => hH c.function hc }

end

theorem Machine.Over.new {constants : Array Value} {main : Closure} (registry : Registry)
    (settings : Settings) (hconstants : ∀ v ∈ constants, v.Loaded H) :
    (Machine.new constants main registry settings).Over H where
  stack v hv := by
    obtain ⟨-, rfl⟩ := Array.mem_replicate.mp hv
    trivial
  frames := by simp [Machine.new]
  constants := hconstants
  waiting := by simp [Machine.new]

theorem Machine.Over.child {m : Machine} (h : m.Over H) : m.child.Over H :=
  .new m.registry m.settings h.constants

theorem Registry.over_get? {r : Registry} {index : Nat} {v : Value} (h : r.get? index = some v) :
    v.Over (Closure.Of H) := by
  obtain ⟨e, -, rfl⟩ := Option.map_eq_some_iff.mp h
  trivial

theorem Globals.over_set {g : Array Value} (h : ∀ v ∈ g, v.Over (Closure.Of H)) (index : Nat) {v : Value}
    (hv : v.Over (Closure.Of H)) : ∀ w ∈ Globals.set g index v, w.Over (Closure.Of H) := by
  refine all_setIfInBounds ?_ index hv
  intro w hw
  rcases Array.mem_append.mp hw with hw | hw
  · exact h w hw
  · obtain ⟨-, rfl⟩ := Array.mem_replicate.mp hw
    trivial

theorem Exec.over_clearSlots {a : Array Value} (h : ∀ v ∈ a, v.Over (Closure.Of H)) (start count : Nat) :
    ∀ v ∈ clearSlots a start count, v.Over (Closure.Of H) := by
  induction count generalizing a start with
  | zero => exact h
  | succ count ih => exact ih (all_setIfInBounds h start (x := .null) trivial) _

namespace Exec

/-- `x` brings nothing into reach that does not satisfy `H`. -/
abbrev Confines {α : Type} (H : Function → Prop) (x : Exec α) (Q : α → Prop) : Prop :=
  Keeps (State.Over H) (fun _ => True) x Q

section

variable {α : Type} {Q : α → Prop}

/-! ## Primitive moves -/

theorem confines_raise (c : Cause) : Confines H (raise c : Exec α) Q := keeps_raise fun _ => trivial

theorem confines_defect (d : Defect) : Confines H (defect d : Exec α) Q := confines_raise _

theorem confines_throw (e : Abort) : Confines H (throw e : Exec α) Q :=
  triple_throw fun _ hs => ⟨hs, trivial⟩

theorem confines_getMachine : Confines H getMachine (Machine.Over H) := keeps_getMachine fun _ hs => hs.machine

theorem confines_getHeap : Confines H getHeap (Heap.Over (Closure.Of H)) := keeps_getHeap fun _ hs => hs.world.heap

theorem confines_modifyMachine {f : Machine → Machine} (h : ∀ m, m.Over H → (f m).Over H) :
    Confines H (modifyMachine f) fun _ => True :=
  keeps_modifyMachine fun _ hs => ⟨hs.world, h _ hs.machine⟩

theorem confines_modifyHeap {f : Heap → Heap} (h : ∀ heap, heap.Over (Closure.Of H) → (f heap).Over (Closure.Of H)) :
    Confines H (modifyHeap f) fun _ => True :=
  keeps_modifyHeap fun _ hs => ⟨{ hs.world with heap := h _ hs.world.heap }, hs.machine⟩

theorem confines_allocate {f : Heap → α × Heap}
    (h : ∀ heap, heap.Over (Closure.Of H) → (f heap).2.Over (Closure.Of H) ∧ Q (f heap).1) :
    Confines H (allocate f) Q :=
  keeps_allocate fun _ hs =>
    ⟨⟨{ hs.world with heap := (h _ hs.world.heap).1 }, hs.machine⟩, (h _ hs.world.heap).2⟩

theorem confines_ofExcept {e : Except Cause α} (h : ∀ a, e = .ok a → Q a) : Confines H (ofExcept e) Q :=
  keeps_ofExcept (fun _ => trivial) h

theorem confines_push {v : Value} (hv : v.Over (Closure.Of H)) : Confines H (push v) fun _ => True := by
  refine confines_getMachine.bind fun m _ => ?_
  split
  · exact confines_raise _
  · exact confines_modifyMachine fun m hm => { hm with stack := all_setIfInBounds hm.stack _ hv }

theorem confines_noSlot (index : Nat) : Confines H (noSlot index : Exec α) Q :=
  confines_getMachine.trivial.seq fun _ => confines_throw _

theorem confines_getSlot (slot : Nat) : Confines H (getSlot slot) (Value.Over (Closure.Of H)) := by
  refine confines_getMachine.bind fun m hm => ?_
  split
  · next v hv => exact keeps_pure (hm.stack v (Array.mem_of_getElem? hv))
  · exact confines_noSlot _

theorem confines_setSlot (slot : Nat) {v : Value} (hv : v.Over (Closure.Of H)) :
    Confines H (setSlot slot v) fun _ => True := by
  refine confines_getMachine.bind fun m _ => ?_
  split
  · exact confines_noSlot _
  · exact confines_modifyMachine fun m hm => { hm with stack := all_setIfInBounds hm.stack _ hv }

theorem confines_pop : Confines H pop (Value.Over (Closure.Of H)) := by
  refine confines_getMachine.bind fun m _ => ?_
  split
  · exact confines_defect _
  · refine (confines_getSlot _).bind fun v hv => ?_
    refine Keeps.seq (confines_modifyMachine fun m hm => ?_) fun _ => keeps_pure hv
    exact { hm with stack := all_setIfInBounds hm.stack _ trivial }

theorem confines_peek : Confines H peek (Value.Over (Closure.Of H)) := by
  refine confines_getMachine.bind fun m _ => ?_
  split
  · exact confines_defect _
  · exact confines_getSlot _

theorem confines_noSlots (start stop : Nat) : Confines H (noSlots start stop : Exec α) Q :=
  confines_getMachine.trivial.seq fun _ => confines_throw _

theorem confines_setSp (sp : Nat) : Confines H (setSp sp) fun _ => True := by
  refine confines_getMachine.bind fun m _ => ?_
  split
  · exact confines_noSlots _ _
  · exact confines_modifyMachine fun m hm => { hm with stack := over_clearSlots hm.stack _ _ }

theorem confines_slotsFrom (start : Nat) :
    Confines H (slotsFrom start) fun vs => ∀ v ∈ vs, v.Over (Closure.Of H) := by
  refine confines_getMachine.bind fun m hm => ?_
  split
  · exact confines_noSlots _ _
  · refine keeps_pure fun v hv => hm.stack v ?_
    obtain ⟨i, hi, rfl⟩ := Array.getElem_of_mem (Array.mem_toList_iff.mp hv)
    rw [Array.getElem_extract]
    exact Array.getElem_mem _

theorem confines_takeTop (count : Nat) :
    Confines H (takeTop count) fun vs => ∀ v ∈ vs, v.Over (Closure.Of H) := by
  refine confines_getMachine.bind fun m _ => ?_
  split
  · exact confines_defect _
  · exact (confines_slotsFrom _).bind fun vs hvs => (confines_setSp _).seq fun _ => keeps_pure hvs

theorem confines_calleeSlot (argc : Nat) : Confines H (calleeSlot argc) fun _ => True := by
  refine confines_getMachine.bind fun m _ => ?_
  split
  · exact confines_defect _
  · exact keeps_pure trivial

/-! ## The running frame -/

theorem confines_currentFrame : Confines H currentFrame (Frame.Over H) := by
  refine confines_getMachine.bind fun m hm => ?_
  split
  · next f hf => exact keeps_pure (hm.frames f (Array.mem_of_back? hf))
  · exact confines_defect _

theorem confines_modifyFrame {g : Frame → Frame} (h : ∀ f, f.Over H → (g f).Over H) :
    Confines H (modifyFrame g) fun _ => True :=
  confines_modifyMachine fun _ hm => { hm with frames := all_modify hm.frames _ h }

theorem confines_moveFrame (g : Frame → Nat) :
    Confines H (modifyFrame fun f => { f with ip := g f }) fun _ => True :=
  confines_modifyFrame fun _ hf => ⟨hf.closure, hf.kind⟩

theorem confines_jumpTo (target : Nat) : Confines H (jumpTo target) fun _ => True := by
  have hmap : discard currentFrame = (fun _ => PUnit.unit) <$> currentFrame := rfl
  unfold jumpTo
  rw [hmap]
  exact (Keeps.map confines_currentFrame.trivial).seq fun _ => confines_moveFrame _

theorem confines_operand (width : Nat) : Confines H (operand width) fun _ => True := by
  refine confines_currentFrame.trivial.seq fun f => ?_
  split
  · exact (confines_moveFrame _).seq fun _ => keeps_pure trivial
  · exact confines_defect _

theorem confines_localOperand : Confines H localOperand fun _ => True := by
  refine (confines_operand 1).seq fun index => confines_currentFrame.trivial.seq fun f => ?_
  refine confines_getMachine.trivial.seq fun m => ?_
  split
  · exact confines_defect _
  · exact keeps_pure trivial

theorem confines_freeCell (index : Nat) : Confines H (freeCell index) fun _ => True := by
  refine confines_currentFrame.trivial.seq fun f => ?_
  split
  · exact keeps_pure trivial
  · exact confines_defect _

theorem confines_constant (index : Nat) : Confines H (constant index) (Value.Loaded H) := by
  refine confines_getMachine.bind fun m hm => ?_
  split
  · next v hv => exact keeps_pure (hm.constants v (Array.mem_of_getElem? hv))
  · exact confines_defect _

theorem confines_constantName (index : Nat) : Confines H (constantName index) fun _ => True := by
  refine (confines_constant index).trivial.seq fun v => ?_
  split
  · exact keeps_pure trivial
  · exact confines_defect _

/-! ## Calls, returns and throws -/

theorem confines_pushFrame {closure : Closure} (hclosure : H closure.function) (base : Nat)
    {kind : FrameKind} (hkind : ∀ object, kind = .constructor object → object.Over (Closure.Of H)) :
    Confines H (pushFrame closure base kind) fun _ => True := by
  refine confines_getMachine.trivial.seq fun m => ?_
  split
  · exact confines_raise _
  · dsimp only
    split
    · exact confines_raise _
    · refine (confines_setSp _).seq fun _ => confines_modifyMachine fun m hm => { hm with frames := ?_ }
      exact Array.forall_mem_push.mpr ⟨⟨hclosure, hkind⟩, hm.frames⟩

theorem confines_returnFromFrame {v : Value} (hv : v.Over (Closure.Of H)) :
    Confines H (returnFromFrame v) fun _ => True := by
  refine Keeps.seq (confines_modifyMachine fun m hm => { hm with }) fun _ => ?_
  refine confines_getMachine.bind fun m hm => ?_
  split
  · exact confines_defect _
  · next frame hframe =>
    have hover := hm.frames frame (Array.mem_of_back? hframe)
    refine Keeps.seq (confines_modifyMachine fun m hm => { hm with frames := ?_ }) fun _ => ?_
    · intro f hf
      obtain ⟨i, hi, rfl⟩ := Array.getElem_of_mem hf
      rw [Array.getElem_pop]
      exact hm.frames _ (Array.getElem_mem _)
    · refine (confines_setSp _).seq fun _ => confines_push ?_
      split
      · next object hkind => exact hover.kind object hkind
      · exact hv

theorem confines_throwValue {v : Value} (hv : v.Over (Closure.Of H)) :
    Confines H (throwValue v) fun _ => True := by
  refine confines_getMachine.trivial.seq fun m => ?_
  split
  · exact confines_raise _
  · next handler rest _ =>
    refine Keeps.seq (confines_modifyMachine fun m hm => { hm with frames := ?_ }) fun _ => ?_
    · intro f hf
      obtain ⟨i, hi, rfl⟩ := Array.getElem_of_mem hf
      rw [Array.getElem_extract]
      exact hm.frames _ (Array.getElem_mem _)
    · refine (confines_setSp _).seq fun _ => (confines_push hv).seq fun _ => ?_
      split
      · exact confines_jumpTo _
      · exact (confines_push (v := .bool true) trivial).seq fun _ => confines_jumpTo _
      · exact confines_defect _

theorem confines_deliverNative {v : Value} (hv : v.Over (Closure.Of H)) :
    Confines H (deliverNative v) fun _ => True := by
  unfold deliverNative
  split
  · split
    · exact Keeps.seq (keeps_pure trivial) fun _ => confines_throwValue trivial
    · refine confines_getMachine.trivial.seq fun m => ?_
      exact Keeps.seq (keeps_pure trivial) fun _ => confines_throwValue trivial
  · exact confines_push hv

theorem confines_callNative (id slot : Nat) : Confines H (callNative id slot) fun _ => True := by
  refine (confines_slotsFrom _).bind fun args hargs => ?_
  refine Keeps.bind (Q := fun outcome => ∀ v, outcome = .value v → v.Over (Closure.Of H))
    (triple_modifyGet fun s hs => ?_) fun outcome houtcome => ?_
  · split
    · next n hn =>
      have hhonest := hs.world.honest n (Array.mem_of_getElem? hn)
      obtain ⟨hheap, hvalue⟩ := hhonest.call hs.world.heap hargs
      exact ⟨⟨{ hs.world with heap := hheap }, hs.machine⟩, hvalue⟩
    · refine ⟨hs, ?_⟩
      rintro v ⟨⟩
      trivial
  · cases outcome with
    | crash message => exact confines_throw _
    | value v => exact (confines_setSp _).seq fun _ => confines_deliverNative (houtcome v rfl)

theorem confines_pushNulls (count : Nat) : Confines H (pushNulls count) fun _ => True := by
  induction count with
  | zero => exact keeps_pure trivial
  | succ count ih => exact (confines_push (v := .null) trivial).seq fun _ => ih

theorem confines_construct {c : Class} (hc : c.Over (Closure.Of H)) (slot argc : Nat) :
    Confines H (construct c slot argc) fun _ => True := by
  refine (confines_slotsFrom _).bind fun args hargs => ?_
  have hobject : Confines H (allocate fun h => h.newObject c args) (Value.Over (Closure.Of H)) :=
    confines_allocate fun heap hheap => ⟨hheap.newObject c hargs, hc⟩
  refine hobject.bind fun object hobject => ?_
  split
  · exact (confines_setSp _).seq fun _ => confines_push hobject
  · next constructor hconstructor =>
    have hfunction := hc.constructor? hconstructor
    have hkind : ∀ o, FrameKind.constructor object = .constructor o → o.Over (Closure.Of H) := by
      rintro o ⟨⟩
      exact hobject
    refine (confines_setSlot _ hobject).seq fun _ => ?_
    dsimp only
    split
    · refine confines_getMachine.trivial.seq fun m => ?_
      exact (confines_setSp _).seq fun _ => confines_pushFrame hfunction _ hkind
    · exact (confines_pushNulls _).seq fun _ => confines_pushFrame hfunction _ hkind

theorem confines_checkArity (closure : Closure) (argc : Nat) :
    Confines H (checkArity closure argc) fun _ => True := by
  unfold checkArity
  dsimp only
  split
  · exact confines_raise _
  · exact keeps_pure trivial

theorem confines_callValue (argc : Nat) : Confines H (callValue argc) fun _ => True := by
  refine (confines_calleeSlot argc).seq fun slot => (confines_getSlot slot).bind fun callee hcallee => ?_
  split
  · exact (confines_checkArity _ _).seq fun _ => confines_pushFrame hcallee _ (by simp)
  · exact confines_callNative _ _
  · exact confines_construct hcallee _ _
  · exact confines_raise _

theorem confines_callMethod {method : Closure} (h : H method.function) (slot argc : Nat) :
    Confines H (callMethod method slot argc) fun _ => True :=
  (confines_checkArity _ _).seq fun _ => confines_pushFrame h _ (by simp)

theorem confines_missingMethod (slot : Nat) : Confines H (missingMethod slot) fun _ => True :=
  (confines_setSp slot).seq fun _ => confines_push (v := .null) trivial

theorem confines_invoke (name : String) (argc : Nat) : Confines H (invoke name argc) fun _ => True := by
  refine (confines_calleeSlot argc).seq fun slot => (confines_getSlot slot).bind fun receiver hreceiver => ?_
  refine confines_getHeap.bind fun h hh => ?_
  split
  · exact confines_raise _
  · next field hfield =>
    split
    · next callee hcallee =>
      have hsome : field = some callee := (Option.filter_eq_some_iff.mp hcallee).1
      subst hsome
      exact (confines_setSlot _ (over_property? hh hfield)).seq fun _ => confines_callValue _
    · dsimp only
      split
      · next method hmethod =>
        split at hmethod
        · exact confines_callMethod (Class.Over.findMethod? hreceiver hmethod) _ _
        · cases hmethod
      · exact confines_missingMethod _

theorem confines_invokeSuper (name : String) (argc : Nat) :
    Confines H (invokeSuper name argc) fun _ => True := by
  refine confines_pop.bind fun v hv => ?_
  split
  · next c =>
    refine (confines_calleeSlot argc).seq fun slot => ?_
    split
    · next method hmethod =>
      obtain ⟨parent, hparent, hfound⟩ := Option.bind_eq_some_iff.mp hmethod
      exact confines_callMethod ((Class.Over.parent hv hparent).findMethod? hfound) _ _
    · exact confines_missingMethod _
  · exact confines_defect _

theorem confines_spawnTask (argc : Nat) : Confines H (spawnTask argc) fun _ => True := by
  refine (confines_calleeSlot argc).seq fun slot => (confines_getSlot slot).bind fun callee hcallee => ?_
  split
  · exact confines_raise _
  · refine (confines_takeTop argc).bind fun args hargs => (confines_setSp _).seq fun _ => ?_
    refine Keeps.seq (confines_allocate fun heap hheap => ⟨hheap.newChannel _, trivial⟩) fun result => ?_
    refine Keeps.seq (keeps_modify fun s hs => ?_) fun _ => confines_push trivial
    refine ⟨{ hs.world with spawned := ?_ }, hs.machine⟩
    exact Array.forall_mem_push.mpr ⟨⟨hs.machine.child, hcallee, hargs⟩, hs.world.spawned⟩

/-! ## Instructions -/

theorem confines_getLocal : Confines H getLocal fun _ => True := by
  refine confines_localOperand.seq fun place => confines_currentFrame.trivial.seq fun f => ?_
  split
  · exact confines_getHeap.bind fun h hh => confines_push (hh.cell _)
  · exact (confines_getSlot _).bind fun v hv => confines_push hv

theorem confines_setLocal : Confines H setLocal fun _ => True := by
  refine confines_localOperand.seq fun place => confines_peek.bind fun v hv => ?_
  refine confines_currentFrame.trivial.seq fun f => ?_
  split
  · exact confines_modifyHeap fun heap hheap => hheap.setCell _ hv
  · exact confines_setSlot _ hv

theorem confines_getGlobal : Confines H getGlobal fun _ => True := by
  refine (confines_operand 2).seq fun index => ?_
  refine Keeps.bind (keeps_get fun s hs => hs) fun s hs => confines_push ?_
  exact Value.over_getElem? hs.world.globals index

theorem confines_setGlobal : Confines H setGlobal fun _ => True := by
  refine (confines_operand 2).seq fun index => confines_peek.bind fun v hv => keeps_modify fun s hs => ?_
  exact ⟨{ hs.world with globals := Globals.over_set hs.world.globals _ hv }, hs.machine⟩

theorem confines_getFree : Confines H getFree fun _ => True :=
  (confines_operand 1).seq fun _ => (confines_freeCell _).seq fun _ =>
    confines_getHeap.bind fun _ hh => confines_push (hh.cell _)

theorem confines_setFree : Confines H setFree fun _ => True :=
  (confines_operand 1).seq fun _ => confines_peek.bind fun _ hv => (confines_freeCell _).seq fun _ =>
    confines_modifyHeap fun _ hheap => hheap.setCell _ hv

theorem confines_getBuiltin : Confines H getBuiltin fun _ => True := by
  refine (confines_operand 1).seq fun _ => confines_getMachine.trivial.seq fun m => ?_
  split
  · next v hv => exact confines_push (Registry.over_get? hv)
  · exact confines_defect _

theorem confines_queueCapture (ref : Ref) : Confines H (queueCapture ref) fun _ => True :=
  confines_modifyMachine fun _ hm => { hm with }

theorem Frame.Over.capture {f : Frame} (hf : f.Over H) {h : Heap} (hh : h.Over (Closure.Of H)) (index : Nat)
    {v : Value} (hv : v.Over (Closure.Of H)) :
    (f.capture h index v).2.1.Over H ∧ (f.capture h index v).2.2.Over (Closure.Of H) := by
  unfold Frame.capture
  split
  · exact ⟨hf, hh⟩
  · exact ⟨⟨hf.closure, hf.kind⟩, hh.newCell hv⟩

theorem confines_captureLocal : Confines H captureLocal fun _ => True := by
  refine confines_localOperand.seq fun place => (confines_getSlot _).bind fun v hv => ?_
  refine confines_currentFrame.bind fun f hf => ?_
  refine Keeps.bind (Q := fun p : Ref × Frame => p.2.Over H) (confines_allocate fun heap hheap => ?_)
    fun p hp => ?_
  · exact ⟨(Frame.Over.capture hf hheap _ hv).2, (Frame.Over.capture hf hheap _ hv).1⟩
  · exact (confines_modifyFrame fun _ _ => hp).seq fun _ => confines_queueCapture _

theorem confines_captureFree : Confines H captureFree fun _ => True :=
  (confines_operand 1).seq fun _ => (confines_freeCell _).seq fun _ => confines_queueCapture _

theorem confines_captureSelf : Confines H captureSelf fun _ => True :=
  confines_currentFrame.bind fun _ hf =>
    Keeps.seq (confines_allocate fun _ hheap => ⟨hheap.newCell hf.closure, trivial⟩) fun _ =>
      confines_queueCapture _

theorem confines_binary (op : BinaryOp) : Confines H (binary op) fun _ => True :=
  confines_pop.trivial.seq fun _ => confines_pop.trivial.seq fun _ => confines_getHeap.trivial.seq fun _ =>
    (confines_ofExcept fun _ hv => over_apply hv).bind fun _ hv => confines_push hv

theorem confines_jumpIfFalse : Confines H jumpIfFalse fun _ => True := by
  refine (confines_operand 2).seq fun target => confines_pop.trivial.seq fun v => ?_
  split
  · exact confines_jumpTo _
  · exact keeps_pure trivial

theorem confines_makeClosure : Confines H makeClosure fun _ => True := by
  refine (confines_operand 2).seq fun index => (confines_operand 1).seq fun count => ?_
  refine (confines_constant index).bind fun v hv => ?_
  split
  · next id f =>
    refine confines_getMachine.trivial.seq fun m => ?_
    dsimp only
    split
    · exact confines_defect _
    · refine Keeps.seq (confines_modifyMachine fun _ hm => { hm with }) fun _ => ?_
      refine Keeps.bind (Q := Closure.Of H) (confines_allocate fun heap hheap => ?_) fun c hc =>
        confines_push hc
      exact ⟨hheap.newClosure _ _, hv.2 id f rfl⟩
  · exact confines_defect _

theorem confines_makeArray : Confines H makeArray fun _ => True := by
  refine (confines_operand 2).seq fun _ => (confines_takeTop _).bind fun vs hvs => ?_
  refine Keeps.bind (Q := Value.Over (Closure.Of H)) (confines_allocate fun heap hheap => ⟨?_, trivial⟩)
    fun v hv => confines_push hv
  exact hheap.newArray (by simpa using hvs)

theorem confines_collectEntries {d : Dict Key Value} (hd : d.All (Value.Over (Closure.Of H)))
    {vs : List Value} (hvs : ∀ v ∈ vs, v.Over (Closure.Of H)) :
    Confines H (collectEntries d vs) (Dict.All (Value.Over (Closure.Of H))) :=
  keeps_collectEntries (fun _ => trivial) hd fun _ hd k v hv => hd.insert k (hvs v hv)

theorem confines_makeHash : Confines H makeHash fun _ => True := by
  refine (confines_operand 2).seq fun _ => (confines_takeTop _).bind fun vs hvs => ?_
  refine (confines_collectEntries Dict.all_empty hvs).bind fun d hd => ?_
  exact Keeps.bind (Q := Value.Over (Closure.Of H))
    (confines_allocate fun heap hheap => ⟨hheap.newHash hd, trivial⟩) fun v hv => confines_push hv

theorem confines_makeMap : Confines H makeMap fun _ => True := by
  refine (confines_operand 2).seq fun _ => (confines_takeTop _).bind fun vs hvs => ?_
  refine (confines_collectEntries Dict.all_empty hvs).bind fun d hd => ?_
  exact Keeps.bind (Q := Value.Over (Closure.Of H))
    (confines_allocate fun heap hheap => ⟨hheap.newMap hd, trivial⟩) fun v hv => confines_push hv

theorem confines_getIndex : Confines H getIndex fun _ => True :=
  confines_pop.trivial.seq fun _ => confines_pop.trivial.seq fun _ => confines_getHeap.bind fun _ hh =>
    (confines_ofExcept fun _ hv => over_getItem hh hv).bind fun _ hv => confines_push hv

theorem confines_setIndex : Confines H setIndex fun _ => True :=
  confines_pop.bind fun _ hv => confines_pop.trivial.seq fun _ => confines_pop.trivial.seq fun _ =>
    confines_getHeap.trivial.seq fun _ =>
      (confines_ofExcept (Q := fun _ => True) fun _ _ => trivial).seq fun place =>
        (confines_modifyHeap fun _ hheap => hheap.write place hv).seq fun _ => confines_push hv

theorem confines_getProperty : Confines H getProperty fun _ => True :=
  (confines_operand 2).seq fun _ => (confines_constantName _).seq fun _ => confines_pop.trivial.seq fun _ =>
    confines_getHeap.bind fun _ hh =>
      (confines_ofExcept fun _ hv => over_getProperty hh hv).bind fun _ hv => confines_push hv

theorem confines_setProperty : Confines H setProperty fun _ => True :=
  (confines_operand 2).seq fun _ => (confines_constantName _).seq fun _ => confines_pop.bind fun _ hv =>
    confines_pop.trivial.seq fun _ =>
      (confines_ofExcept (Q := fun _ => True) fun _ _ => trivial).seq fun place =>
        (confines_modifyHeap fun _ hheap => hheap.write place hv).seq fun _ => confines_push hv

theorem confines_tryEnter : Confines H tryEnter fun _ => True :=
  (confines_operand 2).seq fun _ => (confines_operand 2).seq fun _ =>
    confines_modifyMachine fun _ hm => { hm with }

theorem confines_finallyEnd : Confines H finallyEnd fun _ => True :=
  (confines_operand 2).seq fun _ =>
    Keeps.seq (confines_modifyMachine fun _ hm => { hm with }) fun _ => confines_jumpTo _

theorem confines_rethrow : Confines H rethrow fun _ => True := by
  refine confines_pop.trivial.seq fun pending => confines_pop.bind fun v hv => ?_
  split
  · exact confines_throwValue hv
  · exact keeps_pure trivial

theorem confines_makeChannel : Confines H makeChannel fun _ => True := by
  refine (confines_operand 1).seq fun flag => ?_
  have hmake : ∀ capacity : Nat, Confines H (do
      let ref ← allocate fun h => h.newChannel (some capacity)
      push (.channel ref (some capacity))) fun _ => True := fun capacity =>
    Keeps.seq (confines_allocate fun _ hheap => ⟨hheap.newChannel _, trivial⟩) fun ref => confines_push trivial
  split
  · exact Keeps.seq (keeps_pure trivial) fun _ => hmake _
  · refine confines_pop.trivial.seq fun v => ?_
    split
    · split
      · exact Keeps.seq (keeps_pure trivial) fun _ => hmake _
      · exact (confines_raise _).seq fun _ => hmake _
    · exact confines_getHeap.trivial.seq fun _ => (confines_raise _).seq fun _ => hmake _

theorem confines_waitFor {w : Wait} (h : ∀ ch v, w = .room ch v → v.Over (Closure.Of H)) :
    Confines H (waitFor w) fun _ => True := by
  refine confines_modifyMachine fun _ hm => { hm with waiting := ?_ }
  rintro ch v ⟨⟩
  exact h ch v rfl

theorem confines_trySend (ch : Ref) {v : Value} (hv : v.Over (Closure.Of H)) :
    Confines H (trySend ch v) fun _ => True := by
  refine Keeps.seq (confines_allocate fun heap hheap => ⟨?_, trivial⟩) fun outcome => ?_
  · exact hheap.setChannel _ (Channel.forall_mem_send (hheap.channel ch) hv)
  · split
    · exact confines_raise _
    · refine confines_waitFor ?_
      rintro _ _ ⟨⟩
      exact hv
    · exact confines_push trivial
    · exact confines_waitFor (by simp)

theorem confines_tryReceive (ch : Ref) : Confines H (tryReceive ch) fun _ => True := by
  refine Keeps.bind (Q := fun outcome => ∀ v, outcome = .received v → v.Over (Closure.Of H))
    (confines_allocate fun heap hheap => ?_) fun outcome houtcome => ?_
  · have hrecv := Channel.forall_mem_recv (hheap.channel ch)
    exact ⟨hheap.setChannel _ hrecv.1, hrecv.2⟩
  · split
    · exact confines_push (houtcome _ rfl)
    · exact confines_push trivial
    · exact confines_waitFor (by simp)

theorem confines_tryFinishSend (ch : Ref) (ticket : Nat) :
    Confines H (tryFinishSend ch ticket) fun _ => True := by
  refine confines_getHeap.trivial.seq fun h => ?_
  split
  · exact confines_push trivial
  · exact confines_waitFor (by simp)

theorem confines_send : Confines H send fun _ => True := by
  refine confines_pop.bind fun v hv => confines_pop.trivial.seq fun w => ?_
  split
  · exact confines_trySend _ hv
  · exact confines_raise _

theorem confines_receive : Confines H receive fun _ => True := by
  refine confines_pop.trivial.seq fun v => ?_
  split
  · exact confines_tryReceive _
  · exact confines_raise _

/-- A message that waits for room is kept while the machine waits. -/
theorem confines_poll {w : Wait} (h : ∀ ch v, w = .room ch v → v.Over (Closure.Of H)) :
    Confines H (poll w) fun _ => True := by
  refine Keeps.seq (confines_modifyMachine fun _ hm => { hm with waiting := by simp }) fun _ => ?_
  have hend : Confines H (do return if (← getMachine).waiting.isSome then Signal.blocked else .next)
      fun _ => True := confines_getMachine.trivial.seq fun _ => keeps_pure trivial
  split
  · exact (confines_trySend _ (h _ _ rfl)).seq fun _ => hend
  · exact (confines_tryFinishSend _ _).seq fun _ => hend
  · exact (confines_tryReceive _).seq fun _ => hend

theorem confines_perform (op : Opcode) : Confines H (perform op) fun _ => True := by
  have next : ∀ {x : Exec Unit}, Confines H x (fun _ => True) →
      Confines H (x >>= fun _ => pure Signal.next) fun _ => True :=
    fun hx => hx.seq fun _ => keeps_pure trivial
  cases op with
  | constant =>
    exact (confines_operand 2).seq fun _ => (confines_constant _).bind fun _ hv => next (confines_push hv.1)
  | null | pushTrue | pushFalse => exact next (confines_push trivial)
  | getLocal => exact next confines_getLocal
  | setLocal => exact next confines_setLocal
  | getGlobal => exact next confines_getGlobal
  | setGlobal => exact next confines_setGlobal
  | getFree => exact next confines_getFree
  | setFree => exact next confines_setFree
  | getBuiltin => exact next confines_getBuiltin
  | currentClosure => exact confines_currentFrame.bind fun _ hf => next (confines_push hf.closure)
  | captureLocal => exact next confines_captureLocal
  | captureFree => exact next confines_captureFree
  | captureSelf => exact next confines_captureSelf
  | add | sub | mul | div | mod | equal | notEqual | greater | greaterEqual =>
    exact next (confines_binary _)
  | negate =>
    exact confines_pop.trivial.seq fun _ => (confines_ofExcept fun _ hv => over_negate hv).bind fun _ hv =>
      next (confines_push hv)
  | not => exact confines_pop.trivial.seq fun _ => next (confines_push trivial)
  | jump => exact (confines_operand 2).seq fun _ => next (confines_jumpTo _)
  | jumpIfFalse => exact next confines_jumpIfFalse
  | call => exact (confines_operand 1).seq fun _ => next (confines_callValue _)
  | returnValue => exact confines_pop.bind fun _ hv => next (confines_returnFromFrame hv)
  | returnNull => exact next (confines_returnFromFrame trivial)
  | closure => exact next confines_makeClosure
  | array => exact next confines_makeArray
  | hash => exact next confines_makeHash
  | orderedMap => exact next confines_makeMap
  | getIndex => exact next confines_getIndex
  | setIndex => exact next confines_setIndex
  | pop => exact confines_pop.trivial.seq fun _ => next (confines_modifyMachine fun _ hm => { hm with })
  | dup => exact confines_peek.bind fun _ hv => next (confines_push hv)
  | getProperty => exact next confines_getProperty
  | setProperty => exact next confines_setProperty
  | invoke =>
    exact next ((confines_operand 2).seq fun _ => (confines_constantName _).seq fun _ =>
      (confines_operand 1).seq fun _ => confines_invoke _ _)
  | invokeSuper =>
    exact next ((confines_operand 2).seq fun _ => (confines_constantName _).seq fun _ =>
      (confines_operand 1).seq fun _ => confines_invokeSuper _ _)
  | tryEnter => exact next confines_tryEnter
  | finallyEnd => exact next confines_finallyEnd
  | throw => exact confines_pop.bind fun _ hv => next (confines_throwValue hv)
  | rethrow => exact next confines_rethrow
  | spawn => exact (confines_operand 1).seq fun _ => next (confines_spawnTask _)
  | channel => exact next confines_makeChannel
  | send => exact next confines_send
  | receive => exact next confines_receive
  | halt => exact keeps_pure trivial

theorem confines_step : Confines H step fun _ => True := by
  refine confines_currentFrame.trivial.seq fun frame => ?_
  dsimp only
  split
  · exact keeps_pure trivial
  · next byte _ =>
    generalize Opcode.dispatch byte = op?
    refine (confines_moveFrame _).seq fun _ => ?_
    refine Keeps.seq (confines_modifyMachine fun _ hm => { hm with }) fun _ => ?_
    cases op? with
    | none => exact confines_raise _
    | some op => exact confines_perform op

theorem confines_advance : Confines H advance fun _ => True := by
  refine confines_getMachine.bind fun m hm => ?_
  split
  · next w hw => exact confines_poll fun ch v hroom => hm.waiting ch v (hw.trans (congrArg some hroom))
  · exact confines_step

/-- A step brings nothing into reach that does not satisfy `H`. -/
theorem confines_advanceCatching : Confines H advanceCatching fun _ => True := by
  refine Triple.handle confines_advance fun e => Triple.pre (I := State.Over H) ?_ fun _ hs => hs.1
  cases e with
  | crash message => exact confines_throw _
  | fault f =>
    refine confines_getMachine.trivial.seq fun m => ?_
    split
    · exact confines_getHeap.trivial.seq fun h =>
        (confines_throwValue (v := f.toValue h) trivial).seq fun _ => keeps_pure trivial
    · exact confines_throw _

/-! ## Runs -/

theorem confines_reset : Confines H reset fun _ => True :=
  Keeps.seq (confines_modifyMachine fun _ hm => { hm with frames := by simp }) fun _ => confines_setSp _

theorem confines_pushAll {vs : List Value} (h : ∀ v ∈ vs, v.Over (Closure.Of H)) :
    Confines H (pushAll vs) fun _ => True := by
  induction vs with
  | nil => exact keeps_pure trivial
  | cons v vs ih =>
    exact (confines_push (h v List.mem_cons_self)).seq fun _ => ih fun w hw => h w (List.mem_cons_of_mem _ hw)

theorem confines_beginCall {callee : Value} {args : List Value} (hcallee : callee.Over (Closure.Of H))
    (hargs : ∀ v ∈ args, v.Over (Closure.Of H)) : Confines H (beginCall callee args) fun _ => True :=
  (confines_push hcallee).seq fun _ => (confines_pushAll hargs).seq fun _ => confines_callValue _

end

end Exec

end ScriptMachine
