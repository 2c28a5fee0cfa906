import ScriptMachine.Proofs.Calls.Arguments
import ScriptMachine.Proofs.Hierarchy.Lookup

/-!
# Which code a call runs

A class that is called makes an instance and runs the constructor of the nearest class on the way up that has one. A
method is that of the nearest class on the way up from the class of the receiver, or, for a call through `super`, from
the parent of the class that is on top of the arguments, whatever the receiver is. The frame of a constructor answers
the instance when it returns.

1. **Calls**: what an instruction calls (`State.Addresses`), and what has to come of it (`Callee.Served`).
2. **Executions**: one lemma for each way of calling.
3. **Turns**: the turn at a call, and the turn that leaves a frame.
-/

namespace ScriptMachine

/-! ## Calls -/

/-- What is called. -/
inductive Callee where
  | construct (c : Class)
  /-- A method of this name, looked up from the class on. -/
  | method (c : Class) (name : String)

/-- The next instruction of the frame calls a method of this name with so many arguments. -/
structure Frame.Names (f : Frame) (m : Machine) (op : Opcode) (name : String) (argc : Nat) : Prop where
  opcode : f.code[f.ip]? = some op.toByte
  name : ∃ k, operandAt? f.code (f.ip + 1) 2 = some k ∧ m.constants[k]? = some (.str name)
  argc : operandAt? f.code (f.ip + 3) 1 = some argc

/-- The value is called as it is: it lies below the arguments, or it is in the field of that name of what lies there. -/
inductive State.Applies (s : State) (f : Frame) (slot argc : Nat) : Value → Prop where
  | call : f.code[f.ip]? = some (Opcode.toByte .call) → operandAt? f.code (f.ip + 1) 1 = some argc →
    Applies s f slot argc (s.machine.slot slot)
  | field {name : String} {v : Value} : f.Names s.machine .invoke name argc →
    s.world.heap.property? (s.machine.slot slot) name = some (some v) → v.isCallable = true → Applies s f slot argc v

/-- The frame is about to call this with the arguments above the slot. -/
inductive State.Addresses (s : State) (f : Frame) (slot argc : Nat) : Callee → Prop where
  | construct {c : Class} : s.machine.sp = slot + 1 + argc → s.Applies f slot argc (.cls c) →
    Addresses s f slot argc (.construct c)
  /-- No field of the receiver comes before the method. -/
  | method {ref : Ref} {c : Class} {name : String} : s.machine.sp = slot + 1 + argc →
    f.Names s.machine .invoke name argc → s.machine.slot slot = .object ref c →
    (∀ v, (s.world.heap.objectFields ref).get? name = some v → v.isCallable = false) →
    Addresses s f slot argc (.method c name)
  /-- The class is on top of the arguments. -/
  | super {c p : Class} {name : String} : s.machine.sp = slot + 1 + argc + 1 →
    f.Names s.machine .invokeSuper name argc → s.machine.slot (slot + 1 + argc) = .cls c → c.parent = some p →
    Addresses s f slot argc (.method p name)

/-- The closure runs in a new frame over the slot, above the caller. -/
def Machine.Runs (m : Machine) (fs : Array Frame) (f : Frame) (slot : Nat) (closure : Closure) (kind : FrameKind) :
    Prop :=
  ∃ caller, f.Same caller ∧ m.frames = (fs.push caller).push (.enter closure slot kind)

/-- The caller goes on, with the value in place of what it called and of the arguments. -/
def Machine.Answers (m : Machine) (fs : Array Frame) (f : Frame) (slot : Nat) (v : Value) : Prop :=
  (∃ caller, f.Same caller ∧ m.frames = fs.push caller) ∧ m.sp = slot + 1 ∧ m.stack[slot]? = some v

/-- What comes of a call. -/
inductive Callee.Served (t : State) (fs : Array Frame) (f : Frame) (slot : Nat) (args : List Value) :
    Callee → Prop where
  | constructs {c : Class} {m : Closure} {ref : Ref} : c.Nearest Class.ownConstructor? m →
    t.machine.Runs fs f slot m (.constructor (.object ref c)) → t.world.heap.Binds ref c args →
    Served t fs f slot args (.construct c)
  | makes {c : Class} {ref : Ref} : c.Lacks Class.ownConstructor? → t.machine.Answers fs f slot (.object ref c) →
    t.world.heap.Binds ref c args → Served t fs f slot args (.construct c)
  | runs {c : Class} {name : String} {m : Closure} : c.Nearest (·.ownMethod? name) m →
    args.length = m.function.params → t.machine.Runs fs f slot m .method → Served t fs f slot args (.method c name)
  /-- The method takes another number of arguments: this is a fault, and no frame is entered. -/
  | refuses {c : Class} {name : String} {m : Closure} : c.Nearest (·.ownMethod? name) m →
    args.length ≠ m.function.params → t.machine.frames.size ≤ fs.size + 1 → Served t fs f slot args (.method c name)
  | misses {c : Class} {name : String} : c.Lacks (·.ownMethod? name) → t.machine.Answers fs f slot .null →
    Served t fs f slot args (.method c name)

/-- In a turn of the frame the instruction has been read up to this place. -/
def State.readTo (s : State) (fs : Array Frame) (f : Frame) (ip : Nat) : State :=
  ⟨s.world, { s.machine with frames := fs.push { f with ip }, opOffset := f.ip }⟩

section

variable {s t : State} {fs : Array Frame} {f g : Frame} {slot argc : Nat} {callee : Callee} {args : List Value}

theorem Machine.Runs.same {m : Machine} {closure : Closure} {kind : FrameKind} (h : m.Runs fs g slot closure kind)
    (hsame : f.Same g) : m.Runs fs f slot closure kind := by
  obtain ⟨caller, hcaller, hframes⟩ := h
  exact ⟨caller, hsame.trans hcaller, hframes⟩

theorem Machine.Answers.same {m : Machine} {v : Value} (h : m.Answers fs g slot v) (hsame : f.Same g) :
    m.Answers fs f slot v := by
  obtain ⟨⟨caller, hcaller, hframes⟩, hrest⟩ := h
  exact ⟨⟨caller, hsame.trans hcaller, hframes⟩, hrest⟩

/-- The caller has only moved on. -/
theorem Callee.Served.same (h : callee.Served t fs g slot args) (hsame : f.Same g) :
    callee.Served t fs f slot args := by
  cases h with
  | constructs hnearest hruns hbinds => exact .constructs hnearest (hruns.same hsame) hbinds
  | makes hlacks hanswers hbinds => exact .makes hlacks (hanswers.same hsame) hbinds
  | runs hnearest hlength hruns => exact .runs hnearest hlength (hruns.same hsame)
  | refuses hnearest hlength hsize => exact .refuses hnearest hlength hsize
  | misses hlacks hanswers => exact .misses hlacks (hanswers.same hsame)

/-! ## Executions -/

/-- The values above a slot are taken from the stack. -/
theorem Machine.toList_extract {m : Machine} (hsp : m.sp = slot + 1 + argc) (hle : m.sp ≤ m.stack.size) :
    (m.stack.extract (slot + 1) m.sp).toList = m.above slot argc := by
  refine List.ext_getElem? fun i => ?_
  rw [Array.getElem?_toList, Array.getElem?_extract]
  by_cases hi : i < argc
  · rw [if_pos (by omega), Machine.getElem?_above hi, Machine.slot, Array.getElem?_eq_getElem (by omega)]
    rfl
  · rw [if_neg (by omega), List.getElem?_eq_none (by rw [Machine.length_above]; omega)]

/-- A slot that holds no argument is written. -/
theorem Machine.above_set {m : Machine} {i : Nat} (h : i ≤ slot ∨ slot + argc < i) (v : Value) :
    ({ m with stack := m.stack.setIfInBounds i v } : Machine).above slot argc = m.above slot argc := by
  refine List.map_congr_left fun k hk => ?_
  have hk := List.mem_range.mp hk
  show (m.stack.setIfInBounds i v)[slot + 1 + k]?.getD .null = _
  rw [Array.getElem?_setIfInBounds_ne (by omega)]
  rfl

namespace Exec

variable {closure : Closure} {kind : FrameKind}

theorem yields_pushFrame {D : Prop} {E : State → Prop} (hframes : s.machine.frames = fs.push f) :
    Yields D (pushFrame closure slot kind) s
      (fun _ t => t.machine.Runs fs f slot closure kind ∧ t.world = s.world) E := by
  unfold pushFrame
  simp only [yields_bind, yields_getMachine, yields_ite, yields_raise]
  refine ⟨fun _ => ⟨fun h => (by cases h), fun h => (by cases h)⟩,
    fun _ => ⟨fun _ => ⟨fun h => (by cases h), fun h => (by cases h)⟩, fun _ => ?_⟩⟩
  simp only [yields_setSp, yields_modifyMachine]
  exact fun _ => ⟨⟨f, ⟨rfl, rfl, rfl⟩, congrArg (Array.push · _) hframes⟩, trivial⟩

/-- Pushing null changes nothing but the stack. -/
theorem yields_pushNulls {D : Prop} {x : Exec Unit} {P : Unit → State → Prop} {E : State → Prop} (count : Nat)
    (hx : ∀ t : State, t.world = s.world → t.machine.frames = s.machine.frames → Yields D x t P E) :
    Yields D (pushNulls count >>= fun _ => x) s P E := by
  induction count generalizing s with
  | zero => exact hx s rfl rfl
  | succ count ih =>
    rw [pushNulls, bind_assoc, yields_bind, yields_push]
    exact fun _ => ih hx

/-- The value comes in place of what was called. -/
theorem yields_answer {D : Prop} {E : State → Prop} (hframes : s.machine.frames = fs.push f) (v : Value) :
    Yields D (do setSp slot; push v) s (fun _ t => t.machine.Answers fs f slot v ∧ t.world = s.world) E := by
  simp only [yields_bind, yields_setSp, yields_push]
  intro _ hslot
  exact ⟨⟨⟨f, ⟨rfl, rfl, rfl⟩, hframes⟩, rfl, Array.getElem?_setIfInBounds_self_of_lt hslot⟩, trivial⟩

/-- A fault that is caught: no frame is entered then, and nothing else was to come of the call. -/
def Faults (fs : Array Frame) (f : Frame) (slot : Nat) (args : List Value) (callee : Callee) (t : State) : Prop :=
  t.machine.frames.size ≤ fs.size + 1 ∧
    ∀ u : State, u.machine.frames.size ≤ fs.size + 1 → callee.Served u fs f slot args

/-- `x` does for the callee what has to be done. -/
def Serves (fs : Array Frame) (f : Frame) (slot : Nat) (args : List Value) (callee : Callee) (x : Exec Unit)
    (s : State) : Prop :=
  Yields True x s (fun _ t => callee.Served t fs f slot args) (Faults fs f slot args callee)

/-- The caller has only moved on. -/
theorem Serves.same {x : Exec Unit} (h : Serves fs g slot args callee x s) (hsame : f.Same g) :
    Serves fs f slot args callee x s :=
  Yields.mono h (fun _ _ ht => ht.same hsame) fun _ ht => ⟨ht.1, fun u hu => (ht.2 u hu).same hsame⟩

/-- A class call never comes to a fault that could be caught. -/
theorem serves_construct (hframes : s.machine.frames = fs.push f) (hsp : s.machine.sp = slot + 1 + argc) (c : Class) :
    Serves fs f slot (s.machine.above slot argc) (.construct c) (construct c slot argc) s := by
  unfold construct Serves
  simp only [yields_bind, yields_slotsFrom, yields_allocate]
  intro _ hle
  rw [Machine.toList_extract hsp hle]
  obtain ⟨hobject, hbinds⟩ := s.world.heap.binds_newObject c (s.machine.above slot argc)
  rw [hobject]
  split
  · next hnone =>
    have hanswer (w : World) := @yields_answer ⟨w, s.machine⟩ fs f slot True (fun _ => False) hframes
    refine (hanswer _ _).mono ?_ fun _ => False.elim
    rintro _ t ⟨hanswers, hworld⟩
    exact .makes (Class.constructor?_eq_none_iff.mp hnone) hanswers (hworld ▸ hbinds)
  · next m hsome =>
    have enters : ∀ t : State, t.world.heap = (s.world.heap.newObject c (s.machine.above slot argc)).2 →
        t.machine.frames = fs.push f → Serves fs f slot (s.machine.above slot argc) (.construct c)
          (pushFrame m slot (.constructor (.object s.world.heap.fields.size c))) t := by
      intro t hheap ht
      have hpush := @yields_pushFrame t fs f slot m (.constructor (.object s.world.heap.fields.size c)) True
        (fun _ => False) ht
      refine hpush.mono ?_ fun _ => False.elim
      rintro _ u ⟨hruns, hworld⟩
      exact .constructs (Class.constructor?_eq_some_iff.mp hsome) hruns (by rwa [hworld, hheap])
    rw [yields_bind, yields_setSlot]
    intro _
    split
    · rw [yields_bind, yields_getMachine, yields_bind, yields_setSp]
      exact fun _ => enters _ rfl hframes
    · refine yields_pushNulls (s := ⟨_, _⟩) _ fun t hworld ht => enters t (congrArg World.heap hworld) ?_
      exact ht.trans hframes

theorem serves_callValue (hframes : s.machine.frames = fs.push f) (hsp : s.machine.sp = slot + 1 + argc) {c : Class}
    (hc : s.machine.slot slot = .cls c) :
    Serves fs f slot (s.machine.above slot argc) (.construct c) (callValue argc) s := by
  unfold callValue Serves
  simp only [yields_bind, yields_calleeSlot, yields_getSlot]
  refine ⟨fun _ => trivial, fun _ _ => ?_⟩
  rw [show s.machine.sp - (argc + 1) = slot by omega, show s.machine.stack[slot]?.getD .null = .cls c from hc]
  exact serves_construct hframes hsp c

theorem serves_callMethod (hframes : s.machine.frames = fs.push f) {c : Class} {name : String} {m : Closure}
    (hm : c.findMethod? name = some m) (args : List Value) :
    Serves fs f slot args (.method c name) (callMethod m slot args.length) s := by
  have hnearest := Class.findMethod?_eq_some_iff.mp hm
  unfold callMethod checkArity Serves
  simp only [yields_bind, yields_ite, yields_raise, yields_pure, bne_iff_ne, ne_eq, not_not]
  refine ⟨fun hne => ⟨fun _ => trivial, fun _ => ⟨?_, fun u hu => ?_⟩⟩, fun heq => ?_⟩
  · rw [hframes, Array.size_push]
  · exact .refuses hnearest (Ne.symm hne) hu
  · have hpush := @yields_pushFrame s fs f slot m .method True (fun _ => False) hframes
    exact hpush.mono (fun _ t ht => .runs hnearest heq.symm ht.1) fun _ => False.elim

theorem serves_missingMethod (hframes : s.machine.frames = fs.push f) {c : Class} {name : String}
    (hm : c.findMethod? name = none) (args : List Value) :
    Serves fs f slot args (.method c name) (missingMethod slot) s := by
  have hanswer := @yields_answer s fs f slot True (fun _ => False) hframes .null
  exact hanswer.mono (fun _ t ht => .misses (Class.findMethod?_eq_none_iff.mp hm) ht.1) fun _ => False.elim

/-- The method is looked up from the class on, or it is missing. -/
theorem serves_found (hframes : s.machine.frames = fs.push f) (c : Class) (name : String) (args : List Value) :
    Serves fs f slot args (.method c name)
      (match c.findMethod? name with
        | some m => callMethod m slot args.length
        | none => missingMethod slot) s := by
  split
  · next hm => exact serves_callMethod hframes hm args
  · next hm => exact serves_missingMethod hframes hm args

/-- A class in a field is called with the arguments. -/
theorem serves_field (hframes : s.machine.frames = fs.push f) (hsp : s.machine.sp = slot + 1 + argc) {c : Class}
    {name : String} (hfield : s.world.heap.property? (s.machine.slot slot) name = some (some (.cls c))) :
    Serves fs f slot (s.machine.above slot argc) (.construct c) (invoke name argc) s := by
  unfold invoke Serves
  simp only [yields_bind, yields_calleeSlot, yields_getSlot, yields_getHeap]
  refine ⟨fun _ => trivial, fun _ hlt => ?_⟩
  rw [show s.machine.sp - (argc + 1) = slot by omega] at hlt ⊢
  rw [show s.world.heap.property? (s.machine.stack[slot]?.getD .null) name = _ from hfield]
  show Yields True (setSlot slot (.cls c) >>= fun _ => callValue argc) s _ _
  rw [yields_bind, yields_setSlot]
  intro _
  let t : State := ⟨s.world, { s.machine with stack := s.machine.stack.setIfInBounds slot (.cls c) }⟩
  have hclass : t.machine.slot slot = .cls c := by
    show (s.machine.stack.setIfInBounds slot (.cls c))[slot]?.getD .null = .cls c
    rw [Array.getElem?_setIfInBounds_self_of_lt hlt]
    rfl
  have hcalled := @serves_callValue t fs f slot argc hframes hsp c hclass
  rwa [Machine.above_set (Or.inl (Nat.le_refl slot))] at hcalled

theorem serves_invoke (hframes : s.machine.frames = fs.push f) (hsp : s.machine.sp = slot + 1 + argc) {ref : Ref}
    {c : Class} {name : String} (hobject : s.machine.slot slot = .object ref c)
    (hfield : ∀ v, (s.world.heap.objectFields ref).get? name = some v → v.isCallable = false) :
    Serves fs f slot (s.machine.above slot argc) (.method c name) (invoke name argc) s := by
  unfold invoke Serves
  simp only [yields_bind, yields_calleeSlot, yields_getSlot, yields_getHeap]
  refine ⟨fun _ => trivial, fun _ _ => ?_⟩
  rw [show s.machine.sp - (argc + 1) = slot by omega, show s.machine.stack[slot]?.getD .null = _ from hobject]
  have hnone : ((s.world.heap.objectFields ref).get? name).filter Value.isCallable = none := by
    rw [Option.filter_eq_none_iff]
    exact fun v hv => by simp [hfield v hv]
  have hproperty : s.world.heap.property? (.object ref c) name = some ((s.world.heap.objectFields ref).get? name) := rfl
  rw [hproperty]
  dsimp only
  rw [hnone]
  have hfound := @serves_found s fs f slot hframes c name (s.machine.above slot argc)
  rwa [Machine.length_above] at hfound

theorem serves_invokeSuper (hframes : s.machine.frames = fs.push f) (hsp : s.machine.sp = slot + 1 + argc + 1)
    {c p : Class} {name : String} (hclass : s.machine.slot (slot + 1 + argc) = .cls c) (hparent : c.parent = some p) :
    Serves fs f slot (s.machine.above slot argc) (.method p name) (invokeSuper name argc) s := by
  unfold invokeSuper Serves
  simp only [yields_bind, yields_pop]
  refine ⟨fun _ => trivial, fun _ _ => ?_⟩
  rw [show s.machine.sp - 1 = slot + 1 + argc by omega,
    show s.machine.stack[slot + 1 + argc]?.getD .null = _ from hclass]
  simp only [yields_bind, yields_calleeSlot]
  refine ⟨fun _ => trivial, fun _ => ?_⟩
  rw [show slot + 1 + argc - (argc + 1) = slot by omega, hparent]
  have hfound (t : State) (ht : t.machine.frames = fs.push f) :=
    @serves_found t fs f slot ht p name (s.machine.above slot argc)
  rw [Machine.length_above] at hfound
  exact hfound _ hframes

/-! ## Turns -/

/-- A turn at a call. -/
theorem serves_turn {op : Opcode} {x : Exec Unit} (hframes : s.machine.frames = fs.push f)
    (hw : s.machine.waiting = none) (hcode : f.code[f.ip]? = some op.toByte)
    (hop : perform op = x >>= fun _ => pure Signal.next)
    (hx : Serves fs f slot args callee x (s.readTo fs f (f.ip + 1))) :
    Yields True advanceCatching s (fun _ t => callee.Served t fs f slot args) fun _ => True := by
  refine yields_catching (E := Faults fs f slot args callee) ?_ fun t ht v => ?_
  · unfold advance step
    simp only [yields_bind, yields_getMachine, hw, yields_currentFrame hframes, hcode, yields_modifyFrame hframes,
      yields_modifyMachine, dispatch_toByte, hop, yields_pure]
    simp only [State.readTo, hw] at hx
    exact hx
  · exact Yields.mono (stops_throwValue ht.1 v) (fun _ u hu => ht.2 u hu) fun _ _ => trivial

/-- The name of a method and the number of arguments are read before anything else happens. -/
theorem serves_named {op : Opcode} {name : String} {x : String → Nat → Exec Unit}
    (hframes : s.machine.frames = fs.push f) (hw : s.machine.waiting = none) (hnames : f.Names s.machine op name argc)
    (hop : perform op = (do
      let index ← operand 2
      let name ← constantName index
      let count ← operand 1
      x name count) >>= fun _ => pure Signal.next)
    (hx : Serves fs { f with ip := f.ip + 4 } slot args callee (x name argc) (s.readTo fs f (f.ip + 4))) :
    Yields True advanceCatching s (fun _ t => callee.Served t fs f slot args) fun _ => True := by
  obtain ⟨k, hk, hname⟩ := hnames.name
  refine serves_turn hframes hw hnames.opcode hop ?_
  rw [Serves, yields_bind, yields_operand rfl hk, yields_bind, yields_constantName]
  refine ⟨fun _ => trivial, fun other hother => ?_⟩
  cases hother.symm.trans hname
  rw [yields_bind, yields_operand rfl hnames.argc]
  exact Serves.same hx ⟨rfl, rfl, rfl⟩

end Exec

/-- In the turn at a call the callee gets what is due to it. -/
theorem State.Addresses.served (h : s.Addresses f slot argc callee) (hframes : s.machine.frames = fs.push f)
    (hw : s.machine.waiting = none) :
    Exec.Yields True Exec.advanceCatching s (fun _ t => callee.Served t fs f slot (s.machine.above slot argc))
      fun _ => True := by
  cases h with
  | @construct c hsp happlies =>
    generalize hv : Value.cls c = v at happlies
    cases happlies with
    | call hcode hargc =>
      refine Exec.serves_turn (x := do Exec.callValue (← Exec.operand 1)) hframes hw hcode ?_ ?_
      · simp only [Exec.perform, bind_assoc]
      · rw [Exec.Serves, Exec.yields_bind, Exec.yields_operand rfl hargc]
        exact Exec.Serves.same (Exec.serves_callValue (s := s.readTo fs f (f.ip + 2)) rfl hsp hv.symm) ⟨rfl, rfl, rfl⟩
    | field hnames hproperty =>
      subst hv
      exact Exec.serves_named hframes hw hnames rfl (Exec.serves_field (s := s.readTo fs f _) rfl hsp hproperty)
  | method hsp hnames hobject hfield =>
    refine Exec.serves_named hframes hw hnames rfl ?_
    exact Exec.serves_invoke (s := s.readTo fs f (f.ip + 4)) rfl hsp hobject hfield
  | super hsp hnames hclass hparent =>
    refine Exec.serves_named hframes hw hnames rfl ?_
    exact Exec.serves_invokeSuper (s := s.readTo fs f (f.ip + 4)) rfl hsp hclass hparent

end

end ScriptMachine
