import ScriptMachine.Proofs.Frames.Run

/-!
# What a call hands over

A call leaves its arguments where the caller put them, and the new frame begins there: its first locals hold what
was handed over, in order, and the others hold null. A constructor finds its new instance in place of the receiver,
as many arguments as it has parameters, and null for those that are missing.

1. **Lines of slots**: values that lie one after the other, with null behind them.
2. **Frames**: what a frame receives (`Frame.Receives`), and what a caller offers (`Machine.Offers`).
3. **Calls**: one lemma for each way of calling.
4. **Turns and begins**: the frame that a turn or the begin of a run enters.
-/

namespace ScriptMachine

open Point

/-! ## Lines of slots -/

/-- From the slot `base` on there are the values `vs`, and then null. -/
def Lined (a : Array Value) (base : Nat) (vs : List Value) : Prop :=
  ∀ k, base + k < a.size → a[base + k]? = some (vs[k]?.getD .null)

namespace Lined

variable {a : Array Value} {base n slot : Nat} {vs : List Value} {v : Value}

theorem null (h : Lined a base vs) : NullFrom a (base + vs.length) := by
  intro i v hi hv
  have hlt := (Array.getElem?_eq_some_iff.mp hv).1
  have hslot := h (i - base) (by omega)
  rw [show base + (i - base) = i by omega, hv, List.getElem?_eq_none (by omega)] at hslot
  exact Option.some.inj hslot

/-- A line up to `n`, with null from there on. -/
theorem of_null (hnull : NullFrom a (base + n)) (hn : vs.length ≤ n)
    (h : ∀ k < n, base + k < a.size → a[base + k]? = some (vs[k]?.getD .null)) : Lined a base vs := by
  intro k hk
  rcases Nat.lt_or_ge k n with hlt | hge
  · exact h k hlt hk
  · have hslot := Array.getElem?_eq_getElem hk
    rw [hslot, hnull _ _ (Nat.add_le_add_left hge _) hslot, List.getElem?_eq_none (Nat.le_trans hn hge)]
    rfl

/-- A slot below the line is written. -/
theorem set_below (h : Lined a base vs) (hslot : slot < base) (v : Value) : Lined (a.setIfInBounds slot v) base vs := by
  intro k hk
  rw [Array.size_setIfInBounds] at hk
  rw [Array.getElem?_setIfInBounds_ne (by omega)]
  exact h k hk

/-- A line gets longer at its lower end. -/
theorem cons (h : Lined a (base + 1) vs) (hv : base < a.size → a[base]? = some v) : Lined a base (v :: vs) := by
  intro k hk
  cases k with
  | zero => exact hv hk
  | succ k =>
    rw [List.getElem?_cons_succ, show base + (k + 1) = base + 1 + k by omega]
    exact h k (by omega)

theorem set_cons (h : Lined a (base + 1) vs) (v : Value) : Lined (a.setIfInBounds base v) base (v :: vs) := by
  refine (h.set_below (Nat.lt_succ_self base) v).cons fun hlt => ?_
  rw [Array.size_setIfInBounds] at hlt
  exact Array.getElem?_setIfInBounds_self_of_lt hlt

/-- A line is cut, and what was behind the cut is cleared. -/
theorem clear {count : Nat} (h : Lined a base vs) (hcount : vs.length ≤ n + count) :
    Lined (Exec.clearSlots a (base + n) count) base (vs.take n) := by
  have hnull : NullFrom (Exec.clearSlots a (base + n) count) (base + n) := (h.null.mono (by omega)).clear
  refine of_null hnull (List.length_take_le n vs) fun k hk hlt => ?_
  rw [Exec.size_clearSlots] at hlt
  rw [Exec.getElem?_clearSlots_of_lt _ (Nat.add_lt_add_left hk _), List.getElem?_take_of_lt hk]
  exact h k hlt

/-- The last value of a line is taken away. -/
theorem pop (h : Lined a base (vs ++ [v])) : Lined (a.setIfInBounds (base + vs.length) .null) base vs := by
  have hcut := @clear a base vs.length _ 1 h (by simp)
  rwa [List.take_left'] at hcut
  rfl

/-- A line gets longer at its upper end. -/
theorem push (h : Lined a base vs) (v : Value) : Lined (a.setIfInBounds (base + vs.length) v) base (vs ++ [v]) := by
  refine of_null (n := vs.length + 1) (h.null.push v) (by simp) fun k hk hlt => ?_
  rw [Array.size_setIfInBounds] at hlt
  rcases Nat.eq_or_lt_of_le (Nat.le_of_lt_succ hk) with rfl | hk
  · rw [Array.getElem?_setIfInBounds_self_of_lt hlt, List.getElem?_concat_length]
    rfl
  · rw [Array.getElem?_setIfInBounds_ne (by omega), List.getElem?_append_left hk]
    exact h k hlt

/-- Behind a line there is null already. -/
theorem set_null (h : Lined a base vs) (hslot : base + vs.length ≤ slot) :
    Lined (a.setIfInBounds slot .null) base vs := by
  intro k hk
  rw [Array.size_setIfInBounds] at hk
  by_cases heq : slot = base + k
  · rw [heq, Array.getElem?_setIfInBounds_self_of_lt hk, List.getElem?_eq_none (by omega)]
    rfl
  · rw [Array.getElem?_setIfInBounds_ne heq]
    exact h k hk

end Lined

/-! ## Frames -/

/-- What a call hands over to a frame, in the order of its locals. -/
def Frame.handed (f : Frame) (receiver : Value) (args : List Value) : List Value :=
  match f.kind with
  | .function => args
  | .method => receiver :: args
  | .constructor object => object :: args.take f.closure.function.params

/-- The frame has been entered by a call of what is in the slot `slot`. -/
structure Frame.Receives (f : Frame) (m : Machine) (slot : Nat) (receiver : Value) (args : List Value) : Prop where
  slot : f.resultSlot = slot
  start : f.ip = 0
  /-- Nothing has been captured. -/
  cells : f.cells = #[]
  /-- Only a constructor can be called with any number of arguments. -/
  arity : (∀ object, f.kind ≠ .constructor object) → args.length = f.closure.function.params
  locals : ∀ k < f.closure.function.locals, m.stack[f.base + k]? = some ((f.handed receiver args)[k]?.getD .null)

/-- What is in a slot; one that is not there reads as null. -/
def Machine.slot (m : Machine) (i : Nat) : Value := m.stack[i]?.getD .null

/-- The values in the slots above `slot`. -/
def Machine.above (m : Machine) (slot count : Nat) : List Value := (List.range count).map fun k => m.slot (slot + 1 + k)

/-- The next instruction of the frame is a call with so many arguments. There may be more values above them. -/
inductive Frame.Asks (f : Frame) : Nat → Nat → Prop where
  | call {n : Nat} : f.code[f.ip]? = some (Opcode.toByte .call) → operandAt? f.code (f.ip + 1) 1 = some n → Asks f n 0
  | invoke {n : Nat} : f.code[f.ip]? = some (Opcode.toByte .invoke) → operandAt? f.code (f.ip + 3) 1 = some n →
    Asks f n 0
  /-- The class at hand is on top of the arguments. -/
  | invokeSuper {n : Nat} : f.code[f.ip]? = some (Opcode.toByte .invokeSuper) →
    operandAt? f.code (f.ip + 3) 1 = some n → Asks f n 1

/-- The running frame is about to call what is in the slot `slot`. -/
structure Machine.Offers (m : Machine) (slot : Nat) (receiver : Value) (args : List Value) : Prop where
  asks : ∃ f more, m.frames.back? = some f ∧ f.Asks args.length more ∧ m.sp = slot + 1 + args.length + more
  receiver : m.slot slot = receiver
  args : ∀ i v, args[i]? = some v → m.slot (slot + 1 + i) = v

namespace Machine

variable {m : Machine} {slot count : Nat}

theorem length_above (m : Machine) (slot count : Nat) : (m.above slot count).length = count := by
  rw [above, List.length_map, List.length_range]

theorem getElem?_above {k : Nat} (hk : k < count) : (m.above slot count)[k]? = some (m.slot (slot + 1 + k)) := by
  rw [above, List.getElem?_map, List.getElem?_range hk]
  rfl

/-- What lies on top of the stack is a line. -/
theorem lined_above (hnull : NullFrom m.stack m.sp) (hsp : m.sp = slot + 1 + count) :
    Lined m.stack (slot + 1) (m.above slot count) := by
  refine .of_null (hsp ▸ hnull) (Nat.le_of_eq (m.length_above slot count)) fun k hk hlt => ?_
  rw [getElem?_above hk, Machine.slot, Array.getElem?_eq_getElem hlt]
  rfl

theorem above_succ (m : Machine) (slot count : Nat) :
    m.above slot (count + 1) = m.above slot count ++ [m.slot (slot + 1 + count)] := by
  rw [above, List.range_succ, List.map_append]
  rfl

theorem Offers.of_asks {fs : Array Frame} {f : Frame} {more : Nat} (hframes : m.frames = fs.push f)
    (hasks : f.Asks count more) (hsp : m.sp = slot + 1 + count + more) :
    m.Offers slot (m.slot slot) (m.above slot count) := by
  refine ⟨⟨f, more, by rw [hframes, Array.back?_push], ?_, ?_⟩, rfl, fun i v hv => ?_⟩
  · rwa [length_above]
  · rwa [length_above]
  · have hlt := (List.getElem?_eq_some_iff.mp hv).1
    rw [length_above] at hlt
    rw [getElem?_above hlt] at hv
    exact Option.some.inj hv

end Machine

/-! ## Calls -/

namespace Exec

section

variable {n slot : Nat} {receiver : Value} {args : List Value} {s : State}

/-- If `x` leaves more than `n` frames, the last one has been entered with what was handed over. A fault leaves no
more than that. -/
def Hands (n slot : Nat) (receiver : Value) (args : List Value) (x : Exec Unit) (s : State) : Prop :=
  Yields True x s (fun _ t => n < t.machine.frames.size →
    ∃ f, t.machine.frames.back? = some f ∧ f.Receives t.machine slot receiver args) fun t => t.machine.frames.size ≤ n

/-- No frame is entered. -/
def Stops (n : Nat) (x : Exec Unit) (s : State) : Prop :=
  Yields True x s (fun _ t => t.machine.frames.size ≤ n) fun t => t.machine.frames.size ≤ n

theorem Stops.hands {x : Exec Unit} (h : Stops n x s) : Hands n slot receiver args x s :=
  Yields.mono h (fun _ _ hle hlt => absurd hle (Nat.not_le.mpr hlt)) fun _ hle => hle

theorem stops_push (h : s.machine.frames.size ≤ n) (v : Value) : Stops n (push v) s := by
  rw [Stops, yields_push]
  exact fun _ => h

theorem stops_throwValue (h : s.machine.frames.size ≤ n) (v : Value) : Stops n (throwValue v) s := by
  unfold throwValue Stops
  rw [yields_bind, yields_getMachine]
  split
  · exact (yields_raise _).mpr ⟨fun _ => trivial, fun _ => h⟩
  · next handler rest hrest =>
    have hcut : (s.machine.frames.extract 0 handler.depth).size ≤ n := by
      rw [Array.size_extract]
      omega
    have hmove : ∀ g : Frame → Frame, ((s.machine.frames.extract 0 handler.depth).modify
        ((s.machine.frames.extract 0 handler.depth).size - 1) g).size ≤ n := fun g => by rwa [Array.size_modify]
    simp only [yields_bind, yields_modifyMachine, yields_setSp, yields_push]
    intro _ _
    split
    · exact yields_jumpTo_of _ (hmove _)
    · rw [yields_bind, yields_push]
      exact fun _ => yields_jumpTo_of _ (hmove _)
    · exact (yields_defect _).mpr trivial

theorem stops_deliverNative (h : s.machine.frames.size ≤ n) (v : Value) : Stops n (deliverNative v) s := by
  unfold deliverNative
  split
  · split
    · exact stops_throwValue h _
    · exact stops_throwValue h _
  · exact stops_push h _

theorem stops_setSp {x : Exec Unit} (h : s.machine.frames.size ≤ n) (sp : Nat)
    (hx : ∀ t : State, t.machine.frames.size ≤ n → Stops n x t) : Stops n (setSp sp >>= fun _ => x) s := by
  rw [Stops, yields_bind, yields_setSp]
  exact fun _ => hx _ h

theorem stops_callNative (h : s.machine.frames.size ≤ n) (id slot : Nat) : Stops n (callNative id slot) s := by
  have hdeliver : ∀ world v, Stops n (do setSp slot; deliverNative v) ⟨world, s.machine⟩ := by
    intro world v
    refine stops_setSp ?_ slot fun _ ht => stops_deliverNative ht v
    exact h
  unfold callNative Stops
  simp only [yields_bind, yields_slotsFrom, yields_modifyGet]
  intro _ _
  split
  · exact yields_crash _
  · split
    · exact hdeliver _ _
    · exact hdeliver _ _

theorem stops_missingMethod (h : s.machine.frames.size ≤ n) (slot : Nat) : Stops n (missingMethod slot) s :=
  stops_setSp h slot fun _ ht => stops_push ht _

/-- The locals of a new frame are the slots from its base on. -/
theorem hands_pushFrame {closure : Closure} {base : Nat} {kind : FrameKind}
    (hline : Lined s.machine.stack base ((Frame.enter closure base kind).handed receiver args))
    (hslot : (Frame.enter closure base kind).resultSlot = slot)
    (harity : (∀ object, kind ≠ .constructor object) → args.length = closure.function.params)
    (hframes : s.machine.frames.size ≤ n) : Hands n slot receiver args (pushFrame closure base kind) s := by
  unfold pushFrame Hands
  simp only [yields_bind, yields_getMachine, yields_ite, yields_raise]
  refine ⟨fun _ => ⟨fun _ => trivial, fun _ => hframes⟩, fun _ => ⟨fun _ => ⟨fun _ => trivial, fun _ => hframes⟩, ?_⟩⟩
  intro hroom
  simp only [yields_setSp, yields_modifyMachine]
  intro _ _
  refine ⟨.enter closure base kind, Array.back?_push, hslot, rfl, rfl, harity, fun k hk => ?_⟩
  -- only slots above the locals are cleared
  show (clearSlots s.machine.stack _ _)[base + k]? = _
  have hk : k < closure.function.locals := hk
  rw [getElem?_clearSlots_of_lt _ (Nat.add_lt_add_left hk base)]
  exact hline k (by omega)

theorem hands_checkArity {closure : Closure} {argc : Nat} {x : Exec Unit} (hframes : s.machine.frames.size ≤ n)
    (h : closure.function.params = argc → Hands n slot receiver args x s) :
    Hands n slot receiver args (checkArity closure argc >>= fun _ => x) s := by
  unfold checkArity Hands
  simp only [yields_bind, yields_ite, yields_raise, yields_pure, bne_iff_ne, ne_eq, not_not]
  exact ⟨fun _ => ⟨fun _ => trivial, fun _ => hframes⟩, h⟩

/-- Null is pushed for each argument that is missing. -/
theorem hands_pushNulls {x : Exec Unit} {base : Nat} {vs : List Value} (count : Nat)
    (hline : Lined s.machine.stack base vs) (hsp : base + vs.length ≤ s.machine.sp)
    (hframes : s.machine.frames.size ≤ n)
    (hx : ∀ t : State, Lined t.machine.stack base vs → t.machine.frames.size ≤ n → Hands n slot receiver args x t) :
    Hands n slot receiver args (pushNulls count >>= fun _ => x) s := by
  induction count generalizing s with
  | zero => exact hx s hline hframes
  | succ count ih =>
    rw [Hands, pushNulls, bind_assoc, yields_bind, yields_push]
    intro _
    exact ih (hline.set_null hsp) (Nat.le_succ_of_le hsp) hframes

/-- A constructor gets as many arguments as it has parameters. -/
theorem hands_construct (c : Class) (hline : Lined s.machine.stack (slot + 1) args)
    (hsp : s.machine.sp = slot + 1 + args.length) (hframes : s.machine.frames.size ≤ n) :
    Hands n slot receiver args (construct c slot args.length) s := by
  unfold construct Hands
  simp only [yields_bind, yields_slotsFrom, yields_allocate]
  intro _ _
  generalize s.world.heap.newObject c (s.machine.stack.extract (slot + 1) s.machine.sp).toList = made
  split
  · refine Stops.hands (stops_setSp ?_ slot fun _ ht => stops_push ht _)
    exact hframes
  · next constructor _ =>
    rw [yields_bind, yields_setSlot]
    intro _
    have hset := hline.set_cons made.1
    have enters : ∀ t : State, Lined t.machine.stack slot (made.1 :: args.take constructor.function.params) →
        t.machine.frames.size ≤ n → Hands n slot receiver args (pushFrame constructor slot (.constructor made.1)) t :=
      fun _ ht hle => hands_pushFrame ht rfl (fun hkind => absurd rfl (hkind made.1)) hle
    split
    · next hmore =>
      -- arguments that are too many are dropped
      rw [yields_bind, yields_getMachine, yields_bind, yields_setSp]
      intro _
      refine enters ⟨_, _⟩ ?_ hframes
      show Lined (clearSlots _ (s.machine.sp - _) (s.machine.sp - (s.machine.sp - _))) _ _
      rw [show s.machine.sp - (args.length - constructor.function.params) = slot + (constructor.function.params + 1) by
        omega, ← List.take_succ_cons]
      refine hset.clear ?_
      simp only [List.length_cons]
      omega
    · next hless =>
      refine hands_pushNulls (s := ⟨_, _⟩) _ hset ?_ hframes fun t ht => enters t ?_
      · simp only [List.length_cons]
        omega
      · rwa [List.take_of_length_le (Nat.le_of_not_lt hless)]

theorem hands_callValue (hline : Lined s.machine.stack (slot + 1) args) (hsp : s.machine.sp = slot + 1 + args.length)
    (hframes : s.machine.frames.size ≤ n) : Hands n slot receiver args (callValue args.length) s := by
  unfold callValue Hands
  simp only [yields_bind, yields_calleeSlot, yields_getSlot]
  refine ⟨fun _ => trivial, fun _ _ => ?_⟩
  rw [show s.machine.sp - (args.length + 1) = slot by omega]
  split
  · refine hands_checkArity hframes fun hparams => ?_
    exact hands_pushFrame hline (Nat.add_sub_cancel slot 1) (fun _ => hparams.symm) hframes
  · exact (stops_callNative hframes _ _).hands
  · exact hands_construct _ hline hsp hframes
  · exact (yields_raise _).mpr ⟨fun _ => trivial, fun _ => hframes⟩

theorem hands_callMethod (method : Closure) (hline : Lined s.machine.stack slot (receiver :: args))
    (hframes : s.machine.frames.size ≤ n) : Hands n slot receiver args (callMethod method slot args.length) s :=
  hands_checkArity hframes fun hparams => hands_pushFrame hline rfl (fun _ => hparams.symm) hframes

theorem hands_invoke (name : String) (hline : Lined s.machine.stack (slot + 1) args)
    (hreceiver : s.machine.slot slot = receiver) (hsp : s.machine.sp = slot + 1 + args.length)
    (hframes : s.machine.frames.size ≤ n) : Hands n slot receiver args (invoke name args.length) s := by
  unfold invoke Hands
  simp only [yields_bind, yields_calleeSlot, yields_getSlot, yields_getHeap]
  refine ⟨fun _ => trivial, fun _ hlt => ?_⟩
  rw [show s.machine.sp - (args.length + 1) = slot by omega] at hlt ⊢
  split
  · exact (yields_raise _).mpr ⟨fun _ => trivial, fun _ => hframes⟩
  · split
    · -- a callable field takes the place of the receiver
      rw [yields_bind, yields_setSlot]
      exact fun _ => hands_callValue (s := ⟨_, _⟩) (hline.set_below (Nat.lt_succ_self slot) _) hsp hframes
    · split
      · refine hands_callMethod _ (hline.cons fun _ => ?_) hframes
        rw [← hreceiver, Machine.slot, Array.getElem?_eq_getElem hlt]
        rfl
      · exact (stops_missingMethod hframes _).hands

theorem hands_invokeSuper (name : String) {top : Value} (hline : Lined s.machine.stack (slot + 1) (args ++ [top]))
    (hreceiver : s.machine.slot slot = receiver) (hsp : s.machine.sp = slot + 1 + args.length + 1)
    (hframes : s.machine.frames.size ≤ n) : Hands n slot receiver args (invokeSuper name args.length) s := by
  unfold invokeSuper Hands
  simp only [yields_bind, yields_pop]
  refine ⟨fun _ => trivial, fun _ hlt => ?_⟩
  split
  · simp only [yields_bind, yields_calleeSlot]
    refine ⟨fun _ => trivial, fun _ => ?_⟩
    rw [show s.machine.sp - 1 - (args.length + 1) = slot by omega]
    split
    · refine hands_callMethod (s := ⟨_, _⟩) _ ?_ hframes
      rw [show s.machine.sp - 1 = slot + 1 + args.length by omega] at hlt ⊢
      refine hline.pop.cons fun hslot => ?_
      rw [Array.size_setIfInBounds] at hslot
      rw [Array.getElem?_setIfInBounds_ne (by omega), ← hreceiver, Machine.slot, Array.getElem?_eq_getElem hslot]
      rfl
    · refine Stops.hands (stops_missingMethod ?_ _)
      exact hframes
  · exact (yields_defect _).mpr trivial

/-- Values are pushed one after the other. -/
theorem hands_pushAll {x : Exec Unit} {base : Nat} {vs : List Value} (ws : List Value)
    (hline : Lined s.machine.stack base vs) (hsp : s.machine.sp = base + vs.length)
    (hframes : s.machine.frames.size ≤ n)
    (hx : ∀ t : State, Lined t.machine.stack base (vs ++ ws) → t.machine.sp = base + (vs ++ ws).length →
      t.machine.frames.size ≤ n → Hands n slot receiver args x t) :
    Hands n slot receiver args (pushAll ws >>= fun _ => x) s := by
  induction ws generalizing s vs with
  | nil =>
    rw [List.append_nil] at hx
    exact hx s hline hsp hframes
  | cons w ws ih =>
    rw [Hands, pushAll, bind_assoc, yields_bind, yields_push]
    intro _
    rw [List.append_cons] at hx
    refine ih (s := ⟨_, _⟩) ?_ ?_ hframes hx
    · show Lined (s.machine.stack.setIfInBounds s.machine.sp w) base _
      rw [hsp]
      exact hline.push w
    · rw [hsp, List.length_append, List.length_singleton, Nat.add_assoc]

/-! ## Turns and begins -/

/-- Operands are read before anything else happens. -/
theorem hands_reads {fs : Array Frame} {f : Frame} {w k : Nat} {g : Nat → Exec Unit}
    (h : s.machine.frames = fs.push f) (hk : operandAt? f.code f.ip w = some k)
    (hg : ∀ t : State, t.machine.stack = s.machine.stack → t.machine.sp = s.machine.sp →
      t.machine.frames = fs.push { f with ip := f.ip + w } → Hands n slot receiver args (g k) t) :
    Hands n slot receiver args (operand w >>= g) s := by
  rw [Hands, yields_bind, yields_operand h hk]
  exact hg ⟨s.world, _⟩ rfl rfl rfl

/-- The name of a method and the number of arguments are read. -/
theorem hands_named {fs : Array Frame} {f : Frame} {k argc : Nat} {g : String → Nat → Exec Unit}
    (h : s.machine.frames = fs.push f)
    (hk : operandAt? f.code f.ip 2 = some k ∧ operandAt? f.code (f.ip + 2) 1 = some argc)
    (hg : ∀ (name : String) (t : State), t.machine.stack = s.machine.stack → t.machine.sp = s.machine.sp →
      t.machine.frames.size = s.machine.frames.size → Hands n slot receiver args (g name argc) t) :
    Hands n slot receiver args (do
      let index ← operand 2
      let name ← constantName index
      let count ← operand 1
      g name count) s := by
  refine hands_reads h hk.1 fun t hstack hsp hframes => ?_
  rw [Hands, yields_bind, yields_constantName]
  refine ⟨fun _ => trivial, fun name _ => ?_⟩
  refine hands_reads hframes hk.2 fun u hustack husp huframes => ?_
  refine hg name u (hustack.trans hstack) (husp.trans hsp) ?_
  rw [huframes, h, Array.size_push, Array.size_push]

/-- A turn that performs a call. -/
theorem hands_turn {fs : Array Frame} {f : Frame} {op : Opcode} {x : Exec Unit} (h : s.machine.frames = fs.push f)
    (hw : s.machine.waiting = none) (hcode : f.code[f.ip]? = some op.toByte)
    (hop : perform op = x >>= fun _ => pure Signal.next)
    (hx : ∀ t : State, t.machine.stack = s.machine.stack → t.machine.sp = s.machine.sp →
      t.machine.frames = fs.push { f with ip := f.ip + 1 } →
      Hands s.machine.frames.size slot receiver args x t) :
    Yields True advanceCatching s (fun _ t => s.machine.frames.size < t.machine.frames.size →
      ∃ g, t.machine.frames.back? = some g ∧ g.Receives t.machine slot receiver args) fun _ => True := by
  -- a fault of the call is thrown, and no frame is entered then
  refine yields_catching (E := fun t => t.machine.frames.size ≤ s.machine.frames.size) ?_ fun t ht v => ?_
  · unfold advance step
    simp only [yields_bind, yields_getMachine, hw, yields_currentFrame h, hcode, yields_modifyFrame h,
      yields_modifyMachine, dispatch_toByte, hop, yields_pure]
    exact hx ⟨s.world, _⟩ rfl rfl rfl
  · exact Yields.mono (stops_throwValue ht v) (fun _ _ hle hlt => absurd hle (Nat.not_le.mpr hlt)) fun _ _ => trivial

/-- A turn at a call hands over what the caller offers. -/
theorem hands_call {fs : Array Frame} {f : Frame} {i : Emitted} (h : s.machine.frames = fs.push f)
    (hw : s.machine.waiting = none) (hcode : f.code[f.ip]? = some i.opcode.toByte)
    (hreads : readOperands? i.opcode f.code (f.ip + 1) = some i.read) (hsized : i.Sized)
    (hcall : i.opcode.isCall = true)
    (hnull : NullFrom s.machine.stack s.machine.sp) (htakes : slot + i.takes = s.machine.sp) :
    ∃ args, s.machine.Offers slot (s.machine.slot slot) args ∧
      Yields True advanceCatching s (fun _ t => s.machine.frames.size < t.machine.frames.size →
        ∃ g, t.machine.frames.back? = some g ∧ g.Receives t.machine slot (s.machine.slot slot) args) fun _ => True := by
  have one {w : Nat} := @operandAt?_one i f.code (f.ip + 1) w hreads hsized
  have two {v w : Nat} := @operandAt?_two i f.code (f.ip + 1) v w hreads hsized
  have hframes : ∀ {k : Frame}, (fs.push k).size ≤ s.machine.frames.size := by
    intro k
    rw [h, Array.size_push, Array.size_push]
  rcases i with ⟨op, xs, span⟩
  dsimp only at hcode hcall one two
  cases op with
  | call =>
    have hsp : s.machine.sp = slot + 1 + Emitted.operand ⟨.call, xs, span⟩ 0 := by
      simp only [Emitted.takes] at htakes
      omega
    refine ⟨_, .of_asks h (.call hcode (one rfl)) hsp, hands_turn (x := do callValue (← operand 1)) h hw hcode ?_ ?_⟩
    · simp only [perform, bind_assoc]
    · intro t hstack htsp htframes
      refine hands_reads htframes (one rfl) fun u hustack husp huframes => ?_
      have hcalls := @hands_callValue s.machine.frames.size slot (s.machine.slot slot)
        (s.machine.above slot (Emitted.operand ⟨.call, xs, span⟩ 0)) u
      rw [Machine.length_above] at hcalls
      refine hcalls ?_ ?_ (huframes ▸ hframes)
      · rw [hustack, hstack]
        exact Machine.lined_above hnull hsp
      · rw [husp, htsp, hsp]
  | invoke =>
    have hsp : s.machine.sp = slot + 1 + Emitted.operand ⟨.invoke, xs, span⟩ 1 := by
      simp only [Emitted.takes] at htakes
      omega
    refine ⟨_, .of_asks h (.invoke hcode (two rfl).2) hsp, hands_turn h hw hcode rfl fun t hstack htsp htframes => ?_⟩
    refine hands_named htframes (two rfl) fun name u hustack husp huframes => ?_
    have hcalls := @hands_invoke s.machine.frames.size slot (s.machine.slot slot)
      (s.machine.above slot (Emitted.operand ⟨.invoke, xs, span⟩ 1)) u name
    rw [Machine.length_above] at hcalls
    refine hcalls ?_ ?_ ?_ ?_
    · rw [hustack, hstack]
      exact Machine.lined_above hnull hsp
    · rw [Machine.slot, hustack, hstack, Machine.slot]
    · rw [husp, htsp, hsp]
    · rw [huframes, htframes]
      exact hframes
  | invokeSuper =>
    have hsp : s.machine.sp = slot + 1 + (Emitted.operand ⟨.invokeSuper, xs, span⟩ 1 + 1) := by
      simp only [Emitted.takes] at htakes
      omega
    refine ⟨_, .of_asks h (.invokeSuper hcode (two rfl).2) (by omega), hands_turn h hw hcode rfl ?_⟩
    intro t hstack htsp htframes
    refine hands_named htframes (two rfl) fun name u hustack husp huframes => ?_
    have hline := Machine.lined_above hnull hsp
    rw [Machine.above_succ] at hline
    have hcalls := @hands_invokeSuper s.machine.frames.size slot (s.machine.slot slot)
      (s.machine.above slot (Emitted.operand ⟨.invokeSuper, xs, span⟩ 1)) u name _ (hustack.trans hstack ▸ hline)
    rw [Machine.length_above] at hcalls
    refine hcalls ?_ ?_ ?_
    · rw [Machine.slot, hustack, hstack, Machine.slot]
    · omega
    · rw [huframes, htframes]
      exact hframes
  | _ => cases hcall

end

end Exec

section

variable {s t : State} {gs : Array Frame} {g : Frame}

/-- A turn that makes one more frame has handed over to it what the caller offers. -/
theorem State.Next.hands (h : s.Next Function.IsSound t) (hm : s.machine.Stacked)
    (hnull : NullFrom s.machine.stack s.machine.sp) (hframes : t.machine.frames = gs.push g)
    (hsize : s.machine.frames.size ≤ gs.size) :
    ∃ receiver args, s.machine.Offers g.resultSlot receiver args ∧ g.Receives t.machine g.resultSlot receiver args := by
  obtain ⟨fs, f, hframes'⟩ := Array.eq_push_of_size_ne_zero (mt Array.eq_empty_of_size_eq_zero h.1)
  have hmore : s.machine.frames.size < t.machine.frames.size := by
    rw [hframes, Array.size_push]
    exact Nat.lt_succ_of_le hsize
  have hmore' : fs.size + 1 < t.machine.frames.size := by
    rwa [hframes', Array.size_push] at hmore
  cases hw : s.machine.waiting with
  | some wait =>
    -- a machine that waits does not call anything
    rcases (h.waits hframes' hw).1 with hworks | ⟨v, hthrows⟩
    · exact absurd hworks.size_frames (Nat.ne_of_gt hmore')
    · exact absurd hthrows.size_frames_le (Nat.not_le.mpr hmore')
  | none =>
    rcases h.turns hm hframes' hw with ⟨code, p, hsound, hp, hip, hheight, hturns, -⟩
    rcases hturns.enters_of_size hmore' with ⟨hcall, henters⟩
    have htakes := hsound.takes_le hp
    have hcode : f.code[f.ip]? = some p.item.opcode.toByte := hip ▸ getElem?_of_holds hsound.holds hsound.neat hp
    have hreads : readOperands? p.item.opcode f.code (f.ip + 1) = some p.item.read :=
      hip ▸ readOperands?_of_holds hsound.holds hsound.neat hp
    rcases h with ⟨-, w, signal, -, hrun, -⟩
    obtain ⟨args, hoffers, hyields⟩ := @Exec.hands_call (s.machine.sp - p.item.takes) ⟨w, s.machine⟩ _ _ _
      hframes' hw hcode hreads (hsound.sized hp) hcall hnull (Nat.sub_add_cancel (by omega))
    rcases hyields.ok hrun hmore with ⟨k, hk, hreceives⟩
    rw [hframes, Array.back?_push] at hk
    cases hk
    rw [hreceives.slot]
    exact ⟨_, args, hoffers, hreceives⟩

/-- A call from outside hands over its arguments. -/
theorem Run.hands_startCall {callee : Value} {args : List Value} {run : Run} (hidle : s.machine.Idle)
    (hnull : NullFrom s.machine.stack s.machine.sp) (h : Run.startCall callee args s = (.running run, t))
    (hframes : t.machine.frames = gs.push g) : g.Receives t.machine s.machine.sp callee args := by
  have hnone : s.machine.frames.size ≤ 0 := by simp [hidle.frames]
  have hbegin : Exec.Hands 0 s.machine.sp callee args (Exec.beginCall callee args) s := by
    rw [Exec.Hands, Exec.beginCall, Exec.yields_bind, Exec.yields_push]
    intro _
    have hline : Lined (s.machine.stack.setIfInBounds s.machine.sp callee) (s.machine.sp + 1) [] :=
      .of_null (n := 0) (hnull.push callee) (Nat.le_refl 0) fun k hk => absurd hk (Nat.not_lt_zero k)
    refine Exec.hands_pushAll (s := ⟨_, _⟩) args hline rfl hnone ?_
    exact fun u hline hsp hle => Exec.hands_callValue hline hsp hle
  unfold Run.startCall at h
  dsimp only at h
  split at h
  · next hrun =>
    cases h
    rcases hbegin.ok hrun (by rw [hframes, Array.size_push]; exact Nat.succ_pos _) with ⟨k, hk, hreceives⟩
    rw [hframes, Array.back?_push] at hk
    cases hk
    exact hreceives
  · exact (Run.ended_endCall h).elim

end

end ScriptMachine
