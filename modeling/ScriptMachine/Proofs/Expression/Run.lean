import Mathlib.Logic.Relation
import ScriptMachine.Machine.Run
import ScriptMachine.Proofs.Expression.Code
import ScriptMachine.Proofs.Expression.Reference
import ScriptMachine.Proofs.Machine.Bounds
import ScriptMachine.Proofs.Machine.Work

/-!
# Instructions and what they carry out

A piece of code is run from a `Stage`: a state with its frames, the running one last. While it runs, the
machine stays at that stage: it has some values on top of the stack, has come to some offset, and has
changed the heap and the globals, and everything else is as it was (`Stage.Inside`, `Stage.At`).

`Stage.Carries` says that code carries out a computation on the store: control goes from one offset to
another and the values on top of the stack change as the result says, or an instruction stops with the
abort of the computation. There is one lemma for each kind of instruction, and `Stage.Carries.bind` puts
pieces of code together.
-/

namespace ScriptMachine

open Exec

/-! ## Runs -/

/-- One turn of a machine that goes on. -/
def State.Steps (s t : State) : Prop := advanceCatching.run s = .ok .next t

/-- Any number of turns. -/
abbrev State.Reaches (s t : State) : Prop := Relation.ReflTransGen State.Steps s t

/-- Where a piece of code is begun. -/
structure Stage where
  start : State
  /-- The frames below the running one. -/
  below : Array Frame
  frame : Frame

/-- Inside the instruction at `o`: the running frame reads at `ip`, and the values `vs` are on the stack
above those from the start, the oldest first. -/
structure Stage.Inside (C : Stage) (o ip : Nat) (vs : List Value) (st : Store) (s : State) : Prop where
  world : s.world = { C.start.world with heap := st.heap, globals := st.globals }
  frames : s.machine.frames = C.below.push { C.frame with ip }
  sp : s.machine.sp = C.start.machine.sp + vs.length
  size : s.machine.stack.size = C.start.machine.stack.size
  kept : ∀ i < C.start.machine.sp, s.machine.stack[i]? = C.start.machine.stack[i]?
  values : ∀ k v, vs[k]? = some v → s.machine.stack[C.start.machine.sp + k]? = some v
  handlers : s.machine.handlers = C.start.machine.handlers
  captures : s.machine.captures = C.start.machine.captures
  constants : s.machine.constants = C.start.machine.constants
  main : s.machine.main = C.start.machine.main
  registry : s.machine.registry = C.start.machine.registry
  settings : s.machine.settings = C.start.machine.settings
  waiting : s.machine.waiting = none
  at_offset : s.machine.opOffset = o

/-- Before the instruction at `ip`. -/
def Stage.At (C : Stage) (ip : Nat) (vs : List Value) (st : Store) (s : State) : Prop :=
  ∃ o, C.Inside o ip vs st s

namespace Exec

variable {α β : Type} {I J : State → Prop} {R : β → State → Prop} {A : Abort → State → Prop}

/-- What comes first has a known result. -/
theorem Triple.bindValue {x : Exec α} {f : α → Exec β} {a : α}
    (hx : Triple I x (fun b s => b = a ∧ J s) A) (hf : Triple J (f a) R A) :
    Triple I (x >>= f) R A := by
  refine Triple.bind hx fun b => Triple.assume (p := b = a) (fun _ hs => hs.1) ?_
  rintro rfl
  exact hf.pre fun _ hs => hs.2

/-- What comes first has no result that matters. -/
theorem Triple.seq {x : Exec Unit} {f : Unit → Exec β} (hx : Triple I x (fun _ => J) A)
    (hf : Triple J (f ()) R A) : Triple I (x >>= f) R A := Triple.bind hx fun _ => hf

/-- An impossible branch. -/
theorem triple_absurd {x : Exec β} (h : ∀ s, ¬ I s) : Triple I x R A := fun s hs => (h s hs).elim

theorem triple_getSlot {slot : Nat} {v : Value} (h : ∀ s, I s → s.machine.stack[slot]? = some v) :
    Triple I (getSlot slot) (fun w s => w = v ∧ I s) A := by
  refine Triple.withMachine fun m => Triple.assume (p := m.stack[slot]? = some v) ?_ fun hv => ?_
  · rintro s ⟨hs, rfl⟩
    exact h s hs
  · rw [hv]
    exact triple_pure fun s hs => ⟨rfl, hs.1⟩

end Exec

namespace Stage.Inside

variable {C : Stage} {o ip : Nat} {vs : List Value} {st : Store} {A : Abort → State → Prop}

/-! ## Primitive moves -/

theorem push (hroom : C.start.machine.sp + vs.length < C.start.machine.stack.size) (v : Value) :
    Triple (C.Inside o ip vs st) (push v) (fun _ => C.Inside o ip (vs ++ [v]) st) A := by
  refine Triple.withMachine fun m => ?_
  split
  · next hfull =>
    refine triple_absurd ?_
    rintro s ⟨hs, rfl⟩
    rw [hs.size, hs.sp] at hfull
    omega
  · refine triple_modifyMachine ?_
    rintro s ⟨hs, -⟩
    have hsp := hs.sp
    have hsize := hs.size
    refine { hs with sp := ?_, size := ?_, kept := ?_, values := ?_ }
    · show s.machine.sp + 1 = _
      simp [hsp, Nat.add_assoc]
    · show (s.machine.stack.setIfInBounds _ _).size = _
      rw [Array.size_setIfInBounds, hsize]
    · intro i hi
      show (s.machine.stack.setIfInBounds _ _)[i]? = _
      rw [Array.getElem?_setIfInBounds_ne (by omega)]
      exact hs.kept i hi
    · intro k w hk
      show (s.machine.stack.setIfInBounds _ _)[_]? = _
      by_cases hlt : k < vs.length
      · rw [List.getElem?_append_left hlt] at hk
        rw [Array.getElem?_setIfInBounds_ne (by omega)]
        exact hs.values k w hk
      · rw [List.getElem?_append_right (by omega), List.getElem?_singleton] at hk
        split at hk
        · cases hk
          rw [show C.start.machine.sp + k = s.machine.sp by omega]
          exact Array.getElem?_setIfInBounds_self_of_lt (by omega)
        · cases hk

/-- The value on top of the stack. -/
theorem top {v : Value} {s : State} (hs : C.Inside o ip (vs ++ [v]) st s) :
    s.machine.sp ≠ 0 ∧ s.machine.stack[s.machine.sp - 1]? = some v := by
  have hsp := hs.sp
  have hv := hs.values vs.length v (by simp)
  simp only [List.length_append, List.length_singleton] at hsp
  refine ⟨by omega, ?_⟩
  rwa [show s.machine.sp - 1 = C.start.machine.sp + vs.length by omega]

theorem peek (v : Value) : Triple (C.Inside o ip (vs ++ [v]) st) peek
    (fun w s => w = v ∧ C.Inside o ip (vs ++ [v]) st s) A := by
  refine Triple.withMachine fun m => ?_
  split
  · next hzero =>
    refine triple_absurd ?_
    rintro s ⟨hs, rfl⟩
    exact hs.top.1 (by simpa using hzero)
  · refine (triple_getSlot ?_).mono (fun _ hs => hs) (fun _ _ hs => ⟨hs.1, hs.2.1⟩) fun _ _ he => he
    rintro s ⟨hs, rfl⟩
    exact hs.top.2

/-- Give up the values above some of them. -/
theorem lower {ws : List Value} {s : State} {stack : Array Value}
    (hs : C.Inside o ip (vs ++ ws) st s) (hsize : stack.size = s.machine.stack.size)
    (hstack : ∀ i < C.start.machine.sp + vs.length, stack[i]? = s.machine.stack[i]?) :
    C.Inside o ip vs st
      ⟨s.world, { s.machine with stack, sp := C.start.machine.sp + vs.length }⟩ := by
  refine { hs with sp := rfl, size := hsize.trans hs.size, kept := ?_, values := ?_ }
  · intro i hi
    exact (hstack i (by omega)).trans (hs.kept i hi)
  · intro k v hk
    have hlt := (List.getElem?_eq_some_iff.mp hk).1
    refine (hstack _ (by omega)).trans (hs.values k v ?_)
    rwa [List.getElem?_append_left hlt]

theorem pop (v : Value) : Triple (C.Inside o ip (vs ++ [v]) st) pop
    (fun w s => w = v ∧ C.Inside o ip vs st s) A := by
  refine Triple.withMachine fun m => ?_
  split
  · next hzero =>
    refine triple_absurd ?_
    rintro s ⟨hs, rfl⟩
    exact hs.top.1 (by simpa using hzero)
  · refine Triple.bindValue (a := v) (triple_getSlot ?_) ?_
    · rintro s ⟨hs, rfl⟩
      exact hs.top.2
    · refine Triple.seq (triple_modifyMachine ?_) (triple_pure fun _ hs => ⟨rfl, hs⟩)
      rintro s ⟨hs, -⟩
      have hsp := hs.sp
      simp only [List.length_append, List.length_singleton] at hsp
      rw [show s.machine.sp - 1 = C.start.machine.sp + vs.length by omega]
      refine hs.lower (Array.size_setIfInBounds ..) fun i hi => ?_
      rw [Array.getElem?_setIfInBounds_ne (by omega)]

theorem getElem?_clearSlots (a : Array Value) {start i : Nat} (count : Nat) (hi : i < start) :
    (clearSlots a start count)[i]? = a[i]? := by
  induction count generalizing a start with
  | zero => rfl
  | succ count ih =>
    rw [clearSlots, ih _ (by omega), Array.getElem?_setIfInBounds_ne (by omega)]

/-- The last values are the last slots. -/
theorem extract {ws : List Value} {s : State} (hs : C.Inside o ip (vs ++ ws) st s) :
    (s.machine.stack.extract (C.start.machine.sp + vs.length) s.machine.sp).toList = ws := by
  have hsp := hs.sp
  rw [List.length_append] at hsp
  apply List.ext_getElem?
  intro k
  rw [Array.getElem?_toList, Array.getElem?_extract]
  by_cases hk : k < ws.length
  · have hv := hs.values (vs.length + k) ws[k] (by simp [hk])
    have hlt := (Array.getElem?_eq_some_iff.mp hv).1
    rw [if_pos (by omega), Nat.add_assoc, hv, List.getElem?_eq_getElem hk]
  · rw [List.getElem?_eq_none (by omega), if_neg (by omega)]

theorem takeTop (ws : List Value)
    (hroom : C.start.machine.sp + (vs ++ ws).length ≤ C.start.machine.stack.size) :
    Triple (C.Inside o ip (vs ++ ws) st) (takeTop ws.length)
      (fun us s => us = ws ∧ C.Inside o ip vs st s) A := by
  rw [List.length_append] at hroom
  refine Triple.withMachine fun m => ?_
  refine Triple.assume (p := m.sp = C.start.machine.sp + (vs.length + ws.length) ∧
      m.stack.size = C.start.machine.stack.size) ?_ fun ⟨hsp, hsize⟩ => ?_
  · rintro s ⟨hs, rfl⟩
    exact ⟨by rw [hs.sp, List.length_append], hs.size⟩
  have hstart : m.sp - ws.length = C.start.machine.sp + vs.length := by omega
  rw [if_neg (by omega), hstart]
  refine Triple.bindValue (a := ws) (J := C.Inside o ip (vs ++ ws) st) ?_ ?_
  · refine Triple.withMachine fun m' => Triple.assume (p := m' = m) ?_ ?_
    · rintro s ⟨⟨-, rfl⟩, rfl⟩
      rfl
    · rintro rfl
      rw [if_neg (by simp; omega)]
      refine triple_pure ?_
      rintro s ⟨⟨hs, rfl⟩, -⟩
      exact ⟨hs.extract, hs⟩
  · refine Triple.seq ?_ (triple_pure fun _ hs => ⟨rfl, hs⟩)
    refine Triple.withMachine fun m' => Triple.assume (p := m'.sp ≤ m'.stack.size) ?_ fun hle => ?_
    · rintro s ⟨hs, rfl⟩
      rw [hs.sp, hs.size, List.length_append]
      exact hroom
    · rw [if_neg (by simp; omega)]
      refine triple_modifyMachine ?_
      rintro s ⟨hs, -⟩
      exact hs.lower (size_clearSlots ..) fun i hi => getElem?_clearSlots _ _ hi

/-! ## The running frame -/

theorem currentFrame : Triple (C.Inside o ip vs st) currentFrame
    (fun f s => f = { C.frame with ip } ∧ C.Inside o ip vs st s) A := by
  refine Triple.withMachine fun m =>
    Triple.assume (p := m.frames.back? = some { C.frame with ip }) ?_ fun hframe => ?_
  · rintro s ⟨hs, rfl⟩
    rw [hs.frames, Array.back?_push]
  · rw [hframe]
    exact triple_pure fun s hs => ⟨rfl, hs.1⟩

theorem modifyFrame {target : Nat} {g : Frame → Frame}
    (hg : g { C.frame with ip } = { C.frame with ip := target }) :
    Triple (C.Inside o ip vs st) (modifyFrame g) (fun _ => C.Inside o target vs st) A := by
  refine triple_modifyMachine fun s hs => { hs with frames := ?_ }
  show s.machine.frames.modify _ g = _
  rw [hs.frames, modify_push, hg]

theorem jumpTo (target : Nat) :
    Triple (C.Inside o ip vs st) (jumpTo target) (fun _ => C.Inside o target vs st) A := by
  have hmap : discard Exec.currentFrame = (fun _ => PUnit.unit) <$> Exec.currentFrame := rfl
  unfold Exec.jumpTo
  rw [hmap]
  exact Triple.seq (Triple.map (currentFrame.mono (fun _ hs => hs) (fun _ _ hs => hs.2)
    fun _ _ he => he)) (modifyFrame rfl)

theorem operand {width n : Nat} (hn : operandAt? C.frame.code ip width = some n) :
    Triple (C.Inside o ip vs st) (operand width)
      (fun k s => k = n ∧ C.Inside o (ip + width) vs st s) A := by
  refine Triple.bindValue currentFrame ?_
  have hn : operandAt? ({ C.frame with ip } : Frame).code ip width = some n := hn
  rw [hn]
  exact Triple.seq (modifyFrame rfl) (triple_pure fun _ hs => ⟨rfl, hs⟩)

theorem constant {k : Nat} {v : Value} (hk : C.start.machine.constants[k]? = some v) :
    Triple (C.Inside o ip vs st) (constant k) (fun w s => w = v ∧ C.Inside o ip vs st s) A := by
  refine Triple.withMachine fun m => Triple.assume (p := m.constants[k]? = some v) ?_ fun hk => ?_
  · rintro s ⟨hs, rfl⟩
    rw [hs.constants, hk]
  · rw [hk]
    exact triple_pure fun s hs => ⟨rfl, hs.1⟩

theorem getHeap : Triple (C.Inside o ip vs st) getHeap
    (fun h s => h = st.heap ∧ C.Inside o ip vs st s) A := by
  refine triple_getHeap fun s hs => ⟨?_, hs⟩
  rw [hs.world]

/-- The span of the instruction at hand. -/
theorem span {s : State} {span : Span} (hs : C.Inside o ip vs st s)
    (hspan : C.frame.closure.function.spanAt? o = some span) : s.machine.span = span := by
  have hframe : s.machine.frames.back? = some { C.frame with ip } := by
    rw [hs.frames, Array.back?_push]
  show ((s.machine.frames.back?.bind fun f => f.closure.function.spanAt? s.machine.opOffset).getD _) = _
  rw [hframe, hs.at_offset]
  show (C.frame.closure.function.spanAt? o).getD _ = _
  rw [hspan]
  rfl

end Stage.Inside

/-! ## Carrying out -/

section

variable {α β : Type} {C : Stage} {ip ip₁ ip₂ : Nat} {vs ws us : List Value}

/-- Control goes from one offset to another; the values on the stack change, and nothing else does. -/
def Stage.Goes (C : Stage) (ip : Nat) (vs : List Value) (ip' : Nat) (vs' : List Value) : Prop :=
  ∀ st s, C.At ip vs st s → ∃ s', s.Reaches s' ∧ C.At ip' vs' st s'

/-- From the state `s` on the machine comes to `ip` with the store and the values of a result, or to an
instruction that stops with an abort. -/
def Stage.Ends (C : Stage) (ip : Nat) (vs : α → List Value) (s : State) :
    EStateM.Result Abort Store α → Prop
  | .ok a st => ∃ t, s.Reaches t ∧ C.At ip (vs a) st t
  | .error e st => ∃ k ws t t', s.Reaches t ∧ C.At k ws st t ∧ advance.run t = .error e t'

/-- Control goes from one offset to another as the computation `y` does: the store changes as `y` says
and the values on the stack are those that belong to its result. If `y` stops, then an instruction
stops with the same abort. -/
def Stage.Carries (C : Stage) (ip : Nat) (vs : List Value) (y : Eval α) (ip' : Nat)
    (vs' : α → List Value) : Prop :=
  ∀ st s, C.At ip vs st s → C.Ends ip' vs' s (y.run st)

namespace Stage

theorem Ends.after {vs' : α → List Value} {s t : State} {r : EStateM.Result Abort Store α}
    (hst : s.Reaches t) (h : C.Ends ip vs' t r) : C.Ends ip vs' s r := by
  cases r with
  | ok a st =>
    obtain ⟨u, hu, hat⟩ := h
    exact ⟨u, hst.trans hu, hat⟩
  | error e st =>
    obtain ⟨k, ws, u, u', hu, hat, hstop⟩ := h
    exact ⟨k, ws, u, u', hst.trans hu, hat, hstop⟩

theorem Goes.refl (C : Stage) (ip : Nat) (vs : List Value) : C.Goes ip vs ip vs :=
  fun _ s hs => ⟨s, .refl, hs⟩

theorem Goes.trans (h : C.Goes ip vs ip₁ ws) (h' : C.Goes ip₁ ws ip₂ us) : C.Goes ip vs ip₂ us := by
  intro st s hs
  obtain ⟨t, ht, hat⟩ := h st s hs
  obtain ⟨u, hu, hat⟩ := h' st t hat
  exact ⟨u, ht.trans hu, hat⟩

variable {y : Eval α} {ws' : α → List Value}

theorem Goes.pure {a : α} (h : C.Goes ip vs ip₁ (ws' a)) : C.Carries ip vs (pure a) ip₁ ws' :=
  fun st s hs => h st s hs

theorem Goes.carries (h : C.Goes ip vs ip₁ ws) (hy : C.Carries ip₁ ws y ip₂ ws') :
    C.Carries ip vs y ip₂ ws' := by
  intro st s hs
  obtain ⟨t, ht, hat⟩ := h st s hs
  exact (hy st t hat).after ht

/-- What comes after a computation may rely on its result being one. -/
theorem Carries.bindRun {f : α → Eval β} {us' : β → List Value} (hy : C.Carries ip vs y ip₁ ws')
    (hf : ∀ a st st', y.run st = .ok a st' → C.Carries ip₁ (ws' a) (f a) ip₂ us') :
    C.Carries ip vs (y >>= f) ip₂ us' := by
  intro st s hs
  have hend := hy st s hs
  show C.Ends ip₂ us' s (EStateM.bind y f st)
  unfold EStateM.bind
  cases hrun : y st with
  | ok a st' =>
    rw [show y.run st = .ok a st' from hrun] at hend
    obtain ⟨t, ht, hat⟩ := hend
    exact (hf a st st' hrun st' t hat).after ht
  | error e st' =>
    rw [show y.run st = .error e st' from hrun] at hend
    exact hend

theorem Carries.bind {f : α → Eval β} {us' : β → List Value} (hy : C.Carries ip vs y ip₁ ws')
    (hf : ∀ a, C.Carries ip₁ (ws' a) (f a) ip₂ us') : C.Carries ip vs (y >>= f) ip₂ us' :=
  hy.bindRun fun a _ _ _ => hf a

/-- What comes after changes the values on the stack only. -/
theorem Carries.goes {us' : α → List Value} (hy : C.Carries ip vs y ip₁ ws')
    (hgo : ∀ a, C.Goes ip₁ (ws' a) ip₂ (us' a)) : C.Carries ip vs y ip₂ us' := by
  have hpure (a : α) : C.Carries ip₁ (ws' a) (Pure.pure a) ip₂ us' := (hgo a).pure
  have h := hy.bind hpure
  rwa [bind_pure] at h

/-! ## Instructions -/

/-- An instruction that does what a computation on the store does. -/
theorem carries_of_step {i : Emitted} (hi : C.frame.closure.function.HasAt ip [i]) (x : Exec Unit)
    (hx : perform i.opcode = (do x; return .next))
    (h : ∀ st, Triple (C.Inside ip (ip + 1) vs st) x
      (fun _ s => ∃ a st', y.run st = .ok a st' ∧ C.At ip₁ (ws' a) st' s)
      (fun e _ => y.run st = .error e st)) : C.Carries ip vs y ip₁ ws' := by
  rintro st s ⟨o, hs⟩
  have hadvance : Triple (C.Inside o ip vs st) advance
      (fun signal s => signal = .next ∧ ∃ a st', y.run st = .ok a st' ∧ C.At ip₁ (ws' a) st' s)
      (fun e _ => y.run st = .error e st) := by
    refine Triple.withMachine fun m => Triple.assume (p := m.waiting = none) ?_ fun hwaiting => ?_
    · rintro s ⟨hs, rfl⟩
      exact hs.waiting
    rw [hwaiting]
    refine Triple.pre (Triple.bindValue Inside.currentFrame ?_) fun s hs => hs.1
    -- the byte at the offset is that of the instruction
    have hbyte : ({ C.frame with ip } : Frame).code[ip]? = some i.opcode.toByte := hi.byte
    dsimp only
    rw [hbyte]
    dsimp only
    rw [Opcode.dispatch_eq_ofByte?, Opcode.ofByte?_toByte]
    have hmoved : Triple (C.Inside o ip vs st) (Exec.modifyFrame fun f => { f with ip := ip + 1 })
      (fun _ => C.Inside o (ip + 1) vs st) (fun e _ => y.run st = .error e st) := Inside.modifyFrame rfl
    refine Triple.seq hmoved (Triple.seq (J := C.Inside ip (ip + 1) vs st) ?_ ?_)
    · exact triple_modifyMachine fun s hs => { hs with at_offset := rfl }
    · dsimp only
      rw [hx]
      exact Triple.seq (h st) (triple_pure fun s hs => ⟨rfl, hs⟩)
  have hend := hadvance s hs
  cases hrun : advance s with
  | ok signal t =>
    rw [hrun] at hend
    obtain ⟨rfl, a, st', hy, hat⟩ := hend
    rw [hy]
    refine ⟨t, .single ?_, hat⟩
    show EStateM.tryCatch advance _ s = _
    unfold EStateM.tryCatch
    rw [hrun]
  | error e t =>
    rw [hrun] at hend
    rw [show y.run st = .error e st from hend]
    exact ⟨ip, vs, s, t, .refl, ⟨o, hs⟩, hrun⟩

/-- An instruction that changes the values on the stack only. -/
theorem goes_of_step {i : Emitted} (hi : C.frame.closure.function.HasAt ip [i]) (x : Exec Unit)
    (hx : perform i.opcode = (do x; return .next))
    (h : ∀ st, Triple (C.Inside ip (ip + 1) vs st) x (fun _ => C.Inside ip ip₁ ws st)
      fun _ _ => False) : C.Goes ip vs ip₁ ws := by
  have hcarries : C.Carries ip vs (Pure.pure ()) ip₁ fun _ => ws := by
    refine carries_of_step hi x hx fun st =>
      (h st).mono (fun _ hs => hs) (fun _ s hs => ⟨(), st, rfl, ip, hs⟩) fun _ _ he => he.elim
  exact fun st s hs => hcarries st s hs

end Stage

end

/-! ## The instructions of expressions -/

/-- There is room for another value. -/
def Stage.HasRoom (C : Stage) (vs : List Value) : Prop :=
  C.start.machine.sp + vs.length < C.start.machine.stack.size

/-- The operand of an instruction with a single one of two bytes. -/
theorem Function.HasAt.word {f : Function} {o n : Nat} {op : Opcode} {span : Span}
    (h : f.HasAt o [⟨op, [n], span⟩]) (hop : op.widths = [2]) (hn : n < 65536) :
    operandAt? f.code (o + 1) 2 = some n := by
  rw [operandAt?_one h.operands h.sized hop]
  simp [Emitted.operand, Emitted.cut, hop, Nat.mod_eq_of_lt hn]

namespace Stage

section

variable {C : Stage} {ip k : Nat} {vs : List Value} {i : Emitted} {span : Span} {v : Value}

theorem goes_push (hi : C.frame.closure.function.HasAt ip [i])
    (hop : perform i.opcode = (do push v; return .next)) (hroom : C.HasRoom vs) :
    C.Goes ip vs (ip + 1) (vs ++ [v]) :=
  goes_of_step hi _ hop fun _ => Inside.push hroom v

theorem goes_constant (hi : C.frame.closure.function.HasAt ip [⟨.constant, [k], span⟩])
    (hk : k < 65536) (hv : C.start.machine.constants[k]? = some v) (hroom : C.HasRoom vs) :
    C.Goes ip vs (ip + 3) (vs ++ [v]) := by
  refine goes_of_step hi (do push (← constant (← operand 2)))
    (by simp only [perform, bind_assoc]) fun st => ?_
  refine Triple.bindValue (Inside.operand (hi.word rfl hk)) ?_
  exact Triple.bindValue (Inside.constant hv) (Inside.push hroom v)

theorem carries_getGlobal (hi : C.frame.closure.function.HasAt ip [⟨.getGlobal, [k], span⟩])
    (hk : k < 65536) (hroom : C.HasRoom vs) :
    C.Carries ip vs (Eval.readGlobal k) (ip + 3) fun v => vs ++ [v] := by
  refine carries_of_step hi getGlobal rfl fun st => ?_
  refine Triple.bindValue (Inside.operand (hi.word rfl hk)) ?_
  refine Triple.bind (Q := fun t s => t.world.globals = st.globals ∧ C.Inside ip (ip + 3) vs st s)
    (triple_get fun s hs => ⟨by rw [hs.world], hs⟩) fun t => Triple.assume (fun _ hs => hs.1) ?_
  intro hglobals
  rw [hglobals]
  refine ((Inside.push hroom _).pre fun _ hs => hs.2).mono (fun _ hs => hs) ?_ fun _ _ he => he
  exact fun _ s hs => ⟨_, st, rfl, ip, hs⟩

theorem carries_setGlobal (hi : C.frame.closure.function.HasAt ip [⟨.setGlobal, [k], span⟩])
    (hk : k < 65536) :
    C.Carries ip (vs ++ [v]) (Eval.writeGlobal k v) (ip + 3) fun w => vs ++ [w] := by
  refine carries_of_step hi setGlobal rfl fun st => ?_
  refine Triple.bindValue (Inside.operand (hi.word rfl hk)) (Triple.bindValue (Inside.peek v) ?_)
  refine triple_modify fun s hs => ⟨v, { st with globals := Globals.set st.globals k v }, rfl, ip, ?_⟩
  refine { hs with world := ?_ }
  dsimp only
  rw [hs.world]

theorem goes_dup (hi : C.frame.closure.function.HasAt ip [⟨.dup, [], span⟩])
    (hroom : C.HasRoom (vs ++ [v])) : C.Goes ip (vs ++ [v]) (ip + 1) (vs ++ [v] ++ [v]) :=
  goes_of_step hi (do push (← peek)) (by simp only [perform, bind_assoc]) fun _ =>
    Triple.bindValue (Inside.peek v) (Inside.push hroom v)

theorem goes_pop (hi : C.frame.closure.function.HasAt ip [⟨.pop, [], span⟩]) :
    C.Goes ip (vs ++ [v]) (ip + 1) vs := by
  refine goes_of_step hi (do let v ← pop; modifyMachine fun m => { m with lastPopped := v })
    (by simp only [perform, bind_assoc]) fun st => ?_
  refine Triple.bindValue (Inside.pop v) ?_
  exact triple_modifyMachine fun s hs => { hs with }

theorem goes_not (hi : C.frame.closure.function.HasAt ip [⟨.not, [], span⟩]) (hroom : C.HasRoom vs) :
    C.Goes ip (vs ++ [v]) (ip + 1) (vs ++ [v.logicalNot]) :=
  goes_of_step hi (do push (← pop).logicalNot) (by simp only [perform, bind_assoc]) fun _ =>
    Triple.bindValue (Inside.pop v) (Inside.push hroom _)

theorem goes_jump (hi : C.frame.closure.function.HasAt ip [⟨.jump, [k], span⟩]) (hk : k < 65536) :
    C.Goes ip vs k vs :=
  goes_of_step hi (do jumpTo (← operand 2)) (by simp only [perform, bind_assoc]) fun _ =>
    Triple.bindValue (Inside.operand (hi.word rfl hk)) (Inside.jumpTo k)

theorem goes_jumpIfFalse (hi : C.frame.closure.function.HasAt ip [⟨.jumpIfFalse, [k], span⟩])
    (hk : k < 65536) :
    C.Goes ip (vs ++ [v]) (if v.isTruthy then ip + 3 else k) vs := by
  refine goes_of_step hi jumpIfFalse rfl fun st => ?_
  refine Triple.bindValue (Inside.operand (hi.word rfl hk)) (Triple.bindValue (Inside.pop v) ?_)
  cases v.isTruthy with
  | true => exact triple_pure fun s hs => hs
  | false => exact Inside.jumpTo k

/-- A new object is pushed. -/
theorem Inside.allocated {o : Nat} {st : Store} {f : Heap → Value × Heap} (hroom : C.HasRoom vs) :
    Triple (C.Inside o ip vs st) (do Exec.push (← Exec.allocate f))
      (fun _ s => C.At ip (vs ++ [(f st.heap).1]) { st with heap := (f st.heap).2 } s)
      fun _ _ => False := by
  refine Triple.bindValue (a := (f st.heap).1) (J := C.Inside o ip vs { st with heap := (f st.heap).2 })
    (triple_allocate ?_) ?_
  · intro s hs
    have hheap : s.world.heap = st.heap := by rw [hs.world]
    rw [hheap]
    refine ⟨rfl, { hs with world := ?_ }⟩
    dsimp only
    rw [hs.world]
  · exact (Inside.push hroom _).mono (fun _ hs => hs) (fun _ s hs => ⟨o, hs⟩) fun _ _ he => he

theorem carries_array {ws : List Value}
    (hi : C.frame.closure.function.HasAt ip [⟨.array, [ws.length], span⟩])
    (hk : ws.length < 65536) (hroom : C.HasRoom vs)
    (hsize : C.start.machine.sp + (vs ++ ws).length ≤ C.start.machine.stack.size) :
    C.Carries ip (vs ++ ws) (Eval.array ws) (ip + 3) fun v => vs ++ [v] := by
  refine carries_of_step hi makeArray rfl fun st => ?_
  refine Triple.bindValue (Inside.operand (hi.word rfl hk)) ?_
  refine Triple.bindValue (Inside.takeTop ws hsize) ?_
  exact (Inside.allocated hroom).mono (fun _ hs => hs) (fun _ s hs => ⟨_, _, rfl, hs⟩) fun _ _ he => he.elim

/-- The result of an operator is pushed, or its cause is raised at the instruction at hand. -/
theorem Inside.finish {o : Nat} {st : Store} {r : Except Cause Value}
    (hspan : C.frame.closure.function.spanAt? o = some span) (hroom : C.HasRoom vs) :
    Triple (C.Inside o ip vs st) (do Exec.push (← Exec.ofExcept r))
      (fun _ s => ∃ a st', (Eval.ofExcept span r).run st = .ok a st' ∧ C.At ip (vs ++ [a]) st' s)
      (fun e _ => (Eval.ofExcept span r).run st = .error e st) := by
  cases r with
  | ok a =>
    refine (Inside.push hroom a).mono (fun _ hs => hs) ?_ fun _ _ he => he
    exact fun _ s hs => ⟨a, st, rfl, o, hs⟩
  | error c =>
    refine Triple.bind (Q := fun _ _ => False) (triple_raise fun s hs => ?_)
      fun _ => triple_absurd fun _ h => h
    rw [hs.span hspan]
    rfl

theorem carries_negate (hi : C.frame.closure.function.HasAt ip [⟨.negate, [], span⟩])
    (hroom : C.HasRoom vs) :
    C.Carries ip (vs ++ [v]) (Eval.ofExcept span v.negate) (ip + 1) fun w => vs ++ [w] :=
  carries_of_step hi (do push (← Exec.ofExcept (← pop).negate))
    (by simp only [perform, bind_assoc]) fun _ =>
    Triple.bindValue (Inside.pop v) (Inside.finish hi.span hroom)

theorem carries_binary {op : BinaryOp} {a b : Value}
    (hi : C.frame.closure.function.HasAt ip [⟨op.opcode, [], span⟩]) (hroom : C.HasRoom vs) :
    C.Carries ip (vs ++ [a] ++ [b]) (Eval.binary op span a b) (ip + 1) fun w => vs ++ [w] := by
  refine carries_of_step hi (binary op) (by cases op <;> rfl) fun st => ?_
  refine Triple.bindValue (Inside.pop b) (Triple.bindValue (Inside.pop a) ?_)
  exact Triple.bindValue Inside.getHeap (Inside.finish hi.span hroom)

theorem carries_getIndex {target index : Value}
    (hi : C.frame.closure.function.HasAt ip [⟨.getIndex, [], span⟩]) (hroom : C.HasRoom vs) :
    C.Carries ip (vs ++ [target] ++ [index]) (Eval.item span target index) (ip + 1)
      fun w => vs ++ [w] := by
  refine carries_of_step hi getIndex rfl fun st => ?_
  refine Triple.bindValue (Inside.pop index) (Triple.bindValue (Inside.pop target) ?_)
  exact Triple.bindValue Inside.getHeap (Inside.finish hi.span hroom)

end

end Stage

end ScriptMachine
