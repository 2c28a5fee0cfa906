import ScriptMachine.Proofs.Codec
import ScriptMachine.Proofs.Machine.Equations
import ScriptMachine.Proofs.Machine.Turn

/-!
# Steps and the table of widths

A step reads the operands of an instruction one by one, as they are needed, and never looks at the table of widths
that encoding and decoding go by. Still it does what the instruction does with the operands that decoding gives, and
it goes on where the instruction ends by the table.

* `Exec.obey` — what an instruction does once its operands have been read.
* `State.StandsAt` — the machine is about to execute an instruction with some operands.
* `State.StandsAt.obeys` — a step is what the instruction does, begun behind the instruction.
* `State.StandsAt.moves` — a step that does not transfer control ends behind the instruction.
* `Exec.step_follows_widths` — the result.
-/

namespace ScriptMachine

/-- The first of several operands, and the others behind it. -/
theorem operandsAt?_cons {code : Array UInt8} {pos w : Nat} {ws ns : List Nat}
    (h : operandsAt? code pos (w :: ws) = some ns) :
    ∃ n ms, ns = n :: ms ∧ operandAt? code pos w = some n ∧ operandsAt? code (pos + w) ws = some ms := by
  unfold operandsAt? at h
  cases hread : operandAt? code pos w with
  | none =>
    rw [hread] at h
    cases h
  | some n =>
    rw [hread] at h
    obtain ⟨ms, hrest, rfl⟩ := Option.map_eq_some_iff.mp h
    exact ⟨n, ms, rfl, rfl, hrest⟩

/-- The name at a place among the constants. -/
def Machine.nameAt (m : Machine) (k : Nat) : Except Cause String :=
  match m.constants[k]? with
  | some (.str name) => .ok name
  | some v => .error (.invalidBytecode (.nameConstant v.typeName))
  | none => .error (.invalidBytecode (.constantIndex k))

namespace Exec

/-! ## Instructions with their operands -/

/-- Find the slot of a local. -/
def localSlot (index : Nat) : Exec Nat := do
  let slot := (← currentFrame).base + index
  if (← getMachine).stack.size ≤ slot then defect (.localIndex index) else return slot

/-- What an instruction does that has operands. -/
def operate (op : Opcode) (ns : List Nat) : Exec Unit := do
  match op, ns with
  | .constant, [k] => push (← constant k)
  | .getLocal, [k] =>
    let slot ← localSlot k
    match (← currentFrame).cell? k with
    | some ref => push ((← getHeap).cell ref)
    | none => push (← getSlot slot)
  | .setLocal, [k] =>
    let slot ← localSlot k
    let v ← peek
    match (← currentFrame).cell? k with
    | some ref => modifyHeap (·.setCell ref v)
    | none => setSlot slot v
  | .getGlobal, [k] => push (Globals.get (← get).world.globals k)
  | .setGlobal, [k] =>
    let v ← peek
    modify fun s => { s with world := { s.world with globals := Globals.set s.world.globals k v } }
  | .getFree, [k] =>
    let ref ← freeCell k
    push ((← getHeap).cell ref)
  | .setFree, [k] =>
    let v ← peek
    let ref ← freeCell k
    modifyHeap (·.setCell ref v)
  | .getBuiltin, [k] =>
    match (← getMachine).registry.get? k with
    | some v => push v
    | none => defect (.builtinIndex k)
  | .captureLocal, [k] =>
    let slot ← localSlot k
    let current ← getSlot slot
    let frame ← currentFrame
    let (ref, frame) ← allocate fun h =>
      let (ref, frame, h) := frame.capture h k current
      ((ref, frame), h)
    modifyFrame fun _ => frame
    queueCapture ref
  | .captureFree, [k] => queueCapture (← freeCell k)
  | .jump, [target] => jumpTo target
  | .jumpIfFalse, [target] => if !(← pop).isTruthy then jumpTo target
  | .call, [argc] => callValue argc
  | .closure, [k, count] =>
    match ← constant k with
    | .function _ f =>
      let captures := (← getMachine).captures
      if captures.size < count then defect (.missingCaptures count)
      else
        let start := captures.size - count
        modifyMachine fun m => { m with captures := m.captures.extract 0 start }
        let closure ← allocate fun h => h.newClosure f (captures.extract start captures.size)
        push (.closure closure)
    | v => defect (.closureOver v.typeName)
  | .array, [count] =>
    let items ← takeTop count
    push (← allocate fun h => h.newArray items.toArray)
  | .hash, [count] =>
    let entries ← collectEntries .empty (← takeTop count)
    push (← allocate fun h => h.newHash entries)
  | .orderedMap, [count] =>
    let entries ← collectEntries .empty (← takeTop count)
    push (← allocate fun h => h.newMap entries)
  | .getProperty, [k] =>
    let name ← constantName k
    let target ← pop
    push (← ofExcept ((← getHeap).getProperty target name))
  | .setProperty, [k] =>
    let name ← constantName k
    let v ← pop
    let target ← pop
    let place ← ofExcept (Heap.propertyPlace target name)
    modifyHeap (·.write place v)
    push v
  | .invoke, [k, argc] =>
    let name ← constantName k
    invoke name argc
  | .invokeSuper, [k, argc] =>
    let name ← constantName k
    invokeSuper name argc
  | .tryEnter, [catchTarget, finallyTarget] =>
    modifyMachine fun m =>
      let handler := Handler.ofOperands catchTarget finallyTarget m.frames.size m.sp
      { m with handlers := handler :: m.handlers }
  | .finallyEnd, [target] =>
    modifyMachine fun m => { m with handlers := m.handlers.tail }
    jumpTo target
  | .spawn, [argc] => spawnTask argc
  | .channel, [flag] =>
    let capacity ←
      if flag == 0 then pure 0
      else
        match ← pop with
        | .int n =>
          if 0 ≤ n then pure n.toInt.toNat
          else raise (.typeMismatch (.channelCapacity (toString n.toInt)))
        | v => raise (.typeMismatch (.channelCapacity ((← getHeap).render v)))
    let ref ← allocate fun h => h.newChannel (some capacity)
    push (.channel ref (some capacity))
  | _, _ => defect .truncated

/-- What an instruction does once its operands have been read. -/
def obey (op : Opcode) (ns : List Nat) : Exec Signal :=
  match op.widths with
  | [] => perform op
  | _ => do
    operate op ns
    return .next

/-- Read operands of the given widths. -/
def operands : List Nat → Exec (List Nat)
  | [] => return []
  | w :: ws => do
    let n ← operand w
    let ns ← operands ws
    return n :: ns

theorem localOperand_eq : localOperand = (do
    let index ← operand 1
    let slot ← localSlot index
    return (index, slot)) := by
  unfold localOperand localSlot
  simp only [bind_assoc]
  refine bind_congr fun index => bind_congr fun f => bind_congr fun m => ?_
  split <;> rfl

theorem perform_eq {op : Opcode} (hinvoke : op ≠ .invoke) (hsuper : op ≠ .invokeSuper) :
    perform op = operands op.widths >>= obey op := by
  cases op with
  | invoke => exact absurd rfl hinvoke
  | invokeSuper => exact absurd rfl hsuper
  | getLocal | setLocal | getBuiltin | closure | channel =>
    -- the two sides may have copies of the same case distinction
    simp only [perform, obey, operate, operands, Opcode.widths, getLocal, setLocal, getBuiltin, makeClosure,
      makeChannel, localOperand_eq, bind_assoc, pure_bind] <;> rfl
  | _ =>
    simp [perform, obey, operate, operands, Opcode.widths, captureLocal, getGlobal, setGlobal, getFree, setFree,
      captureFree, jumpIfFalse, makeArray, makeHash, makeMap, getProperty, setProperty, tryEnter, finallyEnd,
      localOperand_eq]

section

variable {s : State} {fs : Array Frame} {f : Frame}

theorem operands_eq {ws ns : List Nat} (hframes : s.machine.frames = fs.push f)
    (h : operandsAt? f.code f.ip ws = some ns) :
    operands ws s = .ok ns ⟨s.world, { s.machine with
      frames := fs.push { f with ip := f.ip + ws.foldr (· + ·) 0 } }⟩ := by
  induction ws generalizing s f ns with
  | nil =>
    cases h
    show EStateM.Result.ok [] s = .ok [] ⟨s.world, { s.machine with frames := fs.push f }⟩
    rw [← hframes]
  | cons w ws ih =>
    obtain ⟨n, ms, rfl, hread, hrest⟩ := operandsAt?_cons h
    let f' : Frame := { f with ip := f.ip + w }
    let s' : State := ⟨s.world, { s.machine with frames := fs.push f' }⟩
    have hhead : operand w s = .ok n s' := operand_eq hframes hread
    have htail := ih (s := s') (f := f') rfl hrest
    refine (bind_eq hhead).trans ((bind_eq htail).trans ?_)
    simp only [s', f', List.foldr_cons, Nat.add_assoc]
    rfl

theorem constantName_eq (k : Nat) (s : State) : constantName k s = ofExcept (s.machine.nameAt k) s := by
  unfold constantName constant
  rw [bind_assoc]
  refine (bind_eq (getMachine_eq s)).trans ?_
  unfold Machine.nameAt
  cases s.machine.constants[k]? with
  | none => rfl
  | some v => cases v <;> rfl

end

end Exec

/-! ## Steps -/

open Exec

section

variable {s : State} {fs : Array Frame} {f : Frame} {op : Opcode} {ns : List Nat}

/-- The machine is about to execute the instruction at which its running frame stands. It does not wait in the middle
of another one. -/
structure State.StandsAt (s : State) (fs : Array Frame) (f : Frame) (op : Opcode) (ns : List Nat) : Prop where
  frames : s.machine.frames = fs.push f
  waiting : s.machine.waiting = none
  opcode : f.code[f.ip]? = some op.toByte
  operands : readOperands? op f.code (f.ip + 1) = some ns

/-- The machine has read the instruction, and the running frame stands behind it. -/
def State.past (s : State) (fs : Array Frame) (f : Frame) (op : Opcode) : State :=
  ⟨s.world, { s.machine with frames := fs.push { f with ip := f.ip + op.length }, opOffset := f.ip }⟩

/-- Two executions end in the same way, and if they end well also in the same state. -/
inductive Exec.Agree {α : Type} : EStateM.Result Abort State α → EStateM.Result Abort State α → Prop
  | well (a : α) (t : State) : Agree (.ok a t) (.ok a t)
  | stop (e : Abort) (t u : State) : Agree (.error e t) (.error e u)

theorem Exec.Agree.of_eq {α : Type} {x y : EStateM.Result Abort State α} (h : x = y) : Agree x y := by
  subst h
  cases x with
  | ok a t => exact .well a t
  | error e t => exact .stop e t t

theorem Exec.Agree.symm {α : Type} {x y : EStateM.Result Abort State α} (h : Agree x y) : Agree y x := by
  cases h with
  | well a t => exact .well a t
  | stop e t u => exact .stop e u t

theorem Exec.Agree.ok {α : Type} {x y : EStateM.Result Abort State α} {a : α} {t : State} (h : Agree x y)
    (hx : x = .ok a t) : y = .ok a t := by
  cases h with
  | well => exact hx
  | stop => cases hx

/-- An instruction that reads its second operand only after it has looked up a name. -/
theorem Exec.agree_named {s₁ s₂ : State} {k argc : Nat} {x : String → Nat → Exec Signal}
    (hsecond : operand 1 s₁ = .ok argc s₂) (hconstants : s₂.machine.constants = s₁.machine.constants)
    (hspan : s₂.machine.span = s₁.machine.span) :
    Agree
      ((do
        let name ← constantName k
        let argc ← operand 1
        x name argc) s₁)
      ((do
        let name ← constantName k
        x name argc) s₂) := by
  have hname : s₂.machine.nameAt k = s₁.machine.nameAt k := by
    unfold Machine.nameAt
    rw [hconstants]
  have h₁ := constantName_eq k s₁
  have h₂ := constantName_eq k s₂
  rw [hname] at h₂
  cases hcase : s₁.machine.nameAt k with
  | ok name =>
    rw [hcase] at h₁ h₂
    have hright : (constantName k >>= fun name => x name argc) s₂ = x name argc s₂ := bind_eq h₂
    exact .of_eq ((bind_eq h₁).trans ((bind_eq hsecond).trans hright.symm))
  | error c =>
    rw [hcase] at h₁ h₂
    simp only [bind, EStateM.bind, h₁, h₂]
    show Agree (.error (.fault (c.placed s₁.machine.span)) s₁) (.error (.fault (c.placed s₂.machine.span)) s₂)
    rw [hspan]
    exact .stop _ _ _

/-- A step does what the instruction does, begun behind the instruction, with the operands that decoding gives. -/
theorem State.StandsAt.obeys (h : s.StandsAt fs f op ns) : Agree (step.run s) ((obey op ns).run (s.past fs f op)) := by
  let f₁ : Frame := { f with ip := f.ip + 1 }
  let s₁ : State := ⟨s.world, { s.machine with frames := fs.push f₁, opOffset := f.ip }⟩
  have hstep : step s = perform op s₁ := step_eq h.frames h.opcode
  have hread : operandsAt? f₁.code f₁.ip op.widths = some ns := h.operands
  show Agree (step s) (obey op ns (s.past fs f op))
  rw [hstep]
  by_cases hnamed : op = .invoke ∨ op = .invokeSuper
  · -- the name is looked up between the two operands
    have hwidths : op.widths = [2, 1] := by rcases hnamed with rfl | rfl <;> rfl
    rw [hwidths] at hread
    obtain ⟨k, ms, rfl, hk, hrest⟩ := operandsAt?_cons hread
    obtain ⟨argc, _, rfl, hargc, ⟨⟩⟩ := operandsAt?_cons hrest
    let f₂ : Frame := { f with ip := f.ip + 3 }
    let s₂ : State := ⟨s.world, { s.machine with frames := fs.push f₂, opOffset := f.ip }⟩
    have hfirst : operand 2 s₁ = .ok k s₂ := operand_eq rfl hk
    have hpast : s.past fs f op = ⟨s.world, { s.machine with
        frames := fs.push { f with ip := f.ip + 4 }, opOffset := f.ip }⟩ := by
      rcases hnamed with rfl | rfl <;> rfl
    have hsecond : operand 1 s₂ = .ok argc (s.past fs f op) := by
      rw [hpast]
      exact operand_eq (f := f₂) rfl hargc
    have hspan : (s.past fs f op).machine.span = s₂.machine.span := by
      simp [Machine.span, State.past, s₂, f₂]
    have hcase (x : String → Nat → Exec Unit)
        (hperform : perform op = do
          let k ← operand 2
          let name ← constantName k
          let argc ← operand 1
          x name argc
          return .next)
        (hobey : obey op [k, argc] = do
          let name ← constantName k
          x name argc
          return .next) : Agree (perform op s₁) (obey op [k, argc] (s.past fs f op)) := by
      rw [hperform, hobey, bind_eq hfirst]
      exact agree_named hsecond rfl hspan
    rcases hnamed with rfl | rfl
    · exact hcase invoke (by simp [perform, invokeMethod]) (by simp [obey, operate, Opcode.widths])
    · exact hcase invokeSuper (by simp [perform, invokeSuperMethod]) (by simp [obey, operate, Opcode.widths])
  · obtain ⟨hinvoke, hsuper⟩ := not_or.mp hnamed
    have hops := operands_eq (s := s₁) (f := f₁) rfl hread
    rw [perform_eq hinvoke hsuper]
    refine .of_eq ((bind_eq hops).trans ?_)
    simp only [s₁, f₁, State.past, Opcode.length, Nat.add_assoc]

/-! ## Where a step ends -/

/-- The running frame stands behind the instruction. -/
def State.Behind (t : State) (fs : Array Frame) (f : Frame) (op : Opcode) : Prop :=
  ∃ g, t.machine.frames = fs.push g ∧ f.Same g ∧ g.ip = f.ip + op.length

/-- A frame has been entered, and the frame of the caller stands behind the instruction. -/
def State.Called (t : State) (fs : Array Frame) (f : Frame) (op : Opcode) : Prop :=
  ∃ caller callee, t.machine.frames = (fs.push caller).push callee ∧ f.Same caller ∧ caller.ip = f.ip + op.length

/-- From `s` to `t` control was transferred. -/
inductive State.Transfers (s : State) (op : Opcode) (t : State) : Prop
  | jumps : op = .jump → Transfers s op t
  | branches {v} : op = .jumpIfFalse → s.machine.stack[s.machine.sp - 1]? = some v → v.isTruthy = false →
    Transfers s op t
  | closes : op = .finallyEnd → Transfers s op t
  | calls : s.machine.frames.size < t.machine.frames.size → Transfers s op t
  | returns : op = .returnValue ∨ op = .returnNull → Transfers s op t
  | throws {h} : s.machine.handlers = h :: t.machine.handlers → Transfers s op t

theorem Exec.yields_localSlot {D : Prop} {P : Nat → State → Prop} {E : State → Prop}
    (h : s.machine.frames = fs.push f) (k : Nat) :
    Yields D (localSlot k) s P E ↔ (s.machine.stack.size ≤ f.base + k → D) ∧
      (f.base + k < s.machine.stack.size → P (f.base + k) s) := by
  simp only [localSlot, yields_bind, yields_currentFrame h, yields_getMachine]
  simp [yields_ite]

/-- Reading and writing locals, and a conditional jump. -/
theorem State.StandsAt.moves_obeying (h : s.StandsAt fs f op ns)
    (hop : op = .getLocal ∨ op = .setLocal ∨ op = .jumpIfFalse) {signal : Signal} {t : State}
    (hrun : step.run s = .ok signal t) :
    s.Transfers op t ∧ t.machine.frames.size = fs.size + 1 ∨ t.Behind fs f op := by
  let f' : Frame := { f with ip := f.ip + op.length }
  have hpast : (s.past fs f op).machine.frames = fs.push f' := rfl
  have hbehind {t : State} (ht : t.machine.frames = fs.push f') : t.Behind fs f op := ⟨f', ht, ⟨rfl, rfl, rfl⟩, rfl⟩
  refine Yields.ok (D := True) (E := fun _ => True) (s := s.past fs f op)
    (P := fun _ t => s.Transfers op t ∧ t.machine.frames.size = fs.size + 1 ∨ t.Behind fs f op) ?_ (h.obeys.ok hrun)
  have hwidths : ∃ w, op.widths = [w] := by rcases hop with rfl | rfl | rfl <;> exact ⟨_, rfl⟩
  obtain ⟨w, hw⟩ := hwidths
  have hread : operandsAt? f.code (f.ip + 1) [w] = some ns := hw ▸ h.operands
  obtain ⟨k, _, rfl, -, ⟨⟩⟩ := operandsAt?_cons hread
  rcases hop with rfl | rfl | rfl
  · simp only [obey, operate, Opcode.widths, yields_bind]
    rw [yields_localSlot hpast]
    refine ⟨fun _ => trivial, fun _ => ?_⟩
    rw [yields_currentFrame hpast]
    split
    · simp only [yields_bind, yields_getHeap, yields_push, yields_pure]
      exact fun _ => .inr (hbehind rfl)
    · simp only [yields_bind, yields_getSlot, yields_push, yields_pure]
      exact fun _ _ => .inr (hbehind rfl)
  · simp only [obey, operate, Opcode.widths, yields_bind]
    rw [yields_localSlot hpast]
    refine ⟨fun _ => trivial, fun _ => yields_peek.mpr ⟨fun _ => trivial, fun _ _ => ?_⟩⟩
    rw [yields_currentFrame hpast]
    split
    · simp only [yields_modifyHeap, yields_pure]
      exact .inr (hbehind rfl)
    · simp only [yields_setSlot, yields_pure]
      exact fun _ => .inr (hbehind rfl)
  · simp only [obey, operate, Opcode.widths, yields_bind, yields_pop]
    refine ⟨fun _ => trivial, fun _ hlt => ?_⟩
    split
    · next hfalse =>
      rw [yields_jumpTo (f := f') rfl]
      refine .inl ⟨.branches rfl (Array.getElem?_eq_getElem hlt) ?_, ?_⟩
      · rw [Array.getElem?_eq_getElem hlt] at hfalse
        simpa using hfalse
      · exact Array.size_push ..
    · exact .inr (hbehind rfl)

/-- A turn at an instruction ends behind it, or it has transferred control. -/
theorem Machine.Turns.moves {t : State} {span : Span} (h : s.machine.Turns fs f ⟨op, ns, span⟩ t.machine)
    (hbranch : op ≠ .jumpIfFalse) :
    s.Transfers op t ∧ t.machine.frames.size ≤ fs.size + 1 ∨ t.Behind fs f op ∨ t.Called fs f op := by
  have hsize {g : Frame} (hg : t.machine.frames = fs.push g) : t.machine.frames.size ≤ fs.size + 1 := by
    rw [hg, Array.size_push]
  cases h with
  | works hplain hworks hsure => exact .inr (.inl hworks.frames)
  | jumps hop hworks hwaiting =>
    obtain ⟨g, hg, -⟩ := hworks.frames
    exact .inl ⟨.jumps hop, hsize hg⟩
  | branches hop => exact absurd hop hbranch
  | opens hop hworks hwaiting =>
    cases hop
    exact .inr (.inl hworks.frames)
  | closes hop hworks hwaiting =>
    obtain ⟨g, hg, -⟩ := hworks.frames
    exact .inl ⟨.closes hop, hsize hg⟩
  | resumes hop hpending hworks hwaiting =>
    cases hop
    exact .inr (.inl hworks.frames)
  | enters hcall henters =>
    obtain ⟨caller, callee, hframes, hsame, hip, -⟩ := henters.frames
    exact .inr (.inr ⟨caller, callee, hframes, hsame, hip⟩)
  | returns hop hreturns =>
    refine .inl ⟨.returns (hop.imp And.left And.left), ?_⟩
    rw [hreturns.frames]
    exact Nat.le_succ _
  | throws hthrow hrethrow hsure hthrows =>
    obtain ⟨handler, target, hhandlers, -, -, -, f', g, fs', -, hextract, hframes⟩ := hthrows.handler
    refine .inl ⟨.throws hhandlers, ?_⟩
    -- the frames that are left are among those there were
    have hleft := congrArg Array.size hextract
    simp only [Array.size_extract, Array.size_push] at hleft
    rw [hframes, Array.size_push]
    omega

theorem State.StandsAt.moves (h : s.StandsAt fs f op ns) {signal : Signal} {t : State}
    (hrun : step.run s = .ok signal t) (hsignal : signal ≠ .halt) :
    s.Transfers op t ∧ t.machine.frames.size ≤ fs.size + 1 ∨ t.Behind fs f op ∨ t.Called fs f op := by
  by_cases hop : op = .getLocal ∨ op = .setLocal ∨ op = .jumpIfFalse
  · rcases h.moves_obeying hop hrun with ⟨htransfers, hsize⟩ | hbehind
    · exact .inl ⟨htransfers, Nat.le_of_eq hsize⟩
    · exact .inr (.inl hbehind)
  · simp only [not_or] at hop
    obtain ⟨hget, hset, hbranch⟩ := hop
    let i : Instruction := ⟨f.ip, op, ns⟩
    have hfits : i.Fits := (operandsAt?_bytes op.widths_le h.operands).1
    have hread : i.point.item.read = ns := congrArg Instruction.operands hfits.read_eq
    have hslot : ∀ k, i.point.item.slot? = some k → k < f.closure.function.locals := by
      intro k hk
      unfold Emitted.slot? at hk
      split at hk
      · next hlocal => exact absurd hlocal hget
      · next hlocal => exact absurd hlocal hset
      · cases hk
    have hmakes := makes_step (i := i.point.item) h.frames h.waiting h.opcode (hread.symm ▸ h.operands)
      hfits.length_eq hslot
    rcases hmakes.ok hrun with hhalt | hturns
    · exact absurd hhalt hsignal
    · exact hturns.moves hbranch

/-! ## Waiting -/

/-- A machine that waits has tried again any number of times, while others changed the world. -/
inductive State.Retries : State → State → Prop
  | refl (s : State) : Retries s s
  | again {s t u : State} {w : World} {wait : Wait} {signal : Signal} : Retries s t →
    t.machine.waiting = some wait → (poll wait).run ⟨w, t.machine⟩ = .ok signal u → Retries s u

theorem Exec.yields_poll (wait : Wait) (s : State) :
    Yields True (poll wait) s
      (fun _ t => t.machine.frames = s.machine.frames ∧ t.machine.handlers = s.machine.handlers) fun _ => True := by
  unfold poll
  simp only [yields_bind, yields_modifyMachine]
  cases wait with
  | room ch v =>
    simp only [trySend, yields_bind, yields_allocate]
    split <;> simp
  | taken ch ticket =>
    simp only [tryFinishSend, yields_bind, yields_getHeap]
    split <;> simp
  | message ch =>
    simp only [tryReceive, yields_bind, yields_allocate]
    split <;> simp

theorem State.Retries.same {t u : State} (h : t.Retries u) :
    u.machine.frames = t.machine.frames ∧ u.machine.handlers = t.machine.handlers := by
  induction h with
  | refl => exact ⟨rfl, rfl⟩
  | again hretries hwaiting hrun ih =>
    obtain ⟨hframes, hhandlers⟩ := (yields_poll _ _).ok hrun
    exact ⟨hframes.trans ih.1, hhandlers.trans ih.2⟩

theorem State.Transfers.retries {t u : State} (h : s.Transfers op t) (hretries : t.Retries u) : s.Transfers op u := by
  obtain ⟨hframes, hhandlers⟩ := hretries.same
  cases h with
  | jumps hop => exact .jumps hop
  | branches hop hv hfalse => exact .branches hop hv hfalse
  | closes hop => exact .closes hop
  | calls hgrown => exact .calls (hframes ▸ hgrown)
  | returns hop => exact .returns hop
  | throws hthrown => exact .throws (hhandlers ▸ hthrown)

/-! ## Results -/

/-- A step executes the instruction that decoding gives, and goes on behind it by the table of widths, unless it
transfers control; if it enters a frame, then the frame of the caller stands there. -/
theorem Exec.step_follows_widths (h : s.StandsAt fs f op ns) :
    Agree (step.run s) ((obey op ns).run (s.past fs f op)) ∧
    ∀ {signal : Signal} {t u : State}, step.run s = .ok signal t → t.Retries u → signal ≠ .halt →
      (¬ s.Transfers op u → u.Behind fs f op) ∧
      (s.machine.frames.size < u.machine.frames.size → u.Called fs f op) := by
  refine ⟨h.obeys, fun {signal t u} hrun hretries hsignal => ?_⟩
  have hsize : s.machine.frames.size = fs.size + 1 := by rw [h.frames, Array.size_push]
  have hsame : u.machine.frames = t.machine.frames := hretries.same.1
  rcases h.moves hrun hsignal with ⟨htransfers, hle⟩ | ⟨g, hg, hbehind⟩ | ⟨caller, callee, hframes, hcaller⟩
  · refine ⟨fun hstays => absurd (htransfers.retries hretries) hstays, fun hgrown => ?_⟩
    rw [hsame] at hgrown
    omega
  · refine ⟨fun _ => ⟨g, hsame.trans hg, hbehind⟩, fun hgrown => ?_⟩
    rw [hsame, hg, Array.size_push] at hgrown
    omega
  · have hu := hsame.trans hframes
    refine ⟨fun hstays => absurd (.calls ?_) hstays, fun _ => ⟨caller, callee, hu, hcaller⟩⟩
    rw [hu, hsize, Array.size_push, Array.size_push]
    exact Nat.lt_succ_self _

end

/-- A frame at a single instruction. -/
def Frame.atInstruction (i : Emitted) : Frame :=
  .enter ⟨0, (CodeBlock.ofItems [i]).toFunction none 0 0, #[]⟩ 0 .function

/-- A machine that runs it, with one value on its stack. -/
def State.atInstruction (i : Emitted) (v : Value) : State :=
  let machine := Machine.new #[] default default { stackSize := 1 }
  ⟨.new #[], { machine with frames := #[.atInstruction i], stack := #[v], sp := 1 }⟩

theorem State.standsAt_atInstruction (op : Opcode) (ns : List Nat) (v : Value)
    (hopcode : (Frame.atInstruction ⟨op, ns, .dummy⟩).code[0]? = some op.toByte)
    (hoperands : readOperands? op (Frame.atInstruction ⟨op, ns, .dummy⟩).code 1 = some ns) :
    (State.atInstruction ⟨op, ns, .dummy⟩ v).StandsAt #[] (.atInstruction ⟨op, ns, .dummy⟩) op ns :=
  ⟨rfl, rfl, hopcode, hoperands⟩

/-- An instruction with two operands is left behind, and a call is left behind in the frame of the caller. -/
theorem atInstruction_follows_widths :
    (∃ t, step.run (.atInstruction ⟨.tryEnter, [300, 7], .dummy⟩ .null) = .ok .next t ∧
      t.machine.handlers = [⟨some 300, some 7, 1, 1⟩] ∧
      t.Behind #[] (.atInstruction ⟨.tryEnter, [300, 7], .dummy⟩) .tryEnter) ∧
    ∃ t, step.run (.atInstruction ⟨.call, [0], .dummy⟩ (.closure default)) = .ok .next t ∧
      t.Called #[] (.atInstruction ⟨.call, [0], .dummy⟩) .call := by
  constructor
  · obtain ⟨hagree, hends⟩ := step_follows_widths
      (State.standsAt_atInstruction .tryEnter [300, 7] .null (by decide) (by decide))
    have hrun := hagree.symm.ok rfl
    refine ⟨_, hrun, rfl, (hends hrun (.refl _) (by decide)).1 fun htransfers => ?_⟩
    cases htransfers with
    | jumps hop | branches hop | closes hop => cases hop
    | returns hop => simp at hop
    | calls hgrown => exact absurd hgrown (Nat.lt_irrefl 1)
    | throws hthrown => cases hthrown
  · obtain ⟨hagree, hends⟩ := step_follows_widths
      (State.standsAt_atInstruction .call [0] (.closure default) (by decide) (by decide))
    have hrun := hagree.symm.ok rfl
    exact ⟨_, hrun, (hends hrun (.refl _) (by decide)).2 (Nat.lt_succ_self 1)⟩

end ScriptMachine
