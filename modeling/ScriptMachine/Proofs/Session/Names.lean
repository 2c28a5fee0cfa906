import Mathlib.Data.Fintype.Pigeonhole
import ScriptMachine.Proofs.Expression.Compile
import ScriptMachine.Proofs.Machine.Equations
import ScriptMachine.Proofs.Session.Sound

/-!
# Names that host and programs share

A host reads and binds globals by name, and so do programs. Both use the symbol table of the session. A
program reads a global with an instruction, whose operand has two bytes; a host looks at the slot itself.

1. **Reading a name**: how a unit is compiled and run that consists of a name only.
2. **Sharing**: `Session.Moment.Reached.shares_globals`. Host and programs see the same value under every
   name that an instruction can address, and binding a global changes no other one.
-/

namespace ScriptMachine

/-! ## Reading a name -/

/-- In the given world and with the given host functions, the instruction pushes the value. -/
def Opcode.Loads (w : World) (r : Registry) (op : Opcode) (width k : Nat) (v : Value) : Prop :=
  ∀ (m : Machine) (fs : Array Frame) (f : Frame), m.registry = r → m.frames = fs.push f →
    operandAt? f.code f.ip width = some k → m.sp < m.stack.size →
    Exec.perform op ⟨w, m⟩ = .ok .next ⟨w, { m with
      frames := fs.push { f with ip := f.ip + width }
      stack := m.stack.setIfInBounds m.sp v
      sp := m.sp + 1 }⟩

theorem Opcode.loads_getGlobal (w : World) (r : Registry) (k : Nat) :
    Opcode.Loads w r .getGlobal 2 k (Globals.get w.globals k) := by
  intro m fs f hr hframes hk hroom
  refine (Exec.bind_eq (s := ⟨w, m⟩) (a := ()) ?_).trans rfl
  refine (Exec.bind_eq (Exec.operand_eq hframes hk)).trans ?_
  refine (Exec.bind_eq (Exec.get_eq _)).trans ?_
  exact Exec.push_eq hroom _

theorem Opcode.loads_getBuiltin (w : World) {r : Registry} {k : Nat} {v : Value} (hv : r.get? k = some v) :
    Opcode.Loads w r .getBuiltin 1 k v := by
  intro m fs f hr hframes hk hroom
  refine (Exec.bind_eq (s := ⟨w, m⟩) (a := ()) ?_).trans rfl
  refine (Exec.bind_eq (Exec.operand_eq hframes hk)).trans ?_
  refine (Exec.bind_eq (Exec.getMachine_eq _)).trans ?_
  dsimp only
  rw [hr, hv]
  exact Exec.push_eq hroom v

/-- The unit that consists of a name. -/
def Program.read (name : String) (span span' : Span) : Program := ⟨[.expr (.ident ⟨name, span⟩) span']⟩

theorem Optimizer.run_read (o : Optimizer) (name : String) (span span' : Span) :
    (o.run (.read name span span')).1 = .read name span span' := by
  have hfold : ∀ n, (repeatFold n (.read name span span')).1 = .read name span span' := by
    intro n
    induction n with
    | zero => rfl
    | succ n ih => exact ih
  unfold Optimizer.run
  split
  · exact hfold o.passes
  · rfl

theorem Pool.link_self (p : Pool) (spans : List (String × Span)) : p.link spans p.size = .ok p := by
  have hnone : p.newClasses p.size = [] := by
    unfold Pool.newClasses
    rw [List.filterMap_eq_nil_iff]
    intro place hplace
    rw [if_neg (Nat.not_le.mpr (List.mem_range.mp hplace))]
  unfold Pool.link
  rw [hnone]
  rfl

/-- The instructions of a unit that reads a name. -/
def CodeBlock.reading (op : Opcode) (k : Nat) (span span' : Span) : CodeBlock :=
  ((CodeBlock.empty.emit op [k] span).emit .pop [] span').emit .halt [] .dummy

/-- A unit that reads a name is always accepted. -/
theorem Compiler.attempt_read {c : Compiler} {name : String} {x : Symbol} {op : Opcode} (span span' : Span)
    (hx : c.symbols.lookup? name = some x)
    (hload : CompileM.load x span = CompileM.put op [x.index] span) :
    ∃ c', c.attempt (.read name span span') = (.ok ⟨(CodeBlock.reading op x.index span span').code,
      (CodeBlock.reading op x.index span span').debug⟩, c') := by
  have hresolve := SymbolTable.resolve_of_lookup? hx
  have hname : CompileM.resolve name span c.start = .ok x c.start := by
    have hfirst : (modifyGet fun s : CompileState => ((s.symbols.resolve name).1,
        { s with symbols := (s.symbols.resolve name).2 }) : CompileM (Option Symbol)) c.start =
        .ok (some x) c.start := by
      show EStateM.Result.ok (c.start.symbols.resolve name).1
        { c.start with symbols := (c.start.symbols.resolve name).2 } = _
      rw [show c.start.symbols.resolve name = (some x, c.start.symbols) from hresolve]
    unfold CompileM.resolve
    simp only [bind, EStateM.bind]
    rw [show (modifyGet _ : CompileM (Option Symbol)) c.start = _ from hfirst]
    rfl
  have hstmts : CompileM.stmts [] (Program.read name span span').statements c.start =
      .ok () ((c.start.emit op [x.index] span).emit .pop [] span') := by
    rw [Program.read, CompileM.stmts, CompileM.stmt, CompileM.expr, CompileM.stmts]
    simp only [bind, EStateM.bind, hname, hload]
    rfl
  have hlink : CompileM.linkClasses c.pool.size ((c.start.emit op [x.index] span).emit .pop [] span') =
      .ok () ((c.start.emit op [x.index] span).emit .pop [] span') := by
    have hget : ∀ τ : CompileState, (get : CompileM CompileState) τ = .ok τ τ := fun _ => rfl
    unfold CompileM.linkClasses
    simp only [bind, EStateM.bind, hget]
    rw [show ((c.start.emit op [x.index] span).emit .pop [] span').pool = c.pool from rfl, Pool.link_self]
    rfl
  have hunit : CompileM.unit c.pool.size (Program.read name span span').statements c.start =
      .ok (.reading op x.index span span')
        (((c.start.emit op [x.index] span).emit .pop [] span').emit .halt [] .dummy) := by
    unfold CompileM.unit
    simp only [bind, EStateM.bind, hstmts, hlink]
    rfl
  refine ⟨c.keep (((c.start.emit op [x.index] span).emit .pop [] span').emit .halt [] .dummy), ?_⟩
  unfold Compiler.attempt EStateM.run
  rw [Optimizer.run_read]
  simp only [hunit]

/-- A new machine enters its top-level block. -/
theorem Run.startBlock_new (w : World) (constants : Array Value) {main : Closure} (registry : Registry)
    {σ : Settings} (hlocals : main.function.locals = 0) (hframes : 1 ≤ σ.maxFrames) :
    Run.startBlock ⟨w, .new constants main registry σ⟩ = (.running .block,
      ⟨w, { Machine.new constants main registry σ with frames := #[.enter main 0 .function] }⟩) := by
  have hreset : Exec.reset ⟨w, .new constants main registry σ⟩ =
      .ok () ⟨w, .new constants main registry σ⟩ := Exec.reset_eq (Nat.zero_le _)
  have hpush : Exec.pushFrame main 0 .function ⟨w, .new constants main registry σ⟩ =
      .ok () ⟨w, { Machine.new constants main registry σ with frames := #[.enter main 0 .function] }⟩ := by
    have hroom : ¬ (Machine.new constants main registry σ).settings.maxFrames ≤
        (Machine.new constants main registry σ).frames.size := Nat.not_le.mpr hframes
    refine (Exec.bind_eq (Exec.getMachine_eq _)).trans ?_
    dsimp only
    rw [if_neg hroom, hlocals, if_neg (Nat.not_lt_zero _)]
    exact Exec.bind_eq (Exec.setSp_eq (Nat.zero_le _) 0)
  have hbegin : (do Exec.reset; Exec.pushFrame (← Exec.getMachine).main 0 .function : Exec Unit)
      ⟨w, .new constants main registry σ⟩ = _ :=
    (Exec.bind_eq hreset).trans ((Exec.bind_eq (Exec.getMachine_eq _)).trans hpush)
  unfold Run.startBlock EStateM.run
  dsimp only
  rw [hbegin]

/-- The instructions of a unit that reads a name stand in its block. -/
theorem CodeBlock.hasAt_reading {op : Opcode} {width : Nat} (hop : op.widths = [width]) (k : Nat)
    (span span' : Span) :
    (Function.main (reading op k span span').code (reading op k span span').debug).HasAt 0
      [⟨op, [k], span⟩, ⟨.pop, [], span'⟩, ⟨.halt, [], .dummy⟩] := by
  have hitems : (reading op k span span').items.toList =
      [] ++ [⟨op, [k], span⟩, ⟨.pop, [], span'⟩, ⟨.halt, [], .dummy⟩] ++ [] := rfl
  refine CodeBlock.hasAt_toFunction hitems ?_
  intro i hi
  simp only [List.nil_append, List.mem_cons, List.not_mem_nil, or_false] at hi
  rcases hi with rfl | rfl | rfl
  · show [k].length = op.widths.length
    rw [hop]
    rfl
  · rfl
  · rfl

/-- The block of a unit that reads a name ends with the value of the name. -/
theorem Run.proceed_reading {w : World} {m : Machine} {main : Closure} {op : Opcode} {k width : Nat}
    {v : Value} {span span' : Span} (hop : op.widths = [width])
    (hloads : op.Loads w m.registry width (Emitted.cut width k) v)
    (hmain : main.function.HasAt 0 [⟨op, [k], span⟩, ⟨.pop, [], span'⟩, ⟨.halt, [], .dummy⟩])
    (hframes : m.frames = #[.enter main 0 .function]) (hwaiting : m.waiting = none) (hsp : m.sp = 0)
    (hstack : 1 ≤ m.stack.size) (fuel : Nat) :
    ∃ m', Run.proceed (fuel + 3) .block ⟨w, m⟩ = (.ended (.ok .null), ⟨w, m'⟩) ∧ m'.lastPopped = v := by
  have hlength : op.length = 1 + width := by simp [Opcode.length, hop]
  have hload := hmain.head
  have hpop : main.function.code[op.length]? = some Opcode.pop.toByte := by
    simpa using hmain.tail.head.byte
  have hhalt : main.function.code[op.length + 1]? = some Opcode.halt.toByte := by
    simpa [show Opcode.pop.length = 1 from rfl] using hmain.tail.tail.byte
  have hread : operandAt? main.function.code 1 width = some (Emitted.cut width k) := by
    rw [Exec.operandAt?_one hload.operands hload.sized hop]
    show some (Emitted.cut (op.widths.getD 0 0) k) = _
    rw [hop]
    rfl
  have hroom : m.sp < m.stack.size := by omega
  have hframes : m.frames = #[].push (.enter main 0 .function) := hframes
  -- the value is pushed
  have hfirst : ∃ m₁, Exec.advance ⟨w, m⟩ = .ok .next ⟨w, m₁⟩ ∧ m₁.waiting = none ∧ m₁.sp = 1 ∧
      m₁.frames = #[].push ⟨main, op.length, 0, .function, #[]⟩ ∧
      m₁.stack[0]? = some v := by
    refine ⟨_, (Exec.advance_eq (s := ⟨w, m⟩) hframes hwaiting hload.byte).trans
      (hloads _ #[] _ rfl rfl hread hroom), hwaiting, ?_, ?_, ?_⟩
    · exact congrArg (· + 1) hsp
    · rw [hlength]
      rfl
    · show (m.stack.setIfInBounds m.sp v)[0]? = some v
      rw [hsp, Array.getElem?_setIfInBounds_self_of_lt (by omega)]
  obtain ⟨m₁, hfirst, hwaiting, hsp, hframes₁, htop⟩ := hfirst
  -- and popped
  have hsecond : ∃ m₂, Exec.advance ⟨w, m₁⟩ = .ok .next ⟨w, m₂⟩ ∧ m₂.waiting = none ∧ m₂.sp = 0 ∧
      m₂.frames = #[].push ⟨main, op.length + 1, 0, .function, #[]⟩ ∧
      m₂.lastPopped = v := by
    refine ⟨_, (Exec.advance_eq (s := ⟨w, m₁⟩) hframes₁ hwaiting hpop).trans
      (Exec.perform_pop_eq ?_ ?_), hwaiting, ?_, rfl, rfl⟩
    · show m₁.sp ≠ 0
      omega
    · show m₁.stack[m₁.sp - 1]? = some v
      rw [hsp]
      exact htop
    · show m₁.sp - 1 = 0
      omega
  obtain ⟨m₂, hsecond, hwaiting, hsp, hframes₂, hpopped⟩ := hsecond
  have hthird : ∃ m₃, Exec.advance ⟨w, m₂⟩ = .ok .halt ⟨w, m₃⟩ ∧ m₃.sp = 0 ∧ m₃.lastPopped = v :=
    ⟨_, (Exec.advance_eq (s := ⟨w, m₂⟩) hframes₂ hwaiting hhalt).trans rfl, hsp, hpopped⟩
  obtain ⟨m₃, hthird, hsp, hpopped⟩ := hthird
  have hrun : Exec.execute 0 (fuel + 3) ⟨w, m⟩ = (.finished (.ok ()), ⟨w, m₃⟩) := by
    rw [Exec.execute_next (by rw [hframes]; exact Nat.one_pos) hfirst,
      Exec.execute_next (by rw [hframes₁]; exact Nat.one_pos) hsecond,
      Exec.execute_halt (by rw [hframes₂]; exact Nat.one_pos) hthird]
  have hreset := @Exec.reset_eq ⟨w, m₃⟩ (by rw [hsp]; exact Nat.zero_le _)
  refine ⟨{ m₃ with
    frames := #[], handlers := [], captures := #[], stack := Exec.clearSlots m₃.stack 0 m₃.sp, sp := 0 },
    ?_, hpopped⟩
  unfold Run.proceed
  rw [hrun]
  unfold Run.endBlock EStateM.run
  dsimp only
  rw [hreset]
  rfl

/-- A block that only reads a name is run in its first turn. -/
theorem TaskSystem.runBlock_reading (system : TaskSystem) (constants : Array Value) {main : Closure}
    {registry : Registry} {σ : Settings} {op : Opcode} {k width : Nat} {v : Value} {span span' : Span}
    (hop : op.widths = [width]) (hloads : op.Loads system.world registry width (Emitted.cut width k) v)
    (hmain : main.function.HasAt 0 [⟨op, [k], span⟩, ⟨.pop, [], span'⟩, ⟨.halt, [], .dummy⟩])
    (hlocals : main.function.locals = 0) (hstack : 1 ≤ σ.stackSize) (hframes : 1 ≤ σ.maxFrames)
    (fuel : Nat) :
    ∃ m', system.runBlock (fuel + 1) (.new constants main registry σ) =
      (.finished (.ok .null), system.adopt, m') ∧ m'.lastPopped = v := by
  have hstart := Run.startBlock_new system.world constants registry hlocals hframes
  obtain ⟨m', hproceed, hpopped⟩ := Run.proceed_reading (w := system.world)
    (m := { Machine.new constants main registry σ with frames := #[.enter main 0 .function] })
    hop hloads hmain rfl rfl rfl (by simpa [Machine.new] using hstack) 509
  refine ⟨m', ?_, hpopped⟩
  unfold TaskSystem.runBlock
  rw [hstart]
  dsimp only
  unfold TaskSystem.finish
  rw [show quantum = 509 + 3 from rfl, hproceed]

namespace Session

section

variable {s : Session} {name : String} {x : Symbol} {v : Value}

theorem run_eq {p : Program} {unit : UnitCode} {compiler : Compiler} {m m' : Machine} {t : Session}
    {fuel : Nat} {outcome : TaskSystem.Outcome} {system : TaskSystem}
    (hattempt : s.compiler.attempt p = (.ok unit, compiler))
    (hmachine : ({ s with compiler } : Session).machine (.main unit.code unit.debug) = (m, t))
    (hrun : t.system.runBlock fuel m = (outcome, system, m')) :
    s.run fuel p = ((resultOf outcome).map fun _ => m'.lastPopped, { t with system }) := by
  unfold Session.run
  rw [hattempt]
  dsimp only
  rw [hmachine]
  dsimp only
  rw [hrun]

/-- A unit that reads a name ends with the value that the instruction for the name pushes. -/
theorem run_read {op : Opcode} {width : Nat} (hx : s.compiler.symbols.lookup? name = some x)
    (hload : ∀ span, CompileM.load x span = CompileM.put op [x.index] span) (hop : op.widths = [width])
    (hloads : ∀ w : World, w.globals = s.globals →
      op.Loads w s.registry width (Emitted.cut width x.index) v)
    (hstack : 1 ≤ s.settings.stackSize) (hframes : 1 ≤ s.settings.maxFrames) (fuel : Nat)
    (span span' : Span) : (s.run (fuel + 1) (.read name span span')).1 = .ok v := by
  obtain ⟨compiler, hattempt⟩ := Compiler.attempt_read span span' hx (hload span)
  let made := ({ s with compiler } : Session).machine (.main (CodeBlock.reading op x.index span span').code
    (CodeBlock.reading op x.index span span').debug)
  -- the heap has new objects; the globals are the same
  have hmain : made.1.main.function.HasAt 0 _ := CodeBlock.hasAt_reading hop x.index span span'
  obtain ⟨m, hrun, hpopped⟩ := TaskSystem.runBlock_reading made.2.system made.2.constants hop
    (hloads made.2.system.world rfl) hmain rfl hstack hframes fuel
  have hresult := run_eq (m := made.1) (t := made.2) hattempt rfl hrun
  rw [hresult, ← hpopped]
  rfl

/-- A program reads the slot that the two bytes of an operand give. -/
theorem run_read_global (hx : s.compiler.symbols.lookup? name = some x) (hst : x.storage = .global)
    (hstack : 1 ≤ s.settings.stackSize) (hframes : 1 ≤ s.settings.maxFrames) (fuel : Nat)
    (span span' : Span) : (s.run (fuel + 1) (.read name span span')).1 =
      .ok (Globals.get s.globals (x.index % CompileM.maxGlobals)) := by
  have hop : Opcode.getGlobal.widths = [2] := rfl
  refine run_read hx ?_ hop ?_ hstack hframes fuel span span'
  · intro span
    unfold CompileM.load
    rw [hst]
  · intro w hw
    rw [← hw]
    exact Opcode.loads_getGlobal w s.registry _

theorem run_read_builtin (hx : s.compiler.symbols.lookup? name = some x) (hst : x.storage = .builtin)
    (hv : s.registry.get? (x.index % Registry.capacity) = some v)
    (hstack : 1 ≤ s.settings.stackSize) (hframes : 1 ≤ s.settings.maxFrames) (fuel : Nat)
    (span span' : Span) : (s.run (fuel + 1) (.read name span span')).1 = .ok v := by
  have hop : Opcode.getBuiltin.widths = [1] := rfl
  refine run_read hx ?_ hop ?_ hstack hframes fuel span span'
  · intro span
    unfold CompileM.load
    rw [hst]
  · intro w _
    exact Opcode.loads_getBuiltin w hv

end

/-! ## Sharing -/

/-- An instruction can address the global of that name, if the name is that of a global. -/
def Addresses (s : Session) (name : String) : Prop :=
  ∀ x, s.compiler.symbols.lookup? name = some x → x.storage = .global → x.index < CompileM.maxGlobals

/-- What the host finds under a name that can be addressed is what a program finds. -/
theorem Sound.run_read_of_get? {s : Session} (h : s.Sound) {name : String} {v : Value}
    (hv : s.get? name = some v) (haddresses : s.Addresses name) (hstack : 1 ≤ s.settings.stackSize)
    (hframes : 1 ≤ s.settings.maxFrames) (fuel : Nat) (span span' : Span) :
    (s.run (fuel + 1) (.read name span span')).1 = .ok v := by
  unfold get? at hv
  cases hx : s.compiler.symbols.lookup? name with
  | none =>
    rw [hx] at hv
    cases hv
  | some x =>
    rw [hx, Option.bind_eq_bind, Option.bind_some] at hv
    cases hst : x.storage with
    | global =>
      rw [hst] at hv
      rw [run_read_global hx hst hstack hframes, Nat.mod_eq_of_lt (haddresses x hx hst)]
      exact congrArg Except.ok (Option.some.inj hv)
    | builtin =>
      rw [hst] at hv
      have hvalid : x.index < s.registry.size := by
        have hknows := h.compiler.symbols.knows hx
        unfold SymbolTable.Knows Symbol.Valid at hknows
        rwa [hst] at hknows
      have hcut : x.index % Registry.capacity = x.index :=
        Nat.mod_eq_of_lt (Nat.lt_of_lt_of_le hvalid h.capacity)
      exact run_read_builtin hx hst (hcut.symm ▸ hv) hstack hframes fuel span span'
    | _ =>
      rw [hst] at hv
      cases hv

theorem store_define (scope : Scope) (storage : Storage) (name : String) (constant : Bool) :
    (scope.define storage name constant).2.store =
      scope.store.insert name (scope.define storage name constant).1 := by
  unfold Scope.define
  dsimp only
  split <;> rfl

/-- Binding a global writes to its slot, which is that of old if there was one; other names stay bound as
they are. -/
theorem Sound.set_eq {s : Session} (h : s.Sound) (name : String) (v : Value) :
    ∃ x, (s.set name v).compiler.symbols.lookup? name = some x ∧ x.storage = .global ∧
      (s.set name v).globals = Globals.set s.globals x.index v ∧
      (∀ y, s.compiler.symbols.lookup? name = some y → y.storage = .global → y = x) ∧
      ∀ other ≠ name, (s.set name v).compiler.symbols.lookup? other = s.compiler.symbols.lookup? other := by
  by_cases hold : ∃ x, s.compiler.symbols.lookup? name = some x ∧ x.storage = .global
  · obtain ⟨x, hx, hst⟩ := hold
    have hset : s.set name v = { s with system := { s.system with
        world := { s.system.world with globals := Globals.set s.system.world.globals x.index v } } } := by
      simp only [Session.set, hx, hst, if_true]
    rw [hset]
    exact ⟨x, hx, hst, rfl, fun y hy _ => Option.some.inj (hy.symm.trans hx), fun _ _ => rfl⟩
  · have hset : s.set name v = { s with
        compiler := { s.compiler with symbols := (s.compiler.symbols.define name false).2 }
        system := { s.system with world := { s.system.world with
          globals := Globals.set s.system.world.globals (s.compiler.symbols.define name false).1.index v } } } := by
      unfold Session.set
      cases hx : s.compiler.symbols.lookup? name with
      | none => rfl
      | some x =>
        have hst : x.storage ≠ .global := fun hst => hold ⟨x, hx, hst⟩
        simp only [if_neg hst]
    have hdefine : s.compiler.symbols.define name false =
        ((s.compiler.symbols.current.define .global name false).1,
          { s.compiler.symbols with current := (s.compiler.symbols.current.define .global name false).2 }) := by
      unfold SymbolTable.define
      rw [h.compiler.isGlobal]
      rfl
    rw [hset, hdefine]
    refine ⟨_, ?_, Scope.storage_define _ .global name false, rfl, fun y hy hst => ?_, ?_⟩
    · show (s.compiler.symbols.current.define .global name false).2.store[name]? = _
      rw [store_define, Std.HashMap.getElem?_insert_self]
    · exact absurd ⟨y, hy, hst⟩ hold
    · intro other hne
      show (s.compiler.symbols.current.define .global name false).2.store[other]? = _
      rw [store_define, Std.HashMap.getElem?_insert, if_neg (by simpa using hne.symm)]
      rfl

theorem definitions_set (s : Session) (name : String) (v : Value) :
    (s.set name v).compiler.symbols.current.definitions ≤ s.compiler.symbols.current.definitions + 1 := by
  have hdefine : ∀ storage, (s.compiler.symbols.current.define storage name false).2.definitions ≤
      s.compiler.symbols.current.definitions + 1 := by
    intro storage
    unfold Scope.define
    dsimp only
    split
    · exact Nat.le_succ _
    · exact Nat.le_refl _
  unfold Session.set
  dsimp only
  split
  · exact Nat.le_succ _
  · exact hdefine _

theorem Sound.get?_set_self {s : Session} (h : s.Sound) (name : String) (v : Value) :
    (s.set name v).get? name = some v := by
  obtain ⟨x, hx, hst, hglobals, -⟩ := h.set_eq name v
  simp only [get?, hx, hst, hglobals, Globals.get_set_self, Option.bind_eq_bind, Option.bind_some]

/-- No other name has that slot. -/
theorem Sound.get?_set_of_ne {s : Session} (h : s.Sound) {name other : String} (hne : other ≠ name)
    (v : Value) : (s.set name v).get? other = s.get? other := by
  obtain ⟨x, hx, hst, hglobals, -, hothers⟩ := h.set_eq name v
  have hregistry : (s.set name v).registry = s.registry := rfl
  unfold get?
  rw [hothers other hne, hregistry, hglobals]
  cases hy : s.compiler.symbols.lookup? other with
  | none => rfl
  | some y =>
    simp only [Option.bind_eq_bind, Option.bind_some]
    cases hst' : y.storage with
    | global =>
      have hslot : x.index ≠ y.index := by
        intro heq
        exact hne ((h.set name v).apart.distinct other name y x ((hothers other hne).trans hy) hx hst' hst
          heq.symm)
      simp only [Globals.get_set_of_ne _ hslot]
    | _ => rfl

namespace Moment

variable {host : Host} {a b : Moment}

theorem Step.settings (h : Step host a b) : b.session.settings = a.session.settings := by
  cases h with
  | register s n =>
    show (s.register n).2.settings = s.settings
    unfold Session.register
    dsimp only
    split <;> rfl
  | tryReceive s name =>
    show (s.tryReceive name).2.settings = s.settings
    unfold Session.tryReceive
    split
    · split <;> rfl
    · rfl
  | _ => rfl

theorem Reached.settings {σ : Settings} (h : Reached host σ a) : a.session.settings = σ := by
  induction h with
  | refl => rfl
  | tail _ hstep ih => exact hstep.settings.trans ih

/-- Host and programs agree on globals. Whatever happened to a session, a name that an instruction can
address has the same value for the host and for the next unit. Binding a global gives it the value and
changes what no other name stands for, neither for the host nor for programs. -/
theorem Reached.shares_globals {σ : Settings} {s : Session} (h : Reached host σ (idle s))
    (hstack : 1 ≤ σ.stackSize) (hframes : 1 ≤ σ.maxFrames) :
    (∀ name v, s.get? name = some v → s.Addresses name → ∀ fuel span span',
      (s.run (fuel + 1) (.read name span span')).1 = .ok v) ∧
    ∀ name v, (s.set name v).get? name = some v ∧
      ∀ other ≠ name, (s.set name v).get? other = s.get? other ∧
        ∀ w, s.get? other = some w → s.Addresses other → ∀ fuel span span',
          ((s.set name v).run (fuel + 1) (.read other span span')).1 = .ok w := by
  have hsound : s.Sound := h.sound
  have hsettings : s.settings = σ := h.settings
  refine ⟨?_, ?_⟩
  · intro name v hv haddresses fuel span span'
    exact hsound.run_read_of_get? hv haddresses (hsettings ▸ hstack) (hsettings ▸ hframes) fuel span span'
  · intro name v
    refine ⟨hsound.get?_set_self name v, fun other hne => ⟨hsound.get?_set_of_ne hne v, ?_⟩⟩
    intro w hw haddresses fuel span span'
    have hkept : (s.set name v).Addresses other := by
      obtain ⟨-, -, -, -, -, hothers⟩ := hsound.set_eq name v
      intro x hx
      exact haddresses x ((hothers other hne).symm.trans hx)
    exact (hsound.set name v).run_read_of_get? ((hsound.get?_set_of_ne hne v).trans hw) hkept
      (hsettings ▸ hstack) (hsettings ▸ hframes) fuel span span'

/-- A name that the host binds is shared right away. -/
theorem bound_shared : Reached .any {} (idle ((Session.new {}).set "x" (.int 5))) ∧
    (((Session.new {}).set "x" (.int 5)).run 1 (.read "x" .dummy .dummy)).1 = .ok (.int 5) := by
  have hreached : Reached .any {} (idle ((Session.new {}).set "x" (.int 5))) := .single (.set _ _ _ trivial)
  refine ⟨hreached, ?_⟩
  have hget := (sound_new {}).get?_set_self "x" (.int 5)
  refine (Reached.shares_globals hreached (by decide) (by decide)).1 "x" (.int 5) hget ?_ 0 .dummy .dummy
  intro x hx hst
  have hslot : x.index < ((Session.new {}).set "x" (.int 5)).compiler.symbols.current.definitions :=
    hreached.sound.apart.defined "x" x hx hst
  have hfew := definitions_set (.new {}) "x" (.int 5)
  have hnone : (Session.new {}).compiler.symbols.current.definitions = 0 := rfl
  have hmax : 1 < CompileM.maxGlobals := by decide
  show x.index < CompileM.maxGlobals
  omega

/-! ### Too many globals -/

/-- The name that says its number in strokes. -/
def tally (n : Nat) : String := .ofList (.replicate n 'i')

theorem tally_injective {m n : Nat} (h : tally m = tally n) : m = n := by
  have hlists := congrArg (fun t => t.toList.length) h
  simpa [tally] using hlists

/-- A session whose host binds a number of globals. -/
def crowded : Nat → Session
  | 0 => .new {}
  | n + 1 => (crowded n).set (tally n) .null

theorem reached_crowded (n : Nat) : Reached .any {} (idle (crowded n)) := by
  induction n with
  | zero => exact .refl
  | succ n ih => exact ih.tail (.set _ _ _ trivial)

theorem globals_crowded (n : Nat) : ∀ i < n, ∃ x,
    (crowded n).compiler.symbols.lookup? (tally i) = some x ∧ x.storage = .global := by
  induction n with
  | zero => exact fun i hi => absurd hi (Nat.not_lt_zero i)
  | succ n ih =>
    intro i hi
    have hsound : (crowded n).Sound := (reached_crowded n).sound
    obtain ⟨x, hx, hst, -, -, hothers⟩ := hsound.set_eq (tally n) .null
    by_cases hlast : i = n
    · exact ⟨x, hlast ▸ hx, hst⟩
    · obtain ⟨y, hy, hst'⟩ := ih i (by omega)
      exact ⟨y, (hothers _ fun heq => hlast (tally_injective heq)).trans hy, hst'⟩

/-- Slots are distinct, so there are some that no operand can give. -/
theorem exists_beyond {n : Nat} (hn : CompileM.maxGlobals < n) : ∃ name x,
    (crowded n).compiler.symbols.lookup? name = some x ∧ x.storage = .global ∧
      CompileM.maxGlobals ≤ x.index := by
  by_contra hnone
  have hslots : ∀ i : Fin n, ∃ k : Fin CompileM.maxGlobals, ∃ x,
      (crowded n).compiler.symbols.lookup? (tally i) = some x ∧ x.storage = .global ∧ x.index = k := by
    intro i
    obtain ⟨x, hx, hst⟩ := globals_crowded n i i.isLt
    have hlt : x.index < CompileM.maxGlobals := by
      by_contra hle
      exact hnone ⟨_, x, hx, hst, Nat.not_lt.mp hle⟩
    exact ⟨⟨x.index, hlt⟩, x, hx, hst, rfl⟩
  choose slot hslot using hslots
  obtain ⟨i, j, hne, heq⟩ := Fintype.exists_ne_map_eq_of_card_lt slot (by simpa using hn)
  obtain ⟨x, hx, hst, hi⟩ := hslot i
  obtain ⟨y, hy, hst', hj⟩ := hslot j
  have hsame : x.index = y.index := by rw [hi, hj, heq]
  have hsound : (crowded n).Sound := (reached_crowded n).sound
  have hname := hsound.apart.distinct _ _ x y hx hy hst hst' hsame
  exact hne (Fin.ext (tally_injective hname))

/-- A host can bind more globals than an instruction can address, and programs do not see those. -/
theorem not_shared_beyond : ¬ ∀ s, Reached .any {} (idle s) → ∀ name v, s.get? name = some v →
    (s.run 1 (.read name .dummy .dummy)).1 = .ok v := by
  intro hclaim
  obtain ⟨name, x, hx, hst, hle⟩ := exists_beyond (Nat.lt_succ_self CompileM.maxGlobals)
  have hreached := reached_crowded (CompileM.maxGlobals + 1)
  generalize crowded (CompileM.maxGlobals + 1) = s at hx hreached
  have hsound : s.Sound := hreached.sound
  -- the slot that programs read has another value than the one bound
  let slot := x.index % CompileM.maxGlobals
  have hne : x.index ≠ slot := by
    have hlt : slot < CompileM.maxGlobals := Nat.mod_lt _ (by decide)
    omega
  obtain ⟨v, hv⟩ : ∃ v, Globals.get s.globals slot ≠ v := by
    by_cases hnull : Globals.get s.globals slot = .null
    · exact ⟨.bool true, fun h => nomatch hnull.symm.trans h⟩
    · exact ⟨.null, hnull⟩
  obtain ⟨y, hy, hst', hglobals, hold, -⟩ := hsound.set_eq name v
  cases hold x hx hst
  have hnext : Reached .any {} (idle (s.set name v)) := hreached.tail (.set _ _ _ trivial)
  have hsettings : (s.set name v).settings = {} := hnext.settings
  have hclaimed := hclaim _ hnext name v (hsound.get?_set_self name v)
  have hread := run_read_global hy hst' (by rw [hsettings]; decide) (by rw [hsettings]; decide) 0 .dummy .dummy
  rw [hread, hglobals, Globals.get_set_of_ne _ hne] at hclaimed
  exact hv (Except.ok.inj hclaimed)

end Moment

end Session

end ScriptMachine
