import ScriptMachine.Proofs.Calls.Parameters
import ScriptMachine.Proofs.Hierarchy.Units
import ScriptMachine.Proofs.Lifting.Limits
import ScriptMachine.Proofs.Machine.Kit

/-!
# The result of a unit

The machine of a unit remembers the value that it dropped last, and this value is the result of the unit. Values are
dropped by `pop` and by nothing else; all other turns of the machine, and what happens to the world between them, leave
the result alone. So the result is the last of the values that `pop` drops, whatever function or statement the `pop`
belongs to, and null if none is dropped (`Session.run_yields_last_dropped`).
-/

namespace ScriptMachine

/-! ## What a turn drops -/

/-- The instruction that a machine executes next; there is none if it waits, or if its block has been run through. -/
def Machine.next? (m : Machine) : Option Opcode :=
  match m.waiting with
  | some _ => none
  | none => m.frames.back?.bind fun f => f.code[f.ip]?.bind Opcode.dispatch

/-- What a machine drops in its next turn: the top of its stack, if it executes `pop`. -/
def Machine.dropped? (m : Machine) : Option Value :=
  if m.next? = some .pop then m.stack[m.sp - 1]? else none

theorem Machine.dropped?_of_ne {m : Machine} (h : m.next? ≠ some .pop) : m.dropped? = none := if_neg h

theorem Machine.dropped?_of_waiting {m : Machine} {w : Wait} (h : m.waiting = some w) : m.dropped? = none := by
  refine dropped?_of_ne fun hnext => ?_
  unfold next? at hnext
  rw [h] at hnext
  cases hnext

/-- The value that a machine has dropped last. -/
def State.Dropped (v : Value) (s : State) : Prop := s.machine.lastPopped = v

instance (v : Value) : State.Tame (State.Dropped v) where
  machine hs _ hmemory := (congrArg Prod.fst hmemory).trans hs
  world hs _ _ := hs
  spawn hs _ := hs

namespace Exec

section

variable {α : Type} {I : State → Prop} {s t : State} {v : Value} {signal : Signal}

/-- An invariant, as far as one execution is concerned, faults included. -/
theorem Leaves.yields {x : Exec α} (h : Leaves I x) (hs : I s) : Yields True x s (fun _ t => I t) I := by
  unfold Yields
  split
  · next heq => exact (h.ok hs heq).1
  · next heq => exact ⟨fun _ => True.intro, fun _ => (h.error hs heq).1⟩
  · exact True.intro

/-- Instructions other than `pop` drop nothing. -/
theorem leaves_perform_dropped {op : Opcode} (hop : op ≠ .pop) : Leaves (State.Dropped v) (perform op) := by
  by_cases hset : op = .setGlobal
  · subst hset
    have hglobal : Leaves (State.Dropped v) setGlobal :=
      (leaves_operand 2).bind fun _ => leaves_peek.bind fun _ => keeps_modify fun _ hs => hs
    exact hglobal.bind fun _ => leaves_pure _
  · exact leaves_perform_of_ne hop hset

/-- What is on top of the stack is dropped. -/
theorem yields_pop_dropped {E : State → Prop} (w : Value) :
    Yields True (perform .pop) s (fun _ t => t.Dropped (s.machine.stack[s.machine.sp - 1]?.getD w)) E := by
  show Yields True (do let w ← pop; modifyMachine fun m => { m with lastPopped := w }; return Signal.next) s _ _
  simp only [yields_bind, yields_pop, yields_modifyMachine, yields_pure]
  refine ⟨fun _ => True.intro, fun _ htop => ?_⟩
  rw [Array.getElem?_eq_getElem htop]
  rfl

/-- What a machine drops by an instruction. -/
theorem yields_step_dropped (hw : s.machine.waiting = none) :
    Yields True step s (fun _ t => t.Dropped (s.machine.dropped?.getD s.machine.lastPopped))
      (State.Dropped (s.machine.dropped?.getD s.machine.lastPopped)) := by
  by_cases hempty : s.machine.frames = #[]
  · simp [step, currentFrame, hempty]
  obtain ⟨fs, f, hframes⟩ := Array.eq_push_of_size_ne_zero (mt Array.eq_empty_of_size_eq_zero hempty)
  have hnext : s.machine.next? = f.code[f.ip]?.bind Opcode.dispatch := by
    unfold Machine.next?
    rw [hw, hframes, Array.back?_push]
    rfl
  unfold step
  rw [yields_bind, yields_currentFrame hframes]
  dsimp only
  cases hbyte : f.code[f.ip]? with
  | none =>
    -- the block has been run through
    rw [Machine.dropped?_of_ne (by simp [hnext, hbyte])]
    rfl
  | some byte =>
    rw [hbyte] at hnext
    have hnext : s.machine.next? = Opcode.dispatch byte := hnext
    rw [yields_bind, yields_modifyFrame hframes, yields_bind, yields_modifyMachine]
    cases hop : Opcode.dispatch byte with
    | none =>
      rw [Machine.dropped?_of_ne (by simp [hnext, hop])]
      exact ⟨fun _ => True.intro, fun _ => rfl⟩
    | some op =>
      by_cases hpop : op = .pop
      · subst hpop
        rw [Machine.dropped?, if_pos (hnext.trans hop)]
        exact yields_pop_dropped _
      · rw [Machine.dropped?_of_ne (by simpa [hnext, hop] using hpop)]
        exact (leaves_perform_dropped hpop).yields rfl

/-- A machine has dropped last what it drops in its turn, or what it had dropped before. -/
theorem lastPopped_of_turn (h : advanceCatching.run s = .ok signal t) :
    t.machine.lastPopped = s.machine.dropped?.getD s.machine.lastPopped := by
  have hadvance : Yields True advance s (fun _ t => t.Dropped (s.machine.dropped?.getD s.machine.lastPopped))
      (State.Dropped (s.machine.dropped?.getD s.machine.lastPopped)) := by
    unfold advance
    rw [yields_bind, yields_getMachine]
    cases hw : s.machine.waiting with
    | none => exact yields_step_dropped hw
    | some w =>
      rw [Machine.dropped?_of_waiting hw]
      exact (leaves_poll w).yields rfl
  refine (yields_catching hadvance ?_).ok h
  -- a fault that is caught is pushed, not dropped
  exact fun u hu v => ((leaves_throwValue v).yields hu).mono (fun _ _ hu => hu) fun _ _ => True.intro

end

end Exec

/-! ## What a run drops -/

/-- Turn after turn a machine comes to its end `m'`, and it drops the values `vs` on the way. The world may change
between the turns. -/
inductive Machine.RunsTo : Machine → List Value → Machine → Prop where
  /-- The last frame has been left. -/
  | returned {m : Machine} : m.frames = #[] → RunsTo m [] m
  /-- The end of a block stops the machine. -/
  | halted {m : Machine} {w : World} {t : State} : m.frames ≠ #[] →
    Exec.advanceCatching.run ⟨w, m⟩ = .ok .halt t → RunsTo m m.dropped?.toList t.machine
  | turn {m m' : Machine} {w : World} {t : State} {signal : Signal} {vs : List Value} : m.frames ≠ #[] →
    signal ≠ .halt → Exec.advanceCatching.run ⟨w, m⟩ = .ok signal t → RunsTo t.machine vs m' →
    RunsTo m (m.dropped?.toList ++ vs) m'

/-- A machine has dropped last the last of these values. -/
theorem Machine.RunsTo.lastPopped {m m' : Machine} {vs : List Value} (h : m.RunsTo vs m') :
    m'.lastPopped = vs.getLast?.getD m.lastPopped := by
  induction h with
  | returned => rfl
  | @halted m w t _ hrun =>
    rw [Exec.lastPopped_of_turn hrun]
    cases m.dropped? <;> rfl
  | @turn m m' w t signal vs _ _ hrun _ ih =>
    rw [ih, Exec.lastPopped_of_turn hrun, List.getLast?_append]
    cases m.dropped? <;> cases vs.getLast? <;> rfl

namespace Exec

/-- A round of turns comes to the end of the run, or the run goes on after it. -/
theorem runsTo_of_execute {s t : State} {fuel : Nat} {pause : Pause} (h : execute 0 fuel s = (pause, t)) :
    (pause = .finished (.ok ()) → ∃ vs, s.machine.RunsTo vs t.machine) ∧
      (pause.GoesOn → ∀ vs m', t.machine.RunsTo vs m' → ∃ vs', s.machine.RunsTo vs' m') := by
  induction fuel generalizing s with
  | zero =>
    cases h
    refine ⟨fun hp => ?_, fun _ vs m' hrest => ⟨vs, hrest⟩⟩
    cases hp
  | succ fuel ih =>
    unfold execute at h
    split at h
    · next hsize =>
      cases h
      have hempty := Array.eq_empty_of_size_eq_zero (Nat.le_zero.mp hsize)
      exact ⟨fun _ => ⟨[], .returned hempty⟩, False.elim⟩
    · next hsize =>
      have hframes : s.machine.frames ≠ #[] := fun hempty => hsize (by simp [hempty])
      split at h
      · next u hrun =>
        rcases ih h with ⟨hends, hgoes⟩
        constructor
        · intro hp
          rcases hends hp with ⟨vs, hrest⟩
          exact ⟨_, .turn hframes (by decide) hrun hrest⟩
        · intro hp vs m' hrest
          rcases hgoes hp vs m' hrest with ⟨vs', hrest'⟩
          exact ⟨_, .turn hframes (by decide) hrun hrest'⟩
      · next hrun =>
        cases h
        exact ⟨fun _ => ⟨_, .halted hframes hrun⟩, False.elim⟩
      · next hrun =>
        cases h
        refine ⟨fun hp => ?_, fun _ vs m' hrest => ⟨_, .turn hframes (by decide) hrun hrest⟩⟩
        cases hp
      · cases h
        refine ⟨fun hp => ?_, False.elim⟩
        cases hp

end Exec

namespace TaskSystem

/-- While the tasks take turns with it, a block runs to its end, if it ends well. -/
theorem runsTo_of_finish {fuel : Nat} {s s' : TaskSystem} {m m' : Machine} {progress : Progress} {v : Value}
    (hblock : progress.run? = some .block) (h : s.finish fuel m progress = (.finished (.ok v), s', m')) :
    ∃ vs m₁, m.RunsTo vs m₁ ∧ m'.lastPopped = m₁.lastPopped := by
  induction fuel generalizing s m progress with
  | zero => cases h
  | succ fuel ih =>
    have hafter : s.afterTurn fuel (Run.proceed quantum .block ⟨s.world, m⟩) = (.finished (.ok v), s', m') →
        ∃ vs m₁, m.RunsTo vs m₁ ∧ m'.lastPopped = m₁.lastPopped := by
      unfold Run.proceed
      dsimp only
      rcases hround : Exec.execute 0 quantum ⟨s.world, m⟩ with ⟨pause, t⟩
      rcases Exec.runsTo_of_execute hround with ⟨hends, hgoes⟩
      intro h
      cases pause with
      | finished result =>
        rcases Run.endBlock_eq result t with ⟨m₂, hend, hpopped⟩
        dsimp only at h
        rw [hend] at h
        cases result with
        | ok _ =>
          rcases hends rfl with ⟨vs, hruns⟩
          cases h
          exact ⟨vs, t.machine, hruns, hpopped⟩
        | error e => cases h
      | blocked | outOfFuel =>
        rcases ih rfl h with ⟨vs, m₁, hruns, hpopped⟩
        rcases hgoes True.intro vs m₁ hruns with ⟨vs', hruns'⟩
        exact ⟨vs', m₁, hruns', hpopped⟩
    cases progress with
    | ended r => cases hblock
    | running run =>
      cases hblock
      rw [finish_running] at h
      exact hafter h
    | blocked run =>
      cases hblock
      rw [finish_blocked] at h
      split at h
      · exact hafter h
      · split at h
        · exact ih rfl h
        · cases h

/-- A new machine begins its block with a single frame. -/
theorem runsTo_of_runBlock {fuel : Nat} {s s' : TaskSystem} {constants : Array Value} {main : Closure}
    {registry : Registry} {σ : Settings} {m' : Machine} {v : Value} (hlocals : main.function.locals = 0)
    (h : s.runBlock fuel (.new constants main registry σ) = (.finished (.ok v), s', m')) :
    ∃ vs m₁, { Machine.new constants main registry σ with frames := #[.enter main 0 .function] }.RunsTo vs m₁ ∧
      m'.lastPopped = m₁.lastPopped := by
  rcases Nat.eq_zero_or_pos σ.maxFrames with hnone | hsome
  · -- where no frame is allowed the block does not begin
    have hrefused := Run.startBlock_refused s.world constants main registry hnone
    unfold runBlock at h
    rcases hstart : Run.startBlock ⟨s.world, .new constants main registry σ⟩ with ⟨progress, t⟩
    rw [hstart] at h hrefused
    cases progress with
    | ended r =>
      cases r with
      | ok _ => cases hrefused
      | error e => cases fuel <;> cases h
    | blocked run | running run => cases hrefused
  · unfold runBlock at h
    rw [Run.startBlock_new s.world constants registry hlocals hsome] at h
    exact runsTo_of_finish rfl h

end TaskSystem

namespace Session

variable {s : Session} {p : Program} {fuel : Nat} {v : Value}

/-- The result of a unit. If it ends well, its machine has run from the start of its block to the end, and the result
is the value that was dropped last on the way, or null if none was. -/
theorem run_yields_last_dropped (h : (s.run fuel p).1 = .ok v) :
    ∃ (unit : UnitCode) (compiler : Compiler) (main : Closure) (constants : Array Value) (vs : List Value)
      (m : Machine), s.compiler.attempt p = (.ok unit, compiler) ∧ main.function = .main unit.code unit.debug ∧
      { Machine.new constants main s.registry s.settings with frames := #[.enter main 0 .function] }.RunsTo vs m ∧
      v = vs.getLast?.getD .null := by
  cases hattempt : s.compiler.attempt p with
  | mk unit? compiler =>
    cases unit? with
    | error e =>
      unfold run at h
      rw [hattempt] at h
      cases h
    | ok unit =>
      let made := ({ s with compiler } : Session).machine (.main unit.code unit.debug)
      rcases hrun : made.2.system.runBlock fuel made.1 with ⟨outcome, system, m'⟩
      rw [run_eq (m := made.1) (t := made.2) hattempt rfl hrun] at h
      cases outcome with
      | finished result =>
        cases result with
        | ok w =>
          have hlocals : made.1.main.function.locals = 0 := rfl
          rcases TaskSystem.runsTo_of_runBlock hlocals hrun with ⟨vs, m, hruns, hpopped⟩
          cases h
          refine ⟨unit, compiler, made.1.main, made.1.constants, vs, m, rfl, rfl, hruns, ?_⟩
          rw [hpopped, hruns.lastPopped]
          rfl
        | error e => cases e <;> cases h
      | stuck | outOfFuel => cases h

end Session

/-! ## A declaration at the end -/

/-- `let x = 5` -/
def boundFive : Stmt := Build.bind "x" (Build.int 5)

namespace boundFive

def session : Session where
  compiler := .new .empty #[] false
  registry := .empty
  settings := { stackSize := 2 }
  system := ⟨.new #[], #[], 0⟩
  constants := #[]

def block : CodeBlock :=
  .ofItems [⟨.constant, [0], .dummy⟩, ⟨.setGlobal, [0], .dummy⟩, ⟨.pop, [], .dummy⟩, ⟨.halt, [], .dummy⟩]

def unit : UnitCode := ⟨#[1, 0, 0, 19, 0, 0, 128, 255], #[⟨0, .dummy⟩]⟩

def main : Closure := ⟨0, .main unit.code unit.debug, #[]⟩

/-- The heap has the closure of the block only. -/
def system : TaskSystem := ⟨{ World.new #[] with heap := { Heap.empty with nextId := 1 } }, #[], 0⟩

end boundFive

open CompileM in
theorem compile_boundFive : ∃ c', boundFive.session.compiler.compile ⟨[boundFive]⟩ = .ok (boundFive.unit, c') ∧
    c'.pool = #[.int 5] := by
  let c := boundFive.session.compiler
  have hfresh : c.start.symbols.lookup? "x" = none := Std.HashMap.getElem?_empty
  let σ : CompileState := { c.start with pool := #[.int 5] }.emit .constant [0] .dummy
  have hvalue : expr [] (Build.int 5) c.start = .ok () σ := by
    rw [Build.int, expr, CompileM.literal]
    rfl
  obtain ⟨symbols, hdefine⟩ : ∃ symbols, define "x" false .dummy σ = .ok ⟨"x", .global, 0, false⟩ { σ with symbols } :=
    ⟨_, define_global (SymbolTable.define_fresh rfl hfresh false) rfl (by decide)⟩
  let τ : CompileState := ({ σ with symbols }.emit .setGlobal [0] .dummy).emit .pop [] .dummy
  have hstmts : stmts [] [boundFive] c.start = .ok () τ := by
    rw [boundFive, Build.bind, stmts, stmts, stmt]
    · simp only [bind_assoc]
      exact (bind_eq hvalue).trans ((bind_eq hdefine).trans rfl)
    · intro f h
      cases h
  let υ : CompileState := τ.emit .halt [] .dummy
  have hlink : linkClasses 0 τ = .ok () τ := rfl
  have hunit : CompileM.unit 0 [boundFive] c.start = .ok υ.function.block υ :=
    (bind_eq hstmts).trans ((bind_eq hlink).trans rfl)
  have hblock : υ.function.block = boundFive.block := rfl
  have hcode : (⟨boundFive.block.code, boundFive.block.debug⟩ : UnitCode) = boundFive.unit := rfl
  refine ⟨c.keep υ, ?_, rfl⟩
  unfold Compiler.compile Compiler.attempt EStateM.run
  rw [show c.optimizer.run ⟨[boundFive]⟩ = (⟨[boundFive]⟩, ⟨0, 0⟩) from rfl]
  dsimp only
  rw [show CompileM.unit c.pool.size [boundFive] c.start = _ from hunit, ← hcode, ← hblock]

open boundFive in
theorem machine_boundFive {c : Compiler} (hpool : c.pool = #[.int 5]) :
    ({ session with compiler := c } : Session).machine main.function =
      (.new #[.int 5] main .empty { stackSize := 2 },
        { session with compiler := c, system := boundFive.system, constants := #[.int 5] }) := by
  have hload : c.pool.load #[] Heap.empty = (#[.int 5], Heap.empty) := by
    rw [hpool]
    rfl
  unfold Session.machine
  dsimp only [Session.withHeap, session, World.new]
  rw [hload]
  rfl

open boundFive in
set_option maxRecDepth 10000 in
theorem runBlock_boundFive : ∃ system' m, boundFive.system.runBlock 1 (.new #[.int 5] main .empty { stackSize := 2 }) =
    (.finished (.ok .null), system', m) ∧ m.lastPopped = .int 5 := by
  refine ⟨_, _, rfl, rfl⟩

theorem run_boundFive : (boundFive.session.run 1 ⟨[boundFive]⟩).1 = .ok (.int 5) := by
  rcases compile_boundFive with ⟨c', hcompile, hpool⟩
  rcases runBlock_boundFive with ⟨system', m, hblock, hpopped⟩
  have hrun := Session.run_eq (Compiler.attempt_of_compile hcompile) (machine_boundFive hpool) hblock
  rw [hrun, hpopped]
  rfl

open boundFive in
/-- The declaration drops the value that it binds. -/
theorem boundFive_yields_last_dropped : (session.run 1 ⟨[boundFive]⟩).1 = .ok (.int 5) ∧
    ∃ (unit : UnitCode) (compiler : Compiler) (main : Closure) (constants : Array Value) (vs : List Value)
      (m : Machine), session.compiler.attempt ⟨[boundFive]⟩ = (.ok unit, compiler) ∧
      main.function = .main unit.code unit.debug ∧
      { Machine.new constants main session.registry session.settings with
        frames := #[.enter main 0 .function] }.RunsTo vs m ∧ .int 5 = vs.getLast?.getD .null :=
  ⟨run_boundFive, Session.run_yields_last_dropped run_boundFive⟩

/-- Without an expression statement a unit may yield a value all the same. -/
theorem boundFive_yields_without_expression :
    (∀ e span, Stmt.expr e span ∉ [boundFive]) ∧ (boundFive.session.run 1 ⟨[boundFive]⟩).1 = .ok (.int 5) := by
  refine ⟨fun e span h => ?_, run_boundFive⟩
  cases List.mem_singleton.mp h

end ScriptMachine
