import ScriptMachine.Proofs.Constancy.Program
import ScriptMachine.Proofs.Rules.Bindings
import ScriptMachine.Proofs.Session.Names
import ScriptMachine.Proofs.Session.Result

/-!
# What a unit leaves of earlier bindings

A unit may come to an end anywhere, with a fault or without. The globals that it has written by then are listed by
`Session.stores`, which follows the run of the unit and the turns of the tasks beside it; all others have the values
that they had before. The names, too, stand for what they stood for, but for those of host functions that the unit
declares: such a name is bound to a global as soon as the unit is compiled, even if its declaration is never reached.

1. **Writing**: the slots that are written in a turn, in a round and in a run, and that no others change.
2. **Bindings**: `Session.Moment.Reached.keeps_unwritten`.
-/

namespace ScriptMachine

/-! ## Writing -/

/-- The global that a machine writes in its next turn. -/
def Machine.stored? (m : Machine) : Option Nat :=
  if m.next? = some .setGlobal then m.frames.back?.bind fun f => operandAt? f.code (f.ip + 1) 2 else none

/-- The globals that are written in an execution, in order. -/
def Exec.stores (stop : Nat) : Nat → State → List Nat
  | 0, _ => []
  | fuel + 1, s =>
    if s.machine.frames.size ≤ stop then []
    else s.machine.stored?.toList ++ match advanceCatching.run s with
      | .ok .next t => stores stop fuel t
      | _ => []

/-- The globals that a task writes in a turn. -/
def Task.stores (fuel : Nat) (t : Task) (w : World) : List Nat :=
  match t.phase with
  | .active run => Exec.stores run.stop fuel ⟨w, t.machine⟩
  | _ => []

namespace TaskSystem

/-- The globals that are written in one turn for each task of a list. -/
def turnStores (w : World) : List Task → List Nat
  | [] => []
  | t :: ts =>
    if t.canMove w.heap then t.stores quantum w ++ turnStores (t.turn quantum w).2 ts else turnStores w ts

/-- The globals that are written in one round. -/
def roundStores (s : TaskSystem) : List Nat := turnStores s.adopt.world s.adopt.tasks.toList

/-- The globals that are written while a run of `m` is carried to its end. -/
def finishStores : Nat → TaskSystem → Machine → Progress → List Nat
  | 0, _, _, _ => []
  | _ + 1, _, _, .ended _ => []
  | fuel + 1, s, m, .running run =>
    Exec.stores run.stop quantum ⟨s.world, m⟩ ++ match run.proceed quantum ⟨s.world, m⟩ with
      | (.ended _, _) => []
      | (progress, ⟨world, m⟩) =>
        roundStores { s with world } ++ finishStores fuel { s with world }.round m progress
  | fuel + 1, s, m, .blocked run =>
    if m.canMove s.world.heap then
      Exec.stores run.stop quantum ⟨s.world, m⟩ ++ match run.proceed quantum ⟨s.world, m⟩ with
        | (.ended _, _) => []
        | (progress, ⟨world, m⟩) =>
          roundStores { s with world } ++ finishStores fuel { s with world }.round m progress
    else if s.adopt.canMove then roundStores s.adopt ++ finishStores fuel s.adopt.round m (.blocked run)
    else []

/-- The globals that are written while a machine runs its top-level block. -/
def blockStores (fuel : Nat) (s : TaskSystem) (m : Machine) : List Nat :=
  match Run.startBlock ⟨s.world, m⟩ with
  | (progress, ⟨world, m⟩) => finishStores fuel { s with world } m progress

end TaskSystem

/-- The globals that are written while a unit runs. -/
def Session.stores (fuel : Nat) (s : Session) (p : Program) : List Nat :=
  match s.compiler.attempt p with
  | (.error _, _) => []
  | (.ok unit, compiler) =>
    match ({ s with compiler } : Session).machine (.main unit.code unit.debug) with
    | (m, s) => s.system.blockStores fuel m

namespace Exec

variable {k : Nat} {v : Value}

/-- The next operand of two bytes is not `k`. -/
def Elsewhere (k : Nat) (s : State) : Prop :=
  ∀ f, s.machine.frames.back? = some f → operandAt? f.code f.ip 2 ≠ some k

theorem Leaves.triple {α : Type} {I J : State → Prop} {x : Exec α} (h : Leaves I x) (hJ : ∀ s, J s → I s) :
    Triple J x (fun _ t => I t) fun _ t => I t := Triple.mono h hJ (fun _ _ ht => ht.1) fun _ _ ht => ht.1

theorem triple_topFrame {I : State → Prop} :
    Triple I currentFrame (fun f s => I s ∧ s.machine.frames.back? = some f) fun _ s => I s := by
  refine Triple.withMachine fun m => ?_
  split
  · next f hf => exact triple_pure fun s hs => ⟨hs.1, hs.2 ▸ hf⟩
  · exact triple_defect fun s hs => hs.1

/-- Another global is written. -/
theorem triple_setGlobal : Triple (fun s => s.HasGlobal k v ∧ Elsewhere k s) setGlobal (fun _ t => t.HasGlobal k v)
    fun _ t => t.HasGlobal k v := by
  have hoperand : Triple (fun s => s.HasGlobal k v ∧ Elsewhere k s) (operand 2) (fun n t => t.HasGlobal k v ∧ n ≠ k)
      fun _ t => t.HasGlobal k v := by
    refine Triple.bind (triple_topFrame.mono (fun _ hs => hs) (fun _ _ hs => hs) fun _ _ hs => hs.1) fun f => ?_
    split
    · next n hn =>
      refine Triple.assume (p := n ≠ k) (fun s hs heq => ?_) fun hne => ?_
      · exact hs.1.2 f hs.2 (heq ▸ hn)
      · have hmove : Leaves (State.HasGlobal k v) (modifyFrame fun g => { g with ip := g.ip + 2 }) :=
          leaves_modifyFrame _
        refine Triple.bind (Q := fun _ t => t.HasGlobal k v) ?_ fun _ => triple_pure fun _ ht => ⟨ht, hne⟩
        exact hmove.triple fun _ hs => hs.1.1
    · exact triple_defect fun s hs => hs.1.1
  refine Triple.bind hoperand fun n => Triple.assume (p := n ≠ k) (fun _ hs => hs.2) fun hne => ?_
  refine Triple.bind (Q := fun _ t => t.HasGlobal k v) ?_ fun w => triple_modify fun s hs => ?_
  · have hpeek : Leaves (State.HasGlobal k v) peek := leaves_peek
    exact hpeek.triple fun _ hs => hs.1
  · exact (Globals.get_set_of_ne _ hne w).trans hs

/-- An instruction that does not write the global leaves it alone, even if it fails. -/
theorem triple_step : Triple (fun s => s.HasGlobal k v ∧ s.machine.waiting = none ∧ s.machine.stored? ≠ some k) step
    (fun _ t => t.HasGlobal k v) fun _ t => t.HasGlobal k v := by
  refine Triple.bind (triple_topFrame.mono (fun _ hs => hs) (fun _ _ hs => hs) fun _ _ hs => hs.1) fun f => ?_
  dsimp only
  split
  · exact triple_pure fun s hs => hs.1.1
  · next byte hbyte =>
    -- what is written is not `k`, seen from behind the opcode
    have hbegin : Triple (fun s => (s.HasGlobal k v ∧ s.machine.waiting = none ∧ s.machine.stored? ≠ some k) ∧
          s.machine.frames.back? = some f) (modifyFrame fun g => { g with ip := f.ip + 1 })
        (fun _ t => t.HasGlobal k v ∧ (Opcode.dispatch byte = some .setGlobal → Elsewhere k t))
        fun _ t => t.HasGlobal k v := by
      refine triple_modifyMachine fun s ⟨⟨hs, hw, hstored⟩, hf⟩ => ⟨hs, fun hop g hg heq => hstored ?_⟩
      obtain ⟨fs, hframes⟩ := Array.back?_eq_some_iff.mp hf
      have hg : (s.machine.frames.modify (s.machine.frames.size - 1) fun g => { g with ip := f.ip + 1 }).back? =
          some g := hg
      rw [hframes, modify_push, Array.back?_push] at hg
      obtain rfl := Option.some.inj hg
      have hnext : s.machine.next? = some .setGlobal := by
        unfold Machine.next?
        rw [hw, hf, Option.bind_some, hbyte, Option.bind_some, hop]
      unfold Machine.stored?
      rw [if_pos hnext, hf]
      exact heq
    generalize Opcode.dispatch byte = op? at hbegin ⊢
    refine Triple.bind hbegin fun _ => Triple.bind
      (Q := fun _ t => t.HasGlobal k v ∧ (op? = some .setGlobal → Elsewhere k t)) ?_ fun _ => ?_
    · exact triple_modifyMachine fun s hs => hs
    cases op? with
    | none => exact triple_raise fun s hs => hs.1
    | some op =>
      by_cases hset : op = .setGlobal
      · subst hset
        exact Triple.bind (triple_setGlobal.pre fun s hs => ⟨hs.1, hs.2 rfl⟩) fun _ => triple_pure fun _ ht => ht
      · have hleaves : Leaves (State.HasGlobal k v) (perform op) := leaves_perform_global hset
        exact hleaves.triple fun _ hs => hs.1

/-- A turn in which the global is not written leaves it alone. -/
theorem triple_turn : Triple (fun s => s.HasGlobal k v ∧ s.machine.stored? ≠ some k) advanceCatching
    (fun _ t => t.HasGlobal k v) fun _ t => t.HasGlobal k v := by
  refine @Triple.handle _ _ _ _ _ (fun _ t => t.HasGlobal k v) _ (Triple.withMachine fun m => ?_) fun e => ?_
  · split
    · next w _ =>
      have hpoll : Leaves (State.HasGlobal k v) (poll w) := leaves_poll w
      exact hpoll.triple fun _ hs => hs.1.1
    · next hw => exact triple_step.pre fun s hs => ⟨hs.1.1, hs.2 ▸ hw, hs.1.2⟩
  · cases e with
    | crash message => exact triple_throw fun _ hs => hs
    | fault f =>
      have hcatch := leaves_catching (I := State.HasGlobal k v) f
      exact hcatch.triple fun _ hs => hs

/-- What is not written in an execution stays. -/
theorem execute_unwritten {stop fuel : Nat} {s : State} (hs : s.HasGlobal k v) (hk : k ∉ stores stop fuel s) :
    (execute stop fuel s).2.HasGlobal k v := by
  induction fuel generalizing s with
  | zero => exact hs
  | succ fuel ih =>
    unfold stores at hk
    unfold execute
    split
    · exact hs
    · next hframes =>
      rw [if_neg hframes, List.mem_append, not_or] at hk
      obtain ⟨hturn, hrest⟩ := hk
      have hstored : s.machine.stored? ≠ some k := by simpa using hturn
      cases hrun : advanceCatching.run s with
      | ok signal t =>
        have ht : t.HasGlobal k v := triple_turn.ok ⟨hs, hstored⟩ hrun
        rw [hrun] at hrest
        cases signal with
        | next => exact ih ht hrest
        | halt | blocked => exact ht
      | error e t => exact triple_turn.error ⟨hs, hstored⟩ hrun

end Exec

section

variable {k : Nat} {v : Value}

theorem Run.proceed_unwritten {run : Run} {fuel : Nat} {s : State} (hs : s.HasGlobal k v)
    (hk : k ∉ Exec.stores run.stop fuel s) : (run.proceed fuel s).2.HasGlobal k v :=
  proceed_of_execute fuel run (Exec.execute_unwritten hs hk)

theorem Task.turn_unwritten {t : Task} {fuel : Nat} {w : World} (hw : Globals.get w.globals k = v)
    (hk : k ∉ t.stores fuel w) : Globals.get (t.turn fuel w).2.globals k = v := by
  have hs : State.HasGlobal k v ⟨w, t.machine⟩ := hw
  suffices State.HasGlobal k v ⟨(t.turn fuel w).2, (t.turn fuel w).1.machine⟩ from this
  unfold Task.stores at hk
  unfold Task.turn
  split
  · exact settle_given (Run.startCall_given _ _ hs)
  · next run hphase =>
    rw [hphase] at hk
    exact settle_given (Run.proceed_unwritten hs hk)
  · exact deliver_given _ hs
  · exact hs

namespace TaskSystem

theorem adopt_globals (s : TaskSystem) : s.adopt.world.globals = s.world.globals := by
  unfold adopt
  split <;> rfl

theorem turns_unwritten {w : World} {ts : List Task} (kept : Array Task) (hw : Globals.get w.globals k = v)
    (hk : k ∉ turnStores w ts) : Globals.get (turns w ts kept).2.globals k = v := by
  induction ts generalizing w kept with
  | nil => exact hw
  | cons t ts ih =>
    unfold turnStores at hk
    unfold turns
    split at hk
    · next hmove =>
      rw [if_pos hmove]
      rw [List.mem_append, not_or] at hk
      exact ih _ (Task.turn_unwritten hw hk.1) hk.2
    · next hwait =>
      rw [if_neg hwait]
      exact ih _ hw hk

theorem round_unwritten {s : TaskSystem} (hs : Globals.get s.world.globals k = v) (hk : k ∉ s.roundStores) :
    Globals.get s.round.world.globals k = v := by
  unfold round
  dsimp only
  rw [adopt_globals]
  refine turns_unwritten #[] ?_ hk
  rw [adopt_globals]
  exact hs

theorem finish_unwritten {fuel : Nat} {s : TaskSystem} {m : Machine} {progress : Progress}
    (hs : Globals.get s.world.globals k = v) (hk : k ∉ finishStores fuel s m progress) :
    Globals.get (s.finish fuel m progress).2.1.world.globals k = v := by
  induction fuel generalizing s m progress with
  | zero => exact hs
  | succ fuel ih =>
    -- what comes after a turn of the run
    have hafter (run : Run) (hk : k ∉ Exec.stores run.stop quantum ⟨s.world, m⟩ ++
        match run.proceed quantum ⟨s.world, m⟩ with
        | (.ended _, _) => []
        | (progress, ⟨world, m⟩) =>
          roundStores { s with world } ++ finishStores fuel { s with world }.round m progress) :
        Globals.get (s.afterTurn fuel (run.proceed quantum ⟨s.world, m⟩)).2.1.world.globals k = v := by
      rw [List.mem_append, not_or] at hk
      have hturn : State.HasGlobal k v (run.proceed quantum ⟨s.world, m⟩).2 :=
        Run.proceed_unwritten (s := ⟨s.world, m⟩) hs hk.1
      have hrest := hk.2
      generalize run.proceed quantum ⟨s.world, m⟩ = r at hturn hrest
      obtain ⟨progress, world, m'⟩ := r
      cases progress with
      | ended result =>
        show Globals.get (adopt { s with world }).world.globals k = v
        rw [adopt_globals]
        exact hturn
      | blocked run | running run =>
        rw [List.mem_append, not_or] at hrest
        exact ih (round_unwritten hturn hrest.1) hrest.2
    cases progress with
    | ended r =>
      show Globals.get s.adopt.world.globals k = v
      rw [adopt_globals]
      exact hs
    | running run =>
      rw [finish_running]
      exact hafter run hk
    | blocked run =>
      rw [finish_blocked]
      unfold finishStores at hk
      have hadopt : Globals.get s.adopt.world.globals k = v := by
        rw [adopt_globals]
        exact hs
      split at hk
      · next hmove =>
        rw [if_pos hmove]
        exact hafter run hk
      · next hwait =>
        rw [if_neg hwait]
        split at hk
        · next hothers =>
          rw [if_pos hothers]
          rw [List.mem_append, not_or] at hk
          exact ih (round_unwritten hadopt hk.1) hk.2
        · next hothers =>
          rw [if_neg hothers]
          exact hadopt

theorem runBlock_unwritten {fuel : Nat} {s : TaskSystem} {m : Machine} (hs : Globals.get s.world.globals k = v)
    (hk : k ∉ s.blockStores fuel m) : Globals.get (s.runBlock fuel m).2.1.world.globals k = v := by
  have hstart : State.HasGlobal k v (Run.startBlock ⟨s.world, m⟩).2 := Run.startBlock_given (s := ⟨s.world, m⟩) hs
  unfold blockStores at hk
  unfold runBlock
  generalize Run.startBlock ⟨s.world, m⟩ = r at hstart hk
  obtain ⟨progress, world, m'⟩ := r
  exact finish_unwritten (s := { s with world }) hstart hk

end TaskSystem

end

/-! ## Bindings -/

/-- An accepted unit leaves a name bound as it is, if the name stands for a global or the unit does not declare it. -/
theorem Compiler.binds_of_attempt {c c' : Compiler} {p : Program} {unit : UnitCode} {b : NameSlot}
    (hattempt : c.attempt p = (.ok unit, c')) (hc : c.symbols.Binds b 0)
    (hname : b.storage = .global ∨ ∀ d ∈ Stmt.declaredAll (c.statements p), d.1 ≠ b.name) : c'.symbols.Binds b 0 := by
  obtain ⟨σ, pool, hstmts, -, -, rfl⟩ := compile_ok (compile_of_attempt hattempt)
  exact CompileM.keepsBinding_stmts hname c.start () σ hstmts hc

namespace Session

variable {k : Nat} {s : Session} {p : Program} {fuel : Nat}

/-- A global that is not written while a unit runs has the value that it had before, however the unit ends. -/
theorem run_unwritten (hk : k ∉ s.stores fuel p) :
    Globals.get (s.run fuel p).2.globals k = Globals.get s.globals k := by
  unfold stores at hk
  unfold run
  generalize s.compiler.attempt p = attempt at hk ⊢
  obtain ⟨_ | unit, compiler⟩ := attempt
  · rfl
  · exact TaskSystem.runBlock_unwritten rfl hk

theorem run_registry : (s.run fuel p).2.registry = s.registry := by
  unfold run
  generalize s.compiler.attempt p = attempt
  obtain ⟨_ | unit, compiler⟩ := attempt <;> rfl

/-- A unit that is refused leaves all names as they were. -/
theorem run_binds {b : NameSlot} (hs : s.compiler.symbols.Binds b 0)
    (hname : b.storage = .global ∨ ∀ d ∈ Stmt.declaredAll (s.compiler.statements p), d.1 ≠ b.name) :
    (s.run fuel p).2.compiler.symbols.Binds b 0 := by
  unfold run
  rcases hattempt : s.compiler.attempt p with ⟨_ | unit, compiler⟩
  · have hsymbols : compiler.symbols = s.compiler.symbols := by
      unfold Compiler.attempt at hattempt
      split at hattempt
      · cases hattempt
      · cases hattempt
        rfl
    rw [← hsymbols] at hs
    exact hs
  · exact Compiler.binds_of_attempt hattempt hs hname

namespace Moment

/-- A unit leaves earlier bindings intact, however it ends. A name keeps its slot, if it stands for a global or the unit
does not declare it, and its value, if the slot is not written while the unit runs: for the host, and for later units
as far as an instruction can address the slot. -/
theorem Reached.keeps_unwritten {host : Host} {σ : Settings} (h : Reached host σ (idle s)) {name : String} {x : Symbol}
    (hx : s.compiler.symbols.lookup? name = some x)
    (hname : x.storage = .global ∨ ∀ d ∈ Stmt.declaredAll (s.compiler.statements p), d.1 ≠ name)
    (hunwritten : x.storage = .global → x.index ∉ s.stores fuel p) :
    (∃ y, (s.run fuel p).2.compiler.symbols.lookup? name = some y ∧ y.storage = x.storage ∧ y.index = x.index) ∧
      (s.run fuel p).2.get? name = s.get? name ∧
      (1 ≤ σ.stackSize → 1 ≤ σ.maxFrames → s.Addresses name → ∀ v, s.get? name = some v →
        ∀ fuel' span span', ((s.run fuel p).2.run (fuel' + 1) (.read name span span')).1 = .ok v) := by
  have hsound : s.Sound := h.sound
  have hglobal : s.compiler.symbols.outer = [] := List.isEmpty_iff.mp hsound.compiler.isGlobal
  have hlookup (t : SymbolTable) (ht : t.outer = []) : t.outermost.store[name]? = t.lookup? name := by
    unfold SymbolTable.outermost
    rw [ht]
    rfl
  have hbinds : s.compiler.symbols.Binds ⟨name, x.storage, x.index⟩ 0 :=
    ⟨congrArg List.length hglobal, x, (hlookup _ hglobal).trans hx, rfl, rfl⟩
  -- the name keeps its slot
  have hafter : (s.run fuel p).2.compiler.symbols.Binds ⟨name, x.storage, x.index⟩ 0 := run_binds hbinds hname
  obtain ⟨y, hy, hst, hindex⟩ := hafter.bound
  rw [hlookup _ (List.eq_nil_of_length_eq_zero hafter.depth)] at hy
  -- and the slot its value
  have hget : (s.run fuel p).2.get? name = s.get? name := by
    unfold get?
    simp only [hx, hy, Option.bind_eq_bind, Option.bind_some, hst, hindex, run_registry]
    cases hkind : x.storage with
    | global => exact congrArg some (run_unwritten (hunwritten hkind))
    | _ => rfl
  refine ⟨⟨y, hy, hst, hindex⟩, hget, fun hstack hframes haddresses v hv fuel' span span' => ?_⟩
  have hlater : Reached host σ (idle (s.run fuel p).2) := h.trans (steps_run fuel s p)
  have hsettings : (s.run fuel p).2.settings = σ := hlater.settings
  refine hlater.sound.run_read_of_get? (hget.trans hv) ?_ (hsettings ▸ hstack) (hsettings ▸ hframes) fuel' span span'
  intro z hz hkind
  have hz : y = z := Option.some.inj (hy.symm.trans hz)
  rw [← hz, hindex]
  exact haddresses x hx (hst.symm.trans (hz ▸ hkind))

end Moment

end Session

/-! ## A declaration that is not reached -/

/-- `throw null; let x = false` -/
def throwFirst : Program := ⟨[Build.throw Build.null, Build.bind "x" (Build.boolean false)]⟩

namespace throwFirst

/-- A session whose host has bound `x`. -/
def session : Session := (Session.new { stackSize := 2, optimize := false }).set "x" (.int 5)

theorem reached : Session.Moment.Reached .any { stackSize := 2, optimize := false } (.idle session) :=
  .single (.set _ _ _ trivial)

end throwFirst

/-- A global is declared once more, with the value on top of the stack. -/
def CompileState.redeclared (σ : CompileState) (name : String) (slot : Nat) (span : Span) : CompileState :=
  (({ σ with symbols := ⟨σ.symbols.current.insert ⟨name, .global, slot, false⟩, σ.symbols.outer⟩
    }.emit .setGlobal [slot] span).emit .pop [] span)

open CompileM in
theorem CompileM.stmt_again {σ σ₁ : CompileState} {value : Expr} {name : String} {old : Symbol} (s span : Span)
    (hvalue : expr [] value σ = .ok () σ₁) (hform : ∀ f, value ≠ .function f) (hglobal : σ₁.symbols.isGlobal = true)
    (hold : σ₁.symbols.lookup? name = some old) (hst : old.storage = .global) (hroom : old.index < maxGlobals) :
    stmt [] (.bind ⟨name, s⟩ value false span) σ = .ok () (σ₁.redeclared name old.index span) := by
  have hdefine := @define_global σ₁ ⟨name, .global, old.index, false⟩
    ⟨σ₁.symbols.current.insert ⟨name, .global, old.index, false⟩, σ₁.symbols.outer⟩ name false s
    (by
      unfold SymbolTable.define
      rw [hglobal, if_pos rfl, Scope.define_of_bound hold hst]) rfl hroom
  rw [stmt]
  · exact (bind_eq hvalue).trans ((bind_eq hdefine).trans rfl)
  · exact hform

namespace throwFirst

/-- The instructions of the unit, where `x` has the slot `k`. -/
def code (k : Nat) : List Emitted :=
  [⟨.null, [], .dummy⟩, ⟨.throw, [], .dummy⟩, ⟨.pushFalse, [], .dummy⟩, ⟨.setGlobal, [k], .dummy⟩, ⟨.pop, [], .dummy⟩,
    ⟨.halt, [], .dummy⟩]

open CompileM in
theorem attempt {c : Compiler} {old : Symbol} (hoptimizer : (c.optimizer.run throwFirst).1 = throwFirst)
    (hglobal : c.symbols.isGlobal = true) (hold : c.symbols.lookup? "x" = some old) (hst : old.storage = .global)
    (hroom : old.index < maxGlobals) :
    ∃ (c' : Compiler) (block : CodeBlock),
      c.attempt throwFirst = (.ok ⟨block.code, block.debug⟩, c') ∧ block.items.toList = code old.index := by
  let σ₁ : CompileState := (c.start.emit .null [] .dummy).emit .throw [] .dummy
  let σ₂ : CompileState := σ₁.emit .pushFalse [] .dummy
  have hthrow : stmt [] (Build.throw Build.null) c.start = .ok () σ₁ := by
    rw [Build.throw, Build.null, stmt, expr]
    rfl
  have hfalse : expr [] (Build.boolean false) σ₁ = .ok () σ₂ := by
    rw [Build.boolean, expr]
    rfl
  have hbind := stmt_again .dummy .dummy hfalse (by simp [Build.boolean]) hglobal hold hst hroom
  let σ : CompileState := σ₂.redeclared "x" old.index .dummy
  have hstmts : stmts [] throwFirst.statements c.start = .ok () σ := by
    rw [throwFirst, stmts, stmts, stmts]
    exact (bind_eq hthrow).trans (bind_eq hbind)
  have hlink : linkClasses c.pool.size σ = .ok () σ := by
    have hpool : σ.pool = c.pool := rfl
    rw [linkClasses_eq, hpool, Pool.link_self]
    rfl
  have hunit : CompileM.unit c.pool.size throwFirst.statements c.start =
      .ok (σ.emit .halt [] .dummy).function.block (σ.emit .halt [] .dummy) :=
    (bind_eq hstmts).trans ((bind_eq hlink).trans rfl)
  refine ⟨c.keep (σ.emit .halt [] .dummy), (σ.emit .halt [] .dummy).function.block, ?_, rfl⟩
  unfold Compiler.attempt EStateM.run
  rw [hoptimizer, hunit]

/-- The machine of the unit at its first instruction. -/
def machine (constants : Array Value) (main : Closure) (registry : Registry) (σ : Settings) : Machine :=
  { Machine.new constants main registry σ with frames := #[.enter main 0 .function] }

/-- The machine pushes null and throws it. Nothing is written. -/
theorem runs (constants : Array Value) {main : Closure} (registry : Registry) {σ : Settings} {k : Nat} (w : World)
    (hcode : main.function.HasAt 0 (code k)) (hstack : 1 ≤ σ.stackSize) :
    Exec.stores 0 512 ⟨w, machine constants main registry σ⟩ = [] ∧
      ∃ f t, Exec.execute 0 512 ⟨w, machine constants main registry σ⟩ = (.finished (.error (.fault f)), t) := by
  let m := machine constants main registry σ
  let m₁ : Machine := { m with
    frames := #[].push ⟨main, 1, 0, .function, #[]⟩, stack := m.stack.setIfInBounds 0 .null, sp := 1 }
  let m₂ : Machine := { m₁ with frames := #[].push ⟨main, 2, 0, .function, #[]⟩, opOffset := 1 }
  let m₃ : Machine := { m₂ with stack := m₂.stack.setIfInBounds 0 .null, sp := 0 }
  have hnull : main.function.code[0]? = some Opcode.null.toByte := hcode.head.byte
  have hthrow : main.function.code[1]? = some Opcode.throw.toByte := hcode.tail.head.byte
  have hroom : m.sp < m.stack.size := by
    show 0 < (Array.replicate σ.stackSize Value.null).size
    rwa [Array.size_replicate]
  -- null is pushed
  have hfirst : Exec.advance ⟨w, m⟩ = .ok .next ⟨w, m₁⟩ := by
    have hframes : m.frames = #[].push (.enter main 0 .function) := rfl
    refine (@Exec.advance_eq ⟨w, m⟩ _ _ .null hframes rfl hnull).trans ?_
    exact (Exec.bind_eq (Exec.push_eq hroom .null)).trans rfl
  -- and thrown
  have hpop : Exec.pop ⟨w, m₂⟩ = .ok .null ⟨w, m₃⟩ :=
    Exec.pop_eq (s := ⟨w, m₂⟩) Nat.one_ne_zero (Array.getElem?_setIfInBounds_self_of_lt hroom)
  have hraise : Exec.perform .throw ⟨w, m₂⟩ = .error (.fault ((Cause.uncaught .null).placed m₃.span)) ⟨w, m₃⟩ := by
    show (do Exec.throwValue (← Exec.pop); return Signal.next : Exec Signal) ⟨w, m₂⟩ = _
    exact (Exec.bind_eq hpop).trans rfl
  have hadvance : Exec.advance ⟨w, m₁⟩ = .error (.fault ((Cause.uncaught .null).placed m₃.span)) ⟨w, m₃⟩ := by
    have hframes : m₁.frames = #[].push ⟨main, 1, 0, .function, #[]⟩ := rfl
    exact (@Exec.advance_eq ⟨w, m₁⟩ _ _ .throw hframes rfl hthrow).trans hraise
  have hsecond : Exec.advanceCatching.run ⟨w, m₁⟩ = .error (.fault ((Cause.uncaught .null).placed m₃.span)) ⟨w, m₃⟩ := by
    show tryCatch Exec.advance _ (⟨w, m₁⟩ : State) = _
    rw [Exec.tryCatch_apply, hadvance]
    rfl
  have hstored : m.stored? = none ∧ m₁.stored? = none := by
    constructor
    · show (if ((main.function.code[0]?).bind Opcode.dispatch) = some .setGlobal then _ else none) = none
      rw [hnull, Option.bind_some, Exec.dispatch_toByte]
      exact if_neg nofun
    · show (if ((main.function.code[1]?).bind Opcode.dispatch) = some .setGlobal then _ else none) = none
      rw [hthrow, Option.bind_some, Exec.dispatch_toByte]
      exact if_neg nofun
  have hsize : ¬ m.frames.size ≤ 0 ∧ ¬ m₁.frames.size ≤ 0 := ⟨Nat.not_succ_le_zero 0, Nat.not_succ_le_zero 0⟩
  have hcatch := Exec.advanceCatching_eq hfirst
  constructor
  · rw [show (512 : Nat) = 510 + 2 from rfl, Exec.stores, if_neg hsize.1, hstored.1, hcatch]
    dsimp only
    rw [Exec.stores, if_neg hsize.2, hstored.2, hsecond]
    rfl
  · refine ⟨(Cause.uncaught .null).placed m₃.span, ⟨w, m₃⟩, ?_⟩
    rw [show (512 : Nat) = 511 + 1 from rfl, Exec.execute_next (s := ⟨w, m⟩) Nat.one_pos hfirst, Exec.execute,
      if_neg hsize.2, hsecond]

/-- The unit fails, and it writes nothing. -/
theorem fails (s : Session) {old : Symbol} (hoptimizer : (s.compiler.optimizer.run throwFirst).1 = throwFirst)
    (hglobal : s.compiler.symbols.isGlobal = true) (hold : s.compiler.symbols.lookup? "x" = some old)
    (hst : old.storage = .global) (hroom : old.index < CompileM.maxGlobals) (hstack : 1 ≤ s.settings.stackSize)
    (hframes : 1 ≤ s.settings.maxFrames) :
    s.stores 1 throwFirst = [] ∧ ∃ f, (s.run 1 throwFirst).1 = .error (.fault f) := by
  obtain ⟨c', block, hattempt, hblock⟩ := attempt hoptimizer hglobal hold hst hroom
  let made := ({ s with compiler := c' } : Session).machine (.main block.code block.debug)
  have hcode : made.1.main.function.HasAt 0 (code old.index) := by
    have hitems : block.items.toList = [] ++ code old.index ++ [] := hblock
    refine CodeBlock.hasAt_toFunction hitems fun i hi => ?_
    simp only [code, List.nil_append, List.mem_cons, List.not_mem_nil, or_false] at hi
    rcases hi with rfl | rfl | rfl | rfl | rfl | rfl <;> rfl
  have hlocals : made.1.main.function.locals = 0 := rfl
  have hstart := Run.startBlock_new made.2.system.world made.1.constants s.registry hlocals hframes
  obtain ⟨hstores, f, t, hexecute⟩ := runs made.1.constants s.registry made.2.system.world hcode hstack
  obtain ⟨t', hproceed⟩ : ∃ t', Run.proceed TaskSystem.quantum .block
      ⟨made.2.system.world, machine made.1.constants made.1.main s.registry s.settings⟩ =
        (.ended (.error (.fault f)), t') := by
    obtain ⟨m', hend, -⟩ := Run.endBlock_eq (.error (.fault f)) t
    refine ⟨⟨t.world, m'⟩, ?_⟩
    unfold Run.proceed
    dsimp only
    rw [show TaskSystem.quantum = 512 from rfl, hexecute]
    exact hend
  -- the run is over after its first round
  have hrun : made.2.system.runBlock 1 made.1 =
      (.finished (.error (.fault f)), TaskSystem.adopt { made.2.system with world := t'.world }, t'.machine) := by
    unfold TaskSystem.runBlock
    rw [show Run.startBlock ⟨made.2.system.world, made.1⟩ = _ from hstart]
    show TaskSystem.afterTurn 0 made.2.system (Run.proceed TaskSystem.quantum .block
      ⟨made.2.system.world, machine made.1.constants made.1.main s.registry s.settings⟩) = _
    rw [hproceed]
    rfl
  constructor
  · unfold Session.stores
    rw [hattempt]
    show TaskSystem.blockStores 1 made.2.system made.1 = []
    unfold TaskSystem.blockStores
    rw [show Run.startBlock ⟨made.2.system.world, made.1⟩ = _ from hstart]
    show Exec.stores 0 512 _ ++ (match Run.proceed TaskSystem.quantum .block
      ⟨made.2.system.world, machine made.1.constants made.1.main s.registry s.settings⟩ with
      | (.ended _, _) => []
      | (progress, ⟨world, m⟩) => _) = []
    rw [hproceed]
    exact (List.append_nil _).trans hstores
  · refine ⟨f, ?_⟩
    rw [Session.run_eq (m := made.1) (t := made.2) hattempt rfl hrun]
    rfl

end throwFirst

open throwFirst in
/-- The variable is declared once more by a unit that fails before it comes to the declaration. -/
theorem throwFirst_keeps_unwritten : Session.Moment.Reached .any { stackSize := 2, optimize := false } (.idle session) ∧
    (∃ f, (session.run 1 throwFirst).1 = .error (.fault f)) ∧ session.get? "x" = some (.int 5) ∧
    (session.run 1 throwFirst).2.get? "x" = some (.int 5) := by
  let σ : Settings := { stackSize := 2, optimize := false }
  have hsound : session.Sound := reached.sound
  have hget : session.get? "x" = some (.int 5) := (Session.sound_new σ).get?_set_self "x" (.int 5)
  obtain ⟨x, hx, hst, -⟩ := (Session.sound_new σ).set_eq "x" (.int 5)
  have hroom : x.index < CompileM.maxGlobals := by
    have hslot := hsound.apart.defined "x" x hx hst
    have hfew := Session.definitions_set (.new σ) "x" (.int 5)
    have hnone : (Session.new σ).compiler.symbols.current.definitions = 0 := rfl
    have hmax : 1 < CompileM.maxGlobals := by decide
    have hslot : x.index < ((Session.new σ).set "x" (.int 5)).compiler.symbols.current.definitions := hslot
    omega
  obtain ⟨hstores, hfails⟩ := fails session rfl hsound.compiler.isGlobal hx hst hroom (by decide) (by decide)
  have hunwritten : x.storage = .global → x.index ∉ session.stores 1 throwFirst := by
    intro _
    rw [hstores]
    exact List.not_mem_nil
  have hkeeps := Session.Moment.Reached.keeps_unwritten reached hx (.inl hst) hunwritten
  exact ⟨reached, hfails, hget, hkeeps.2.1.trans hget⟩

end ScriptMachine
