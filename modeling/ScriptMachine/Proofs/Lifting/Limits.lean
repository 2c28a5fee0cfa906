import ScriptMachine.Proofs.Frames.Program
import ScriptMachine.Proofs.Lifting.Run
import ScriptMachine.Proofs.Session.Names
import ScriptMachine.Proofs.Session.Tables

/-!
# Larger limits

The limits of a session decide whether a run overflows, and nothing else. Where a unit ends without an overflow, it
ends the same way if the stack has more slots or more frames are allowed, with the same value or the same fault at the
same span, and it leaves the same session (`Session.run_with_larger_limits`).

The machine with the larger limits is a lifted one, with no frames below its own. As long as no tasks are started the
rounds change nothing, and so both sessions go abreast (`Run.Abreast`).
-/

namespace ScriptMachine

/-! ## Turns of a run -/

/-- The limits are no larger. -/
structure Settings.Within (σ τ : Settings) : Prop where
  stackSize : σ.stackSize ≤ τ.stackSize
  maxFrames : σ.maxFrames ≤ τ.maxFrames

/-- A run of a block on one machine has come as far as that on another one, which has as much room. -/
structure Run.Abreast (r r' : Progress × State) : Prop where
  progress : r'.1 = r.1
  world : r.2.world.Alike r'.2.world
  lastPopped : r'.2.machine.lastPopped = r.2.machine.lastPopped
  going : ∀ run, r.1.run? = some run → run = .block ∧ r.2.Lifted #[] r'.2 ∧ r.2.Ordered

/-- The run has ended because the machine ran out of room, or it has crashed. -/
def Progress.Excused : Progress → Prop
  | .ended (.error e) => e.Excused
  | _ => False

theorem Machine.lifted_new (constants : Array Value) (main : Closure) (registry : Registry) {σ τ : Settings}
    (h : σ.Within τ) : (Machine.new constants main registry σ).Lifted #[] (.new constants main registry τ) where
  stack := by
    refine ⟨τ.stackSize - σ.stackSize, ?_⟩
    show Array.replicate τ.stackSize Value.null = _
    rw [Machine.new, Array.replicate_append_replicate, Nat.add_sub_cancel' h.stackSize]
  sp := rfl
  frames := rfl
  handlers := rfl
  captures := rfl
  constants := rfl
  registry := rfl
  maxFrames := h.maxFrames
  lastPopped := rfl
  opOffset := rfl
  waiting := rfl
  rooms _ hf := absurd hf (Array.not_mem_empty _)
  depths _ _ _ := rfl

namespace Run

variable {s s' : State}

/-- When a block has ended the machine is emptied, and the value that was popped last is kept. -/
theorem endBlock_eq (result : Except Abort Unit) (s : State) : ∃ m,
    endBlock result s = (.ended (result.map fun _ => .null), ⟨s.world, m⟩) ∧
      m.lastPopped = s.machine.lastPopped := by
  unfold endBlock
  by_cases hsp : s.machine.sp ≤ s.machine.stack.size
  · rw [EStateM.run, Exec.reset_eq hsp]
    exact ⟨_, rfl, rfl⟩
  · let emptied : State := ⟨s.world, { s.machine with frames := #[], handlers := [], captures := #[] }⟩
    have hreset : Exec.reset s = Exec.noSlots 0 s.machine.sp emptied := by
      show (if _ then _ else _ : Exec Unit) emptied = _
      rw [if_pos]
      simp only [Bool.and_eq_true, decide_eq_true_eq]
      show 0 < s.machine.sp ∧ s.machine.stack.size < s.machine.sp
      omega
    rw [EStateM.run, hreset]
    exact ⟨_, rfl, rfl⟩

theorem proceed_abreast (fuel : Nat) (hs : s.Lifted #[] s') (hordered : s.Ordered)
    (hexcused : ¬ (proceed fuel .block s).1.Excused) :
    Abreast (proceed fuel .block s) (proceed fuel .block s') := by
  unfold proceed at hexcused ⊢
  cases hrun : Exec.execute 0 fuel s with
  | mk pause t =>
    rw [hrun] at hexcused
    have hpause : ¬ pause.Excused := by
      intro hp
      cases pause with
      | finished result =>
        cases result with
        | ok _ => exact hp
        | error e =>
          rcases endBlock_eq (.error e) t with ⟨m, hend, -⟩
          dsimp only at hexcused
          rw [hend] at hexcused
          exact hexcused hp
      | blocked | outOfFuel => exact hp
    rcases Exec.execute_lifted 0 fuel hs hordered hrun hpause with ⟨t', hrun', ht, hgoes⟩
    rw [Array.size_empty, Nat.add_zero] at hrun'
    rw [hrun']
    have hgoing : pause.GoesOn → ∀ progress : Progress, (∀ run, progress.run? = some run → run = .block) →
        Abreast (progress, t) (progress, t') := by
      intro hp progress hblock
      exact ⟨rfl, ht.world, ht.machine.lastPopped, fun run hr => ⟨hblock run hr, ht, hgoes hp⟩⟩
    cases pause with
    | finished result =>
      rcases endBlock_eq result t with ⟨m, hend, hpopped⟩
      rcases endBlock_eq result t' with ⟨m', hend', hpopped'⟩
      dsimp only
      rw [hend, hend']
      refine ⟨rfl, ht.world, ?_, ?_⟩
      · rw [hpopped, hpopped', ht.machine.lastPopped]
      · intro run hrun
        cases hrun
    | blocked | outOfFuel =>
      refine hgoing trivial _ ?_
      rintro run ⟨⟩
      rfl

/-- Where no frame is allowed a block does not begin. -/
theorem startBlock_refused (w : World) (constants : Array Value) (main : Closure) (registry : Registry)
    {σ : Settings} (hframes : σ.maxFrames = 0) :
    (startBlock ⟨w, .new constants main registry σ⟩).1.Excused := by
  have hreset : Exec.reset ⟨w, .new constants main registry σ⟩ = .ok () ⟨w, .new constants main registry σ⟩ :=
    Exec.reset_eq (Nat.zero_le _)
  have hpush : Exec.pushFrame main 0 .function ⟨w, .new constants main registry σ⟩ =
      Exec.raise (.frameOverflow σ.maxFrames) ⟨w, .new constants main registry σ⟩ := by
    have hfull : (Machine.new constants main registry σ).settings.maxFrames ≤
        (Machine.new constants main registry σ).frames.size := Nat.le_of_eq hframes
    refine (Exec.bind_eq (Exec.getMachine_eq _)).trans ?_
    dsimp only
    rw [if_pos hfull]
    rfl
  have hbegin : (do Exec.reset; Exec.pushFrame (← Exec.getMachine).main 0 .function : Exec Unit)
      ⟨w, .new constants main registry σ⟩ = _ :=
    (Exec.bind_eq hreset).trans ((Exec.bind_eq (Exec.getMachine_eq _)).trans hpush)
  unfold startBlock EStateM.run
  dsimp only
  rw [hbegin]
  exact .inr ⟨σ.maxFrames, rfl⟩

theorem startBlock_abreast {w : World} {constants : Array Value} {main : Closure} {registry : Registry}
    {σ τ : Settings} (hσ : σ.Within τ) (hover : State.Over Function.IsSound ⟨w, .new constants main registry σ⟩)
    (hmain : main.function.IsSound) (hlocals : main.function.locals = 0) (hframes : 1 ≤ σ.maxFrames) :
    Abreast (startBlock ⟨w, .new constants main registry σ⟩) (startBlock ⟨w, .new constants main registry τ⟩) := by
  have hstart := startBlock_new w constants registry hlocals hframes
  have hnew := Machine.null_new constants main registry σ
  have hlaunches := State.Launches.block hover hnew.1 hnew.2 hmain hstart
  rw [hstart, startBlock_new w constants registry hlocals (Nat.le_trans hframes hσ.maxFrames)]
  refine ⟨rfl, w.alike_refl, rfl, ?_⟩
  rintro run ⟨⟩
  have hlifted := Machine.lifted_new constants main registry hσ
  refine ⟨rfl, ⟨w.alike_refl, { hlifted with frames := rfl, rooms := ?_ }⟩, hover.world, hlaunches.neat⟩
  intro f hf
  rcases List.mem_singleton.mp (Array.mem_toList_iff.mpr hf) with rfl
  show 0 + main.function.locals ≤ _
  rw [hlocals]
  exact Nat.zero_le _

end Run

/-! ## Rounds without tasks -/

namespace TaskSystem

/-- There are no tasks. -/
structure Alone (s : TaskSystem) : Prop where
  tasks : s.tasks = #[]
  spawned : s.world.spawned = #[]

variable {s t : TaskSystem}

theorem Alone.adopt_eq (h : s.Alone) : s.adopt = s := by
  unfold adopt
  rw [h.spawned]
  rfl

theorem Alone.round_eq (h : s.Alone) : s.round = s := by
  have hnone : turns s.world s.tasks.toList #[] = (s.tasks, s.world) := by
    rw [h.tasks]
    rfl
  unfold round
  rw [h.adopt_eq]
  dsimp only
  rw [hnone]
  exact h.adopt_eq

theorem Alone.not_canMove (h : s.Alone) : s.canMove = false := by
  unfold canMove
  rw [h.tasks]
  simp

/-! ## Tasks that were started -/

/-- Tasks that are taken over are counted. -/
theorem tracked_adopt (s : TaskSystem) : s.adopt.tracked = s.tracked + s.world.spawned.size := by
  unfold adopt
  split
  · next hempty =>
    rw [Array.isEmpty_iff.mp hempty]
    rfl
  · rfl

theorem tracked_round (s : TaskSystem) : s.tracked + s.world.spawned.size ≤ s.round.tracked := by
  show _ ≤ (adopt _).tracked
  rw [← tracked_adopt, tracked_adopt { s.adopt with world := _, tasks := _ }]
  exact Nat.le_add_right _ _

theorem tracked_finish (fuel : Nat) (s : TaskSystem) (m : Machine) (progress : Progress) :
    s.tracked ≤ (s.finish fuel m progress).2.1.tracked := by
  induction fuel generalizing s m progress with
  | zero => exact Nat.le_refl _
  | succ fuel ih =>
    have hadopt : ∀ s : TaskSystem, s.tracked ≤ s.adopt.tracked := by
      intro s
      rw [tracked_adopt]
      exact Nat.le_add_right _ _
    have hround : ∀ (s : TaskSystem) (m : Machine) (progress : Progress),
        s.tracked ≤ (s.round.finish fuel m progress).2.1.tracked := by
      intro s m progress
      exact Nat.le_trans (Nat.le_trans (Nat.le_add_right _ _) s.tracked_round) (ih _ _ _)
    have hafter : ∀ r : Progress × State, s.tracked ≤ (s.afterTurn fuel r).2.1.tracked := by
      rintro ⟨progress, t⟩
      cases progress with
      | ended result => exact hadopt { s with world := t.world }
      | blocked run | running run => exact hround { s with world := t.world } _ _
    cases progress with
    | ended result => exact hadopt s
    | running run => exact hafter _
    | blocked run =>
      rw [finish_blocked]
      split
      · exact hafter _
      · split
        · exact Nat.le_trans (hadopt s) (hround _ _ _)
        · exact hadopt s

/-- If no tasks were counted after a turn, none were started in it. -/
theorem Alone.of_afterTurn {fuel : Nat} {r : Progress × State} (h : s.Alone)
    (htracked : (s.afterTurn fuel r).2.1.tracked = s.tracked) : Alone { s with world := r.2.world } := by
  have hle : s.tracked + r.2.world.spawned.size ≤ (s.afterTurn fuel r).2.1.tracked := by
    rcases r with ⟨progress, t⟩
    cases progress with
    | ended result => exact Nat.le_of_eq (tracked_adopt { s with world := t.world }).symm
    | blocked run | running run =>
      exact Nat.le_trans (tracked_round { s with world := t.world }) (tracked_finish fuel _ _ _)
  refine ⟨h.tasks, Array.eq_empty_of_size_eq_zero ?_⟩
  show r.2.world.spawned.size = 0
  omega

/-! ## Two systems -/

/-- The run has not ended, or it has because the machine ran out of room or crashed. -/
def Outcome.Excused : Outcome → Prop
  | .finished (.error e) => e.Excused
  | .outOfFuel => True
  | _ => False

/-- The outcomes are the same, and so are the systems and the values popped last. -/
def Agree (r r' : Outcome × TaskSystem × Machine) : Prop :=
  r'.1 = r.1 ∧ r'.2.1 = r.2.1 ∧ r'.2.2.lastPopped = r.2.2.lastPopped

/-- Where no tasks are started two runs that are abreast end the same way. -/
theorem Alone.finish_agree (fuel : Nat) {m m' : Machine} {progress : Progress} (hs : s.Alone)
    (habreast : Run.Abreast (progress, ⟨s.world, m⟩) (progress, ⟨s.world, m'⟩))
    (htracked : (s.finish fuel m progress).2.1.tracked = s.tracked)
    (hexcused : ¬ (s.finish fuel m progress).1.Excused) :
    Agree (s.finish fuel m progress) (s.finish fuel m' progress) := by
  induction fuel generalizing m m' progress s with
  | zero => exact absurd trivial hexcused
  | succ fuel ih =>
    have hafter : ∀ r r' : Progress × State, (¬ r.1.Excused → Run.Abreast r r') →
        (s.afterTurn fuel r).2.1.tracked = s.tracked → ¬ (s.afterTurn fuel r).1.Excused →
        Agree (s.afterTurn fuel r) (s.afterTurn fuel r') := by
      rintro ⟨progress, t⟩ ⟨progress', t'⟩ hr htracked hexcused
      have halone := hs.of_afterTurn htracked
      have hr : Run.Abreast (progress, t) (progress', t') := by
        apply hr
        intro he
        cases progress with
        | ended result =>
          cases result with
          | ok v => exact he
          | error e => exact hexcused he
        | blocked run | running run => exact he
      rcases t with ⟨w, n⟩
      rcases t' with ⟨w', n'⟩
      obtain rfl : progress' = progress := hr.progress
      obtain rfl : w' = w := hr.world.eq halone.spawned
      cases progress' with
      | ended result => exact ⟨rfl, rfl, hr.lastPopped⟩
      | blocked run | running run =>
        unfold afterTurn at htracked hexcused ⊢
        dsimp only at htracked hexcused ⊢
        rw [halone.round_eq] at htracked hexcused ⊢
        exact ih halone hr htracked hexcused
    cases progress with
    | ended result => exact ⟨rfl, rfl, habreast.lastPopped⟩
    | running run =>
      rcases habreast.going run rfl with ⟨rfl, hlifted, hordered⟩
      rw [finish_running] at htracked hexcused ⊢
      exact hafter _ _ (Run.proceed_abreast quantum hlifted hordered) htracked hexcused
    | blocked run =>
      rcases habreast.going run rfl with ⟨rfl, hlifted, hordered⟩
      have hmove : m'.canMove s.world.heap = m.canMove s.world.heap := by
        unfold Machine.canMove
        rw [hlifted.machine.waiting]
      rw [finish_blocked] at htracked hexcused ⊢
      rw [finish_blocked, hmove]
      by_cases hcan : m.canMove s.world.heap = true
      · rw [if_pos hcan] at htracked hexcused
        rw [if_pos hcan, if_pos hcan]
        exact hafter _ _ (Run.proceed_abreast quantum hlifted hordered) htracked hexcused
      · have hstuck : ¬ s.adopt.canMove = true := by
          rw [hs.adopt_eq, hs.not_canMove]
          exact Bool.false_ne_true
        rw [if_neg hcan, if_neg hcan, if_neg hstuck, if_neg hstuck]
        exact ⟨rfl, rfl, habreast.lastPopped⟩

/-- A run that is over before its first turn has the outcome that it ended with. -/
theorem excused_finish (fuel : Nat) (s : TaskSystem) (m : Machine) {progress : Progress} (h : progress.Excused) :
    (s.finish fuel m progress).1.Excused := by
  cases fuel with
  | zero => trivial
  | succ fuel =>
    cases progress with
    | ended result =>
      cases result with
      | ok v => exact h.elim
      | error e => exact h
    | blocked run | running run => exact h.elim

theorem Alone.runBlock_agree (hs : s.Alone) {constants : Array Value} {main : Closure} {registry : Registry}
    {σ τ : Settings} (hσ : σ.Within τ)
    (hover : State.Over Function.IsSound ⟨s.world, .new constants main registry σ⟩)
    (hmain : main.function.IsSound) (hlocals : main.function.locals = 0) {fuel : Nat}
    (htracked : (s.runBlock fuel (.new constants main registry σ)).2.1.tracked = s.tracked)
    (hexcused : ¬ (s.runBlock fuel (.new constants main registry σ)).1.Excused) :
    Agree (s.runBlock fuel (.new constants main registry σ)) (s.runBlock fuel (.new constants main registry τ)) := by
  by_cases hframes : σ.maxFrames = 0
  · have hrefused := Run.startBlock_refused s.world constants main registry hframes
    exact absurd (excused_finish fuel _ _ hrefused) hexcused
  · have hframes : 1 ≤ σ.maxFrames := Nat.one_le_iff_ne_zero.mpr hframes
    have habreast := Run.startBlock_abreast hσ hover hmain hlocals hframes
    unfold runBlock at htracked hexcused ⊢
    rw [Run.startBlock_new s.world constants registry hlocals hframes] at habreast htracked hexcused ⊢
    rw [Run.startBlock_new s.world constants registry hlocals (Nat.le_trans hframes hσ.maxFrames)] at habreast ⊢
    exact hs.finish_agree fuel habreast htracked hexcused

end TaskSystem

/-! ## What is loaded -/

section

variable {H : Function → Prop} {p : Pool} {loaded : Array Value}

theorem Class.over_of_parent {G : Closure → Prop} {c : Class} (hown : ∀ m ∈ c.methods, G m.2)
    (hparent : ∀ k, c.parent = some k → k.Over G) : c.Over G := by
  rcases c with ⟨id, name, parentName, properties, methods, parent⟩
  cases parent with
  | none =>
    intro k hk
    rcases List.mem_singleton.mp hk with rfl
    exact hown
  | some parent =>
    intro k hk
    rcases List.mem_cons.mp hk with rfl | hk
    · exact hown
    · exact hparent parent rfl k hk

/-- Methods of a class that is loaded are functions of its constant, or they were loaded before. -/
theorem Pool.over_classAt? (hp : ∀ k ∈ p, ∀ f ∈ k.functions, H f) (hloaded : ∀ v ∈ loaded, v.Loaded H)
    {ids : Array Nat} {fuel place : Nat} {c : Class} (h : p.classAt? loaded ids fuel place = some c) :
    c.Over (Closure.Of H) := by
  induction fuel generalizing place c with
  | zero => cases h
  | succ fuel ih =>
    unfold classAt? at h
    split at h
    · split at h
      · next hv =>
        cases h
        exact (hloaded _ (Array.mem_of_getElem? hv)).1
      · cases h
    · split at h
      · next k hk =>
        cases h
        apply Class.over_of_parent
        · intro m hm
          rcases List.mem_mapIdx.mp hm with ⟨i, hi, rfl⟩
          exact hp _ (Array.mem_of_getElem? hk) _ (List.mem_map_of_mem (List.getElem_mem hi))
        · intro q hq
          rcases Option.bind_eq_some_iff.mp hq with ⟨place', -, hq⟩
          exact ih hq
      · cases h

theorem Pool.loaded_valueAt (hp : ∀ k ∈ p, ∀ f ∈ k.functions, H f) (hloaded : ∀ v ∈ loaded, v.Loaded H)
    (ids : Array Nat) (place : Nat) : (p.valueAt loaded ids place).Loaded H := by
  have plain : ∀ v : Value, v.Over (Closure.Of H) → (∀ id f, v ≠ .function id f) → v.Loaded H :=
    fun v hv hne => ⟨hv, fun id f hf => absurd hf (hne id f)⟩
  unfold valueAt
  split
  · exact plain _ trivial (by simp)
  · exact plain _ trivial (by simp)
  · exact plain _ trivial (by simp)
  · next f hf =>
    refine ⟨trivial, ?_⟩
    rintro id g ⟨⟩
    exact hp _ (Array.mem_of_getElem? hf) f (List.mem_singleton.mpr rfl)
  · split
    · next c hc => exact plain _ (over_classAt? hp hloaded hc) (by simp)
    · exact plain _ trivial (by simp)
  · exact plain _ trivial (by simp)

theorem Pool.loaded_load (hp : ∀ k ∈ p, ∀ f ∈ k.functions, H f) (hloaded : ∀ v ∈ loaded, v.Loaded H) (h : Heap) :
    ∀ v ∈ (p.load loaded h).1, v.Loaded H := by
  intro v hv
  rcases Array.mem_append.mp hv with hv | hv
  · exact hloaded v hv
  · rcases List.mem_map.mp (List.mem_toArray.mp hv) with ⟨i, -, rfl⟩
    exact loaded_valueAt hp hloaded _ _

end

/-! ## Sessions -/

theorem Compiler.attempt_of_compile {c c' : Compiler} {p : Program} {unit : UnitCode}
    (h : c.compile p = .ok (unit, c')) : c.attempt p = (.ok unit, c') := by
  unfold compile at h
  split at h
  · next hattempt =>
    cases h
    exact hattempt
  · cases h

namespace Session

/-- Everything within reach of a session satisfies `H`. -/
structure Over (H : Function → Prop) (s : Session) : Prop where
  world : s.system.world.Over H
  constants : ∀ v ∈ s.constants, v.Loaded H

/-- A machine for a block is over the functions of the constants. -/
theorem Over.machine {H : Function → Prop} {s : Session} (h : s.Over H)
    (hpool : ∀ k ∈ s.compiler.pool, ∀ f ∈ k.functions, H f) (main : Function) :
    State.Over H ⟨(s.machine main).2.system.world, (s.machine main).1⟩ where
  world := by
    have hheap : Heap.Over (Closure.Of H) (s.compiler.pool.load s.constants s.heap).2 := { h.world.heap with }
    exact { h.world with heap := hheap.newClosure main #[] }
  machine := .new _ _ (Pool.loaded_load hpool h.constants _)

/-- A unit has not ended, or it has because the machine ran out of room or crashed. -/
def Excused : Except SessionError Value → Prop
  | .error (.fault f) => (Abort.fault f).Excused
  | .error (.crash _) | .error .outOfFuel => True
  | _ => False

theorem excused_resultOf {outcome : TaskSystem.Outcome} (h : outcome.Excused) (g : Value → Value) :
    Excused ((resultOf outcome).map g) := by
  cases outcome with
  | finished result =>
    cases result with
    | ok v => exact h
    | error e => cases e <;> exact h
  | stuck => exact h
  | outOfFuel => exact h

variable {us : List (List Stmt)} {s : Session} {p : Program} {σ : Settings} {fuel : Nat}

/-- What a session answers, and what becomes of it, if runs agree. -/
theorem answer_eq (σ : Settings) {r r' : TaskSystem.Outcome × TaskSystem × Machine} (h : TaskSystem.Agree r r') :
    ((resultOf r'.1).map fun _ => r'.2.2.lastPopped, { s with settings := σ, system := r'.2.1 }) =
      ((resultOf r.1).map fun _ => r.2.2.lastPopped, ({ s with settings := σ, system := r.2.1 } : Session)) := by
  rcases h with ⟨houtcome, hsystem, hpopped⟩
  rw [houtcome, hsystem, hpopped]

/-- Larger limits change nothing. A unit runs in a session without tasks, and no `continue` is stranded in it or in the
units before it. If it starts no task and ends without having run out of room, it ends with the same value or fault
under larger limits, and what is left is the same session. -/
theorem run_with_larger_limits (h : Compiler.Built us s.compiler) (hp : Settled (s.compiler.statements p) us)
    (hover : s.Over s.Compiled) (halone : s.system.Alone) (hσ : s.settings.Within σ)
    (htracked : (s.run fuel p).2.system.tracked = s.system.tracked) (hexcused : ¬ Excused (s.run fuel p).1) :
    ({ s with settings := σ } : Session).run fuel p =
      ((s.run fuel p).1, { (s.run fuel p).2 with settings := σ }) := by
  cases hattempt : s.compiler.attempt p with
  | mk unit? compiler =>
    cases unit? with
    | error e =>
      unfold run
      dsimp only
      rw [hattempt]
    | ok unit =>
      have hcompile := Compiler.compile_of_attempt hattempt
      have hbegins := Compiler.begins_attempt s.compiler p
      rw [hattempt] at hbegins
      let t : Session := { s with compiler }
      let main : Function := .main unit.code unit.debug
      have hsound : ∀ f, unit.Runs compiler f → f.IsSound := fun f hf => h.isSound_of_runs hp hcompile hf
      have hcompiled : ∀ f, s.Compiled f → f.IsSound := by
        rintro f ⟨k, hk, hf⟩
        rcases Array.getElem_of_mem hk with ⟨i, hi, rfl⟩
        have hsame := hbegins.same i hi
        rw [Array.getElem?_eq_getElem hi] at hsame
        exact hsound f (.inr ⟨_, Array.mem_of_getElem? hsame, hf⟩)
      have hloaded : t.Over Function.IsSound :=
        ⟨hover.world.mono hcompiled, fun v hv => (hover.constants v hv).mono hcompiled⟩
      have hmachine := hloaded.machine (fun k hk f hf => hsound f (.inr ⟨k, hk, hf⟩)) main
      have hrun : s.run fuel p = _ := run_eq hattempt rfl rfl
      have hrun' : ({ s with settings := σ } : Session).run fuel p = _ := run_eq hattempt rfl rfl
      rw [hrun] at htracked hexcused ⊢
      rw [hrun']
      have hagree := TaskSystem.Alone.runBlock_agree (s := (t.machine main).2.system) ⟨halone.tasks, halone.spawned⟩
        hσ hmachine (hsound main (.inl rfl)) rfl htracked fun he => hexcused (excused_resultOf he _)
      exact answer_eq (s := (t.machine main).2) σ hagree

end Session

/-! ## A function that is called in a narrow session -/

/-- A session whose limits are just enough for the literal. -/
def calledLiteral.session : Session where
  compiler := .new .empty #[] false
  registry := .empty
  settings := { stackSize := 2, maxFrames := 2 }
  system := ⟨.new #[], #[], 0⟩
  constants := #[]

open calledLiteral in
theorem machine_calledLiteral {c : Compiler} (hpool : c.pool = #[.function function]) :
    ({ session with compiler := c } : Session).machine frame.closure.function =
      (.new #[.function 0 function] ⟨1, frame.closure.function, #[]⟩ .empty { stackSize := 2, maxFrames := 2 },
        { session with
          compiler := c
          system := ⟨{ World.new #[] with heap := { Heap.empty with nextId := 2 } }, #[], 0⟩
          constants := #[.function 0 function] }) := by
  have hload : c.pool.load #[] Heap.empty = (#[.function 0 function], { Heap.empty with nextId := 1 }) := by
    rw [hpool]
    rfl
  unfold Session.machine
  dsimp only [Session.withHeap, session, World.new]
  rw [hload]
  rfl

open calledLiteral in
set_option maxRecDepth 10000 in
theorem runBlock_calledLiteral : ∃ m, TaskSystem.runBlock 1
      ⟨{ World.new #[] with heap := { Heap.empty with nextId := 2 } }, #[], 0⟩
      (.new #[.function 0 function] ⟨1, frame.closure.function, #[]⟩ .empty { stackSize := 2, maxFrames := 2 }) =
    (.finished (.ok .null), ⟨{ World.new #[] with heap := { Heap.empty with nextId := 3 } }, #[], 0⟩, m) ∧
      m.lastPopped = .bool true := by
  refine ⟨_, rfl, rfl⟩

open calledLiteral in
theorem run_calledLiteral :
    (session.run 1 ⟨[calledLiteral]⟩).1 = .ok (.bool true) ∧ (session.run 1 ⟨[calledLiteral]⟩).2.system.tracked = 0 := by
  rcases compile_calledLiteral with ⟨c', hcompile, hpool⟩
  rcases runBlock_calledLiteral with ⟨m, hblock, hpopped⟩
  have hrun := Session.run_eq (s := session) (Compiler.attempt_of_compile hcompile) (machine_calledLiteral hpool) hblock
  rw [hrun, hpopped]
  exact ⟨rfl, rfl⟩

open calledLiteral in
/-- The literal gets by with two slots and two frames, and so it does with more. -/
theorem calledLiteral_run_with_larger_limits :
    Compiler.Built [] session.compiler ∧ Settled (session.compiler.statements ⟨[calledLiteral]⟩) [] ∧
    session.Over session.Compiled ∧ session.system.Alone ∧ session.settings.Within {} ∧
    (session.run 1 ⟨[calledLiteral]⟩).2.system.tracked = session.system.tracked ∧
    ¬ Session.Excused (session.run 1 ⟨[calledLiteral]⟩).1 ∧
    ({ session with settings := {} } : Session).run 1 ⟨[calledLiteral]⟩ =
      (.ok (.bool true), { (session.run 1 ⟨[calledLiteral]⟩).2 with settings := {} }) := by
  have hbuilt : Compiler.Built [] session.compiler := .new .empty 0 false
  have hsettled : Settled (session.compiler.statements ⟨[calledLiteral]⟩) [] :=
    Regular.settled regular_calledLiteral fun _ hu => absurd hu List.not_mem_nil
  have hover : session.Over session.Compiled := by
    refine ⟨⟨Heap.over_empty, ?_, ?_, ?_⟩, ?_⟩
    all_goals simp [session, World.new]
  have hwithin : session.settings.Within {} := ⟨by decide, by decide⟩
  rcases run_calledLiteral with ⟨hresult, htracked⟩
  have hexcused : ¬ Session.Excused (session.run 1 ⟨[calledLiteral]⟩).1 := by
    rw [hresult]
    exact id
  have hsame := Session.run_with_larger_limits hbuilt hsettled hover ⟨rfl, rfl⟩ hwithin htracked hexcused
  refine ⟨hbuilt, hsettled, hover, ⟨rfl, rfl⟩, hwithin, htracked, hexcused, ?_⟩
  rw [hsame, hresult]

end ScriptMachine
