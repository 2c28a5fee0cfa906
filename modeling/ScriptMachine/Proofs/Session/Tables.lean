import ScriptMachine.Proofs.Machine.Kit
import ScriptMachine.Proofs.Session.Sound

/-!
# What the numbers of instructions stand for

Instructions name constants and host functions by number. Every machine has tables of its own, which it
was given when it was made: those of the session at that time, or those of the machine that started it.
Closures travel from machine to machine through globals, channels and objects, and their code is looked
up in the tables of whichever machine runs it.

1. **Tables**: `Tables.Within` says that numbers stand for the same things in larger tables.
2. **Compiled code**: `Function.SameIn`, everything that a function names is there and is the same.
3. **Machines**: what a step does to the tables of the machines at work.
4. **Meaning**: `Session.Moment.Reached.keeps_meaning`. Compiled code means the same in every machine
   that is made once its unit is compiled. Tasks that were at work before have not got the constants of
   the unit, and some of its numbers may stand for nothing there, but never for something else.
-/

namespace ScriptMachine

/-! ## Tables -/

/-- What the numbers in instructions refer to. -/
structure Tables where
  constants : Array Value
  registry : Registry

def Kit.tables (k : Kit) : Tables := ⟨k.constants, k.registry⟩

def Machine.tables (m : Machine) : Tables := m.kit.tables

def Session.tables (s : Session) : Tables := ⟨s.constants, s.registry⟩

namespace Tables

variable {S T U : Tables}

/-- Whatever a number stands for in `S`, it stands for the same in `T`. -/
structure Within (S T : Tables) : Prop where
  constant : ∀ (i : Nat) (v : Value), S.constants[i]? = some v → T.constants[i]? = some v
  native : ∀ (i : Nat) (v : Value), S.registry.get? i = some v → T.registry.get? i = some v

theorem Within.refl (S : Tables) : S.Within S := ⟨fun _ _ h => h, fun _ _ h => h⟩

theorem Within.trans (h : S.Within T) (h' : T.Within U) : S.Within U :=
  ⟨fun i v hv => h'.constant i v (h.constant i v hv), fun i v hv => h'.native i v (h.native i v hv)⟩

/-- More constants. -/
theorem within_append (constants more : Array Value) (registry : Registry) :
    Within ⟨constants, registry⟩ ⟨constants ++ more, registry⟩ := by
  refine ⟨fun i v hv => ?_, fun i v hv => hv⟩
  have hlt : i < constants.size := (Array.getElem?_eq_some_iff.mp hv).1
  show (constants ++ more)[i]? = some v
  rw [Array.getElem?_append_left hlt]
  exact hv

/-- One more host function. -/
theorem within_push (constants : Array Value) (registry : Registry) (e : RegistryEntry) :
    Within ⟨constants, registry⟩ ⟨constants, ⟨registry.entries.push e⟩⟩ := by
  refine ⟨fun i v hv => hv, fun i v hv => ?_⟩
  obtain ⟨old, hold, hvalue⟩ := Option.map_eq_some_iff.mp hv
  have hlt : i < registry.entries.size := (Array.getElem?_eq_some_iff.mp hold).1
  show (registry.entries.push e)[i]?.map _ = some v
  rw [Array.getElem?_push, if_neg (Nat.ne_of_lt hlt), hold, Option.map_some, hvalue]

end Tables

/-! ## Compiled code -/

/-- Whether the first operand of an instruction is the place of a constant. -/
def Opcode.namesConstant : Opcode → Bool
  | .constant | .getProperty | .setProperty | .invoke | .invokeSuper | .closure => true
  | _ => false

/-- What an instruction names by number stands for the same in both tables. -/
structure Instruction.SameIn (S T : Tables) (i : Instruction) : Prop where
  constant : i.opcode.namesConstant = true → ∃ k ∈ i.operands.head?, ∃ v,
    S.constants[k]? = some v ∧ T.constants[k]? = some v
  native : i.opcode = .getBuiltin → ∃ k ∈ i.operands.head?, ∃ v,
    S.registry.get? k = some v ∧ T.registry.get? k = some v

/-- The code of a function can be decoded, and whatever it names by number stands for the same in both
tables. -/
def Function.SameIn (S T : Tables) (f : Function) : Prop :=
  ∃ is, decode f.code = .ok is ∧ ∀ i ∈ is, i.SameIn S T

section

variable {S T U : Tables}

theorem Instruction.SameIn.mono {i : Instruction} (h : i.SameIn S T) (hT : T.Within U) : i.SameIn S U := by
  refine ⟨fun hop => ?_, fun hop => ?_⟩
  · obtain ⟨k, hk, v, hS, hv⟩ := h.constant hop
    exact ⟨k, hk, v, hS, hT.constant k v hv⟩
  · obtain ⟨k, hk, v, hS, hv⟩ := h.native hop
    exact ⟨k, hk, v, hS, hT.native k v hv⟩

theorem Function.SameIn.mono {f : Function} (h : f.SameIn S T) (hT : T.Within U) : f.SameIn S U := by
  obtain ⟨is, hdecode, his⟩ := h
  exact ⟨is, hdecode, fun i hi => (his i hi).mono hT⟩

end

/-- The first operand of an instruction that has one. -/
theorem Emitted.head?_read {i : Emitted} {w : Nat} {ws : List Nat} (h : i.Sized)
    (hw : i.opcode.widths = w :: ws) : i.read.head? = some (i.operand 0) := by
  obtain ⟨op, xs, span⟩ := i
  cases xs with
  | nil =>
    simp only [Emitted.Sized] at h
    rw [hw] at h
    cases h
  | cons x xs =>
    simp only at hw
    simp [Emitted.read, Emitted.operand, hw]

/-- The place of a constant that an instruction names is a place of the pool. -/
theorem Emitted.Refers.constant_lt {S : Supply} {u : Setup} {i : Emitted} (h : i.Refers S u)
    (hop : i.opcode.namesConstant = true) : i.operand 0 < S.pool.size := by
  have hname : S.pool.IsName (i.operand 0) → i.operand 0 < S.pool.size := by
    rintro ⟨name, hplace⟩
    exact (Array.getElem?_eq_some_iff.mp hplace).1
  obtain ⟨op, xs, span⟩ := i
  cases op with
  | constant => exact h
  | getProperty | setProperty | invoke => exact hname h
  | invokeSuper => exact hname h.1
  | closure =>
    obtain ⟨f, n, hcloses⟩ := h
    exact (Array.getElem?_eq_some_iff.mp hcloses.function).1
  | _ => cases hop

/-- A compiled function names constants and host functions that are there. -/
theorem Function.From.sameIn {f : Function} {p : Pool} {n : Nat} {T : Tables}
    (h : f.From (.upTo T.registry.size) p n) (hsize : T.constants.size = p.size) : f.SameIn T T := by
  obtain ⟨b, code, notes, hlies⟩ := h
  refine ⟨_, decode_of_holds hlies.holds hlies.lays.neat, fun i hi => ?_⟩
  obtain ⟨q, hq, rfl⟩ := List.mem_map.mp hi
  obtain ⟨-, -, -, -, -, hsized⟩ := hlies.lays.neat.split hq
  have hrefers : q.item.Refers ⟨p, f.locals, n, (Source.upTo T.registry.size).builtin⟩ q.setup :=
    hlies.refers q hq
  refine ⟨fun hop => ?_, fun hop => ?_⟩
  · have hop : q.item.opcode.namesConstant = true := hop
    have hread : q.item.read.head? = some (q.item.operand 0) := by
      cases hopcode : q.item.opcode with
      | constant | getProperty | setProperty | invoke | invokeSuper | closure =>
        exact Emitted.head?_read hsized (by rw [hopcode]; rfl)
      | _ =>
        rw [hopcode] at hop
        cases hop
    have hlt : q.item.operand 0 < T.constants.size := by
      rw [hsize]
      exact hrefers.constant_lt hop
    exact ⟨_, hread, _, Array.getElem?_eq_getElem hlt, Array.getElem?_eq_getElem hlt⟩
  · have hop : q.item.opcode = .getBuiltin := hop
    have hread : q.item.read.head? = some (q.item.operand 0) :=
      Emitted.head?_read hsized (by rw [hop]; rfl)
    unfold Emitted.Refers at hrefers
    rw [hop] at hrefers
    obtain ⟨k, hle, hk⟩ := hrefers
    have hlt : q.item.operand 0 < T.registry.entries.size := Nat.lt_of_le_of_lt hle hk
    obtain ⟨v, hv⟩ : ∃ v, T.registry.get? (q.item.operand 0) = some v := by
      unfold Registry.get?
      rw [Array.getElem?_eq_getElem hlt]
      exact ⟨_, rfl⟩
    exact ⟨_, hread, v, hv, hv⟩

/-- A function that some unit of the session was compiled to. -/
def Session.Compiled (s : Session) (f : Function) : Prop := ∃ c ∈ s.compiler.pool, f ∈ c.functions

/-- Compiled code finds in the tables of the session what it names. -/
theorem Session.Sound.sameIn {s : Session} {f : Function} (h : s.Sound) (hf : s.Compiled f) :
    f.SameIn s.tables s.tables := by
  obtain ⟨c, hc, hmem⟩ := hf
  obtain ⟨n, hfrom⟩ := (h.compiler.pool c hc).functions hmem
  exact Function.From.sameIn (T := s.tables) hfrom h.loaded

/-! ## Machines -/

namespace Session

namespace Moment

/-- A machine at work: that of the run at hand, of a task, or of a task about to begin. -/
inductive Employs (a : Moment) : Machine → Prop where
  | serving (run : Run) (m : Machine) : a.serving = some (run, m) → Employs a m
  | task (t : Task) : t ∈ a.session.system.tasks → Employs a t.machine
  | spawned (t : Spawned) : t ∈ a.session.system.world.spawned → Employs a t.machine

/-- All machines at work have been given things with `P`. -/
def Given (P : Kit → Prop) (a : Moment) : Prop := ∀ m, a.Employs m → P m.kit

variable {P : Kit → Prop} {host : Host} {a b : Moment}

/-- Whoever is at work in the second moment was at work in the first. -/
theorem Given.of_le (ha : a.Given P) (h : ∀ m, b.Employs m → a.Employs m) : b.Given P :=
  fun m hm => ha m (h m hm)

/-- The same machines are at work. -/
theorem Given.congr (ha : a.Given P) (hserving : b.serving = a.serving)
    (htasks : b.session.system.tasks = a.session.system.tasks)
    (hspawned : b.session.system.world.spawned = a.session.system.world.spawned) : b.Given P := by
  refine ha.of_le fun m hm => ?_
  cases hm with
  | serving run m h => exact .serving run m (hserving ▸ h)
  | task t h => exact .task t (htasks ▸ h)
  | spawned t h => exact .spawned t (hspawned ▸ h)

/-- A run and the world it works in, among the tasks of a session. -/
theorem given_after {s : Session} {r : Progress × State} (hr : r.2.Given P)
    (htasks : ∀ t ∈ s.system.tasks, P t.machine.kit) : (after s r).Given P := by
  intro m hm
  cases hm with
  | serving run m h =>
    obtain ⟨run', -, heq⟩ := Option.map_eq_some_iff.mp h
    cases heq
    exact hr.machine
  | task t h => exact htasks t h
  | spawned t h => exact hr.spawned t h

/-- A new machine is given the tables of its session. -/
theorem given_begin {s : Session} {main : Function} {start : State → Progress × State}
    (hs : (idle s).Given P) (hnew : P (s.machine main).1.kit)
    (hstart : ∀ r : State, r.Given P → (start r).2.Given P) : (begin s main start).Given P :=
  given_after (hstart _ ⟨hnew, fun t ht => hs _ (.spawned t ht)⟩) fun t ht => hs _ (.task t ht)

theorem given_idle_set {s : Session} (hs : (idle s).Given P) (name : String) (v : Value) :
    (idle (s.set name v)).Given P := hs.congr rfl rfl rfl

theorem given_idle_register {s : Session} (hs : (idle s).Given P) (n : Native) :
    (idle (s.register n).2).Given P := by
  unfold Session.register
  dsimp only
  split
  · exact hs
  · exact hs.congr rfl rfl rfl

theorem given_idle_tryReceive {s : Session} (hs : (idle s).Given P) (name : String) :
    (idle (s.tryReceive name).2).Given P := by
  unfold Session.tryReceive
  split
  · split
    · exact hs.congr rfl rfl rfl
    · exact hs
  · exact hs

/-- Tasks that are taken over are at work as before. -/
theorem given_adopt {s : Session} {serving : Option (Run × Machine)} (hs : Given P ⟨s, serving⟩) :
    Given P ⟨{ s with system := s.system.adopt }, serving⟩ := by
  unfold TaskSystem.adopt
  split
  · exact hs
  · intro m hm
    cases hm with
    | serving run m h => exact hs m (.serving run m h)
    | task t h =>
      rcases Array.mem_append.mp h with h | h
      · exact hs _ (.task t h)
      · obtain ⟨t, ht, rfl⟩ := Array.mem_map.mp h
        exact hs _ (.spawned t ht)
    | spawned t h => exact absurd h (Array.not_mem_empty t)

/-- A task works among the others. -/
theorem given_turn {s : Session} {serving : Option (Run × Machine)} {before behind : Array Task} {t : Task}
    (fuel : Nat) (hs : Given P ⟨s, serving⟩) (htasks : s.system.tasks = before ++ #[t] ++ behind) :
    Given P ⟨{ s with system := { s.system with
      world := (t.turn fuel s.system.world).2
      tasks := before ++ #[(t.turn fuel s.system.world).1] ++ behind } }, serving⟩ := by
  have hold : ∀ t' ∈ before ++ #[t] ++ behind, P t'.machine.kit := by
    intro t' ht'
    exact hs _ (.task t' (htasks ▸ ht'))
  have hturn : State.Given P ⟨_, _⟩ := Task.turn_given fuel
    ⟨hold t (by simp), fun t' ht' => hs _ (.spawned t' ht')⟩
  intro m hm
  cases hm with
  | serving run m h => exact hs m (.serving run m h)
  | task t' h =>
    rcases Array.mem_append.mp h with h | h
    · rcases Array.mem_append.mp h with h | h
      · exact hold t' (by simp [h])
      · rw [Array.mem_singleton.mp h]
        exact hturn.machine
    · exact hold t' (by simp [h])
  | spawned t' h => exact hturn.spawned t' h

/-- The machines at work after a step have been given what machines had before it, or they are new and
have got the tables of the session. -/
theorem Step.given (h : Step host a b) (ha : a.Given P)
    (hnew : ∀ k : Kit, k.tables = b.session.tables → P k) : b.Given P := by
  cases h with
  | refuse s p e compiler hattempt => exact ha.congr rfl rfl rfl
  | run s p unit compiler hattempt =>
    have hs : Given P (idle { s with compiler }) := ha.congr rfl rfl rfl
    exact given_begin hs (hnew _ rfl) fun r hr => Run.startBlock_given hr
  | call s name callee args hget hargs =>
    exact given_begin ha (hnew _ rfl) fun r hr => Run.startCall_given callee args hr
  | proceed s run m fuel =>
    have hm : P m.kit := ha m (.serving run m rfl)
    refine given_after (Run.proceed_given fuel run ⟨hm, fun t ht => ha _ (.spawned t ht)⟩) ?_
    exact fun t ht => ha _ (.task t ht)
  | abandon s run m =>
    refine ha.of_le fun m' hm' => ?_
    cases hm' with
    | serving run' m' h => cases h
    | task t h => exact .task t h
    | spawned t h => exact .spawned t h
  | adopt s serving => exact given_adopt ha
  | turn s serving before behind t fuel htasks => exact given_turn fuel ha htasks
  | dismiss s serving before behind t htasks hdone =>
    refine ha.of_le fun m hm => ?_
    cases hm with
    | serving run m h => exact .serving run m h
    | task t' h =>
      refine .task t' ?_
      show t' ∈ s.system.tasks
      rw [htasks]
      rcases Array.mem_append.mp h with h | h <;> simp [h]
    | spawned t' h => exact .spawned t' h
  | recount s tracked => exact ha.congr rfl rfl rfl
  | set s name v => exact given_idle_set ha name v
  | register s n => exact given_idle_register ha n
  | tryReceive s name => exact given_idle_tryReceive ha name
  | write s type data => exact ha.congr rfl rfl rfl

/-- The tables of a session only become larger. -/
theorem Step.within (h : Step host a b) : a.session.tables.Within b.session.tables := by
  cases h with
  | run s p unit compiler hattempt => exact Tables.within_append _ _ _
  | call s name callee args hget hargs => exact Tables.within_append _ _ _
  | register s n =>
    show s.tables.Within (s.register n).2.tables
    unfold Session.register
    dsimp only
    split
    · exact .refl _
    · next hregister =>
      obtain ⟨-, -, rfl⟩ := Registry.register_ok hregister
      exact Tables.within_push _ _ _
  | tryReceive s name =>
    show s.tables.Within (s.tryReceive name).2.tables
    unfold Session.tryReceive
    split
    · split <;> exact .refl _
    · exact .refl _
  | _ => exact .refl _

/-! ## Meaning -/

theorem Steps.within (h : Steps host a b) : a.session.tables.Within b.session.tables := by
  induction h with
  | refl => exact .refl _
  | tail _ hstep ih => exact ih.trans hstep.within

/-- A machine at work has all constants and host functions there were after a step, or it has the tables
of a machine that was at work before the step. -/
theorem Steps.employs {a' : Moment} (hstep : Step host a a') (h : Steps host a' b) : b.Given fun k =>
    a'.session.tables.Within k.tables ∨ ∃ m, a.Employs m ∧ m.tables = k.tables := by
  induction h with
  | refl =>
    refine hstep.given (fun m hm => .inr ⟨m, hm, rfl⟩) fun k hk => .inl ?_
    rw [hk]
    exact .refl _
  | tail hsteps hnext ih =>
    refine hnext.given ih fun k hk => .inl ?_
    rw [hk]
    exact (Steps.within hsteps).trans hnext.within

/-- In the beginning nobody works. -/
theorem not_employs_new (σ : Settings) (m : Machine) : ¬ (idle (.new σ)).Employs m := by
  intro hm
  cases hm with
  | serving run m h => cases h
  | task t h => exact absurd h (Array.not_mem_empty t)
  | spawned t h => exact absurd h (Array.not_mem_empty t)

/-- No machine takes a number for something else than its session does. -/
theorem Reached.given {σ : Settings} (h : Reached host σ a) :
    a.Given fun k => k.tables.Within a.session.tables := by
  induction h with
  | refl => exact fun m hm => absurd hm (not_employs_new σ m)
  | tail _ hstep ih =>
    refine hstep.given (fun m hm => (ih m hm).trans hstep.within) fun k hk => ?_
    rw [hk]
    exact .refl _

/-- Closures run the same everywhere. Let a function be compiled once a step of a session is done, and take
any later moment. A machine that is made then finds what the function names, as the unit did that compiled
it; so does every machine at work, unless it has the tables of one that was at work before that step. Such
a machine may lack what the function names, but what it finds under a number is what its session has there. -/
theorem Reached.keeps_meaning {σ : Settings} {a' : Moment} {f : Function} (ha : Reached host σ a)
    (hstep : Step host a a') (h : Steps host a' b) (hf : a'.session.Compiled f) :
    (∀ main, f.SameIn a'.session.tables (b.session.machine main).1.tables) ∧
    ∀ m, b.Employs m → m.tables.Within b.session.tables ∧
      (f.SameIn a'.session.tables m.tables ∨ ∃ m₀, a.Employs m₀ ∧ m₀.tables = m.tables) := by
  have hcompiled : Reached host σ a' := ha.tail hstep
  have hreached : Reached host σ b := hcompiled.trans h
  have hsame := hcompiled.sound.sameIn hf
  refine ⟨fun main => ?_, fun m hm => ⟨hreached.given m hm, ?_⟩⟩
  · have hnew : b.session.tables.Within (b.session.machine main).1.tables := Tables.within_append _ _ _
    exact hsame.mono (h.within.trans hnew)
  · rcases Steps.employs hstep h m hm with hwithin | hold
    · exact .inl (hsame.mono hwithin)
    · exact .inr hold

/-- `fn() { 5 }` -/
def fiveUnit : Program := ⟨[Build.expr (Build.function none [] [Build.expr (Build.int 5)])]⟩

/-- The function of `fiveUnit`, in a session that has no other constants. -/
def fiveFunction : Function := ⟨none, #[1, 0, 0, 97], 0, 0, #[⟨0, .dummy⟩]⟩

theorem attempt_fiveUnit : ∃ unit compiler,
    (Session.new { optimize := false }).compiler.attempt fiveUnit = (.ok unit, compiler) ∧
      compiler.pool = #[.int 5, .function fiveFunction] := by
  apply Exists.intro
  apply Exists.intro
  constructor
  · unfold Compiler.attempt CompileM.unit
    rw [show (Session.new { optimize := false }).compiler.optimizer.run fiveUnit = (fiveUnit, ⟨0, 0⟩) from rfl]
    simp only [fiveUnit, Build.expr, Build.function, Build.int, Build.block, List.map, CompileM.stmts,
      CompileM.stmt, CompileM.expr, CompileM.functionLiteral, CompileM.functionBody, CompileM.literal]
    rfl
  · rfl

/-- The machine of a unit and those of later units find the constant of its function. -/
theorem fiveFunction_keeps_meaning : ∃ a',
    Step .any (idle (.new { optimize := false })) a' ∧ a'.session.Compiled fiveFunction ∧
    (∀ main, fiveFunction.SameIn a'.session.tables (a'.session.machine main).1.tables) ∧
    ∀ m, a'.Employs m → fiveFunction.SameIn a'.session.tables m.tables := by
  obtain ⟨unit, compiler, hattempt, hpool⟩ := attempt_fiveUnit
  let s : Session := { Session.new { optimize := false } with compiler }
  let next : Moment := begin s (.main unit.code unit.debug) Run.startBlock
  have hstep : Step .any (idle (.new { optimize := false })) next := .run _ fiveUnit unit compiler hattempt
  have hcompiled : next.session.Compiled fiveFunction := by
    refine ⟨.function fiveFunction, ?_, List.mem_singleton.mpr rfl⟩
    show _ ∈ compiler.pool
    rw [hpool]
    exact Array.mem_of_getElem? (i := 1) rfl
  have hmeaning := Reached.keeps_meaning .refl hstep .refl hcompiled
  refine ⟨next, hstep, hcompiled, hmeaning.1, fun m hm => ?_⟩
  rcases (hmeaning.2 m hm).2 with hsame | ⟨m₀, hm₀, -⟩
  · exact hsame
  · exact absurd hm₀ (not_employs_new _ m₀)

end Moment

end Session

end ScriptMachine
