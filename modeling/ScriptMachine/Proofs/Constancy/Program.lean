import ScriptMachine.Proofs.Constancy.Forms
import ScriptMachine.Proofs.Frames.Program
import ScriptMachine.Proofs.Session.Result

/-!
# Constants keep their values

A global that is declared as a constant only, from the first unit on, is not stored to but by its declarations. So it
keeps its value from the last declaration on, whatever runs: the rest of the unit, later units, functions that were
compiled before the declaration or after it, and other tasks (`Compiler.Fixes.constant_lasts`).

1. **Units**: the code of a unit stores to other globals.
2. **Turns**: a turn of a machine leaves a global alone, unless it stores to it.
3. **Runs**: the constant in the course of a run.
-/

namespace ScriptMachine

open Point

/-! ## Units -/

/-- A compiler that accepted the given units, latest first. Wherever the global `name` is declared, it is declared as a
constant, and the host binds other names. -/
inductive Compiler.Fixes (name : String) : List (List Stmt) → Compiler → Prop where
  | new (r : Registry) (nulls : Nat) (optimize : Bool) :
    Fixes name [] (.new r (Array.replicate nulls .null) optimize)
  | bind {us : List (List Stmt)} {c : Compiler} {other : String} (constant : Bool) : Fixes name us c → other ≠ name →
    (c.symbols.define other constant).1.index < CompileM.maxGlobals →
    Fixes name us { c with symbols := (c.symbols.define other constant).2 }
  | builtin {us : List (List Stmt)} {c : Compiler} (index : Nat) (other : String) : Fixes name us c →
    Fixes name us { c with symbols := (c.symbols.defineBuiltin index other).2 }
  | compile {us : List (List Stmt)} {c c' : Compiler} {p : Program} {unit : UnitCode} : Fixes name us c →
    c.compile p = .ok (unit, c') → (∀ d ∈ Stmt.declaredAll (c.statements p), d.1 = name → d.2 = true) →
    Fixes name (c.statements p :: us) c'

/-- The global is a constant, and no function of the pool stores to it. -/
structure Compiler.Guarded (name : String) (c : Compiler) : Prop where
  isGlobal : c.symbols.outer = []
  fixes : c.symbols.Fixes name
  pool : ∀ k ∈ c.pool, ∀ f ∈ k.functions, ∀ j, StoresFrom f.code 0 j → c.symbols.Spares name j

section

variable {name : String} {us : List (List Stmt)} {c c' : Compiler} {p : Program} {unit : UnitCode}
  {σ σ' : CompileState} {G : Guard}

theorem Compiler.Fixes.built (h : Fixes name us c) : Built us c := by
  induction h with
  | new r nulls optimize => exact .new r nulls optimize
  | bind constant _ _ _ ih => exact .bind _ constant ih
  | builtin index other _ ih => exact .builtin index other ih
  | compile _ hcompile _ ih => exact .compile ih hcompile

theorem CompileM.stmts_append (R : Regions) (ss ss' : List Stmt) :
    stmts R (ss ++ ss') = (stmts R ss >>= fun _ => stmts R ss') := by
  induction ss with
  | nil =>
    rw [List.nil_append, stmts.eq_def R []]
    exact (pure_bind () fun _ => stmts R ss').symm
  | cons s ss ih =>
    rw [List.cons_append, stmts, ih, stmts, bind_assoc]

/-- A unit is about to be compiled. -/
theorem Compiler.Guarded.fits (h : c.Guarded name) (exempt : Nat → Prop) : c.start.Fits ⟨name, exempt, 0⟩ := by
  refine ⟨?_, h.fixes, nofun, nofun, h.pool, nofun⟩
  show c.symbols.outer.length = 0
  rw [h.isGlobal, List.length_nil]

/-- Only the places of the block that are filled already may store to the global. -/
theorem CompileState.Fits.narrow (h : σ.Fits G) : σ.Fits { G with exempt := (· < σ.items.length) } := by
  refine ⟨h.depth, h.fixes, h.sized, fun place i hi _ hplace => ?_, h.pool, h.waiting⟩
  exact absurd (List.getElem?_eq_some_iff.mp hi).1 hplace

/-- The code of statements stays where it is when more is compiled behind it. -/
theorem Compiler.Ok.laid_stmts {before after : List Stmt} (h : c.Ok (.ofUnits us))
    (hbefore : CompileM.stmts [] before c.start = .ok () σ) (hafter : CompileM.stmts [] after σ = .ok () σ') :
    ∃ tail, σ'.items = σ.items ++ tail ∧ σ.size = Emitted.lengths σ.items := by
  -- which bodies the statements have does not matter
  let Src : Source := { Source.ofUnits us with body := fun _ => True }
  have hok : c.Ok Src := ⟨h.isGlobal, h.symbols, h.pool.of_le (fun _ _ => trivial) fun _ hn => hn, h.blanks⟩
  obtain ⟨code, _, -, hext⟩ := lowers_stmts [] before hbefore hok.ready fun _ _ _ => trivial
  obtain ⟨code', _, -, hext'⟩ := lowers_stmts [] after hafter (hok.ready.after hext) fun _ _ _ => trivial
  refine ⟨_, hext'.items, ?_⟩
  rw [hext.size, hext.items, Emitted.lengths_append, Point.lengths_raw]
  rfl

/-- The unit declares the global in the statements `before`. The code behind them stores to other globals, and so do all
functions. -/
theorem Compiler.Guarded.compile {before after : List Stmt} {σ₁ : CompileState} (h : c.Guarded name)
    (hbuilt : Built us c) (hcompile : c.compile p = .ok (unit, c')) (hsplit : c.statements p = before ++ after)
    (hbefore : ∀ d ∈ Stmt.declaredAll before, d.1 = name → d.2 = true)
    (hafter : ∀ d ∈ Stmt.declaredAll after, d.1 ≠ name) (hrun : CompileM.stmts [] before c.start = .ok () σ₁) :
    c'.Guarded name ∧ ∀ k, StoresFrom unit.code σ₁.size k → c'.symbols.Spares name k := by
  obtain ⟨σ₂, pool, hstmts, hlink, rfl, rfl⟩ := Compiler.compile_ok hcompile
  rw [show (c.optimizer.run p).1.statements = _ from hsplit, CompileM.stmts_append] at hstmts
  obtain ⟨_, τ, hfirst, hsecond⟩ := CompileM.bind_ok hstmts
  rw [hrun] at hfirst
  cases hfirst
  have hG₁ : Guard.Allows ⟨name, fun _ => True, 0⟩ (Stmt.declaredAll before) :=
    fun d hd _ heq => ⟨hbefore d hd heq, fun _ => trivial⟩
  have hG₂ : Guard.Allows ⟨name, (· < σ₁.items.length), 0⟩ (Stmt.declaredAll after) :=
    fun d hd _ heq => absurd heq (hafter d hd)
  have hfits₁ := (CompileM.keeps_stmts (K := []) hG₁ c.start () σ₁ hrun (h.fits _) nofun).1.fits.narrow
  have hfits₂ := (CompileM.keeps_stmts (K := []) hG₂ σ₁ () σ₂ hsecond hfits₁ nofun).1.fits
  have hfits := (hfits₂.emit .halt [] .dummy rfl nofun).1.fits
  refine ⟨⟨List.eq_nil_of_length_eq_zero hfits₂.depth, hfits₂.fixes, fun k hk f hf => ?_⟩, fun k hk => ?_⟩
  · obtain ⟨k', hk', hf'⟩ := (Pool.links_of_link hlink).functions hk hf
    exact hfits₂.pool k' hk' f hf'
  · obtain ⟨front, behind, i, hitems, hle, hop, rfl⟩ := CodeBlock.item_of_storesFrom hfits.sized hk
    obtain ⟨tail, hgrown, hsize⟩ := hbuilt.ok.laid_stmts hrun hsecond
    have hall : (σ₂.emit .halt [] .dummy).items = front ++ i :: behind := hitems
    refine hfits.stores front.length i (by rw [hall]; simp) hop fun hplace => ?_
    have hprefix : front ++ i :: behind = σ₁.items ++ (tail ++ [⟨.halt, [], .dummy⟩]) := by
      rw [← hall, CompileState.emit_items, hgrown, List.append_assoc]
    have hlt := Emitted.lengths_lt hprefix hplace
    omega

theorem Compiler.guarded_new (name : String) (r : Registry) (nulls : Nat) (optimize : Bool) :
    (Compiler.new r (Array.replicate nulls .null) optimize).Guarded name := by
  suffices ∀ (es : List (String × Nat)) (t : SymbolTable), t.outer = [] → t.Fixes name →
      (es.foldl (fun t e => (t.defineBuiltin e.2 e.1).2) t).outer = [] ∧
        (es.foldl (fun t e => (t.defineBuiltin e.2 e.1).2) t).Fixes name by
    have hempty : SymbolTable.empty.Fixes name := by
      refine ⟨trivial, Scope.apart_empty, Nat.zero_le _, fun x hx => ?_⟩
      simp [SymbolTable.empty, SymbolTable.outermost, Scope.outermost, Scope.empty] at hx
    obtain ⟨hglobal, hfixes⟩ := this _ _ rfl hempty
    refine ⟨hglobal, hfixes, fun k hk f hf => ?_⟩
    obtain ⟨-, rfl⟩ := Array.mem_replicate.mp hk
    cases hf
  intro es
  induction es with
  | nil => exact fun t ht hfixes => ⟨ht, hfixes⟩
  | cons e es ih => exact fun t ht hfixes => ih _ ht (hfixes.bind (x := ⟨e.1, .builtin, e.2, true⟩) (by simp)).fixes

theorem Compiler.Fixes.guarded (h : Fixes name us c) : c.Guarded name := by
  induction h with
  | new r nulls optimize => exact guarded_new name r nulls optimize
  | @bind us c other constant _ hne hroom ih =>
    have hfixed := (ih.fixes.define_global ih.isGlobal (fun heq => absurd heq hne) hroom).1
    exact ⟨ih.isGlobal, hfixed.fixes, fun k hk f hf j hj => hfixed.spares j (ih.pool k hk f hf j hj)⟩
  | builtin index other _ ih =>
    have hfixed := ih.fixes.bind (x := ⟨other, .builtin, index, true⟩) nofun
    exact ⟨ih.isGlobal, hfixed.fixes, fun k hk f hf j hj => hfixed.spares j (ih.pool k hk f hf j hj)⟩
  | @compile us c c' p unit hc hcompile hconstant ih =>
    obtain ⟨σ, -, hrun, -⟩ := compile_ok hcompile
    exact (ih.compile hc.built hcompile (List.append_nil _).symm hconstant (List.forall_mem_nil _) hrun).1

end

/-! ## Turns -/

/-- The value of a global. -/
def State.HasGlobal (k : Nat) (v : Value) (s : State) : Prop := Globals.get s.world.globals k = v

instance (k : Nat) (v : Value) : State.Tame (State.HasGlobal k v) where
  machine hs _ _ := hs
  world hs _ hglobals := (congrArg (fun g => Globals.get g k) hglobals).trans hs
  spawn hs _ := hs

/-- What a machine does in its next turn is not to store to the global. -/
def Machine.Spares (m : Machine) (k : Nat) : Prop :=
  ∀ (fs : Array Frame) (f : Frame), m.frames = fs.push f → m.next? = some .setGlobal →
    ∃ n, operandAt? f.code (f.ip + 1) 2 = some n ∧ n ≠ k

namespace Exec

section

variable {s t : State} {k : Nat} {v : Value} {signal : Signal}

/-- Storing to another global leaves this one alone. -/
theorem yields_setGlobal_other {fs : Array Frame} {f : Frame} {n : Nat} (hs : s.HasGlobal k v)
    (hframes : s.machine.frames = fs.push f) (hn : operandAt? f.code f.ip 2 = some n) (hne : n ≠ k) :
    Yields True (perform .setGlobal) s (fun _ t => t.HasGlobal k v) (State.HasGlobal k v) := by
  show Yields True (do setGlobal; return Signal.next) s _ _
  simp only [setGlobal, yields_bind, yields_operand hframes hn, yields_peek, yields_modify, yields_pure]
  refine ⟨fun _ => trivial, fun _ _ => ?_⟩
  exact (Globals.get_set_of_ne _ hne _).trans hs

/-- Dropping a value leaves the globals alone, too. -/
theorem leaves_perform_global {op : Opcode} (hop : op ≠ .setGlobal) : Leaves (State.HasGlobal k v) (perform op) := by
  by_cases hpop : op = .pop
  · subst hpop
    exact leaves_pop.bind fun _ => Leaves.bind (keeps_modifyMachine fun _ hs => hs) fun _ => leaves_pure _
  · exact leaves_perform_of_ne hpop hop

theorem yields_step_global (hs : s.HasGlobal k v) (hw : s.machine.waiting = none)
    (hspares : s.machine.Spares k) :
    Yields True step s (fun _ t => t.HasGlobal k v) (State.HasGlobal k v) := by
  by_cases hempty : s.machine.frames = #[]
  · simp [step, currentFrame, hempty]
  obtain ⟨fs, f, hframes⟩ := Array.eq_push_of_size_ne_zero (mt Array.eq_empty_of_size_eq_zero hempty)
  unfold step
  rw [yields_bind, yields_currentFrame hframes]
  dsimp only
  cases hbyte : f.code[f.ip]? with
  | none => exact hs
  | some byte =>
    rw [yields_bind, yields_modifyFrame hframes, yields_bind, yields_modifyMachine]
    cases hop : Opcode.dispatch byte with
    | none => exact ⟨fun _ => trivial, fun _ => hs⟩
    | some op =>
      by_cases hset : op = .setGlobal
      · subst hset
        have hnext : s.machine.next? = some .setGlobal := by
          unfold Machine.next?
          rw [hw, hframes, Array.back?_push, Option.bind_some, hbyte, Option.bind_some, hop]
        obtain ⟨n, hn, hne⟩ := hspares fs f hframes hnext
        exact yields_setGlobal_other (f := { f with ip := f.ip + 1 }) hs rfl hn hne
      · exact (leaves_perform_global hset).yields hs

/-- A turn that does not store to a global leaves it alone. -/
theorem global_of_turn (h : advanceCatching.run s = .ok signal t)
    (hspares : s.machine.Spares k) :
    Globals.get t.world.globals k = Globals.get s.world.globals k := by
  have hs : s.HasGlobal k (Globals.get s.world.globals k) := rfl
  have hadvance : Yields True advance s (fun _ t => t.HasGlobal k (Globals.get s.world.globals k))
      (State.HasGlobal k (Globals.get s.world.globals k)) := by
    unfold advance
    rw [yields_bind, yields_getMachine]
    cases hw : s.machine.waiting with
    | none => exact yields_step_global hs hw hspares
    | some w => exact (leaves_poll w).yields hs
  refine (yields_catching hadvance ?_).ok h
  exact fun u hu v => ((leaves_throwValue v).yields hu).mono (fun _ _ hu => hu) fun _ _ => trivial

end

end Exec

/-! ## Runs -/

/-- The instruction pointer of a sound frame is at an instruction. -/
theorem Machine.Stacked.storesFrom {m : Machine} (h : m.Stacked) {fs : Array Frame} {f : Frame}
    (hframes : m.frames = fs.push f) (hnext : m.next? = some .setGlobal) :
    ∃ n, operandAt? f.code (f.ip + 1) 2 = some n ∧ StoresFrom f.code f.ip n := by
  have hpile := h.frames
  rw [hframes] at hpile
  obtain ⟨u, own, hs, -, htop⟩ := hpile.top
  obtain ⟨p, hp, hmeets⟩ := htop.rests.leads
  have hsound := htop.rests.follows.sound
  have hip : p.offset = f.ip := hmeets.offset.symm.trans htop.rests.ip.symm
  have hcode : f.code[f.ip]? = some p.item.opcode.toByte := hip ▸ getElem?_of_holds hsound.holds hsound.neat hp
  have hreads : readOperands? p.item.opcode f.code (f.ip + 1) = some p.item.read :=
    hip ▸ readOperands?_of_holds hsound.holds hsound.neat hp
  have hop : p.item.opcode = .setGlobal := by
    unfold Machine.next? at hnext
    cases hw : m.waiting with
    | some w =>
      rw [hw] at hnext
      cases hnext
    | none =>
      rw [hw, hframes, Array.back?_push] at hnext
      simpa [hcode, Exec.dispatch_toByte] using hnext
  have hwidths : p.item.opcode.widths = [2] := by rw [hop]; rfl
  refine ⟨_, Exec.operandAt?_one hreads (hsound.sized hp) hwidths, _, decode_of_holds hsound.holds hsound.neat,
    p.instruction, List.mem_map_of_mem hp, Nat.le_of_eq hip.symm, hop, ?_⟩
  show p.item.read.head? = _
  rw [Emitted.read_one (hsound.sized hp) hwidths]
  rfl

/-- A machine does not run the statements of the unit before the offset `o`. -/
def UnitCode.Past (unit : UnitCode) (o : Nat) (m : Machine) : Prop :=
  ∀ (fs : Array Frame) (f : Frame), m.frames = fs.push f → f.closure.function = .main unit.code unit.debug → o ≤ f.ip

/-- A global that is declared as a constant only keeps its value, whatever runs. Let the statements `before` of a unit
be those that declare it, if any do. A turn that is taken in the course of a run, of the unit or of a call from outside,
leaves the global as it is, unless the unit is still at work at these statements. -/
theorem Compiler.Fixes.constant_lasts {name : String} {us : List (List Stmt)} {c c' : Compiler} {p : Program}
    {unit : UnitCode} (h : Fixes name us c) (hp : Settled (c.statements p) us)
    (hcompile : c.compile p = .ok (unit, c')) {before after : List Stmt} {σ : CompileState}
    (hsplit : c.statements p = before ++ after) (hbefore : ∀ d ∈ Stmt.declaredAll before, d.1 = name → d.2 = true)
    (hafter : ∀ d ∈ Stmt.declaredAll after, d.1 ≠ name) (hrun : CompileM.stmts [] before c.start = .ok () σ)
    {x : Symbol} (hx : c'.symbols.lookup? name = some x) (hglobal : x.storage = .global) {s : State} {ss : List State}
    (hs : s.Launches (unit.Runs c')) (hss : (s :: ss).IsChain (State.Next (unit.Runs c'))) :
    x.constant = true ∧ ∀ t ∈ s :: ss, unit.Past σ.size t.machine → ∀ (w : World) (signal : Signal) (u : State),
      Exec.advanceCatching.run ⟨w, t.machine⟩ = .ok signal u →
        Globals.get u.world.globals x.index = Globals.get w.globals x.index := by
  obtain ⟨hguarded, hcode⟩ := h.guarded.compile h.built hcompile hsplit hbefore hafter hrun
  have hbound : c'.symbols.outermost.store[name]? = some x := by
    unfold SymbolTable.outermost
    rw [hguarded.isGlobal]
    exact hx
  refine ⟨hguarded.fixes.outermost.constant x hbound hglobal, fun t ht hpast w signal u hturn => ?_⟩
  have hsound : ∀ f, unit.Runs c' f → f.IsSound := fun f hf => h.built.isSound_of_runs hp hcompile hf
  have hstacked := (hs.mono hsound).all_neat (hss.imp fun _ _ hnext => hnext.mono hsound) t ht |>.stacked
  have hconfined := hs.begins.confined hss t ht
  refine Exec.global_of_turn hturn fun fs f hframes hnext => ?_
  have hframes : t.machine.frames = fs.push f := hframes
  obtain ⟨n, hn, hstores⟩ := hstacked.storesFrom hframes hnext
  refine ⟨n, hn, fun heq => ?_⟩
  -- the slot is that of another global
  have hspares : c'.symbols.Spares name n := by
    have hf : unit.Runs c' f.closure.function := (hconfined.frames f (by simp [hframes])).closure
    rcases hf with hmain | ⟨k, hk, hf⟩
    · refine hcode n ?_
      have hlater := hstores.mono (hpast fs f hframes hmain)
      rwa [Frame.code, hmain] at hlater
    · exact hguarded.pool k hk _ hf n (hstores.mono (Nat.zero_le _))
  exact hspares.other x hbound hglobal heq.symm

/-! ## A constant and a variable -/

/-- `const x = true` -/
def constantTrue : Stmt := Build.const "x" (Build.boolean true)

/-- `let y = null` -/
def variableNull : Stmt := Build.bind "y" Build.null

namespace constantTrue

def compiler : Compiler := .new .empty #[] false

def unit : UnitCode := ⟨#[3, 19, 0, 0, 128, 2, 19, 0, 1, 128, 255], #[⟨0, .dummy⟩]⟩

/-- The frame in which the unit runs. -/
def frame : Frame := .enter ⟨0, .main unit.code unit.debug, #[]⟩ 0 .function

/-- A machine that is going to run the unit. -/
def idle : State := ⟨.new #[], .new #[] frame.closure .empty { stackSize := 1 }⟩

/-- A state of the run. -/
def state (globals : Array Value) (ip : Nat) (stack : Array Value) (sp opOffset : Nat) (lastPopped : Value) : State :=
  ⟨{ idle.world with globals }, { idle.machine with frames := #[{ frame with ip }], stack, sp, opOffset, lastPopped }⟩

def started : State := state #[] 0 #[.null] 0 0 .null

def pushed : State := state #[] 1 #[.bool true] 1 0 .null

/-- The constant has its value. -/
def stored : State := state #[.bool true] 4 #[.bool true] 1 1 .null

def dropped : State := state #[.bool true] 5 #[.null] 0 4 (.bool true)

/-- The value of the variable is there. -/
def loaded : State := state #[.bool true] 6 #[.null] 1 5 (.bool true)

def both : State := state #[.bool true, .null] 9 #[.null] 1 6 (.bool true)

end constantTrue

/-- A global is declared under a new name, with the value on top of the stack. -/
def CompileState.declared (σ : CompileState) (name : String) (constant : Bool) (span : Span) : CompileState :=
  (({ σ with
      symbols := ⟨Scope.insert { σ.symbols.current with definitions := σ.symbols.current.definitions + 1 }
        ⟨name, .global, σ.symbols.current.definitions, constant⟩, σ.symbols.outer⟩
    }.emit .setGlobal [σ.symbols.current.definitions] span).emit .pop [] span)

open CompileM in
theorem CompileM.stmt_fresh {σ σ₁ : CompileState} {value : Expr} (name : String) (constant : Bool) (s span : Span)
    (hvalue : expr [] value σ = .ok () σ₁) (hform : ∀ f, value ≠ .function f) (hglobal : σ₁.symbols.isGlobal = true)
    (hfresh : σ₁.symbols.lookup? name = none) (hroom : σ₁.symbols.current.definitions < maxGlobals) :
    stmt [] (.bind ⟨name, s⟩ value constant span) σ = .ok () (σ₁.declared name constant span) := by
  have hdefine := @define_global σ₁ _ _ name constant s (SymbolTable.define_fresh hglobal hfresh constant) rfl hroom
  rw [stmt]
  · exact (bind_eq hvalue).trans ((bind_eq hdefine).trans rfl)
  · exact hform

namespace constantTrue

/-- The constant is compiled. -/
def first : CompileState := (compiler.start.emit .pushTrue [] .dummy).declared "x" true .dummy

/-- The variable is compiled, too. -/
def second : CompileState := (first.emit .null [] .dummy).declared "y" false .dummy

end constantTrue

open CompileM constantTrue in
theorem compile_constantTrue : ∃ c', compiler.compile ⟨[constantTrue, variableNull]⟩ = .ok (unit, c') ∧
    c'.symbols.lookup? "x" = some ⟨"x", .global, 0, true⟩ ∧ c'.pool = #[] ∧
    stmts [] [constantTrue] compiler.start = .ok () first := by
  have hx : expr [] (Build.boolean true) compiler.start = .ok () (compiler.start.emit .pushTrue [] .dummy) := by
    rw [Build.boolean, expr]
    rfl
  have hy : expr [] Build.null first = .ok () (first.emit .null [] .dummy) := by
    rw [Build.null, expr]
    rfl
  have hother : (first.emit .null [] .dummy).symbols.lookup? "y" = none := by
    show (Std.HashMap.insert _ _ _)["y"]? = none
    rw [Std.HashMap.getElem?_insert]
    exact Std.HashMap.getElem?_empty
  have hconstant : stmt [] constantTrue compiler.start = .ok () first :=
    stmt_fresh "x" true .dummy .dummy hx (by simp [Build.boolean]) rfl Std.HashMap.getElem?_empty (by decide)
  have hvariable : stmt [] variableNull first = .ok () second :=
    stmt_fresh "y" false .dummy .dummy hy (by simp [Build.null]) rfl hother (by decide)
  have hstmts : stmts [] [constantTrue, variableNull] compiler.start = .ok () second := by
    rw [stmts, stmts, stmts]
    exact (bind_eq hconstant).trans (bind_eq hvariable)
  have hlink : linkClasses 0 second = .ok () second := rfl
  let σ : CompileState := second.emit .halt [] .dummy
  have hunit : CompileM.unit 0 [constantTrue, variableNull] compiler.start = .ok σ.function.block σ :=
    (bind_eq hstmts).trans ((bind_eq hlink).trans rfl)
  have hcode : (⟨σ.function.block.code, σ.function.block.debug⟩ : UnitCode) = constantTrue.unit :=
    congrArg₂ UnitCode.mk (by decide +kernel) rfl
  refine ⟨compiler.keep σ, ?_, ?_, rfl, ?_⟩
  · unfold Compiler.compile Compiler.attempt EStateM.run
    rw [show compiler.optimizer.run ⟨[constantTrue, variableNull]⟩ = (⟨[constantTrue, variableNull]⟩, ⟨0, 0⟩) from rfl]
    dsimp only
    rw [show CompileM.unit compiler.pool.size [constantTrue, variableNull] compiler.start = _ from hunit, ← hcode]
  · show (Std.HashMap.insert (Std.HashMap.insert _ "x" _) "y" _)["x"]? = _
    rw [Std.HashMap.getElem?_insert, if_neg (by decide), Std.HashMap.getElem?_insert_self]
    rfl
  · rw [stmts, stmts]
    exact (bind_eq hconstant).trans rfl

theorem regular_constantTrue : Regular [constantTrue, variableNull] := by
  let ts : List Term := [.stmt constantTrue, .expr (Build.boolean true), .stmt variableNull, .expr Build.null]
  have hts : ∀ v ∈ ts, ∀ w, w ∈ v.parts ∨ w ∈ v.inner → w ∈ ts := by
    simp [ts, constantTrue, variableNull, Term.parts, Term.inner, Term.ofExpr, Term.ofStmt, Build.boolean, Build.null,
      Build.const, Build.bind]
  intro s hs t ht
  have hmem : t ∈ ts := by
    rcases List.mem_cons.mp hs with rfl | hs
    · exact ht.mem hts List.mem_cons_self
    · rcases List.mem_singleton.mp hs with rfl
      exact ht.mem hts (List.mem_cons_of_mem _ (List.mem_cons_of_mem _ List.mem_cons_self))
  simp only [ts, List.mem_cons, List.not_mem_nil, or_false] at hmem
  refine ⟨?_, ?_, ?_⟩
  · rintro e rfl
    rcases hmem with h | h | h | h <;> cases h <;> exact trivial
  · rintro b c g span rfl
    rcases hmem with h | h | h | h <;> cases h
  · rintro init c u b span rfl
    rcases hmem with h | h | h | h <;> cases h

namespace constantTrue

variable (H : Function → Prop)

theorem over_idle : idle.Over H := by
  refine ⟨⟨Heap.over_empty, ?_, ?_, ?_⟩, .new _ _ nofun⟩
  · simp [idle, World.new]
  · simp [idle, World.new]
  · simp [idle, World.new]

theorem launches (hmain : H frame.closure.function) : started.Launches H := by
  have hnew := Machine.null_new #[] frame.closure .empty { stackSize := 1 }
  exact .block (over_idle H) hnew.1 hnew.2 hmain rfl

set_option maxRecDepth 10000 in
theorem isChain : [started, pushed, stored, dropped, loaded].IsChain (State.Next H) := by
  have hidle := (over_idle H).world
  have hworld (v : Bool) : World.Over H { idle.world with globals := #[.bool v] } :=
    { hidle with globals := fun w hw => by rw [Array.mem_singleton.mp hw]; exact trivial }
  have hpushed : started.Next H pushed := ⟨nofun, _, .next, hidle, rfl, nofun⟩
  have hstored : pushed.Next H stored := ⟨nofun, _, .next, hidle, rfl, nofun⟩
  have hdropped : stored.Next H dropped := ⟨nofun, _, .next, hworld true, rfl, nofun⟩
  have hloaded : dropped.Next H loaded := ⟨nofun, _, .next, hworld true, rfl, nofun⟩
  exact .cons_cons hpushed (.cons_cons hstored (.cons_cons hdropped (.cons_cons hloaded (.singleton _))))

set_option maxRecDepth 10000 in
theorem stores : Exec.advanceCatching.run loaded = .ok .next both := rfl

/-- The first statement is over. -/
theorem past : unit.Past first.size loaded.machine := by
  intro fs f hframes _
  have hsize : first.size = 5 := rfl
  have hlast : f = { frame with ip := 6 } := by
    have hback := congrArg Array.back? hframes
    rw [Array.back?_push] at hback
    exact (Option.some.inj (hback.symm.trans rfl))
  rw [hlast, hsize]
  decide

end constantTrue

open constantTrue in
/-- The constant is declared in the first turns of the run. The turn that stores the variable leaves it as it is. -/
theorem constantTrue_lasts : ∃ c', compiler.compile ⟨[constantTrue, variableNull]⟩ = .ok (unit, c') ∧
    c'.symbols.lookup? "x" = some ⟨"x", .global, 0, true⟩ ∧
    CompileM.stmts [] [constantTrue] compiler.start = .ok () first ∧
    started.Launches (unit.Runs c') ∧ [started, pushed, stored, dropped, loaded].IsChain (State.Next (unit.Runs c')) ∧
    Exec.advanceCatching.run loaded = .ok .next both ∧ both.world.globals = #[.bool true, .null] ∧
    Globals.get both.world.globals 0 = Globals.get loaded.world.globals 0 := by
  obtain ⟨c', hcompile, hx, -, hrun⟩ := compile_constantTrue
  have hlaunches := launches (unit.Runs c') (.inl rfl)
  have hchain := isChain (unit.Runs c')
  have hsplit : compiler.statements ⟨[constantTrue, variableNull]⟩ = [constantTrue] ++ [variableNull] := rfl
  have hconstant : ∀ d ∈ Stmt.declaredAll [constantTrue], d.1 = "x" → d.2 = true := by decide
  have hvariable : ∀ d ∈ Stmt.declaredAll [variableNull], d.1 ≠ "x" := by decide
  have hlasts := Compiler.Fixes.constant_lasts (.new .empty 0 false) (regular_constantTrue.settled nofun) hcompile
    hsplit hconstant hvariable hrun hx rfl hlaunches hchain
  exact ⟨c', hcompile, hx, hrun, hlaunches, hchain, stores, rfl,
    hlasts.2 loaded (by simp) past loaded.world .next both stores⟩

end ScriptMachine
