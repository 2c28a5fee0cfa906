import ScriptMachine.Proofs.Finally.Program
import ScriptMachine.Proofs.Frames.Life

/-!
# Frames of programs

The functions of a unit have layouts, and so have those of the units before it. If no `continue` is stranded in any
of them, the frames of each run lie one above the other, and each frame finds null in the locals to which nothing was
handed over (`Compiler.Built.frames_apart`).
-/

namespace ScriptMachine

open Point

section

variable {us : List (List Stmt)} {c c' : Compiler} {p : Program} {unit : UnitCode}

/-- No `continue` is stranded, neither in the block of the latest unit nor in a function body of any unit. -/
structure Settled (ss : List Stmt) (us : List (List Stmt)) : Prop where
  main : ¬ Site.Strands .top (.unit ss)
  bodies : ∀ b, BodyOf (ss :: us) b → ¬ Site.Strands .top (.body b)

/-- In units that keep to the rules about finally bodies, operators and loops, no `continue` is stranded. -/
theorem Regular.settled {ss : List Stmt} (h : Regular ss) (hus : ∀ u ∈ us, Regular u) : Settled ss us := by
  have hnot {n : Node} (htidy : Site.Tidy .top n) : ¬ Site.Strands .top n := by
    rintro ⟨T, span, l, hwithin, hl, hclosed⟩
    have htarget := (htidy.sound _ hwithin l hl).target rfl
    rw [hclosed] at htarget
    cases htarget
  constructor
  · exact hnot (h.tidy .refl)
  · rintro b ⟨u, hu, hvisits⟩
    rcases List.mem_cons.mp hu with rfl | hu
    · exact hnot (h.tidy hvisits)
    · exact hnot ((hus u hu).tidy hvisits)

/-- Every function that may run is sound. -/
theorem Compiler.Built.isSound_of_runs (h : Built us c) (hp : Settled (c.statements p) us)
    (hcompile : c.compile p = .ok (unit, c')) {f : Function} (hf : unit.Runs c' f) : f.IsSound := by
  rcases h.renders hcompile hf with ⟨n, code, notes, hrenders⟩
  refine ⟨code, ⟨n, notes, hrenders.isBlock, hrenders.lays, ?_⟩, hrenders.holds, hrenders.locals⟩
  rcases hrenders.source with rfl | ⟨b, rfl, hb⟩
  · exact hp.main
  · exact hp.bodies b hb

/-- The pieces of the latest unit and of all function bodies keep to the rules about regions, if `R`, and about heights,
if `H`. -/
structure Orderly (R H : Prop) (ss : List Stmt) (us : List (List Stmt)) : Prop where
  main : Site.Sound R H .top (.unit ss)
  bodies : ∀ b, BodyOf (ss :: us) b → Site.Sound R H .top (.body b)

/-- In units that keep to the rules about finally bodies, operators and loops, no jump leaves a region that was left
before. -/
theorem Regular.orderly {ss : List Stmt} {us : List (List Stmt)} (h : Regular ss) (hus : ∀ u ∈ us, Regular u) :
    Orderly True False ss us := by
  constructor
  · exact Site.Tidy.sound (h.tidy .refl)
  · rintro b ⟨u, hu, hvisits⟩
    rcases List.mem_cons.mp hu with rfl | hu
    · exact Site.Tidy.sound (h.tidy hvisits)
    · exact Site.Tidy.sound ((hus u hu).tidy hvisits)

/-- In an orderly program, a function follows its layout. -/
theorem Function.Renders.follows {G : Grade} {f : Function} {ss : List Stmt} {us : List (List Stmt)} {n : Node}
    {notes : List Note} (h : f.Renders ss us n (G.layout f) notes) (hp : Orderly G.regions G.heights ss us) :
    f.Follows G := by
  refine ⟨⟨n, notes, h.isBlock, h.lays, ?_⟩, h.holds, h.locals⟩
  rcases h.source with rfl | ⟨b, rfl, hb⟩
  · exact hp.main
  · exact hp.bodies b hb

/-- The functions of an orderly program have layouts which they follow. -/
theorem Compiler.Built.exists_layouts {R H : Prop} (h : Built us c) (hp : Orderly R H (c.statements p) us)
    (hcompile : c.compile p = .ok (unit, c')) : ∃ L : Function → List Point, ∀ f, unit.Runs c' f →
    (∃ n notes, f.Renders (c.statements p) us n (L f) notes) ∧ f.Follows ⟨L, R, H⟩ := by
  have hrenders : ∀ f, ∃ code, unit.Runs c' f → ∃ n notes, f.Renders (c.statements p) us n code notes := by
    intro f
    by_cases hf : unit.Runs c' f
    · rcases h.renders hcompile hf with ⟨n, code, notes, hrenders⟩
      exact ⟨code, fun _ => ⟨n, notes, hrenders⟩⟩
    · exact ⟨[], fun hf' => absurd hf' hf⟩
  choose L hL using hrenders
  refine ⟨L, fun f hf => ⟨hL f hf, ?_⟩⟩
  rcases hL f hf with ⟨n, notes, hrenders⟩
  exact Function.Renders.follows (G := ⟨L, R, H⟩) hrenders hp

theorem State.Launches.mono {H H' : Function → Prop} {s : State} (h : s.Launches H) (hH : ∀ f, H f → H' f) :
    s.Launches H' := by
  cases h with
  | block hs hidle hnull hmain hstart =>
    exact .block ⟨hs.world.mono hH, hs.machine.mono hH⟩ hidle hnull (hH _ hmain) hstart
  | call hs hidle hnull hcallee hargs hstart =>
    refine .call ⟨hs.world.mono hH, hs.machine.mono hH⟩ hidle hnull ?_ ?_ hstart
    · exact hcallee.mono fun c hc => hH c.function hc
    · exact fun v hv => (hargs v hv).mono fun c hc => hH c.function hc

/-- In every state of a run the frames are apart from each other, with null from the stack pointer on. A frame is
entered by the begin of the run or by a call in its course: until it is left nothing below it is written, and if it
returns, the stack pointer is just above the slot of its callee; and as long as the frame does not set a local to
which nothing was handed over, this local holds null. -/
theorem Compiler.Built.frames_apart (h : Built us c) (hp : Settled (c.statements p) us)
    (hcompile : c.compile p = .ok (unit, c')) {s : State} {ss : List State} (hs : s.Launches (unit.Runs c'))
    (hss : (s :: ss).IsChain (State.Next (unit.Runs c'))) :
    (∀ t ∈ s :: ss, t.machine.Apart) ∧
    (∀ fs f, s.machine.frames = fs.push f → fs = #[] ∧ f.Lives fs s.machine.stack s.machine (ss.map State.machine)) ∧
    ∀ (t u : State) (rest : List State) (fs : Array Frame) (f : Frame), t :: u :: rest <:+ s :: ss →
      u.machine.frames = fs.push f → t.machine.frames.size ≤ fs.size →
      f.Lives fs t.machine.stack u.machine (rest.map State.machine) := by
  have hsound : ∀ f, unit.Runs c' f → f.IsSound := fun f hf => h.isSound_of_runs hp hcompile hf
  have hs := hs.mono hsound
  have hss := hss.imp fun _ _ hnext => State.Next.mono hnext hsound
  refine ⟨fun t ht => ?_, fun fs f hframes => hs.lives hss hframes, ?_⟩
  · have hneat := hs.all_neat hss t ht
    exact hneat.stacked.apart hneat.null
  · intro t u rest fs f hus hframes hsize
    exact hs.lives_of_call hss hus hframes hsize

end

/-! ## A function that is called at once -/

/-- `fn() { true }()` -/
def calledLiteral : Stmt := Build.expr (Build.call (Build.function none [] [Build.expr (Build.boolean true)]) [])

namespace calledLiteral

def unit : UnitCode := ⟨#[99, 0, 0, 0, 96, 0, 128, 255], #[⟨0, .dummy⟩]⟩

def function : Function := ⟨none, #[3, 97], 0, 0, #[⟨0, .dummy⟩]⟩

/-- The frame in which the unit runs. -/
def frame : Frame := .enter ⟨0, .main unit.code unit.debug, #[]⟩ 0 .function

/-- The frame of the literal. -/
def callee : Frame := .enter ⟨0, function, #[]⟩ 1 .function

/-- A machine that is going to run the unit. -/
def idle : State :=
  ⟨.new #[], .new #[.function 0 function] frame.closure .empty { stackSize := 2 }⟩

/-- A state of the run, with so many closures made. -/
def state (closures : Nat) (frames : Array Frame) (stack : Array Value) (sp opOffset : Nat) : State :=
  ⟨{ idle.world with heap := { idle.world.heap with nextId := closures } },
    { idle.machine with frames, stack, sp, opOffset }⟩

def started : State := state 0 #[frame] #[.null, .null] 0 0

/-- The closure of the literal is on the stack. -/
def made : State := state 1 #[{ frame with ip := 4 }] #[.closure callee.closure, .null] 1 0

def called : State := state 1 #[{ frame with ip := 6 }, callee] #[.closure callee.closure, .null] 1 4

/-- The literal has its result. -/
def computed : State :=
  state 1 #[{ frame with ip := 6 }, { callee with ip := 1 }] #[.closure callee.closure, .bool true] 2 0

def returned : State := state 1 #[{ frame with ip := 6 }] #[.bool true, .null] 1 1

end calledLiteral

theorem compile_calledLiteral :
    ∃ c', (Compiler.new .empty #[] false).compile ⟨[calledLiteral]⟩ = .ok (calledLiteral.unit, c') ∧
      c'.pool = #[.function calledLiteral.function] := by
  apply Exists.intro
  constructor
  · unfold Compiler.compile Compiler.attempt CompileM.unit
    rw [show (Compiler.new .empty #[] false).optimizer.run ⟨[calledLiteral]⟩ = (⟨[calledLiteral]⟩, ⟨0, 0⟩) from rfl]
    simp only [calledLiteral, Build.call, Build.function, Build.boolean, Build.expr, Build.block, List.map,
      CompileM.stmts, CompileM.stmt, CompileM.expr, CompileM.exprs, CompileM.functionLiteral, CompileM.functionBody,
      CompileM.literal]
    rfl
  · rfl

/-- The terms of the statement. -/
def calledLiteral.terms : List Term :=
  [.stmt calledLiteral, .expr (Build.call (Build.function none [] [Build.expr (Build.boolean true)]) []),
    .expr (Build.function none [] [Build.expr (Build.boolean true)]), .stmt (Build.expr (Build.boolean true)),
    .expr (Build.boolean true)]

theorem calledLiteral.mem_terms {t : Term} (h : (Term.stmt calledLiteral).Has True t) : t ∈ calledLiteral.terms := by
  refine h.mem ?_ List.mem_cons_self
  simp [calledLiteral.terms, calledLiteral, Term.parts, Term.inner, Term.ofExpr, Term.ofStmt, Build.call, Build.function,
    Build.boolean, Build.expr, Build.block, Block.terms]

theorem regular_calledLiteral : Regular [calledLiteral] := by
  intro s hs t ht
  rcases List.mem_singleton.mp hs with rfl
  have hmem := calledLiteral.mem_terms ht
  simp only [calledLiteral.terms, List.mem_cons, List.not_mem_nil, or_false] at hmem
  refine ⟨?_, ?_, ?_⟩
  · rintro e rfl
    rcases hmem with h | h | h | h | h <;> cases h <;> exact trivial
  · rintro b c g span rfl
    rcases hmem with h | h | h | h | h <;> cases h
  · rintro init c u b span rfl
    rcases hmem with h | h | h | h | h <;> cases h

namespace calledLiteral

section

variable {H : Function → Prop} (hH : H function)

include hH

theorem over_idle : idle.Over H := by
  refine ⟨⟨Heap.over_empty, ?_, ?_, ?_⟩, .new _ _ fun v hv => ?_⟩
  · simp [idle, World.new]
  · simp [idle, World.new]
  · simp [idle, World.new]
  · rcases List.mem_singleton.mp (Array.mem_toList_iff.mpr hv) with rfl
    refine ⟨trivial, fun id f hf => ?_⟩
    cases hf
    exact hH

theorem launches (hmain : H frame.closure.function) : started.Launches H := by
  have hnew := Machine.null_new #[.function 0 function] frame.closure .empty { stackSize := 2 }
  exact .block (over_idle hH) hnew.1 hnew.2 hmain rfl

set_option maxRecDepth 10000 in
theorem isChain : [started, made, called, computed, returned].IsChain (State.Next H) := by
  have hidle := (over_idle hH).world
  have hworld (n : Nat) : World.Over H { idle.world with heap := { idle.world.heap with nextId := n } } :=
    { hidle with heap := { hidle.heap with } }
  have step {s t : State} {n : Nat} (hw : s.world = { idle.world with heap := { idle.world.heap with nextId := n } })
      (hframes : s.machine.frames ≠ #[]) (hrun : Exec.advanceCatching.run s = .ok .next t) : s.Next H t :=
    ⟨hframes, _, .next, hw ▸ hworld n, hrun, nofun⟩
  have hmade : started.Next H made := step rfl nofun rfl
  have hcalled : made.Next H called := step rfl nofun rfl
  have hcomputed : called.Next H computed := step rfl nofun rfl
  have hreturned : computed.Next H returned := step rfl nofun rfl
  exact .cons_cons hmade (.cons_cons hcalled (.cons_cons hcomputed (.cons_cons hreturned (.singleton _))))

end

end calledLiteral

open calledLiteral in
/-- The literal is called in the second turn of the run and returns in the fourth. -/
theorem calledLiteral_frames_apart : ∃ c',
    (Compiler.new .empty #[] false).compile ⟨[calledLiteral]⟩ = .ok (calledLiteral.unit, c') ∧
    started.Launches (calledLiteral.unit.Runs c') ∧
    [started, made, called, computed, returned].IsChain (State.Next (calledLiteral.unit.Runs c')) ∧
    (∀ t ∈ [started, made, called, computed, returned], t.machine.Apart) ∧
    callee.Lives #[{ frame with ip := 6 }] made.machine.stack called.machine [computed.machine, returned.machine] := by
  rcases compile_calledLiteral with ⟨c', hcompile, hpool⟩
  have hH : calledLiteral.unit.Runs c' function :=
    .inr ⟨.function function, by simp [hpool], List.mem_singleton.mpr rfl⟩
  have hlaunches := launches hH (.inl rfl)
  have hchain := isChain hH
  have happart := Compiler.Built.frames_apart (.new .empty 0 false)
    (regular_calledLiteral.settled nofun) hcompile hlaunches hchain
  refine ⟨c', hcompile, hlaunches, hchain, happart.1, ?_⟩
  exact happart.2.2 made called [computed, returned] _ callee (List.suffix_cons _ _) rfl (Nat.le_refl 1)

end ScriptMachine
