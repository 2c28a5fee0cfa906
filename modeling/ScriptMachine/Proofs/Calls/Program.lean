import ScriptMachine.Proofs.Calls.Arguments
import ScriptMachine.Proofs.Calls.Parameters
import ScriptMachine.Proofs.Frames.Program
import ScriptMachine.Proofs.Machine.Equations

/-!
# Arguments reach their parameters

Arguments go to slots by position, and parameters have slots by name. Where no parameter has the name of another, both
say the same, and each parameter reads its argument. A name that is declared again has no slot of its own, and all
parameters behind it read arguments that were meant for others (`Compiler.Built.arguments_arrive`).
-/

namespace ScriptMachine

/-! ## Reading -/

/-- In the frame `g`, on top of the others, the instruction that reads the local `k` pushes `v`. -/
def State.Loads (s : State) (g : Frame) (k : Nat) (v : Value) : Prop :=
  ∀ (fs : Array Frame) (ip : Nat), operandAt? g.code ip 1 = some k → s.machine.sp < s.machine.stack.size →
    Exec.perform .getLocal ⟨s.world, { s.machine with frames := fs.push { g with ip } }⟩ =
      .ok .next ⟨s.world, { s.machine with
        frames := fs.push { g with ip := ip + 1 }
        stack := s.machine.stack.setIfInBounds s.machine.sp v
        sp := s.machine.sp + 1 }⟩

/-- In the frame `g` the name is compiled to an instruction that pushes `v`, if it is compiled with the table `T`. -/
def State.Reads (s : State) (g : Frame) (T : SymbolTable) (name : String) (v : Value) : Prop :=
  ∃ k constant, (T.resolve name).1 = some ⟨name, .local, k, constant⟩ ∧ k < CompileM.maxLocals ∧ s.Loads g k v

/-- At its begin the frame `g` has been handed the arguments. -/
structure State.Welcomes (s : State) (g : Frame) (receiver : Value) (args : List Value) : Prop where
  start : g.ip = 0
  /-- Only a constructor can be called with any number of arguments. -/
  arity : (∀ object, g.kind ≠ .constructor object) → args.length = g.closure.function.params
  locals : ∀ k < g.closure.function.locals, s.Loads g k ((g.handed receiver args)[k]?.getD .null)
  /-- A name reads what was handed over at the place that it has among the distinct names. -/
  names : ∀ f names T, FunctionLiteral.Becomes f names T g.closure.function →
    ∀ name ∈ names, s.Reads g T name ((g.handed receiver args)[placeOf names name]?.getD .null)
  /-- If all names are distinct, each reads what was handed over for it. -/
  distinct : ∀ f names T, FunctionLiteral.Becomes f names T g.closure.function → names.Nodup →
    ∀ (i : Nat) (name : String), names[i]? = some name → s.Reads g T name ((g.handed receiver args)[i]?.getD .null)

section

variable {s : State} {g : Frame} {k : Nat} {v receiver : Value} {args : List Value}

/-- A local that has not been captured is read from its slot. -/
theorem State.loads_of_getElem? (hcells : g.cells = #[]) (hv : s.machine.stack[g.base + k]? = some v) :
    s.Loads g k v := by
  intro fs ip hk hroom
  have hlt := (Array.getElem?_eq_some_iff.mp hv).1
  let before : State := ⟨s.world, { s.machine with frames := fs.push { g with ip } }⟩
  let after : State := ⟨s.world, { s.machine with frames := fs.push { g with ip := ip + 1 } }⟩
  have hframe : Exec.currentFrame after = .ok { g with ip := ip + 1 } after := Exec.currentFrame_eq rfl
  have hmachine := Exec.getMachine_eq after
  have hoperand : Exec.operand 1 before = .ok k after := @Exec.operand_eq before fs { g with ip } 1 k rfl hk
  have hlocal : Exec.localOperand before = .ok (k, g.base + k) after := by
    refine (Exec.bind_eq hoperand).trans ((Exec.bind_eq hframe).trans ((Exec.bind_eq hmachine).trans ?_))
    rw [if_neg (Nat.not_le.mpr hlt)]
    rfl
  have hslot : Exec.getSlot (g.base + k) after = .ok v after := by
    refine (Exec.bind_eq hmachine).trans ?_
    rw [show after.machine.stack[g.base + k]? = some v from hv]
    rfl
  have hcell : Frame.cell? { g with ip := ip + 1 } k = none := by
    unfold Frame.cell?
    rw [hcells]
    rfl
  have hget : Exec.getLocal before = Exec.push v after := by
    refine (Exec.bind_eq hlocal).trans ((Exec.bind_eq hframe).trans ?_)
    rw [hcell]
    exact Exec.bind_eq hslot
  have hpush := @Exec.push_eq after hroom v
  exact Exec.bind_eq (hget.trans hpush)

/-- What has been received is read by position and by name. -/
theorem Frame.Receives.welcomes {slot : Nat} (h : g.Receives s.machine slot receiver args) :
    s.Welcomes g receiver args := by
  have hlocals : ∀ k < g.closure.function.locals, s.Loads g k ((g.handed receiver args)[k]?.getD .null) :=
    fun k hk => State.loads_of_getElem? h.cells (h.locals k hk)
  have hnames : ∀ f names T, FunctionLiteral.Becomes f names T g.closure.function →
      ∀ name ∈ names, s.Reads g T name ((g.handed receiver args)[placeOf names name]?.getD .null) := by
    intro f names T hf name hname
    rcases hf.declared with ⟨hlists, hfew, hslots, -⟩
    rcases hlists.resolve hname with ⟨constant, hresolve⟩
    have hplace := placeOf_lt hname
    exact ⟨_, constant, hresolve, Nat.lt_of_lt_of_le hplace hfew, hlocals _ (Nat.lt_of_lt_of_le hplace hslots)⟩
  refine ⟨h.start, h.arity, hlocals, hnames, ?_⟩
  intro f names T hf hnodup i name hi
  have hreads := hnames f names T hf name (List.mem_of_getElem? hi)
  rwa [placeOf_of_nodup hnodup hi] at hreads

end

/-- Whatever enters a frame in the course of a run, the caller has put the arguments above the slot of the callee or
receiver, and the frame reads them. The same holds of a run that is the call of a value from outside. -/
theorem Compiler.Built.arguments_arrive {us : List (List Stmt)} {c c' : Compiler} {p : Program} {unit : UnitCode}
    (h : Built us c) (hp : Settled (c.statements p) us) (hcompile : c.compile p = .ok (unit, c')) {s : State}
    {ss : List State} (hs : s.Launches (unit.Runs c')) (hss : (s :: ss).IsChain (State.Next (unit.Runs c'))) :
    (∀ (t u : State) (rest : List State) (fs : Array Frame) (g : Frame), t :: u :: rest <:+ s :: ss →
      u.machine.frames = fs.push g → t.machine.frames.size ≤ fs.size →
      ∃ receiver args, t.machine.Offers g.resultSlot receiver args ∧ u.Welcomes g receiver args) ∧
    ∀ (idle : State) (run : Run) (callee : Value) (args : List Value) (fs : Array Frame) (g : Frame),
      idle.machine.Idle → NullFrom idle.machine.stack idle.machine.sp →
      Run.startCall callee args idle = (.running run, s) → s.machine.frames = fs.push g → s.Welcomes g callee args := by
  have hsound : ∀ f, unit.Runs c' f → f.IsSound := fun f hf => h.isSound_of_runs hp hcompile hf
  have hs := hs.mono hsound
  have hss := hss.imp fun _ _ hnext => State.Next.mono hnext hsound
  refine ⟨?_, ?_⟩
  · intro t u rest fs g hus hframes hsize
    have ht := hs.all_neat hss t (hus.subset List.mem_cons_self)
    rcases List.isChain_cons_cons.mp (hss.suffix hus) with ⟨hnext, -⟩
    rcases hnext.hands ht.stacked ht.null hframes hsize with ⟨receiver, args, hoffers, hreceives⟩
    exact ⟨receiver, args, hoffers, hreceives.welcomes⟩
  · intro idle run callee args fs g hidle hnull hstart hframes
    exact (Run.hands_startCall hidle hnull hstart hframes).welcomes

/-! ## A parameter that is declared twice -/

/-- `fn(a, a, b) { b }(null, false, true)` -/
def repeatedParameter : Stmt :=
  Build.expr (Build.call (Build.function none ["a", "a", "b"] [Build.expr (Build.id "b")])
    [Build.null, Build.boolean false, Build.boolean true])

namespace repeatedParameter

def literal : FunctionLiteral :=
  ⟨none, ["a", "a", "b"].map Build.ident, Build.block [Build.expr (Build.id "b")], .dummy⟩

def block : CodeBlock :=
  .ofItems [⟨.closure, [0, 0], .dummy⟩, ⟨.null, [], .dummy⟩, ⟨.pushFalse, [], .dummy⟩, ⟨.pushTrue, [], .dummy⟩,
    ⟨.call, [3], .dummy⟩, ⟨.pop, [], .dummy⟩, ⟨.halt, [], .dummy⟩]

def unit : UnitCode := ⟨#[99, 0, 0, 0, 2, 4, 3, 96, 3, 128, 255], #[⟨0, .dummy⟩]⟩

/-- It has three parameters, but only two slots. -/
def function : Function := ⟨none, #[16, 1, 97], 2, 3, #[⟨0, .dummy⟩]⟩

/-- The frame in which the unit runs. -/
def frame : Frame := .enter ⟨0, .main unit.code unit.debug, #[]⟩ 0 .function

/-- The frame of the literal. -/
def callee : Frame := .enter ⟨0, function, #[]⟩ 1 .function

/-- A machine that is going to run the unit. -/
def idle : State :=
  ⟨.new #[], .new #[.function 0 function] frame.closure .empty { stackSize := 4 }⟩

/-- A state of the run, with so many closures made. -/
def state (closures : Nat) (frames : Array Frame) (stack : Array Value) (sp opOffset : Nat) : State :=
  ⟨{ idle.world with heap := { idle.world.heap with nextId := closures } },
    { idle.machine with frames, stack, sp, opOffset }⟩

def started : State := state 0 #[frame] #[.null, .null, .null, .null] 0 0

def closure : Value := .closure callee.closure

/-- The closure of the literal is on the stack. -/
def made : State := state 1 #[{ frame with ip := 4 }] #[closure, .null, .null, .null] 1 0

def first : State := state 1 #[{ frame with ip := 5 }] #[closure, .null, .null, .null] 2 4

def second : State := state 1 #[{ frame with ip := 6 }] #[closure, .null, .bool false, .null] 3 5

/-- All arguments are there. -/
def third : State := state 1 #[{ frame with ip := 7 }] #[closure, .null, .bool false, .bool true] 4 6

def called : State :=
  state 1 #[{ frame with ip := 9 }, callee] #[closure, .null, .bool false, .null] 3 7

end repeatedParameter

namespace CompileM

theorem resolve_bound {σ : CompileState} {name : String} {x : Symbol} {span : Span}
    (hx : σ.symbols.lookup? name = some x) : resolve name span σ = .ok x σ := by
  let f : CompileState → Option Symbol × CompileState := fun s =>
    ((s.symbols.resolve name).1, { s with symbols := (s.symbols.resolve name).2 })
  have hfirst : (modifyGet f : CompileM (Option Symbol)) σ = .ok (some x) σ := by
    show EStateM.Result.ok (σ.symbols.resolve name).1 { σ with symbols := (σ.symbols.resolve name).2 } = _
    unfold SymbolTable.resolve
    rw [SymbolTable.resolveFrom_of_bound hx]
  exact bind_eq hfirst

/-- A body is compiled in a scope of its own. -/
theorem inFunction_eq {m : CompileM Unit} {σ τ : CompileState} (h : m (inside σ) = .ok () τ) :
    inFunction m σ = .ok ⟨τ.function.block, τ.symbols.current.definitions, τ.symbols.current.free.toList⟩
      { τ with function := σ.function, symbols := (τ.symbols.leave?).getD .empty } := by
  have hget : ∀ υ : CompileState, (get : CompileM CompileState) υ = .ok υ υ := fun _ => rfl
  have henter : (modify fun s => { s with function := .body, symbols := s.symbols.enclose } : CompileM PUnit) σ =
      .ok () (inside σ) := rfl
  refine (bind_eq (hget σ)).trans ((bind_eq henter).trans ((bind_eq h).trans ((bind_eq (hget τ)).trans ?_)))
  rfl

end CompileM

namespace repeatedParameter

open CompileM

/-- The body reads the second slot. -/
theorem functionBody_literal {τ : CompileState} {constant : Bool}
    (hb : τ.symbols.lookup? "b" = some ⟨"b", .local, 1, constant⟩) (hτ : τ.function = .body) :
    functionBody literal.body τ = .ok () { τ with
      function := ⟨.ofItems [⟨.getLocal, [1], .dummy⟩, ⟨.returnValue, [], .dummy⟩], [], true⟩ } := by
  have hload : load ⟨"b", .local, 1, constant⟩ .dummy τ = .ok () (τ.emit .getLocal [1] .dummy) := rfl
  have hexpr : expr [] (Build.id "b") τ = .ok () (τ.emit .getLocal [1] .dummy) := by
    rw [Build.id, expr]
    exact (bind_eq (resolve_bound hb)).trans hload
  have hstmts : stmts [] [Build.expr (Build.id "b")] τ =
      .ok () ((τ.emit .getLocal [1] .dummy).emit .pop [] .dummy) := by
    rw [stmts, stmts, Build.expr, stmt, bind_assoc]
    exact (bind_eq hexpr).trans rfl
  rw [literal, Build.block, functionBody]
  refine (bind_eq hstmts).trans ?_
  unfold CompileState.emit
  rw [hτ]
  rfl

/-- In any scope the literal becomes the function. -/
theorem functionLiteral_literal (σ : CompileState) (hroom : σ.pool.size < Pool.capacity) :
    ∃ symbols : SymbolTable, openLiteral literal none (inside σ) = .ok () { inside σ with symbols } ∧
      functionLiteral literal none σ = .ok ()
        ({ σ with pool := σ.pool.push (.function function) }.emit .closure [σ.pool.size, 0] .dummy) := by
  obtain ⟨symbols, hparams, hlists, houter, hfree⟩ :=
    @defineParams_eq (inside σ) [] literal.params σ.symbols.lists_enclose (by decide)
  have hopen : openLiteral literal none (inside σ) = .ok () { inside σ with symbols } := hparams
  refine ⟨symbols, hopen, ?_⟩
  rcases hlists.found "b" (by decide) with ⟨constant, hb⟩
  let block : CodeBlock := .ofItems [⟨.getLocal, [1], .dummy⟩, ⟨.returnValue, [], .dummy⟩]
  let τ : CompileState := { inside σ with symbols, function := ⟨block, [], true⟩ }
  have hrun : (openLiteral literal none >>= fun _ => functionBody literal.body) (inside σ) = .ok () τ :=
    (bind_eq hopen).trans (functionBody_literal (τ := { inside σ with symbols }) hb rfl)
  have hinner : inFunction (openLiteral literal none >>= fun _ => functionBody literal.body) σ =
      .ok ⟨block, 2, []⟩ σ := by
    have hlocals : symbols.current.definitions = 2 := hlists.definitions
    have hleave : symbols.leave? = some σ.symbols := by
      unfold SymbolTable.leave?
      rw [houter]
      rfl
    rw [inFunction_eq hrun, show τ.symbols = symbols from rfl, hlocals, hleave, hfree]
    rfl
  have hplace : addConstant (.function function) .dummy σ =
      .ok σ.pool.size { σ with pool := σ.pool.push (.function function) } := by
    have hget : (get : CompileM CompileState) σ = .ok σ σ := rfl
    refine (bind_eq hget).trans ?_
    rw [if_neg (Nat.not_le.mpr hroom)]
    rfl
  have hcaptures : captureAll .dummy [] σ = .ok () σ := rfl
  rw [functionLiteral_eq]
  exact (bind_eq hinner).trans ((bind_eq hcaptures).trans (bind_eq hplace))

/-- A compiler that has not compiled anything. -/
def compiler : Compiler := .new .empty #[] false

end repeatedParameter

open CompileM repeatedParameter in
theorem compile_repeatedParameter : ∃ c', compiler.compile ⟨[repeatedParameter]⟩ = .ok (repeatedParameter.unit, c') ∧
    c'.pool = #[.function function] := by
  obtain ⟨symbols, -, hliteral⟩ := functionLiteral_literal compiler.start (by decide)
  let σ : CompileState := { compiler.start with pool := #[.function function] }.emit .closure [0, 0] .dummy
  have hcallee : expr [] (Build.function none ["a", "a", "b"] [Build.expr (Build.id "b")]) compiler.start =
      .ok () σ := by
    rw [Build.function, expr]
    exact hliteral
  have hargs : exprs [] [Build.null, Build.boolean false, Build.boolean true] σ =
      .ok () (((σ.emit .null [] .dummy).emit .pushFalse [] .dummy).emit .pushTrue [] .dummy) := by
    simp only [exprs, Build.null, Build.boolean, expr, CompileM.literal]
    rfl
  let σ' : CompileState := (((σ.emit .null [] .dummy).emit .pushFalse [] .dummy).emit .pushTrue [] .dummy)
  have hstmts : stmts [] [repeatedParameter] compiler.start =
      .ok () ((σ'.emit .call [3] .dummy).emit .pop [] .dummy) := by
    rw [repeatedParameter, Build.call, Build.expr, stmts, stmts, stmt, expr]
    · simp only [bind_assoc]
      refine (bind_eq hcallee).trans ?_
      exact (bind_eq (m := checkArgs _ _) rfl).trans ((bind_eq hargs).trans rfl)
    · intro target member span h
      cases h
    · intro name span h
      cases h
  let σ'' : CompileState := ((σ'.emit .call [3] .dummy).emit .pop [] .dummy).emit .halt [] .dummy
  have hlink : linkClasses 0 ((σ'.emit .call [3] .dummy).emit .pop [] .dummy) =
      .ok () ((σ'.emit .call [3] .dummy).emit .pop [] .dummy) := rfl
  have hunit : CompileM.unit 0 [repeatedParameter] compiler.start = .ok σ''.function.block σ'' :=
    (bind_eq hstmts).trans ((bind_eq hlink).trans rfl)
  have hblock : σ''.function.block = repeatedParameter.block := rfl
  have hcode : (⟨repeatedParameter.block.code, repeatedParameter.block.debug⟩ : UnitCode) = repeatedParameter.unit :=
    rfl
  refine ⟨compiler.keep σ'', ?_, rfl⟩
  unfold Compiler.compile Compiler.attempt EStateM.run
  rw [show compiler.optimizer.run ⟨[repeatedParameter]⟩ = (⟨[repeatedParameter]⟩, ⟨0, 0⟩) from rfl]
  dsimp only
  rw [show CompileM.unit compiler.pool.size [repeatedParameter] compiler.start = _ from hunit, ← hcode, ← hblock]

theorem regular_repeatedParameter : Regular [repeatedParameter] := by
  let f : Expr := Build.function none ["a", "a", "b"] [Build.expr (Build.id "b")]
  let ts : List Term := [.stmt (Build.expr (Build.id "b")), .expr (Build.id "b"), .expr Build.null,
    .expr (Build.boolean false), .expr (Build.boolean true)]
  have hts : ∀ v ∈ ts, ∀ w, w ∈ v.parts ∨ w ∈ v.inner → w ∈ ts := by
    simp [ts, Term.parts, Term.inner, Term.ofExpr, Term.ofStmt, Build.boolean, Build.null, Build.id, Build.expr]
  let us : List Term := .stmt repeatedParameter ::
    .expr (Build.call f [Build.null, Build.boolean false, Build.boolean true]) :: .expr f :: ts
  have hus : ∀ v ∈ us, ∀ w, w ∈ v.parts ∨ w ∈ v.inner → w ∈ us := by
    refine List.forall_mem_cons.mpr ⟨?_, List.forall_mem_cons.mpr ⟨?_, List.forall_mem_cons.mpr ⟨?_, ?_⟩⟩⟩
    · simp [us, f, repeatedParameter, Term.parts, Term.inner, Term.ofStmt, Build.expr]
    · simp [us, ts, Term.parts, Term.inner, Term.ofExpr, Build.call]
    · simp [us, ts, f, Term.parts, Term.inner, Term.ofExpr, Build.function, Build.block, Block.terms]
    · exact fun v hv w hw => List.mem_cons_of_mem _ (List.mem_cons_of_mem _ (List.mem_cons_of_mem _ (hts v hv w hw)))
  intro s hs t ht
  rcases List.mem_singleton.mp hs with rfl
  have hmem := ht.mem hus List.mem_cons_self
  simp only [us, ts, List.mem_cons, List.not_mem_nil, or_false] at hmem
  refine ⟨?_, ?_, ?_⟩
  · rintro e rfl
    rcases hmem with h | h | h | h | h | h | h | h <;> cases h <;> exact trivial
  · rintro b c g span rfl
    rcases hmem with h | h | h | h | h | h | h | h <;> cases h
  · rintro init c u b span rfl
    rcases hmem with h | h | h | h | h | h | h | h <;> cases h

namespace repeatedParameter

section

variable {H : Function → Prop} (hH : H function)

include hH

theorem over_idle : idle.Over H := by
  refine ⟨⟨Heap.over_empty, ?_, ?_, ?_⟩, .new _ _ fun v hv => ?_⟩
  · simp [idle, World.new]
  · simp [idle, World.new]
  · simp [idle, World.new]
  · rcases List.mem_singleton.mp (Array.mem_toList_iff.mpr hv) with rfl
    refine ⟨trivial, fun id f hf => ?_⟩
    cases hf
    exact hH

theorem launches (hmain : H frame.closure.function) : started.Launches H := by
  have hnew := Machine.null_new #[.function 0 function] frame.closure .empty { stackSize := 4 }
  exact .block (over_idle hH) hnew.1 hnew.2 hmain rfl

set_option maxRecDepth 10000 in
theorem isChain : [started, made, first, second, third, called].IsChain (State.Next H) := by
  have hidle := (over_idle hH).world
  have hworld (n : Nat) : World.Over H { idle.world with heap := { idle.world.heap with nextId := n } } :=
    { hidle with heap := { hidle.heap with } }
  have step {s t : State} {n : Nat} (hw : s.world = { idle.world with heap := { idle.world.heap with nextId := n } })
      (hframes : s.machine.frames ≠ #[]) (hrun : Exec.advanceCatching.run s = .ok .next t) : s.Next H t :=
    ⟨hframes, _, .next, hw ▸ hworld n, hrun, nofun⟩
  have hmade : started.Next H made := step rfl nofun rfl
  have hfirst : made.Next H first := step rfl nofun rfl
  have hsecond : first.Next H second := step rfl nofun rfl
  have hthird : second.Next H third := step rfl nofun rfl
  have hcalled : third.Next H called := step rfl nofun rfl
  have hrest : [second, third, called].IsChain (State.Next H) := .cons_cons hthird (.cons_cons hcalled (.singleton _))
  exact .cons_cons hmade (.cons_cons hfirst (.cons_cons hsecond hrest))

end

/-- The literal declares two names for three parameters. -/
theorem becomes : ∃ T, literal.Becomes ["a", "a", "b"] T function := by
  obtain ⟨symbols, hopen, hrun⟩ := functionLiteral_literal compiler.start (by decide)
  have hempty : compiler.start.pool = #[] := rfl
  have hok : compiler.start.Ok (.upTo 0) := by
    constructor
    · exact ⟨Scope.bounded_empty 0, rfl⟩
    · simp [hempty, Pool.From]
    · exact fun c hc => nomatch hc
    · simp [hempty]
  exact ⟨symbols, .literal hok hrun rfl hopen⟩

theorem offers : third.machine.Offers 0 closure [.null, .bool false, .bool true] := by
  refine ⟨⟨{ frame with ip := 7 }, 0, rfl, .call rfl rfl, rfl⟩, rfl, ?_⟩
  intro i v hv
  match i with
  | 0 | 1 | 2 =>
    cases hv
    rfl
  | i + 3 => cases hv

/-- What is offered can be read off the stack. -/
theorem args_eq {receiver : Value} {args : List Value} (h : third.machine.Offers 0 receiver args)
    (hlength : args.length = 3) : args = [.null, .bool false, .bool true] := by
  match args, hlength, h.args with
  | [x, y, z], _, hargs =>
    have hx := hargs 0 x rfl
    have hy := hargs 1 y rfl
    have hz := hargs 2 z rfl
    cases hx
    cases hy
    cases hz
    rfl

end repeatedParameter

open repeatedParameter in
/-- The literal is called in the fifth turn. Its second name is that of the third parameter, and reads the second
argument. -/
theorem repeatedParameter_arguments_arrive : ∃ c', compiler.compile ⟨[repeatedParameter]⟩ = .ok (unit, c') ∧
    started.Launches (unit.Runs c') ∧
    [started, made, first, second, third, called].IsChain (State.Next (unit.Runs c')) ∧
    called.Welcomes callee closure [.null, .bool false, .bool true] ∧
    ∃ T, literal.Becomes ["a", "a", "b"] T function ∧ called.Reads callee T "b" (.bool false) := by
  rcases compile_repeatedParameter with ⟨c', hcompile, hpool⟩
  have hH : unit.Runs c' function := .inr ⟨.function function, by simp [hpool], List.mem_singleton.mpr rfl⟩
  have hlaunches := launches hH (.inl rfl)
  have hchain := isChain hH
  have harrive := Compiler.Built.arguments_arrive (.new .empty 0 false) (regular_repeatedParameter.settled nofun)
    hcompile hlaunches hchain
  have hsuffix : [third, called] <:+ [started, made, first, second, third, called] :=
    ⟨[started, made, first, second], rfl⟩
  rcases harrive.1 third called [] #[{ frame with ip := 9 }] callee hsuffix rfl (Nat.le_refl 1) with
    ⟨receiver, args, hoffers, hwelcomes⟩
  have hargs := args_eq hoffers (hwelcomes.arity nofun)
  have hreceiver : receiver = closure := hoffers.receiver.symm
  subst hargs hreceiver
  obtain ⟨T, hT⟩ := becomes
  have hreads := hwelcomes.names literal _ T hT "b" (by decide)
  exact ⟨c', hcompile, hlaunches, hchain, hwelcomes, T, hT, hreads⟩

open repeatedParameter in
/-- No later parameter has the name of the third one, and still it does not read the third argument. -/
theorem repeatedParameter_misses_argument : ∃ c', compiler.compile ⟨[repeatedParameter]⟩ = .ok (unit, c') ∧
    started.Launches (unit.Runs c') ∧
    [started, made, first, second, third, called].IsChain (State.Next (unit.Runs c')) ∧
    third.machine.Offers callee.resultSlot closure [.null, .bool false, .bool true] ∧
    ∃ T, literal.Becomes ["a", "a", "b"] T function ∧ ¬ called.Reads callee T "b" (.bool true) := by
  rcases compile_repeatedParameter with ⟨c', hcompile, hpool⟩
  have hH : unit.Runs c' function := .inr ⟨.function function, by simp [hpool], List.mem_singleton.mpr rfl⟩
  obtain ⟨T, hT⟩ := becomes
  refine ⟨c', hcompile, launches hH (.inl rfl), isChain hH, offers, T, hT, ?_⟩
  rintro ⟨k, constant, hresolve, -, hthird⟩
  have hname : "b" ∈ ["a", "a", "b"] := by decide
  rcases hT.declared.1.resolve hname with ⟨_, hplace⟩
  rw [hresolve] at hplace
  cases hplace
  -- the same instruction would push two values
  have hsecond : called.Loads callee 1 (.bool false) := State.loads_of_getElem? rfl rfl
  have hboth := (hsecond #[] 1 rfl (by decide)).symm.trans (hthird #[] 1 rfl (by decide))
  injection hboth with _ hstates
  have hslots := congrArg (fun s => s.machine.stack[3]?) hstates
  cases hslots

end ScriptMachine
