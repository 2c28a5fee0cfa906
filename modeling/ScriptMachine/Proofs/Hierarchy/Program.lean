import ScriptMachine.Proofs.Calls.Program
import ScriptMachine.Proofs.Hierarchy.Dispatch
import ScriptMachine.Proofs.Hierarchy.Units

/-!
# Classes in the course of a run

A call of a class or of a method does what the classes say (`Callee.Served`), the new frame reads the arguments
(`State.Welcomes`), and when the frame of a constructor is left, the new object is in place of the class that was
called, whatever the constructor returns. Which class a call through `super` begins at is decided when it is compiled:
the class around it is a constant of the code, and the lookup begins at its parent
(`Compiler.Built.classes_rule`).
-/

namespace ScriptMachine

/-! ## Results of frames -/

/-- A turn leaves the frame `f` with `v` in place of what was called, or with a value that is thrown to a frame further
down. -/
inductive Machine.Results (m : Machine) (fs : Array Frame) (f : Frame) (v : Value) (m' : Machine) : Prop where
  | returns : m'.frames = fs → m'.sp = f.resultSlot + 1 → m'.stack[f.resultSlot]? = some v → Results m fs f v m'
  | unwinds {h : Handler} : m.handlers = h :: m'.handlers → m'.frames.size = h.depth → h.depth ≤ fs.size →
    Results m fs f v m'

/-- A frame outlives a turn, or the turn leaves it with its answer. -/
def Machine.Keeps (m m' : Machine) : Prop :=
  ∀ fs f, f.On fs m.frames → f.On fs m'.frames ∨ ∃ v, m.Results fs f (f.answer v) m'

/-- The frame `f` is left in the next turn, with `v` as its result. -/
def Frame.ResultsIn (f : Frame) (fs : Array Frame) (v : Value) : List Machine → Prop
  | m :: m' :: _ => m.Results fs f v m'
  | _ => False

section

variable {m m' : Machine} {s t : State} {fs ks : Array Frame} {f g : Frame} {v : Value}

theorem Frame.Same.answer (h : f.Same g) (v : Value) : g.answer v = f.answer v := by
  unfold Frame.answer
  rw [h.kind]

/-- A throw that leaves the running frame goes to one further down. -/
theorem Machine.Throws.results {low : Nat} {u : Value} (h : m.Throws ks g low u m') (hfs : fs.size ≤ ks.size)
    (hsize : m'.frames.size ≤ fs.size) (v : Value) : m.Results fs f v m' := by
  obtain ⟨k, target, hcons, -, -, -, f', g', fs', -, hextract, hframes⟩ := h.handler
  have hdepth := congrArg Array.size hextract
  rw [hframes, Array.size_push] at hsize
  simp only [Array.size_extract, Array.size_push] at hdepth
  refine .unwinds hcons ?_ ?_
  · rw [hframes, Array.size_push]
    omega
  · omega

namespace State.Next

variable (h : s.Next Function.IsSound t) (hs : s.Neat)

include h hs

/-- A turn that leaves the running frame leaves it with its answer. -/
theorem results (hframes : s.machine.frames = ks.push g) (hfs : fs.size ≤ ks.size)
    (hsize : t.machine.frames.size ≤ fs.size) (f : Frame) :
    (∃ v, t.machine.frames = ks ∧ t.machine.sp = g.resultSlot + 1 ∧
      t.machine.stack[g.resultSlot]? = some (g.answer v)) ∨ ∀ v, s.machine.Results fs f v t.machine := by
  have grows {n : Nat} (hn : t.machine.frames.size = n + 1) (hle : ks.size ≤ n) : False := by omega
  cases hw : s.machine.waiting with
  | some wait =>
    rcases (h.waits hframes hw).1 with hworks | ⟨u, hthrows⟩
    · exact (grows hworks.size_frames (Nat.le_refl _)).elim
    · exact .inr (hthrows.results hfs hsize)
  | none =>
    obtain ⟨_, _, _, _, _, _, hturns, -⟩ := h.turns hs.stacked hframes hw
    cases hturns with
    | works _ hworks | jumps _ hworks | branches _ _ hworks | opens _ hworks | closes _ hworks
    | resumes _ _ hworks => exact (grows hworks.size_frames (Nat.le_refl _)).elim
    | enters _ henters =>
      obtain ⟨g', k, hframes', -⟩ := henters.frames
      refine (grows (n := ks.size + 1) ?_ (Nat.le_succ _)).elim
      rw [hframes', Array.size_push, Array.size_push]
    | returns _ hreturns => exact .inl ⟨_, hreturns.frames, hreturns.sp, hreturns.result⟩
    | throws _ _ _ hthrows => exact .inr (hthrows.results hfs hsize)

/-- Frames further down than the running one are not left in a return. -/
theorem keeps : s.machine.Keeps t.machine := by
  intro fs f hon
  obtain ⟨ks, g, hframes⟩ := Array.eq_push_of_size_ne_zero (mt Array.eq_empty_of_size_eq_zero h.1)
  have hlt := hon.size_lt
  rw [hframes, Array.size_push] at hlt
  rcases (h.advances hs).passes hon with hkeeps | ⟨hleft, -⟩ | ⟨k, hcons, hsize, hdepth⟩
  · exact .inl hkeeps
  · rcases h.results hs hframes (Nat.le_of_lt_succ hlt) (Nat.le_of_eq (congrArg Array.size hleft)) f with
      ⟨v, hks, hsp, hresult⟩ | hunwinds
    · rw [hframes] at hon
      rcases hon.of_push with ⟨-, hsame⟩ | hfar
      · rw [hsame.resultSlot] at hsp hresult
        rw [hsame.answer] at hresult
        exact .inr ⟨v, .returns hleft hsp hresult⟩
      · rw [← hks, hleft] at hfar
        exact absurd hfar.size_lt (Nat.lt_irrefl _)
    · exact .inr ⟨.null, hunwinds _⟩
  · exact .inr ⟨.null, .unwinds hcons hsize hdepth⟩

end State.Next

/-- The frame of a constructor is there until it is left with the object. -/
theorem Frame.On.results_constructor {ms : List Machine} {object : Value} (h : f.On fs m.frames)
    (hkind : f.kind = .constructor object) (hms : (m :: ms).IsChain Machine.Keeps) :
    Until (fun m => f.On fs m.frames) (f.ResultsIn fs object) (m :: ms) := by
  refine .of_steps (R := fun x y => x.Results fs f object y) hms h ?_ fun _ _ _ hresults => hresults
  intro x y hkeeps hx
  rcases hkeeps fs f hx with hy | ⟨v, hresults⟩
  · exact .inl hy
  · have hanswer : f.answer v = object := by
      unfold Frame.answer
      rw [hkind]
    exact .inr (hanswer ▸ hresults)

end

/-! ## Calls in a run -/

/-- What a call comes to in a run of which `u` is the state after the call and `us` are those that follow. -/
structure Callee.Plays (callee : Callee) (m : Machine) (fs : Array Frame) (f : Frame) (slot : Nat) (args : List Value)
    (u : State) (us : List State) : Prop where
  served : callee.Served u fs f slot args
  /-- The frame that is entered reads the arguments. -/
  welcomes : ∀ (gs : Array Frame) (g : Frame), u.machine.frames = gs.push g → m.frames.size ≤ gs.size →
    u.Welcomes g (m.slot slot) args
  /-- The frame of a constructor is there until it is left with the new object in place of what was called. -/
  results : ∀ (gs : Array Frame) (g : Frame) (object : Value), u.machine.frames = gs.push g →
    m.frames.size ≤ gs.size → g.kind = .constructor object → g.resultSlot = slot ∧
      Until (fun m => g.On gs m.frames) (g.ResultsIn gs object) (u.machine :: us.map State.machine)

section

variable {s : State} {m : Machine} {fs : Array Frame} {f : Frame} {slot argc more argc' more' : Nat} {callee : Callee}
  {receiver v : Value} {args : List Value}

/-- An instruction asks for so many arguments. -/
theorem Frame.Asks.unique (h : f.Asks argc more) (h' : f.Asks argc' more') : argc = argc' ∧ more = more' := by
  have differ {op op' : Opcode} (hop : f.code[f.ip]? = some op.toByte) (hop' : f.code[f.ip]? = some op'.toByte) :
      op.toByte = op'.toByte := Option.some.inj (hop.symm.trans hop')
  cases h with
  | call hcode hargc =>
    cases h' with
    | call _ hargc' => exact ⟨Option.some.inj (hargc.symm.trans hargc'), rfl⟩
    | invoke hcode' _ => exact absurd (differ hcode hcode') (by decide)
    | invokeSuper hcode' _ => exact absurd (differ hcode hcode') (by decide)
  | invoke hcode hargc =>
    cases h' with
    | call hcode' _ => exact absurd (differ hcode hcode') (by decide)
    | invoke _ hargc' => exact ⟨Option.some.inj (hargc.symm.trans hargc'), rfl⟩
    | invokeSuper hcode' _ => exact absurd (differ hcode hcode') (by decide)
  | invokeSuper hcode hargc =>
    cases h' with
    | call hcode' _ => exact absurd (differ hcode hcode') (by decide)
    | invoke hcode' _ => exact absurd (differ hcode hcode') (by decide)
    | invokeSuper _ hargc' => exact ⟨Option.some.inj (hargc.symm.trans hargc'), rfl⟩

theorem State.Applies.asks (h : s.Applies f slot argc v) : f.Asks argc 0 := by
  cases h with
  | call hcode hargc => exact .call hcode hargc
  | field hnames => exact .invoke hnames.opcode hnames.argc

/-- What is called lies below the arguments that the instruction asks for. -/
theorem State.Addresses.asks (h : s.Addresses f slot argc callee) :
    ∃ more, f.Asks argc more ∧ s.machine.sp = slot + 1 + argc + more := by
  cases h with
  | construct hsp happlies => exact ⟨0, happlies.asks, hsp⟩
  | method hsp hnames => exact ⟨0, .invoke hnames.opcode hnames.argc, hsp⟩
  | super hsp hnames => exact ⟨1, .invokeSuper hnames.opcode hnames.argc, hsp⟩

/-- What is offered can be read off the stack. -/
theorem Machine.Offers.args_eq {slot' : Nat} (h : m.Offers slot' receiver args) (hframes : m.frames = fs.push f)
    (hasks : f.Asks argc more) (hsp : m.sp = slot + 1 + argc + more) :
    slot' = slot ∧ receiver = m.slot slot ∧ args = m.above slot argc := by
  obtain ⟨f', more', hback, hasks', hsp'⟩ := h.asks
  rw [hframes, Array.back?_push] at hback
  cases hback
  obtain ⟨hlength, rfl⟩ := hasks'.unique hasks
  obtain rfl : slot' = slot := by omega
  refine ⟨rfl, h.receiver.symm, List.ext_getElem? fun i => ?_⟩
  rcases Nat.lt_or_ge i args.length with hlt | hge
  · rw [List.getElem?_eq_getElem hlt, Machine.getElem?_above (hlength ▸ hlt)]
    exact congrArg some (h.args i _ (List.getElem?_eq_getElem hlt)).symm
  · rw [List.getElem?_eq_none hge, List.getElem?_eq_none (by rw [Machine.length_above]; omega)]

/-- A call that a run takes comes to what it should. -/
theorem State.Launches.plays {ss us : List State} {t u : State} {w : World} {signal : Signal}
    (h : s.Launches Function.IsSound) (hss : (s :: ss).IsChain (State.Next Function.IsSound))
    (hus : t :: u :: us <:+ s :: ss) (hframes : t.machine.frames = fs.push f) (hw : t.machine.waiting = none)
    (hrun : Exec.advanceCatching.run ⟨w, t.machine⟩ = .ok signal u)
    (haddresses : State.Addresses ⟨w, t.machine⟩ f slot argc callee) :
    callee.Plays t.machine fs f slot (t.machine.above slot argc) u us := by
  have ht := h.all_neat hss t (hus.subset List.mem_cons_self)
  obtain ⟨hnext, hrest⟩ := List.isChain_cons_cons.mp (hss.suffix hus)
  obtain ⟨more, hasks, hsp⟩ := haddresses.asks
  have hserved := (haddresses.served hframes hw).ok hrun
  refine ⟨hserved, fun gs g hg hsize => ?_, fun gs g object hg hsize hkind => ⟨?_, ?_⟩⟩
  · obtain ⟨receiver, args, hoffers, hreceives⟩ := hnext.hands ht.stacked ht.null hg hsize
    obtain ⟨-, rfl, rfl⟩ := hoffers.args_eq hframes hasks hsp
    exact hreceives.welcomes
  · obtain ⟨receiver, args, hoffers, -⟩ := hnext.hands ht.stacked ht.null hg hsize
    exact (hoffers.args_eq hframes hasks hsp).1
  · have hon : g.On gs u.machine.frames := by
      rw [hg]
      exact .top ⟨rfl, rfl, rfl⟩
    refine hon.results_constructor hkind ?_
    have hneat := h.all_neat hss
    rw [← List.map_cons, List.isChain_map]
    refine hrest.imp_of_mem_imp fun x y hx _ hxy => hxy.keeps (hneat x ?_)
    exact hus.subset (List.mem_cons_of_mem t hx)

end

/-! ## Calls through `super` -/

/-- What has been compiled ends with the class around it, which has a parent, and a call of a method of this name that
pops this class. -/
def CompileState.CallsSuper (σ : CompileState) (name : String) (argc : Nat) (σ' : CompileState) : Prop :=
  ∃ ctx outer before k span, σ.classes = ctx :: outer ∧ ctx.hasParent = true ∧
    σ'.items = before ++ [⟨.constant, [ctx.constant], span⟩, ⟨.invokeSuper, [k, argc], span⟩] ∧
    σ'.pool[k]? = some (.str name)

namespace CompileM

variable {σ σ' : CompileState} {span superSpan : Span}

theorem superClass_eq {ctx : ClassContext} (h : superClass span σ = .ok ctx σ') :
    (∃ outer, σ.classes = ctx :: outer) ∧ ctx.hasParent = true ∧ σ = σ' := by
  obtain ⟨s, σ₁, hget, hrest⟩ := bind_ok h
  obtain ⟨rfl, rfl⟩ := get_ok hget
  cases hclasses : σ.classes with
  | nil =>
    simp only [hclasses] at hrest
    exact (fail_ok hrest).elim
  | cons ctx' outer =>
    simp only [hclasses] at hrest
    split at hrest
    · next hparent =>
      obtain ⟨rfl, rfl⟩ := pure_ok hrest
      exact ⟨⟨outer, rfl⟩, hparent, rfl⟩
    · exact (fail_ok hrest).elim

theorem superCall_ok {regions : Regions} {method : Ident} {args : List Expr}
    (h : expr regions (.call (.super method superSpan) args span) σ = .ok () σ') :
    σ.CallsSuper method.name args.length σ' := by
  rw [expr] at h
  obtain ⟨ctx, σ₁, hclass, hrest⟩ := bind_ok h
  obtain ⟨⟨outer, hclasses⟩, hparent, rfl⟩ := superClass_eq hclass
  obtain ⟨_, σ₂, -, hrest⟩ := bind_ok hrest
  obtain ⟨_, σ₃, -, hrest⟩ := bind_ok hrest
  obtain ⟨_, σ₄, -, hrest⟩ := bind_ok hrest
  obtain ⟨_, σ₅, hput, hrest⟩ := bind_ok hrest
  obtain ⟨k, σ₆, hadd, hlast⟩ := bind_ok hrest
  obtain rfl := put_ok hput
  obtain ⟨rfl, rfl, -⟩ := addConstant_ok hadd
  obtain rfl := put_ok hlast
  refine ⟨ctx, outer, σ₄.items, _, span, hclasses, hparent, ?_, Array.getElem?_push_size⟩
  rw [CompileState.emit_items]
  show (σ₄.emit .constant [ctx.constant] span).items ++ _ = _
  rw [CompileState.emit_items, List.append_assoc]
  rfl

end CompileM

/-- What is called in the course of a run is what the classes say, with its arguments and, if a class is called, with
the new object as its result. Classes name their fields from the root down, each only once, and `init` comes before
`constructor`. A call through `super` begins at the class that it is compiled in. -/
theorem Compiler.Built.classes_rule {us : List (List Stmt)} {c c' : Compiler} {p : Program} {unit : UnitCode}
    (h : Built us c) (hp : Settled (c.statements p) us) (hcompile : c.compile p = .ok (unit, c')) {s : State}
    {ss : List State} (hs : s.Launches (unit.Runs c')) (hss : (s :: ss).IsChain (State.Next (unit.Runs c'))) :
    (∀ (t u : State) (rest : List State) (fs : Array Frame) (f : Frame) (w : World) (signal : Signal)
      (slot argc : Nat) (callee : Callee), t :: u :: rest <:+ s :: ss → t.machine.frames = fs.push f →
      t.machine.waiting = none → Exec.advanceCatching.run ⟨w, t.machine⟩ = .ok signal u →
      State.Addresses ⟨w, t.machine⟩ f slot argc callee →
      callee.Plays t.machine fs f slot (t.machine.above slot argc) u rest) ∧
    (∀ k : Class, k.fieldNames.Nodup ∧
      k.fieldNames = (k.parent.map Class.fieldNames).getD [] ++
        (k.properties.filter (· ∉ (k.parent.map Class.fieldNames).getD [])).eraseDups ∧
      ∀ m, k.ownConstructor? = some m ↔
        k.ownMethod? "init" = some m ∨ k.ownMethod? "init" = none ∧ k.ownMethod? "constructor" = some m) ∧
    ∀ (regions : Regions) (method : Ident) (superSpan span : Span) (args : List Expr) (σ σ' : CompileState),
      CompileM.expr regions (.call (.super method superSpan) args span) σ = .ok () σ' →
      σ.CallsSuper method.name args.length σ' := by
  have hsound : ∀ f, unit.Runs c' f → f.IsSound := fun f hf => h.isSound_of_runs hp hcompile hf
  have hs := hs.mono hsound
  have hss := hss.imp fun _ _ hnext => State.Next.mono hnext hsound
  refine ⟨?_, fun k => ?_, fun _ _ _ _ _ _ _ hcall => CompileM.superCall_ok hcall⟩
  · intro t u rest fs f w signal slot argc callee hus hframes hw hrun haddresses
    exact hs.plays hss hus hframes hw hrun haddresses
  · exact ⟨k.nodup_fieldNames, k.fieldNames_eq, fun _ => Class.ownConstructor?_eq_some_iff⟩

/-! ## A class with a constructor -/

/-- `class P { init(x) { } }` -/
def constructorClass : Stmt := Build.classDecl "P" none [Build.method "init" ["x"] []]

/-- `P(true)` -/
def constructorCall : Stmt := Build.expr (Build.call (Build.id "P") [Build.boolean true])

namespace constructorCall

def block : CodeBlock :=
  .ofItems [⟨.constant, [0], .dummy⟩, ⟨.setGlobal, [0], .dummy⟩, ⟨.pop, [], .dummy⟩, ⟨.getGlobal, [0], .dummy⟩,
    ⟨.pushTrue, [], .dummy⟩, ⟨.call, [1], .dummy⟩, ⟨.pop, [], .dummy⟩, ⟨.halt, [], .dummy⟩]

def unit : UnitCode := ⟨#[1, 0, 0, 19, 0, 0, 128, 18, 0, 0, 3, 96, 1, 128, 255], #[⟨0, .dummy⟩]⟩

/-- The method that is the constructor. -/
def function : Function := ⟨some "P.init", #[98], 2, 1, #[⟨0, .dummy⟩]⟩

def constant : Constant := .cls ⟨"P", none, [], [("init", function)], none⟩

/-- A compiler that has not compiled anything. -/
def compiler : Compiler := .new .empty #[] false

end constructorCall

open CompileM

namespace constructorCall

/-- The declaration of the method. -/
def literal : FunctionLiteral := ⟨some "init", [Build.ident "x"], Build.block [], .dummy⟩

theorem method_init (σ : CompileState) : method "P" literal "init" σ = .ok function σ := by
  have hnone : (inside σ).symbols.Lists [] := σ.symbols.lists_enclose
  let τ : CompileState := { inside σ with symbols := ((inside σ).symbols.define "this" true).2 }
  have hthis : define "this" true .dummy (inside σ) = .ok ⟨"this", .local, 0, true⟩ τ :=
    define_eq hnone true (by decide)
  obtain ⟨symbols, hparams, hlists, houter, hfree⟩ :=
    @defineParams_eq τ _ literal.params (hnone.define "this" true).1 (by decide)
  have hopen : openMethod literal (inside σ) = .ok () { τ with symbols } := (bind_eq (discard_eq hthis)).trans hparams
  let block : CodeBlock := .ofItems [⟨.returnNull, [], .dummy⟩]
  let υ : CompileState := { τ with symbols, function := ⟨block, [], true⟩ }
  have hbody : functionBody literal.body { τ with symbols } = .ok () υ := by
    rw [literal, Build.block, functionBody, stmts]
    rfl
  have hrun : (openMethod literal >>= fun _ => functionBody literal.body) (inside σ) = .ok () υ :=
    (bind_eq hopen).trans hbody
  have hinner : inFunction (openMethod literal >>= fun _ => functionBody literal.body) σ = .ok ⟨block, 2, []⟩ σ := by
    have hlocals : symbols.current.definitions = 2 := hlists.definitions
    have hnothing : symbols.current.free = #[] := hfree.trans (Scope.free_define _ _ _ _)
    have hleave : symbols.leave? = some σ.symbols := by
      unfold SymbolTable.leave?
      rw [houter]
      rfl
    rw [inFunction_eq hrun, show υ.symbols = symbols from rfl, hlocals, hleave, hnothing]
    rfl
  rw [method_eq]
  exact (bind_eq hinner).trans rfl

/-- The class has been compiled, and its name is bound in the table. -/
def declared (symbols : SymbolTable) : CompileState := { compiler.start with
  symbols
  pool := #[constant]
  classSpans := [("P", .dummy)]
  function := ⟨.ofItems [⟨.constant, [0], .dummy⟩, ⟨.setGlobal, [0], .dummy⟩, ⟨.pop, [], .dummy⟩], [], false⟩ }

theorem stmt_constructorClass : ∃ symbols, symbols.lookup? "P" = some ⟨"P", .global, 0, false⟩ ∧
    stmt [] constructorClass compiler.start = .ok () (declared symbols) := by
  have hfresh : compiler.start.symbols.lookup? "P" = none := Std.HashMap.getElem?_empty
  obtain ⟨symbols, hdefine, hlookup⟩ : ∃ symbols : SymbolTable,
      compiler.start.symbols.define "P" false = (⟨"P", .global, 0, false⟩, symbols) ∧
        symbols.lookup? "P" = some ⟨"P", .global, 0, false⟩ := by
    refine ⟨_, SymbolTable.define_fresh rfl hfresh false, ?_⟩
    show (Std.HashMap.insert _ "P" _)["P"]? = _
    rw [Std.HashMap.getElem?_insert_self]
    rfl
  refine ⟨symbols, hlookup, ?_⟩
  have hbegin := beginClass_global hdefine rfl (by decide) (by decide) false .dummy .dummy
  have hmembers (σ : CompileState) : members "P" [Build.method "init" ["x"] []] .empty σ =
      .ok (ClassMembers.empty.addMethod "init" function) σ := by
    rw [Build.method, Build.bind, Build.function, members]
    refine (bind_eq (method_init σ)).trans ?_
    rw [members]
    rfl
  rw [constructorClass, Build.classDecl, stmt]
  exact (bind_eq hbegin).trans ((bind_eq (hmembers _)).trans rfl)

end constructorCall

open constructorCall in
theorem compile_constructorCall : ∃ c', compiler.compile ⟨[constructorClass, constructorCall]⟩ =
    .ok (constructorCall.unit, c') ∧ c'.pool = #[constant] := by
  obtain ⟨symbols, hlookup, hclass⟩ := stmt_constructorClass
  let σ : CompileState := declared symbols
  let τ : CompileState := (((σ.emit .getGlobal [0] .dummy).emit .pushTrue [] .dummy).emit .call [1] .dummy).emit
    .pop [] .dummy
  have hcallee : expr [] (Build.id "P") σ = .ok () (σ.emit .getGlobal [0] .dummy) := by
    rw [Build.id, expr]
    exact (bind_eq (resolve_bound hlookup)).trans rfl
  have hcall : stmt [] constructorCall σ = .ok () τ := by
    rw [constructorCall, Build.call, Build.expr, stmt, expr]
    · simp only [bind_assoc, exprs, Build.boolean, expr, CompileM.literal]
      exact (bind_eq hcallee).trans rfl
    · intro target member span h
      cases h
    · intro name span h
      cases h
  have hstmts : stmts [] [constructorClass, constructorCall] compiler.start = .ok () τ := by
    rw [stmts, stmts, stmts]
    exact (bind_eq hclass).trans ((bind_eq hcall).trans rfl)
  let υ : CompileState := τ.emit .halt [] .dummy
  have hlink : linkClasses 0 τ = .ok () τ := rfl
  have hunit : CompileM.unit 0 [constructorClass, constructorCall] compiler.start = .ok υ.function.block υ :=
    (bind_eq hstmts).trans ((bind_eq hlink).trans rfl)
  have hblock : υ.function.block = block := rfl
  have hcode : (⟨block.code, block.debug⟩ : UnitCode) = constructorCall.unit := rfl
  refine ⟨compiler.keep υ, ?_, rfl⟩
  unfold Compiler.compile Compiler.attempt EStateM.run
  rw [show compiler.optimizer.run ⟨[constructorClass, constructorCall]⟩ =
    (⟨[constructorClass, constructorCall]⟩, ⟨0, 0⟩) from rfl]
  dsimp only
  rw [show CompileM.unit compiler.pool.size [constructorClass, constructorCall] compiler.start = _ from hunit, ← hcode,
    ← hblock]

theorem regular_constructorCall : Regular [constructorClass, constructorCall] := by
  let ts : List Term := [.stmt constructorClass, .stmt constructorCall,
    .expr (Build.call (Build.id "P") [Build.boolean true]), .expr (Build.id "P"), .expr (Build.boolean true)]
  have hts : ∀ v ∈ ts, ∀ w, w ∈ v.parts ∨ w ∈ v.inner → w ∈ ts := by
    refine List.forall_mem_cons.mpr ⟨?_, List.forall_mem_cons.mpr ⟨?_, List.forall_mem_cons.mpr ⟨?_, ?_⟩⟩⟩
    · simp [Term.parts, Term.inner, Term.ofStmt, constructorClass, Build.classDecl, Build.method, Build.bind,
        Build.function, Build.block, Site.methodBodies, Block.terms]
    · simp [ts, Term.parts, Term.inner, Term.ofStmt, constructorCall, Build.expr]
    · simp [ts, Term.parts, Term.inner, Term.ofExpr, Build.call]
    · simp [Term.parts, Term.inner, Term.ofExpr, Build.id, Build.boolean]
  intro s hs t ht
  have hmem : t ∈ ts := by
    rcases List.mem_pair.mp hs with rfl | rfl
    · exact ht.mem hts (by simp [ts])
    · exact ht.mem hts (by simp [ts])
  simp only [ts, List.mem_cons, List.not_mem_nil, or_false] at hmem
  refine ⟨?_, ?_, ?_⟩
  · rintro e rfl
    rcases hmem with h | h | h | h | h <;> cases h <;> exact trivial
  · rintro b c g span rfl
    rcases hmem with h | h | h | h | h <;> cases h
  · rintro init c u b span rfl
    rcases hmem with h | h | h | h | h <;> cases h

namespace constructorCall

/-- The class at run time. -/
def cls : Class := ⟨0, "P", none, [], [("init", ⟨1, function, #[]⟩)], none⟩

/-- The frame in which the unit runs. -/
def frame : Frame := .enter ⟨2, .main constructorCall.unit.code constructorCall.unit.debug, #[]⟩ 0 .function

/-- The frame of the constructor. -/
def callee : Frame := .enter ⟨1, function, #[]⟩ 0 (.constructor (.object 0 cls))

/-- A machine that is going to run the unit. -/
def idle : State := ⟨.new #[], .new #[.cls cls] frame.closure .empty { stackSize := 3 }⟩

/-- A state of the run before the class has been dropped. -/
def before (globals : Array Value) (ip : Nat) (top : Value) (sp opOffset : Nat) : State :=
  ⟨{ idle.world with globals },
    { idle.machine with frames := #[{ frame with ip }], stack := #[top, .null, .null], sp, opOffset }⟩

/-- A state of the run after the class has been dropped, with so many objects without fields. -/
def state (objects : Nat) (frames : Array Frame) (stack : Array Value) (sp opOffset : Nat) : State :=
  ⟨{ idle.world with
      heap := { idle.world.heap with fields := Array.replicate objects .empty }
      globals := #[.cls cls] },
    { idle.machine with frames, stack, sp, opOffset, lastPopped := .cls cls }⟩

def started : State := before #[] 0 .null 0 0

def pushed : State := before #[] 3 (.cls cls) 1 0

def bound : State := before #[.cls cls] 6 (.cls cls) 1 3

def dropped : State := state 0 #[{ frame with ip := 7 }] #[.null, .null, .null] 0 6

def loaded : State := state 0 #[{ frame with ip := 10 }] #[.cls cls, .null, .null] 1 7

/-- The argument is there. -/
def ready : State := state 0 #[{ frame with ip := 11 }] #[.cls cls, .bool true, .null] 2 10

def called : State := state 1 #[{ frame with ip := 13 }, callee] #[.object 0 cls, .bool true, .null] 2 11

/-- The constructor has returned null, and the object is there. -/
def returned : State := state 1 #[{ frame with ip := 13 }] #[.object 0 cls, .null, .null] 1 0

section

variable {H : Function → Prop} (hH : H function)

include hH

theorem over_idle : idle.Over H := by
  refine ⟨⟨Heap.over_empty, ?_, ?_, ?_⟩, .new _ _ fun v hv => ?_⟩
  · simp [idle, World.new]
  · simp [idle, World.new]
  · simp [idle, World.new]
  · rcases List.mem_singleton.mp (Array.mem_toList_iff.mpr hv) with rfl
    refine ⟨fun k hk m hm => ?_, fun _ _ hf => by cases hf⟩
    rcases List.mem_singleton.mp hk with rfl
    rcases List.mem_singleton.mp hm with rfl
    exact hH

theorem launches (hmain : H frame.closure.function) : started.Launches H := by
  have hnew := Machine.null_new #[.cls cls] frame.closure .empty { stackSize := 3 }
  exact .block (over_idle hH) hnew.1 hnew.2 hmain rfl

omit hH in
set_option maxRecDepth 10000 in
theorem turn_ready : Exec.advanceCatching.run ready = .ok .next called := rfl

set_option maxRecDepth 10000 in
theorem isChain (hmain : H frame.closure.function) :
    [started, pushed, bound, dropped, loaded, ready, called, returned].IsChain (State.Next H) := by
  have step {s t : State} (hs : s.Over H) (hframes : s.machine.frames ≠ #[])
      (hrun : Exec.advanceCatching.run s = .ok .next t) : s.Next H t ∧ t.Over H :=
    ⟨⟨hframes, s.world, .next, hs.world, hrun, nofun⟩, (Exec.confines_advanceCatching.ok hs hrun).1⟩
  have hstarted : started.Over H := ⟨(over_idle hH).world, (launches hH hmain).begins.starts.1⟩
  obtain ⟨hpushed, hs⟩ : started.Next H pushed ∧ _ := step hstarted nofun rfl
  obtain ⟨hbound, hs⟩ : pushed.Next H bound ∧ _ := step hs nofun rfl
  obtain ⟨hdropped, hs⟩ : bound.Next H dropped ∧ _ := step hs nofun rfl
  obtain ⟨hloaded, hs⟩ : dropped.Next H loaded ∧ _ := step hs nofun rfl
  obtain ⟨hready, hs⟩ : loaded.Next H ready ∧ _ := step hs nofun rfl
  obtain ⟨hcalled, hs⟩ : ready.Next H called ∧ _ := step hs nofun turn_ready
  obtain ⟨hreturned, -⟩ : called.Next H returned ∧ _ := step hs nofun rfl
  have hlast : [ready, called, returned].IsChain (State.Next H) :=
    .cons_cons hcalled (.cons_cons hreturned (.singleton _))
  exact .cons_cons hpushed (.cons_cons hbound (.cons_cons hdropped (.cons_cons hloaded (.cons_cons hready hlast))))

end

end constructorCall

open constructorCall in
/-- The class is called in the sixth turn, and the constructor gives the object in the seventh. -/
theorem constructorCall_classes_rule : ∃ c',
    compiler.compile ⟨[constructorClass, constructorCall]⟩ = .ok (constructorCall.unit, c') ∧
    started.Launches (constructorCall.unit.Runs c') ∧
    [started, pushed, bound, dropped, loaded, ready, called, returned].IsChain
      (State.Next (constructorCall.unit.Runs c')) ∧
    ready.Addresses { frame with ip := 11 } 0 1 (.construct cls) ∧
    (Callee.construct cls).Plays ready.machine #[] { frame with ip := 11 } 0 [.bool true] called [returned] := by
  rcases compile_constructorCall with ⟨c', hcompile, hpool⟩
  have hH : constructorCall.unit.Runs c' function := .inr ⟨constant, by simp [hpool], List.mem_singleton.mpr rfl⟩
  have hlaunches := launches hH (.inl rfl)
  have hchain := isChain hH (.inl rfl)
  have hrule := Compiler.Built.classes_rule (.new .empty 0 false) (regular_constructorCall.settled nofun) hcompile
    hlaunches hchain
  have hsuffix : [ready, called, returned] <:+ [started, pushed, bound, dropped, loaded, ready, called, returned] :=
    ⟨[started, pushed, bound, dropped, loaded], rfl⟩
  have haddresses : ready.Addresses { frame with ip := 11 } 0 1 (.construct cls) := .construct rfl (.call rfl rfl)
  refine ⟨c', hcompile, hlaunches, hchain, haddresses, ?_⟩
  exact hrule.1 ready called [returned] #[] _ ready.world .next 0 1 _ hsuffix rfl rfl turn_ready haddresses

end ScriptMachine
