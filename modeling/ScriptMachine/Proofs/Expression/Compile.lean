import ScriptMachine.Ast.Build
import ScriptMachine.Compile.Load
import ScriptMachine.Proofs.Expression.Emission

/-!
# Expressions are compiled correctly

By induction over the forms of expressions, what is compiled for an expression carries out what the
reference evaluator computes (`realizes_expr`). The result is `Expr.compiled_code_evaluates`; that code
stands in a finished block as it was emitted (`CodeBlock.hasAt_toFunction`) and that a machine has the
literals of its unit (`Pool.loads_load`) is what it asks of the machine.
-/

namespace ScriptMachine

open CompileM

/-! ## All expressions -/

section

variable {t : SymbolTable} {m n : Nat} {span : Span}

/-- What does not compile realizes anything. -/
theorem realizes_refused {ins : List Value} {y : Eval Value} {outs : Value → List Value}
    {cause : CompileCause} : Realizes t m ins (fail cause span) y outs := by
  intro σ σ' _ hrun
  cases hrun

theorem realizes_unaryOpcode {x : CompileM Unit} {y : Eval Value} {op : String}
    (hx : Realizes t m [] x y fun v => [v]) (hm : 1 ≤ m) :
    Realizes t m []
      (do
        let opcode ← unaryOpcode op span
        x
        put opcode [] span)
      (do
        let v ← y
        match op with
        | "-" => Eval.ofExcept span v.negate
        | "!" => return v.logicalNot
        | _ => Eval.unknown) fun w => [w] := by
  unfold unaryOpcode
  split
  · exact realizes_unary hx hm realizes_negate
  · exact realizes_unary hx hm realizes_not
  · intro σ σ' _ hrun
    cases hrun

theorem realizes_binaryOpcode {x x' : CompileM Unit} {y y' : Eval Value} {op : String}
    (hx : Realizes t m [] x y fun v => [v])
    (hx' : Realizes t n [] x' y' fun v => [v]) :
    Realizes t
      (match BinaryOp.ofText? op with
        | some (_, true) => max n (m + 1)
        | _ => max m (n + 1)) []
      (match BinaryOp.ofText? op with
        | none => fail (.unknownOperator op) span
        | some (op, swap) => do
          if swap then
            x'
            x
          else
            x
            x'
          put op.opcode [] span)
      (match BinaryOp.ofText? op with
        | some (op, false) => do
          let a ← y
          let b ← y'
          Eval.binary op span a b
        | some (op, true) => do
          let b ← y'
          let a ← y
          Eval.binary op span b a
        | none => Eval.unknown) fun w => [w] := by
  match BinaryOp.ofText? op with
  | none => exact realizes_refused
  | some (op, true) => simpa using realizes_two hx' hx (realizes_binary op)
  | some (op, false) => simpa using realizes_two hx hx' (realizes_binary op)

end

theorem Eval.bind_ok {α β : Type} {x : Eval α} {f : α → Eval β} {st st' : Store} {b : β}
    (h : (x >>= f).run st = .ok b st') :
    ∃ a st₁, x.run st = .ok a st₁ ∧ (f a).run st₁ = .ok b st' := by
  change EStateM.bind x f st = _ at h
  unfold EStateM.bind at h
  split at h
  · next a st₁ hx => exact ⟨a, st₁, hx, h⟩
  · cases h

theorem Element.length_of_evalAll {slot : String → Option Nat} {es : List Element} {st st' : Store}
    {vs : List Value} (h : (Element.evalAll slot es).run st = .ok vs st') : vs.length = es.length := by
  induction es generalizing st vs st' with
  | nil =>
    rw [Element.evalAll] at h
    cases h
    rfl
  | cons e es ih =>
    obtain ⟨key, value⟩ := e
    rw [Element.evalAll] at h
    obtain ⟨v, st₁, -, h⟩ := Eval.bind_ok h
    obtain ⟨ws, st₂, hws, h⟩ := Eval.bind_ok h
    cases h
    simp [ih hws]

theorem Element.length_le_roomAll (es : List Element) : es.length ≤ Element.roomAll es := by
  induction es with
  | nil => simp
  | cons e es ih =>
    obtain ⟨key, value⟩ := e
    simp only [List.length_cons, Element.roomAll]
    omega

theorem Expr.one_le_room (e : Expr) : 1 ≤ e.room := by
  cases e with
  | unary op x span => exact x.one_le_room
  | binary op l r span =>
    have hl := l.one_le_room
    simp only [Expr.room]
    split
    · omega
    · split <;> omega
  | ternary c y n span =>
    have hc := c.one_le_room
    simp only [Expr.room]
    omega
  | cond c y n span =>
    have hc := c.one_le_room
    cases n <;> exact Nat.le_trans hc (Nat.le_max_left _ _)
  | array es ordered span =>
    simp only [Expr.room]
    omega
  | index target i span =>
    simp only [Expr.room]
    omega
  | assign target value span => exact value.one_le_room
  | _ => exact Nat.le_refl 1
termination_by structural e

/-- Expression statements end with one. -/
theorem endsWithExpr_of_allSimple {slot : String → Option Nat} {s : Stmt} {ss : List Stmt}
    (h : Stmt.AllSimple slot (s :: ss)) : endsWithExpr (s :: ss) = true := by
  induction ss generalizing s with
  | nil =>
    cases s with
    | expr e span => rfl
    | _ => exact h.elim
  | cons s' ss ih =>
    cases s with
    | expr e span =>
      have htail := ih h.2
      simpa [endsWithExpr] using htail
    | _ => exact h.elim

section

variable {t : SymbolTable}

mutual

theorem realizes_expr (R : Regions) (e : Expr) (he : e.Simple t.globalSlot?) :
    Realizes t e.room [] (expr R e) (e.eval t.globalSlot?) fun v => [v] := by
  cases e with
  | literal l span =>
    rw [expr, Expr.eval]
    exact realizes_literal l span
  | ident id =>
    obtain ⟨k, hk, hname⟩ := he
    rw [expr, Expr.eval, hname]
    refine Realizes.resolve hname fun symbol hglobal hindex => ?_
    subst hindex
    exact realizes_load hglobal hk
  | unary op x span =>
    rw [expr, Expr.eval, Expr.room]
    exact realizes_unaryOpcode (realizes_expr R x he) x.one_le_room
  | binary op l r span =>
    have hl := realizes_expr R l he.1
    have hr := realizes_expr R r he.2
    rw [expr, Expr.eval, Expr.room]
    by_cases hand : op == "&&"
    · simp only [hand, Bool.true_or, if_true]
      exact realizes_and hl hr
    · by_cases hor : op == "||"
      · simp only [hand, hor, Bool.false_or, if_true]
        exact realizes_or hl hr
      · simp only [hand, hor]
        exact realizes_binaryOpcode hl hr
  | ternary c y n span =>
    obtain ⟨hc, hy, hn⟩ := he
    rw [expr, Expr.eval, Expr.room]
    exact realizes_branches (realizes_expr R c hc) (realizes_expr R y hy) (realizes_expr R n hn)
  | cond c y n span =>
    rw [expr]
    cases n with
    | none =>
      obtain ⟨hc, hy, -⟩ := he
      have hc := realizes_expr R c hc
      have hy := realizes_block R y hy
      have hnull : Realizes t 1 [] (put .null [] span) (pure .null) fun v => [v] := realizes_push rfl rfl
      rw [alternative, Expr.eval, Expr.room]
      exact realizes_branches hc hy hnull
    | some n =>
      obtain ⟨hc, hy, hn⟩ := he
      have hc := realizes_expr R c hc
      have hy := realizes_block R y hy
      rw [alternative, Expr.eval, Expr.room]
      exact realizes_branches hc hy (realizes_block R n hn)
  | array es ordered span =>
    obtain ⟨hordered, hlength, hes⟩ := he
    have hitems := realizes_arrayElements R es hes
    rw [expr, Expr.eval, Expr.room]
    simp only [hordered]
    exact realizes_array hitems (fun _ _ _ h => Element.length_of_evalAll h)
      (Element.length_le_roomAll es) hlength
  | index target i span =>
    obtain ⟨htarget, hi⟩ := he
    rw [expr, Expr.eval, Expr.room]
    exact realizes_two (realizes_expr R target htarget) (realizes_expr R i hi) realizes_item
  | assign target value span =>
    obtain ⟨⟨k, hk, hname⟩, hvalue⟩ := he
    have hvalue := realizes_expr R value hvalue
    rw [expr, Expr.eval, Expr.room, hname]
    refine Realizes.resolve hname fun symbol hglobal hindex => ?_
    subst hindex
    split
    · exact realizes_refused
    · exact hvalue.seq fun v => (realizes_store hglobal hk).mono value.one_le_room
  | _ => exact he.elim
termination_by structural e

theorem realizes_arrayElements (R : Regions) (es : List Element)
    (hes : Element.AllSimple t.globalSlot? es) :
    Realizes t (Element.roomAll es) [] (arrayElements R es) (Element.evalAll t.globalSlot? es)
      fun vs => vs := by
  cases es with
  | nil =>
    rw [arrayElements, Element.evalAll]
    exact realizes_nothing rfl
  | cons e es =>
    obtain ⟨key, value⟩ := e
    obtain ⟨hvalue, hes⟩ := hes
    rw [arrayElements, Element.evalAll, Element.roomAll]
    exact realizes_element (realizes_expr R value hvalue) (realizes_arrayElements R es hes)
termination_by structural es

theorem realizes_block (R : Regions) (b : Block) (hb : b.Simple t.globalSlot?) :
    Realizes t b.room [] (branch R b) (b.eval t.globalSlot?) fun v => [v] := by
  cases b with
  | mk ss span =>
    rw [Block.eval, Block.room]
    cases ss with
    | nil =>
      rw [Stmt.evalLast]
      exact realizes_branch_nil
    | cons s ss =>
      exact realizes_branch_cons (endsWithExpr_of_allSimple hb) (realizes_stmts R (s :: ss) (List.cons_ne_nil _ _) hb)
termination_by structural b

theorem realizes_stmts (R : Regions) (ss : List Stmt) (hne : ss ≠ [])
    (hss : Stmt.AllSimple t.globalSlot? ss) :
    RealizesBeforePop t (Stmt.roomAll ss) (stmts R ss) (Stmt.evalLast t.globalSlot? ss) := by
  cases ss with
  | nil => exact (hne rfl).elim
  | cons s rest =>
    cases s with
    | expr e span =>
      obtain ⟨he, hsimple⟩ := hss
      have he := realizes_expr R e he
      have hrest (h : rest ≠ []) := realizes_stmts R rest h hsimple
      rw [stmts, stmt, Stmt.roomAll]
      cases rest with
      | nil =>
        rw [stmts, bind_pure_unit]
        exact (realizesBeforePop_last he).mono (Nat.le_max_left e.room 1)
      | cons s' rest =>
        rw [Stmt.evalLast]
        · exact realizesBeforePop_cons he (hrest (List.cons_ne_nil _ _))
        · exact List.cons_ne_nil _ _
    | _ => exact hss.elim
termination_by structural ss

end

end

/-! ## Results -/

/-- The machine executes the running frame of the stage and waits for nothing. -/
structure Stage.Ready (C : Stage) : Prop where
  frames : C.start.machine.frames = C.below.push C.frame
  waiting : C.start.machine.waiting = none

/-- The store at the start. -/
def Stage.store (C : Stage) : Store := ⟨C.start.world.heap, C.start.world.globals⟩

theorem Stage.Ready.at_start {C : Stage} (h : C.Ready) : C.At C.frame.ip [] C.store C.start :=
  ⟨C.start.machine.opOffset,
    { world := rfl
      frames := h.frames
      sp := rfl
      size := rfl
      kept := fun _ _ => rfl
      values := fun _ _ hv => by cases hv
      handlers := rfl
      captures := rfl
      constants := rfl
      main := rfl
      registry := rfl
      settings := rfl
      waiting := h.waiting
      at_offset := rfl }⟩

/-- A finished block has its instructions where they were emitted. -/
theorem CodeBlock.hasAt_toFunction {b : CodeBlock} {before seg after : List Emitted}
    {name : Option String} {locals params : Nat} (hitems : b.items.toList = before ++ seg ++ after)
    (hsized : ∀ i ∈ before ++ seg, i.Sized) :
    (b.toFunction name locals params).HasAt (Emitted.extent before) seg := by
  refine ⟨before, after, ?_, ?_, hsized, rfl⟩
  · show b.code = _
    rw [CodeBlock.code_eq, hitems]
    rfl
  · show b.debug = _
    rw [CodeBlock.debug_eq, hitems]

/-- A machine at the beginning of a block. -/
def Stage.atBlock (constants : Array Value) (is : List Emitted) (stackSize : Nat) : Stage :=
  let frame := Frame.enter ⟨0, (CodeBlock.ofItems is).toFunction none 0 0, #[]⟩ 0 .function
  let machine := Machine.new constants default default { stackSize }
  ⟨⟨.new #[], { machine with frames := #[frame] }⟩, #[], frame⟩

theorem Stage.hasAt_atBlock {constants : Array Value} {is : List Emitted} {stackSize : Nat}
    (hsized : ∀ i ∈ is, i.Sized) : (atBlock constants is stackSize).frame.closure.function.HasAt 0 is := by
  have hitems : (CodeBlock.ofItems is).items.toList = [] ++ is ++ [] := by simp
  exact CodeBlock.hasAt_toFunction hitems hsized

/-- Loading the constants of a unit gives the literals among them, if the constants loaded earlier had
theirs. -/
theorem Pool.loads_load {p : Pool} (loaded : Array Value) (h : Heap)
    (hloaded : ∀ place < loaded.size, ∀ c v, p[place]? = some c → c.literalValue? = some v →
      loaded[place]? = some v) : p.Loads (p.load loaded h).1 := by
  intro place c v hc hv
  have hlt := (Array.getElem?_eq_some_iff.mp hc).1
  simp only [load]
  by_cases hold : place < loaded.size
  · rw [Array.getElem?_append_left hold]
    exact hloaded place hold c v hc hv
  · have hplace : loaded.size + (place - loaded.size) = place := by omega
    have hnew : place - loaded.size < p.size - loaded.size := by omega
    rw [Array.getElem?_append_right (by omega)]
    simp only [List.getElem?_toArray, List.getElem?_map, List.length_drop, Array.length_toList,
      List.getElem?_range hnew, Option.map_some, hplace, valueAt, hc]
    cases c with
    | int n | float x | str s => exact congrArg some (Option.some.inj hv)
    | _ => cases hv

/-- The code of an expression, inside any block, does what the reference evaluator does: with enough
room on the stack the machine comes to the offset after that code with the value on top of what was on
the stack and with the heap and the globals of the evaluator, or it comes to an instruction that stops
with the fault of the evaluator. Nothing else of the machine changes. -/
theorem Expr.compiled_code_evaluates {R : Regions} {e : Expr} {σ σ' : CompileState}
    (hcompiled : (CompileM.expr R e).run σ = .ok () σ') (hsimple : e.Simple σ.symbols.globalSlot?) :
    ∃ seg, σ.Appends σ' seg ∧ ∀ C : Stage, C.Ready → C.frame.ip = σ.size →
      C.frame.closure.function.HasAt σ.size seg → σ'.pool.Loads C.start.machine.constants →
      C.start.machine.sp + e.room ≤ C.start.machine.stack.size →
        C.Ends σ'.size (fun v => [v]) C.start ((e.eval σ.symbols.globalSlot?).run C.store) := by
  obtain ⟨seg, happends, hperforms⟩ := realizes_expr R e hsimple σ σ' rfl hcompiled
  refine ⟨seg, happends, fun C hready hip hat hloads hroom => ?_⟩
  have hstart := hready.at_start
  rw [hip] at hstart
  exact hperforms C hat hloads [] hroom C.store C.start hstart

/-- `if (true) { [10, 20][1] }` -/
def itemOfBranch : Expr :=
  Build.cond (Build.boolean true)
    [Build.expr (Build.index (Build.array [Build.int 10, Build.int 20]) (Build.int 1))] none

/-- The code of `itemOfBranch` at the beginning of a block. -/
def itemOfBranch.code : List Emitted :=
  [⟨.pushTrue, [], .dummy⟩, ⟨.jumpIfFalse, [20], .dummy⟩, ⟨.constant, [0], .dummy⟩,
    ⟨.constant, [1], .dummy⟩, ⟨.array, [2], .dummy⟩, ⟨.constant, [2], .dummy⟩, ⟨.getIndex, [], .dummy⟩,
    ⟨.jump, [21], .dummy⟩, ⟨.null, [], .dummy⟩]

/-- A block that is compiled so far. -/
def CompileState.ofCode (pool : Pool) (is : List Emitted) : CompileState :=
  ⟨pool, .empty, { FunctionContext.top with block := .ofItems is }, [], []⟩

theorem compile_itemOfBranch :
    (CompileM.expr [] itemOfBranch).run (.ofCode #[] []) =
      .ok () (.ofCode #[.int 10, .int 20, .int 1] itemOfBranch.code) := by
  simp only [itemOfBranch, Build.expr, Build.cond, Build.boolean, Build.block, Build.index, Build.array,
    Build.int, Option.map, List.map, CompileM.stmts, CompileM.stmt, branch, alternative, arrayElements,
    Element.makeOrderedMap,
    CompileM.expr, CompileM.literal]
  rfl

def itemOfBranch.block : CodeBlock := .ofItems itemOfBranch.code

/-- A machine at the beginning of the block of `itemOfBranch`. -/
def itemOfBranch.stage : Stage :=
  let frame := Frame.enter ⟨0, itemOfBranch.block.toFunction none 0 0, #[]⟩ 0 .function
  let machine := Machine.new #[.int 10, .int 20, .int 1] default default { stackSize := 2 }
  ⟨⟨.new #[], { machine with frames := #[frame] }⟩, #[], frame⟩

/-- Two slots are enough, and the array stays in the heap. -/
theorem itemOfBranch_evaluates :
    (CompileM.expr [] itemOfBranch).run (.ofCode #[] []) =
      .ok () (.ofCode #[.int 10, .int 20, .int 1] itemOfBranch.code) ∧
    ∃ t, itemOfBranch.stage.start.Reaches t ∧
      itemOfBranch.stage.At 21 [.int 20] ⟨(Heap.empty.newArray #[.int 10, .int 20]).2, #[]⟩ t := by
  refine ⟨compile_itemOfBranch, ?_⟩
  obtain ⟨seg, happends, hends⟩ := Expr.compiled_code_evaluates compile_itemOfBranch
    (by simp [itemOfBranch, Build.cond, Build.boolean, Build.block, Build.index, Build.array, Build.int,
      Build.expr, Expr.Simple, Block.Simple, Stmt.AllSimple, Element.AllSimple, Element.makeOrderedMap])
  have hseg : itemOfBranch.code = seg := happends.items
  subst hseg
  have hitems : itemOfBranch.block.items.toList = [] ++ itemOfBranch.code ++ [] := by
    simp [itemOfBranch.block]
  have hsized : ∀ i ∈ [] ++ itemOfBranch.code, i.Sized := happends.sized
  have hat : itemOfBranch.stage.frame.closure.function.HasAt 0 itemOfBranch.code :=
    CodeBlock.hasAt_toFunction hitems hsized
  have hloads : Pool.Loads #[.int 10, .int 20, .int 1] itemOfBranch.stage.start.machine.constants :=
    Pool.loads_load #[] Heap.empty (by simp)
  exact hends itemOfBranch.stage ⟨rfl, rfl⟩ rfl hat hloads (by decide)
end ScriptMachine
