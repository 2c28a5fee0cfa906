import ScriptMachine.Compile.Unit

/-!
# Compilation within a limit

Compilation as it goes about with a stack of its own: the open regions are part of the state, each `try` pushes a
region and pops it again, and an early exit cuts the stack down step by step while it compiles the finally bodies that
it runs into. What is compiled next then depends on that stack, and it is no part of the statement at hand.

Nothing in this form says that compilation ends. So it has a limit: `OpenM.exprWithin n` and `OpenM.stmtWithin n` are
expressions and statements with at most `n` others being compiled around them, and they stop if that is not enough.
The same goes for the walk along the parents of a class, which takes at most so many rounds.

* `OpenM.exprForm`, `OpenM.stmtForm` — one level of compilation, for any way to go on with what is inside.
* `Compiler.compileWithin` — a unit within a limit; no answer if the limit does not suffice.
-/

namespace ScriptMachine

/-- A state of compilation, with the regions that are open in the function at hand, innermost first. -/
structure OpenState where
  state : CompileState
  regions : Regions

/-- Why compilation within a limit stops early. -/
inductive Halted where
  | refused (e : CompileError)
  /-- The limit is reached. -/
  | exceeded

/-- A step of compilation within a limit. -/
abbrev OpenM := EStateM Halted OpenState

namespace OpenM

open CompileM

/-- A step that leaves the regions alone. -/
def lift {α : Type} (m : CompileM α) : OpenM α := fun s =>
  match m s.state with
  | .ok a σ => .ok a ⟨σ, s.regions⟩
  | .error e σ => .error (.refused e) ⟨σ, s.regions⟩

instance : MonadLift CompileM OpenM := ⟨lift⟩

/-! ## One level -/

section

variable (expr : Expr → OpenM Unit) (stmt : Stmt → OpenM Unit)

/-- Keys and values of an ordered map. -/
def mapElements (span : Span) : Int64 → List Element → OpenM Unit
  | _, [] => pure ()
  | next, ⟨some key, value⟩ :: es => do
    expr key
    expr value
    mapElements span (nextIndexAfter next (some key)) es
  | next, ⟨none, value⟩ :: es => do
    emitConstant (.int next) span
    expr value
    mapElements span (next + 1) es

/-- A branch of an `if`. -/
def branch (b : Block) : OpenM Unit := do
  b.statements.forM stmt
  finishBranch b.statements b.span

/-- The other branch of an `if`. -/
def alternative (b : Option Block) (span : Span) : OpenM Unit := do
  match b with
  | some b => branch stmt b
  | none => put .null [] span

/-- The body of a function, in a scope of its own and with no region open. -/
def inFunction (body : OpenM Unit) : OpenM Body := do
  let outside ← get
  set (⟨{ outside.state with function := .body, symbols := outside.state.symbols.enclose }, []⟩ : OpenState)
  body
  let inner := (← get).state
  set (⟨{ inner with function := outside.state.function, symbols := (inner.symbols.leave?).getD .empty },
    outside.regions⟩ : OpenState)
  return ⟨inner.function.block, inner.symbols.current.definitions, inner.symbols.current.free.toList⟩

/-- The statements of a function body, and a return at its end. -/
def functionBody (b : Block) : OpenM Unit := do
  b.statements.forM stmt
  finishBody b.statements b.span

def functionLiteral (f : FunctionLiteral) (binding : Option String) : OpenM Unit := do
  let name := f.name <|> binding
  let compiled ← inFunction do
    match name with
    | some name =>
      (modify fun s => { s with symbols := (s.symbols.defineFunctionName name).2 } : CompileM Unit)
    | none => pure ()
    defineParams f.params
    functionBody stmt f.body
  makeClosure f name compiled

def method (cls : String) (f : FunctionLiteral) (name : String) : OpenM Function := do
  let compiled ← inFunction do
    discard <| liftM (define "this" true f.span)
    defineParams f.params
    functionBody stmt f.body
  makeMethod cls f name compiled

/-- The members of a class body. -/
def members (cls : String) : List Stmt → ClassMembers → OpenM ClassMembers
  | [], found => pure found
  | .bind name (.function f) _ _ :: rest, found => do
    let m ← method stmt cls f name.name
    members cls rest (found.addMethod name.name m)
  | .bind name _ _ _ :: rest, found => members cls rest (found.addProperty name.name)
  | .expr (.function f) _ :: rest, found =>
    match f.name with
    | none => liftM (fail (.malformedClassBody cls .unnamedMethod) f.span : CompileM ClassMembers)
    | some name => do
      let m ← method stmt cls f name
      members cls rest (found.addMethod name m)
  | .expr (.ident id) _ :: rest, found => members cls rest (found.addProperty id.name)
  | other :: _, _ => liftM (fail (.malformedClassBody cls .notADeclaration) other.span : CompileM ClassMembers)

/-- With one more region open. -/
def inRegion (cleanup : Option Block) (body : OpenM Unit) : OpenM Unit := do
  modify fun s => { s with regions := cleanup :: s.regions }
  body
  modify fun s => { s with regions := s.regions.tail }

/-- Cut the stack down to `depth` regions. The finally body of a region is compiled once that region and all inside it
are off the stack. -/
def closeRegions (depth : Nat) (span : Span) : Regions → OpenM Unit
  | [] => pure ()
  | cleanup :: outer =>
    if depth ≤ outer.length then do
      modify fun s => { s with regions := outer }
      emitJumpTo .finallyEnd ((← offset) + Opcode.length .finallyEnd) span
      match cleanup with
      | some b => b.statements.forM stmt
      | none => pure ()
      closeRegions depth span outer
    else pure ()

/-- Leave all regions above `depth`. What follows in the source has them open again. -/
def exitRegions (depth : Nat) (span : Span) : OpenM Unit := do
  let regions := (← get).regions
  closeRegions stmt depth span regions
  modify fun s => { s with regions }

/-- An expression, with what is inside left to `expr` and `stmt`. -/
def exprForm (e : Expr) : OpenM Unit := do
  match e with
  | .literal l span => literal l span
  | .ident id =>
    let symbol ← resolve id.name id.span
    load symbol id.span
  | .unary op operand span =>
    let opcode ← unaryOpcode op span
    expr operand
    put opcode [] span
  | .binary op left right span =>
    if op == "&&" then
      expr left
      put .dup [] span
      let done ← emitJump .jumpIfFalse span
      put .pop [] span
      expr right
      patchHere done span
    else if op == "||" then
      expr left
      put .dup [] span
      let rest ← emitJump .jumpIfFalse span
      let done ← emitJump .jump span
      patchHere rest span
      put .pop [] span
      expr right
      patchHere done span
    else
      match BinaryOp.ofText? op with
      | none => liftM (fail (.unknownOperator op) span : CompileM Unit)
      | some (op, swap) =>
        if swap then
          expr right
          expr left
        else
          expr left
          expr right
        put op.opcode [] span
  | .ternary condition yes no span =>
    expr condition
    let skip ← emitJump .jumpIfFalse span
    expr yes
    let done ← emitJump .jump span
    patchHere skip span
    expr no
    patchHere done span
  | .cond condition yes no span =>
    expr condition
    let skip ← emitJump .jumpIfFalse span
    branch stmt yes
    let done ← emitJump .jump span
    patchHere skip span
    alternative stmt no span
    patchHere done span
  | .function f => functionLiteral stmt f none
  | .call (.member target member _) args span =>
    expr target
    checkArgs args.length span
    args.forM expr
    let place ← addConstant (.str member.name) span
    put .invoke [place, args.length] span
  | .call (.super method superSpan) args span =>
    let ctx ← superClass superSpan
    this superSpan
    checkArgs args.length span
    args.forM expr
    put .constant [ctx.constant] span
    let place ← addConstant (.str method.name) span
    put .invokeSuper [place, args.length] span
  | .call callee args span =>
    expr callee
    checkArgs args.length span
    args.forM expr
    put .call [args.length] span
  | .array es ordered span =>
    if Element.makeOrderedMap es ordered then
      mapElements expr span 0 es
      put .orderedMap [es.length * 2] span
    else
      es.forM fun e => expr e.value
      put .array [es.length] span
  | .index target index span =>
    expr target
    expr index
    put .getIndex [] span
  | .hash ps span =>
    ps.forM fun p => do
      expr p.1
      expr p.2
    put .hash [ps.length * 2] span
  | .assign target value span =>
    let symbol ← resolve target.name target.span
    if !symbol.isAssignable then liftM (fail (.invalidAssignmentTarget symbol.name) span : CompileM Unit)
    else
      expr value
      store symbol span
  | .indexAssign target index value span =>
    expr target
    expr index
    expr value
    put .setIndex [] span
  | .member target member span =>
    expr target
    let place ← addConstant (.str member.name) span
    put .getProperty [place] span
  | .memberAssign target member value span =>
    expr target
    expr value
    let place ← addConstant (.str member.name) span
    put .setProperty [place] span
  | .spawn callee args span =>
    expr callee
    checkArgs args.length span
    args.forM expr
    put .spawn [args.length] span
  | .channel (some capacity) span =>
    expr capacity
    put .channel [1] span
  | .channel none span => put .channel [0] span
  | .send channel value span =>
    expr channel
    expr value
    put .send [] span
  | .receive channel span =>
    expr channel
    put .receive [] span
  | .this span => this span
  | .super _ span => liftM (fail (.misplacedKeyword .superNotCalled) span : CompileM Unit)

/-- The condition of a loop and the jump out of the loop. -/
def loopTest (condition : Option Expr) (span : Span) : OpenM (List Nat) := do
  match condition with
  | some condition =>
    expr condition
    let exit ← emitJump .jumpIfFalse span
    return [exit]
  | none => return []

/-- The statement before a loop. -/
def optStmt (s : Option Stmt) : OpenM Unit := do
  match s with
  | some s => stmt s
  | none => pure ()

/-- The update clause of a loop. -/
def loopUpdate (update : Option Expr) (span : Span) : OpenM Unit := do
  match update with
  | some update =>
    expr update
    put .pop [] span
  | none => pure ()

/-- A statement, with what is inside left to `expr` and `stmt`. -/
def stmtForm (s : Stmt) : OpenM Unit := do
  match s with
  | .bind name (.function f) constant span =>
    functionLiteral stmt f (some name.name)
    let symbol ← define name.name constant name.span
    store symbol span
    put .pop [] span
  | .bind name value constant span =>
    expr value
    let symbol ← define name.name constant name.span
    store symbol span
    put .pop [] span
  | .expr e span =>
    expr e
    put .pop [] span
  | .block b => b.statements.forM stmt
  | .ret value span =>
    if !(← get).state.function.isFunction then
      liftM (fail (.misplacedKeyword .returnOutsideFunction) span : CompileM Unit)
    else
      match value with
      | some value =>
        expr value
        exitRegions stmt 0 span
        put .returnValue [] span
      | none =>
        exitRegions stmt 0 span
        put .returnNull [] span
  | .forLoop init condition update body span =>
    optStmt stmt init
    let start ← offset
    enterLoop none (← get).regions.length
    let exits ← loopTest expr condition span
    body.statements.forM stmt
    placeContinues span
    loopUpdate expr update span
    emitJumpTo .jump start span
    patchAllHere span exits
    leaveLoop span
  | .whileLoop condition body span =>
    let start ← offset
    enterLoop (some start) (← get).regions.length
    expr condition
    let exit ← emitJump .jumpIfFalse span
    body.statements.forM stmt
    emitJumpTo .jump start span
    patchHere exit span
    leaveLoop span
  | .breakLoop span =>
    let ctx ← innermostLoop .breakOutsideLoop span
    exitRegions stmt ctx.tryDepth span
    let jump ← emitJump .jump span
    modifyLoop fun ctx => { ctx with breakJumps := ctx.breakJumps ++ [jump] }
  | .continueLoop span =>
    let ctx ← innermostLoop .continueOutsideLoop span
    exitRegions stmt ctx.tryDepth span
    match ctx.continueTarget with
    | some target => emitJumpTo .jump target span
    | none =>
      let jump ← emitJump .jump span
      modifyLoop fun ctx => { ctx with continueJumps := ctx.continueJumps ++ [jump] }
  | .classDecl name parent body span =>
    let (symbol, place) ← beginClass name parent.isSome span
    let found ← members stmt name.name body .empty
    endClass symbol place
      ⟨name.name, parent.map (·.name), found.properties, found.methods, none⟩ span
  | .tryCatch body none none _ => body.statements.forM stmt
  | .tryCatch body (some ⟨param, handler⟩) none span =>
    let enter ← emit .tryEnter [Opcode.noTarget, Opcode.noTarget] span
    inRegion none (body.statements.forM stmt)
    let leave ← emitJump .finallyEnd span
    patch enter 0 (← offset) span
    bindThrown param span
    handler.statements.forM stmt
    let skip ← emitJump .jump span
    patchAllHere span [leave, skip]
  | .tryCatch body none (some cleanup) span =>
    let enter ← emit .tryEnter [Opcode.noTarget, Opcode.noTarget] span
    inRegion (some cleanup) (body.statements.forM stmt)
    let leave ← emitJump .finallyEnd span
    patchHere leave span
    put .null [] span
    put .pushFalse [] span
    patch enter 1 (← offset) span
    cleanup.statements.forM stmt
    put .rethrow [] span
  | .tryCatch body (some ⟨param, handler⟩) (some cleanup) span =>
    let enter ← emit .tryEnter [Opcode.noTarget, Opcode.noTarget] span
    inRegion (some cleanup) (body.statements.forM stmt)
    let leave ← emitJump .finallyEnd span
    patch enter 0 (← offset) span
    bindThrown param span
    let enterHandler ← emit .tryEnter [Opcode.noTarget, Opcode.noTarget] span
    inRegion (some cleanup) (handler.statements.forM stmt)
    let leaveHandler ← emitJump .finallyEnd span
    patchAllHere span [leave, leaveHandler]
    put .null [] span
    put .pushFalse [] span
    let start ← offset
    patch enter 1 start span
    patch enterHandler 1 start span
    cleanup.statements.forM stmt
    put .rethrow [] span
  | .throw value span =>
    expr value
    put .throw [] span

end

/-! ## Levels within a limit -/

mutual

/-- Compile an expression with at most `n` levels. -/
def exprWithin : Nat → Expr → OpenM Unit
  | 0, _ => throw .exceeded
  | n + 1, e => exprForm (exprWithin n) (stmtWithin n) e

/-- Compile a statement with at most `n` levels. -/
def stmtWithin : Nat → Stmt → OpenM Unit
  | 0, _ => throw .exceeded
  | n + 1, s => stmtForm (exprWithin n) (stmtWithin n) s

end

end OpenM

/-! ## Units -/

namespace Link

/-- Walk the chain above a class in at most so many rounds. -/
def walkWithin (p : Pool) (spans : List (String × Span)) (start : String) :
    Nat → List String → ClassConstant → Except Halted Unit
  | 0, _, _ => .error .exceeded
  | n + 1, seen, current =>
    match current.parentName, current.parent with
    | some parent, none =>
      match p.lastClass? parent with
      | none => .error (.refused ⟨.unknownParentClass current.name parent, spanOf spans current.name⟩)
      | some (_, next) =>
        if seen.contains next.name then .error (.refused ⟨.inheritanceCycle start, spanOf spans start⟩)
        else walkWithin p spans start n (next.name :: seen) next
    | _, _ => .ok ()

/-- Walk the chains of all given classes. -/
def checkAllWithin (n : Nat) (p : Pool) (spans : List (String × Span)) :
    List (Nat × ClassConstant) → Except Halted Unit
  | [] => .ok ()
  | (_, c) :: rest =>
    match walkWithin p spans c.name n [c.name] c with
    | .error e => .error e
    | .ok () => checkAllWithin n p spans rest

end Link

/-- Link the classes from place `first` on, each in at most `n` rounds. -/
def OpenM.linkWithin (n first : Nat) : OpenM Unit := fun s =>
  let new := s.state.pool.newClasses first
  match Link.checkAllWithin n s.state.pool s.state.classSpans new with
  | .error e => .error e s
  | .ok () =>
    let pool := new.foldl (fun q e => q.setIfInBounds e.1 (.cls (Link.linked s.state.pool e.2))) s.state.pool
    .ok () { s with state := { s.state with pool } }

/-- The statements of a unit with at most `depth` levels, and its classes in at most `rounds` rounds. -/
def OpenM.unitWithin (depth rounds first : Nat) (ss : List Stmt) : OpenM CodeBlock := do
  ss.forM (stmtWithin depth)
  linkWithin rounds first
  CompileM.put .halt [] .dummy
  CompileM.getBlock

/-- Compile a unit within limits; no answer if one of them is reached. -/
def Compiler.compileWithin (depth rounds : Nat) (c : Compiler) (p : Program) :
    Option (Except CompileError (UnitCode × Compiler)) :=
  match OpenM.unitWithin depth rounds c.pool.size (c.optimizer.run p).1.statements ⟨c.start, []⟩ with
  | .ok block s => some (.ok (⟨block.code, block.debug⟩, c.keep s.state))
  | .error (.refused e) _ => some (.error e)
  | .error .exceeded _ => none

end ScriptMachine
