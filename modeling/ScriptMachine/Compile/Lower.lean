import ScriptMachine.Ast.Basic
import ScriptMachine.Compile.Monad
import ScriptMachine.Operator

/-!
# From trees to instructions

An expression leaves exactly one value on the stack, a statement leaves the stack as it found it. A
function body becomes a block of its own.

`return`, `break` and `continue` leave protected regions: for each region, innermost first, its
handler is dropped and its finally body is compiled in place, with only the regions outside it still
open. The regions around the code at hand are an argument of compilation, so the recursion ends: what
is compiled in place was taken out of that argument.

A `try` with both clauses has this shape (`C` is the handler, `F` the finally body):

```
    TryEnter  C, F
    <body>
    FinallyEnd N
C:  <bind or pop the thrown value>
    TryEnter  -, F
    <catch body>
    FinallyEnd N
N:  Null; False
F:  <finally body>
    Rethrow
```
-/

namespace ScriptMachine

/-- The protected regions around the code at hand, innermost first, with their finally bodies. -/
abbrev Regions := List (Option Block)

theorem Regions.sizeOf_pos (regions : Regions) : 0 < sizeOf regions := by
  cases regions <;> simp only [List.nil.sizeOf_spec, List.cons.sizeOf_spec] <;> omega

/-- Whether a list of statements ends with an expression statement. -/
def endsWithExpr (ss : List Stmt) : Bool :=
  match ss.getLast? with
  | some (.expr _ _) => true
  | _ => false

/-- The next implicit key after an element with the given key: one past the largest literal integer
key so far. -/
def nextIndexAfter (next : Int64) : Option Expr → Int64
  | some (.literal (.int k) _) => max next (k + 1)
  | _ => next

/-- Members of a class body compiled so far. -/
structure ClassMembers where
  properties : List String
  methods : List (String × Function)

namespace ClassMembers

def empty : ClassMembers := ⟨[], []⟩

def addProperty (m : ClassMembers) (name : String) : ClassMembers :=
  if m.properties.contains name then m else { m with properties := m.properties ++ [name] }

/-- Add a method; one declared before is replaced in place. -/
def addMethod (m : ClassMembers) (name : String) (f : Function) : ClassMembers :=
  if m.methods.any fun e => e.1 == name then
    { m with methods := m.methods.map fun e => if e.1 == name then (name, f) else e }
  else { m with methods := m.methods ++ [(name, f)] }

end ClassMembers

namespace CompileM

def literal (l : Literal) (span : Span) : CompileM Unit :=
  match l with
  | .int n => emitConstant (.int n) span
  | .float x => emitConstant (.float x) span
  | .str s => emitConstant (.str s) span
  | .bool true => put .pushTrue [] span
  | .bool false => put .pushFalse [] span
  | .null => put .null [] span

/-- Push the receiver of the method at hand. -/
def this (span : Span) : CompileM Unit := do
  if (← get).classes.isEmpty then fail (.misplacedKeyword .thisOutsideMethod) span
  else
    let symbol ← resolve "this" span
    load symbol span

/-- The innermost class around the code at hand, which must have a parent. -/
def superClass (span : Span) : CompileM ClassContext := do
  match (← get).classes with
  | ctx :: _ =>
    if ctx.hasParent then return ctx else fail (.misplacedKeyword .superOutsideSubclass) span
  | [] => fail (.misplacedKeyword .superOutsideSubclass) span

/-- Declare the parameters of a function. -/
def defineParams : List Ident → CompileM Unit
  | [] => pure ()
  | p :: ps => do
    discard <| define p.name false p.span
    defineParams ps

/-- Make sure that a function body ends with a return: a final expression is the result, otherwise the
result is null. -/
def finishBody (body : List Stmt) (span : Span) : CompileM Unit := do
  if endsWithExpr body then modifyBlock CodeBlock.returnPop
  let block ← getBlock
  if !block.endsWith .returnValue && !block.endsWith .returnNull then put .returnNull [] span

/-- After the statements of a branch: a final expression leaves its value, otherwise the value is
null. -/
def finishBranch (body : List Stmt) (span : Span) : CompileM Unit := do
  if endsWithExpr body && (← getBlock).endsWith .pop then modifyBlock CodeBlock.dropPop
  else put .null [] span

/-- Build the closure of a compiled function. -/
def makeClosure (f : FunctionLiteral) (name : Option String) (body : Body) : CompileM Unit := do
  captureAll f.span body.free
  let function := body.block.toFunction name body.locals f.params.length
  let place ← addConstant (.function function) f.span
  put .closure [place, body.free.length] f.span

/-- The function of a compiled method, which may capture nothing. -/
def makeMethod (cls : String) (f : FunctionLiteral) (name : String) (body : Body) :
    CompileM Function :=
  match body.free with
  | captured :: _ =>
    fail (.malformedClassBody cls (.methodCaptures name captured.name)) f.span
  | [] => pure (body.block.toFunction (some (cls ++ "." ++ name)) body.locals f.params.length)

/-- Refuse a call with more arguments than its operand can count. -/
def checkArgs (count : Nat) (span : Span) : CompileM Unit :=
  if maxArgs < count then fail .tooManyArguments span else pure ()

/-- The opcode of a unary operator. -/
def unaryOpcode (op : String) (span : Span) : CompileM Opcode :=
  match op with
  | "-" => pure .negate
  | "!" => pure .not
  | op => fail (.unknownOperator op) span

/-- Enter the declaration of a class: its name is bound and its place in the pool is reserved. -/
def beginClass (name : Ident) (hasParent : Bool) (span : Span) : CompileM (Symbol × Nat) := do
  let symbol ← define name.name false name.span
  let place ← addConstant .null span
  modify fun s =>
    { s with
      classSpans := (name.name, span) :: s.classSpans
      classes := ⟨place, hasParent⟩ :: s.classes }
  return (symbol, place)

/-- Leave the declaration of a class: fill its place in the pool and bind its name to it. -/
def endClass (symbol : Symbol) (place : Nat) (c : ClassConstant) (span : Span) : CompileM Unit := do
  modify fun s =>
    { s with classes := s.classes.tail, pool := s.pool.setIfInBounds place (.cls c) }
  put .constant [place] span
  store symbol span
  put .pop [] span

/-- The innermost loop, or a refusal of the keyword. -/
def innermostLoop (m : Misplaced) (span : Span) : CompileM LoopContext := do
  match (← get).function.loops with
  | ctx :: _ => return ctx
  | [] => fail (.misplacedKeyword m) span

/-- Bind or drop the value that a handler receives. -/
def bindThrown (param : Option Ident) (span : Span) : CompileM Unit := do
  match param with
  | some p =>
    let symbol ← define p.name false p.span
    store symbol p.span
    put .pop [] p.span
  | none => put .pop [] span

mutual

/-- Compile an expression. -/
def expr (regions : Regions) (e : Expr) : CompileM Unit := do
  match e with
  | .literal l span => literal l span
  | .ident id =>
    let symbol ← resolve id.name id.span
    load symbol id.span
  | .unary op operand span =>
    let opcode ← unaryOpcode op span
    expr regions operand
    put opcode [] span
  | .binary op left right span =>
    if op == "&&" then
      expr regions left
      put .dup [] span
      let done ← emitJump .jumpIfFalse span
      put .pop [] span
      expr regions right
      patchHere done span
    else if op == "||" then
      expr regions left
      put .dup [] span
      let rest ← emitJump .jumpIfFalse span
      let done ← emitJump .jump span
      patchHere rest span
      put .pop [] span
      expr regions right
      patchHere done span
    else
      match BinaryOp.ofText? op with
      | none => fail (.unknownOperator op) span
      | some (op, swap) =>
        if swap then
          expr regions right
          expr regions left
        else
          expr regions left
          expr regions right
        put op.opcode [] span
  | .ternary condition yes no span =>
    expr regions condition
    let skip ← emitJump .jumpIfFalse span
    expr regions yes
    let done ← emitJump .jump span
    patchHere skip span
    expr regions no
    patchHere done span
  | .cond condition yes no span =>
    expr regions condition
    let skip ← emitJump .jumpIfFalse span
    branch regions yes
    let done ← emitJump .jump span
    patchHere skip span
    alternative regions no span
    patchHere done span
  | .function f => functionLiteral f none
  | .call (.member target member _) args span =>
    expr regions target
    checkArgs args.length span
    exprs regions args
    let place ← addConstant (.str member.name) span
    put .invoke [place, args.length] span
  | .call (.super method superSpan) args span =>
    let ctx ← superClass superSpan
    this superSpan
    checkArgs args.length span
    exprs regions args
    put .constant [ctx.constant] span
    let place ← addConstant (.str method.name) span
    put .invokeSuper [place, args.length] span
  | .call callee args span =>
    expr regions callee
    checkArgs args.length span
    exprs regions args
    put .call [args.length] span
  | .array es ordered span =>
    if Element.makeOrderedMap es ordered then
      mapElements regions span 0 es
      put .orderedMap [es.length * 2] span
    else
      arrayElements regions es
      put .array [es.length] span
  | .index target index span =>
    expr regions target
    expr regions index
    put .getIndex [] span
  | .hash ps span =>
    pairs regions ps
    put .hash [ps.length * 2] span
  | .assign target value span =>
    let symbol ← resolve target.name target.span
    if !symbol.isAssignable then fail (.invalidAssignmentTarget symbol.name) span
    else
      expr regions value
      store symbol span
  | .indexAssign target index value span =>
    expr regions target
    expr regions index
    expr regions value
    put .setIndex [] span
  | .member target member span =>
    expr regions target
    let place ← addConstant (.str member.name) span
    put .getProperty [place] span
  | .memberAssign target member value span =>
    expr regions target
    expr regions value
    let place ← addConstant (.str member.name) span
    put .setProperty [place] span
  | .spawn callee args span =>
    expr regions callee
    checkArgs args.length span
    exprs regions args
    put .spawn [args.length] span
  | .channel (some capacity) span =>
    expr regions capacity
    put .channel [1] span
  | .channel none span => put .channel [0] span
  | .send channel value span =>
    expr regions channel
    expr regions value
    put .send [] span
  | .receive channel span =>
    expr regions channel
    put .receive [] span
  | .this span => this span
  | .super _ span => fail (.misplacedKeyword .superNotCalled) span
termination_by sizeOf e + sizeOf regions
decreasing_by
  all_goals
    simp_wf
    have := Regions.sizeOf_pos regions
    omega

/-- Compile expressions from left to right. -/
def exprs (regions : Regions) (es : List Expr) : CompileM Unit := do
  match es with
  | [] => pure ()
  | e :: es =>
    expr regions e
    exprs regions es
termination_by sizeOf es + sizeOf regions

/-- Compile the values of array elements. -/
def arrayElements (regions : Regions) (es : List Element) : CompileM Unit := do
  match es with
  | [] => pure ()
  | ⟨_, value⟩ :: es =>
    expr regions value
    arrayElements regions es
termination_by sizeOf es + sizeOf regions

/-- Compile keys and values of an ordered map; an element without a key takes the next index. -/
def mapElements (regions : Regions) (span : Span) (next : Int64) (es : List Element) :
    CompileM Unit := do
  match es with
  | [] => pure ()
  | ⟨some key, value⟩ :: es =>
    expr regions key
    expr regions value
    mapElements regions span (nextIndexAfter next (some key)) es
  | ⟨none, value⟩ :: es =>
    emitConstant (.int next) span
    expr regions value
    mapElements regions span (next + 1) es
termination_by sizeOf es + sizeOf regions

/-- Compile keys and values of a hash map. -/
def pairs (regions : Regions) (ps : List (Expr × Expr)) : CompileM Unit := do
  match ps with
  | [] => pure ()
  | (key, value) :: ps =>
    expr regions key
    expr regions value
    pairs regions ps
termination_by sizeOf ps + sizeOf regions

/-- Compile a branch of an `if`, whose value is that of its last expression. -/
def branch (regions : Regions) (b : Block) : CompileM Unit := do
  match b with
  | ⟨ss, span⟩ =>
    stmts regions ss
    finishBranch ss span
termination_by sizeOf b + sizeOf regions

/-- Compile the other branch of an `if`; without one the value is null. -/
def alternative (regions : Regions) (b : Option Block) (span : Span) : CompileM Unit := do
  match b with
  | some b => branch regions b
  | none => put .null [] span
termination_by sizeOf b + sizeOf regions

/-- Compile a function literal; `binding` is the variable it is bound to. -/
def functionLiteral (f : FunctionLiteral) (binding : Option String) : CompileM Unit := do
  match f with
  | ⟨ownName, params, body, span⟩ =>
    let name := ownName <|> binding
    let compiled ← inFunction do
      match name with
      | some name => modify fun s => { s with symbols := (s.symbols.defineFunctionName name).2 }
      | none => pure ()
      defineParams params
      functionBody body
    makeClosure ⟨ownName, params, body, span⟩ name compiled
termination_by sizeOf f + 1

/-- Compile the statements of a function body and make sure that it returns. -/
def functionBody (b : Block) : CompileM Unit := do
  match b with
  | ⟨ss, span⟩ =>
    stmts [] ss
    finishBody ss span
termination_by sizeOf b + 1

/-- Compile a method; `this` is its first local. -/
def method (cls : String) (f : FunctionLiteral) (name : String) : CompileM Function := do
  match f with
  | ⟨ownName, params, body, span⟩ =>
    let compiled ← inFunction do
      discard <| define "this" true span
      defineParams params
      functionBody body
    makeMethod cls ⟨ownName, params, body, span⟩ name compiled
termination_by sizeOf f + 1

/-- Compile the members of a class body. -/
def members (cls : String) (body : List Stmt) (found : ClassMembers) : CompileM ClassMembers := do
  match body with
  | [] => pure found
  | .bind name (.function f) _ _ :: rest =>
    let m ← method cls f name.name
    members cls rest (found.addMethod name.name m)
  | .bind name _ _ _ :: rest => members cls rest (found.addProperty name.name)
  | .expr (.function f) _ :: rest =>
    match f.name with
    | none => fail (.malformedClassBody cls .unnamedMethod) f.span
    | some name =>
      let m ← method cls f name
      members cls rest (found.addMethod name m)
  | .expr (.ident id) _ :: rest => members cls rest (found.addProperty id.name)
  | other :: _ => fail (.malformedClassBody cls .notADeclaration) other.span
termination_by sizeOf body

/-- Compile statements in order. -/
def stmts (regions : Regions) (ss : List Stmt) : CompileM Unit := do
  match ss with
  | [] => pure ()
  | s :: ss =>
    stmt regions s
    stmts regions ss
termination_by sizeOf ss + sizeOf regions

/-- Leave the regions above `depth`, innermost first. -/
def exitRegions (regions : Regions) (depth : Nat) (span : Span) : CompileM Unit := do
  match regions with
  | [] => pure ()
  | cleanup :: outer =>
    if depth ≤ outer.length then
      emitJumpTo .finallyEnd ((← offset) + Opcode.length .finallyEnd) span
      match cleanup with
      | some ⟨ss, _⟩ => stmts outer ss
      | none => pure ()
      exitRegions outer depth span
    else pure ()
termination_by sizeOf regions

/-- Compile the statement before a loop, if there is one. -/
def optStmt (regions : Regions) (s : Option Stmt) : CompileM Unit := do
  match s with
  | some s => stmt regions s
  | none => pure ()
termination_by sizeOf s + sizeOf regions

/-- Compile the condition of a loop, if there is one, and the jump out of the loop; answers where that
jump stands. -/
def loopTest (regions : Regions) (condition : Option Expr) (span : Span) : CompileM (List Nat) := do
  match condition with
  | some condition =>
    expr regions condition
    let exit ← emitJump .jumpIfFalse span
    return [exit]
  | none => return []
termination_by sizeOf condition + sizeOf regions

/-- Compile the update clause of a loop, if there is one. -/
def loopUpdate (regions : Regions) (update : Option Expr) (span : Span) : CompileM Unit := do
  match update with
  | some update =>
    expr regions update
    put .pop [] span
  | none => pure ()
termination_by sizeOf update + sizeOf regions

/-- Compile a statement. -/
def stmt (regions : Regions) (s : Stmt) : CompileM Unit := do
  match s with
  | .bind name (.function f) constant span =>
    functionLiteral f (some name.name)
    let symbol ← define name.name constant name.span
    store symbol span
    put .pop [] span
  | .bind name value constant span =>
    expr regions value
    let symbol ← define name.name constant name.span
    store symbol span
    put .pop [] span
  | .expr e span =>
    expr regions e
    put .pop [] span
  | .block ⟨ss, _⟩ => stmts regions ss
  | .ret value span =>
    if !(← get).function.isFunction then fail (.misplacedKeyword .returnOutsideFunction) span
    else
      match value with
      | some value =>
        expr regions value
        exitRegions regions 0 span
        put .returnValue [] span
      | none =>
        exitRegions regions 0 span
        put .returnNull [] span
  | .forLoop init condition update ⟨body, _⟩ span =>
    optStmt regions init
    let start ← offset
    enterLoop none regions.length
    let exits ← loopTest regions condition span
    stmts regions body
    placeContinues span
    loopUpdate regions update span
    emitJumpTo .jump start span
    patchAllHere span exits
    leaveLoop span
  | .whileLoop condition ⟨body, _⟩ span =>
    let start ← offset
    enterLoop (some start) regions.length
    expr regions condition
    let exit ← emitJump .jumpIfFalse span
    stmts regions body
    emitJumpTo .jump start span
    patchHere exit span
    leaveLoop span
  | .breakLoop span =>
    let ctx ← innermostLoop .breakOutsideLoop span
    exitRegions regions ctx.tryDepth span
    let jump ← emitJump .jump span
    modifyLoop fun ctx => { ctx with breakJumps := ctx.breakJumps ++ [jump] }
  | .continueLoop span =>
    let ctx ← innermostLoop .continueOutsideLoop span
    exitRegions regions ctx.tryDepth span
    match ctx.continueTarget with
    | some target => emitJumpTo .jump target span
    | none =>
      let jump ← emitJump .jump span
      modifyLoop fun ctx => { ctx with continueJumps := ctx.continueJumps ++ [jump] }
  | .classDecl name parent body span =>
    let (symbol, place) ← beginClass name parent.isSome span
    let found ← members name.name body .empty
    endClass symbol place
      ⟨name.name, parent.map (·.name), found.properties, found.methods, none⟩ span
  | .tryCatch ⟨body, _⟩ none none _ => stmts regions body
  | .tryCatch ⟨body, _⟩ (some ⟨param, ⟨handler, _⟩⟩) none span =>
    let enter ← emit .tryEnter [Opcode.noTarget, Opcode.noTarget] span
    stmts (none :: regions) body
    let leave ← emitJump .finallyEnd span
    patch enter 0 (← offset) span
    bindThrown param span
    stmts regions handler
    let skip ← emitJump .jump span
    patchAllHere span [leave, skip]
  | .tryCatch ⟨body, _⟩ none (some ⟨cleanup, cleanupSpan⟩) span =>
    let enter ← emit .tryEnter [Opcode.noTarget, Opcode.noTarget] span
    stmts (some ⟨cleanup, cleanupSpan⟩ :: regions) body
    let leave ← emitJump .finallyEnd span
    patchHere leave span
    put .null [] span
    put .pushFalse [] span
    patch enter 1 (← offset) span
    stmts regions cleanup
    put .rethrow [] span
  | .tryCatch ⟨body, _⟩ (some ⟨param, ⟨handler, _⟩⟩) (some ⟨cleanup, cleanupSpan⟩) span =>
    let enter ← emit .tryEnter [Opcode.noTarget, Opcode.noTarget] span
    stmts (some ⟨cleanup, cleanupSpan⟩ :: regions) body
    let leave ← emitJump .finallyEnd span
    patch enter 0 (← offset) span
    bindThrown param span
    let enterHandler ← emit .tryEnter [Opcode.noTarget, Opcode.noTarget] span
    stmts (some ⟨cleanup, cleanupSpan⟩ :: regions) handler
    let leaveHandler ← emitJump .finallyEnd span
    patchAllHere span [leave, leaveHandler]
    put .null [] span
    put .pushFalse [] span
    let start ← offset
    patch enter 1 start span
    patch enterHandler 1 start span
    stmts regions cleanup
    put .rethrow [] span
  | .throw value span =>
    expr regions value
    put .throw [] span
termination_by sizeOf s + sizeOf regions

end

section

-- The equations of these functions are derived here, once for all modules that open them.
attribute [local simp] expr exprs arrayElements mapElements pairs branch alternative functionLiteral
  functionBody method members stmts exitRegions optStmt loopTest loopUpdate stmt

end

end CompileM

end ScriptMachine
