import ScriptMachine.Proofs.Layout.Basic

/-!
# Where instructions come from

Each instruction is emitted for a node of the source. `Origins S n os` says which instructions the code of the piece
`n` consists of, in order, and which node each of them stands for: it bears the span of that node. There is one rule
for each form of the source. The rules leave open what only the scopes of names decide: whether a variable is a
global, a local or a cell, and how many cells a closure captures.
-/

namespace ScriptMachine

/-- What an instruction does, and the span of the node that it was emitted for. -/
structure Origin where
  opcode : Opcode
  span : Span
deriving DecidableEq, Repr

def Emitted.origin (i : Emitted) : Origin := ⟨i.opcode, i.span⟩

namespace Opcode

/-- Whether an instruction pushes the value of a binding. -/
def isLoad : Opcode → Bool
  | .getGlobal | .getLocal | .getFree | .getBuiltin | .currentClosure => true
  | _ => false

/-- Whether an instruction stores into a binding. -/
def isStore : Opcode → Bool
  | .setGlobal | .setLocal | .setFree => true
  | _ => false

/-- Whether an instruction queues a cell for a closure. -/
def isCapture : Opcode → Bool
  | .captureLocal | .captureFree | .captureSelf => true
  | _ => false

/-- Whether an instruction ends a function body. -/
def isReturn : Opcode → Bool
  | .returnValue | .returnNull => true
  | _ => false

end Opcode

/-- The instruction that pushes a literal. -/
def Literal.opcode : Literal → Opcode
  | .int _ | .float _ | .str _ => .constant
  | .bool true => .pushTrue
  | .bool false => .pushFalse
  | .null => .null

/-- The instructions that make the value of an expression, once its operands are there. -/
def Expr.Finish (ops : List Opcode) : Expr → Prop
  | .literal l _ => ops = [l.opcode]
  | .ident _ | .this _ => ∃ op, op.isLoad = true ∧ ops = [op]
  | .unary op _ _ => ops = [if op = "-" then .negate else .not]
  | .binary op _ _ _ => ∃ o swap, BinaryOp.ofText? op = some (o, swap) ∧ ops = [o.opcode]
  | .function _ => ∃ cells, (∀ op ∈ cells, op.isCapture = true) ∧ ops = cells ++ [.closure]
  | .call (.member _ _ _) _ _ => ops = [.invoke]
  | .call (.super _ _) _ _ => ops = [.constant, .invokeSuper]
  | .call _ _ _ => ops = [.call]
  | .array es ordered _ => ops = [if Element.makeOrderedMap es ordered then .orderedMap else .array]
  | .index _ _ _ => ops = [.getIndex]
  | .hash _ _ => ops = [.hash]
  | .assign _ _ _ => ∃ op, op.isStore = true ∧ ops = [op]
  | .indexAssign _ _ _ _ => ops = [.setIndex]
  | .member _ _ _ => ops = [.getProperty]
  | .memberAssign _ _ _ _ => ops = [.setProperty]
  | .spawn _ _ _ => ops = [.spawn]
  | .channel _ _ => ops = [.channel]
  | .send _ _ _ => ops = [.send]
  | .receive _ _ => ops = [.receive]
  | .ternary _ _ _ _ | .cond _ _ _ _ | .super _ _ => False

/-- The value on top of the stack is stored into a binding and dropped. -/
def Origin.Stored (span : Span) (os : List Origin) : Prop :=
  ∃ op : Opcode, op.isStore = true ∧ os = [⟨op, span⟩, ⟨.pop, span⟩]

/-- What a handler does with the value that it receives. -/
def Origin.Caught (param : Option Ident) (span : Span) (os : List Origin) : Prop :=
  match param with
  | some p => Stored p.span os
  | none => os = [⟨.pop, span⟩]

/-- The code of a piece of the source consists of the instructions `os`. -/
inductive Origins : Site → Node → List Origin → Prop where
  -- Expressions
  | expr {S e os} : Origins S (.form e) os → Origins S (.expr e) os
  | strict {S e es os ops} :
    e.operands? = some es → Origins S (.operands e 0 es) os → e.Finish ops →
    Origins S (.form e) (os ++ ops.map fun op => ⟨op, e.span⟩)
  | noOperands {S e k} : Origins S (.operands e k []) []
  | operand {S e k x xs os os'} :
    Origins S (.expr x) os → Origins (S.up 1) (.operands e (k + 1) xs) os' →
    Origins S (.operands e k (.expr x :: xs)) (os ++ os')
  | index {S e k n span xs os} :
    Origins (S.up 1) (.operands e (k + 1) xs) os →
    Origins S (.operands e k (.index n span :: xs)) (⟨.constant, span⟩ :: os)
  | and {S l r span os os'} :
    Origins S (.expr l) os → Origins S (.expr r) os' →
    Origins S (.form (.binary "&&" l r span))
      (os ++ ⟨.dup, span⟩ :: ⟨.jumpIfFalse, span⟩ :: ⟨.pop, span⟩ :: os')
  | or {S l r span os os'} :
    Origins S (.expr l) os → Origins S (.expr r) os' →
    Origins S (.form (.binary "||" l r span))
      (os ++ ⟨.dup, span⟩ :: ⟨.jumpIfFalse, span⟩ :: ⟨.jump, span⟩ :: ⟨.pop, span⟩ :: os')
  | ternary {S c y n span os₁ os₂ os₃} :
    Origins S (.expr c) os₁ → Origins S (.expr y) os₂ → Origins S (.expr n) os₃ →
    Origins S (.form (.ternary c y n span)) (os₁ ++ ⟨.jumpIfFalse, span⟩ :: (os₂ ++ ⟨.jump, span⟩ :: os₃))
  | cond {S c y n span os₁ os₂ os₃} :
    Origins S (.expr c) os₁ → Origins S (.value y) os₂ → Origins S (.alternative n span) os₃ →
    Origins S (.form (.cond c y n span)) (os₁ ++ ⟨.jumpIfFalse, span⟩ :: (os₂ ++ ⟨.jump, span⟩ :: os₃))
  | noAlternative {S span} : Origins S (.alternative none span) [⟨.null, span⟩]
  | alternative {S b span os} : Origins S (.value b) os → Origins S (.alternative (some b) span) os
  /-- The last expression of a branch keeps its value. -/
  | value {S ss e s span os os'} :
    Origins S (.stmts ss) os → Origins S (.expr e) os' →
    Origins S (.value ⟨ss ++ [.expr e s], span⟩) (os ++ os')
  | noValue {S ss span os} :
    endsWithExpr ss = false → Origins S (.stmts ss) os → Origins S (.value ⟨ss, span⟩) (os ++ [⟨.null, span⟩])
  -- Statements
  | stmt {S s os} : Origins S (.action s) os → Origins S (.stmt s) os
  | noStmts {S} : Origins S (.stmts []) []
  | stmts {S s ss os os'} :
    Origins S (.stmt s) os → Origins S (.stmts ss) os' → Origins S (.stmts (s :: ss)) (os ++ os')
  | noOptStmt {S} : Origins S (.optStmt none) []
  | optStmt {S s os} : Origins S (.stmt s) os → Origins S (.optStmt (some s)) os
  | bind {S name e constant span os os'} :
    Origins S (.expr e) os → Origin.Stored span os' →
    Origins S (.action (.bind name e constant span)) (os ++ os')
  | exprStmt {S e span os} :
    Origins S (.expr e) os → Origins S (.action (.expr e span)) (os ++ [⟨.pop, span⟩])
  | throw {S e span os} :
    Origins S (.expr e) os → Origins S (.action (.throw e span)) (os ++ [⟨.throw, span⟩])
  | classDecl {S name parent body span os} :
    Origin.Stored span os → Origins S (.action (.classDecl name parent body span)) (⟨.constant, span⟩ :: os)
  | block {S ss s os} : Origins S (.stmts ss) os → Origins S (.action (.block ⟨ss, s⟩)) os
  | retNull {S span os} :
    Origins S (.exits 0 span) os → Origins S (.action (.ret none span)) (os ++ [⟨.returnNull, span⟩])
  | ret {S e span os os'} :
    Origins S (.expr e) os → Origins (S.up 1) (.exits 0 span) os' →
    Origins S (.action (.ret (some e) span)) (os ++ (os' ++ [⟨.returnValue, span⟩]))
  -- Loops
  | while {S c body s span os os'} :
    Origins (S.loop false) (.expr c) os → Origins (S.loop false) (.stmts body) os' →
    Origins S (.action (.whileLoop c ⟨body, s⟩ span))
      (os ++ ⟨.jumpIfFalse, span⟩ :: (os' ++ [⟨.jump, span⟩]))
  | for {S init c u body s span os₀ os₁ os₂ os₃} :
    Origins S (.optStmt init) os₀ → Origins (S.loop false) (.test c span) os₁ →
    Origins (S.loop false) (.stmts body) os₂ → Origins (S.loop true) (.update u span) os₃ →
    Origins S (.action (.forLoop init c u ⟨body, s⟩ span))
      (os₀ ++ (os₁ ++ (os₂ ++ (os₃ ++ [⟨.jump, span⟩]))))
  | noTest {S span} : Origins S (.test none span) []
  | test {S c span os} :
    Origins S (.expr c) os → Origins S (.test (some c) span) (os ++ [⟨.jumpIfFalse, span⟩])
  | noUpdate {S span} : Origins S (.update none span) []
  | update {S u span os} : Origins S (.expr u) os → Origins S (.update (some u) span) (os ++ [⟨.pop, span⟩])
  | brk {S span os l ls} :
    Site.loops S = l :: ls → Origins S (.exits l.depth span) os →
    Origins S (.action (.breakLoop span)) (os ++ [⟨.jump, span⟩])
  | cont {S span os l ls} :
    Site.loops S = l :: ls → Origins S (.exits l.depth span) os →
    Origins S (.action (.continueLoop span)) (os ++ [⟨.jump, span⟩])
  -- Protected regions
  | noExits {S depth span} : (Site.cleanups S).length ≤ depth → Origins S (.exits depth span) []
  | exits {S depth span cleanup outer os os'} :
    Site.cleanups S = cleanup :: outer → depth ≤ outer.length →
    Origins (S.leave outer) (.stmts (cleanup.elim [] Block.statements)) os →
    Origins (S.leave outer) (.exits depth span) os' →
    Origins S (.exits depth span) (⟨.finallyEnd, span⟩ :: (os ++ os'))
  | tryNone {S body s span os} :
    Origins S (.stmts body) os → Origins S (.action (.tryCatch ⟨body, s⟩ none none span)) os
  | tryCatch {S body s param handler s' span os₁ os₂ os₃} :
    Origins (S.enter none) (.stmts body) os₁ → Origin.Caught param span os₂ → Origins S (.stmts handler) os₃ →
    Origins S (.action (.tryCatch ⟨body, s⟩ (some ⟨param, ⟨handler, s'⟩⟩) none span))
      (⟨.tryEnter, span⟩ :: (os₁ ++ ⟨.finallyEnd, span⟩ :: (os₂ ++ (os₃ ++ [⟨.jump, span⟩]))))
  | tryFinally {S body s cleanup s' span os os'} :
    Origins (S.enter (some ⟨cleanup, s'⟩)) (.stmts body) os → Origins (S.up 2) (.stmts cleanup) os' →
    Origins S (.action (.tryCatch ⟨body, s⟩ none (some ⟨cleanup, s'⟩) span))
      (⟨.tryEnter, span⟩ :: (os ++ ⟨.finallyEnd, span⟩ :: ⟨.null, span⟩ :: ⟨.pushFalse, span⟩ ::
        (os' ++ [⟨.rethrow, span⟩])))
  | tryBoth {S body s param handler s' cleanup s'' span os₁ os₂ os₃ os₄} :
    Origins (S.enter (some ⟨cleanup, s''⟩)) (.stmts body) os₁ → Origin.Caught param span os₂ →
    Origins (S.enter (some ⟨cleanup, s''⟩)) (.stmts handler) os₃ → Origins (S.up 2) (.stmts cleanup) os₄ →
    Origins S (.action (.tryCatch ⟨body, s⟩ (some ⟨param, ⟨handler, s'⟩⟩) (some ⟨cleanup, s''⟩) span))
      (⟨.tryEnter, span⟩ :: (os₁ ++ ⟨.finallyEnd, span⟩ :: (os₂ ++ ⟨.tryEnter, span⟩ ::
        (os₃ ++ ⟨.finallyEnd, span⟩ :: ⟨.null, span⟩ :: ⟨.pushFalse, span⟩ :: (os₄ ++ [⟨.rethrow, span⟩])))))
  -- Blocks
  /-- The last expression of a function body is its result. -/
  | bodyValue {S ss e s span os os'} :
    Origins S (.stmts ss) os → Origins S (.expr e) os' →
    Origins S (.body ⟨ss ++ [.expr e s], span⟩) (os ++ (os' ++ [⟨.returnValue, s⟩]))
  | bodyNull {S ss span os} :
    endsWithExpr ss = false → Origins S (.stmts ss) os → (∀ o ∈ os.getLast?, o.opcode.isReturn = false) →
    Origins S (.body ⟨ss, span⟩) (os ++ [⟨.returnNull, span⟩])
  /-- A body that ends with a return needs none. -/
  | bodyReturn {S ss span os o} :
    endsWithExpr ss = false → Origins S (.stmts ss) os → os.getLast? = some o → o.opcode.isReturn = true →
    Origins S (.body ⟨ss, span⟩) os
  | unit {S ss os} : Origins S (.stmts ss) os → Origins S (.unit ss) (os ++ [⟨.halt, .dummy⟩])

/-- Statements that end with an expression end with the `pop` of its statement. -/
theorem Origins.split_expr {S : Site} {ss : List Stmt} {e : Expr} {s : Span} {os : List Origin}
    (h : Origins S (.stmts (ss ++ [.expr e s])) os) :
    ∃ os₁ os₂, os = os₁ ++ os₂ ++ [⟨.pop, s⟩] ∧ Origins S (.stmts ss) os₁ ∧ Origins S (.expr e) os₂ := by
  induction ss generalizing os with
  | nil =>
    cases h with
    | stmts hone hrest =>
      cases hrest
      cases hone with
      | stmt haction =>
        cases haction with
        | exprStmt hexpr => exact ⟨[], _, by simp, .noStmts, hexpr⟩
  | cons t ss ih =>
    cases h with
    | stmts hone hrest =>
      obtain ⟨os₁, os₂, rfl, hss, hexpr⟩ := ih hrest
      exact ⟨_, os₂, by simp, .stmts hone hss, hexpr⟩

end ScriptMachine
