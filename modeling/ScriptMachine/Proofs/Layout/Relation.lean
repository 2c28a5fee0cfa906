import ScriptMachine.Proofs.Layout.Basic

/-!
# The layout of code

`Lays Γ n o code notes` says that `code`, which starts at offset `o`, is the code of the piece `n` of
the source in the context `Γ`. Every jump carries its final target, every instruction the regions
around it and the height of the stack. The rules are the code shapes of the language, one for each
form; nothing in them refers to the order in which code is emitted or jumps are patched.

The notes list, for every statement and expression inside the piece, where its code starts and ends.
-/

namespace ScriptMachine

open Point

/-- `code` at offset `o` is the code of a piece of the source. -/
inductive Lays : Context → Node → Nat → List Point → List Note → Prop where
  -- Expressions
  | expr {Γ e o code notes} :
    Lays Γ (.form e) o code notes →
    Lays Γ (.expr e) o code (.expr e o (o + size code) Γ :: notes)
  | strict {Γ e o es code notes tail} :
    e.operands? = some es → Lays Γ (.operands e 0 es) o code notes →
    Tail e.Counted es.length 1 tail →
    Lays Γ (.form e) o (code ++ row Γ.regions (o + size code) (Γ.height + es.length) tail) notes
  | noOperands {Γ e k o} : Lays Γ (.operands e k []) o [] []
  | operand {Γ e k o x xs c₁ c₂ n₁ n₂} :
    Lays Γ (.expr x) o c₁ n₁ → Lays (Γ.up 1) (.operands e (k + 1) xs) (o + size c₁) c₂ n₂ →
    Lays Γ (.operands e k (.expr x :: xs)) o (c₁ ++ c₂)
      (.held e k (o + size c₁) (o + size c₁ + size c₂) Γ :: (n₁ ++ n₂))
  | index {Γ e k o n span xs place c₂ n₂} :
    Lays (Γ.up 1) (.operands e (k + 1) xs) (o + 3) c₂ n₂ →
    Lays Γ (.operands e k (.index n span :: xs)) o (Γ.point o 0 .constant [place] span :: c₂)
      (.held e k (o + 3) (o + 3 + size c₂) Γ :: n₂)
  | and {Γ o l r span c₁ c₂ n₁ n₂ stop} :
    Lays Γ (.expr l) o c₁ n₁ → Lays Γ (.expr r) (o + size c₁ + 5) c₂ n₂ →
    stop = o + size c₁ + 5 + size c₂ → stop < Opcode.noTarget →
    Lays Γ (.form (.binary "&&" l r span)) o
      (c₁ ++ Γ.point (o + size c₁) 1 .dup [] span
        :: Γ.point (o + size c₁ + 1) 2 .jumpIfFalse [stop] span
        :: Γ.point (o + size c₁ + 4) 1 .pop [] span :: c₂) (n₁ ++ n₂)
  | or {Γ o l r span c₁ c₂ n₁ n₂ stop} :
    Lays Γ (.expr l) o c₁ n₁ → Lays Γ (.expr r) (o + size c₁ + 8) c₂ n₂ →
    stop = o + size c₁ + 8 + size c₂ → stop < Opcode.noTarget →
    Lays Γ (.form (.binary "||" l r span)) o
      (c₁ ++ Γ.point (o + size c₁) 1 .dup [] span
        :: Γ.point (o + size c₁ + 1) 2 .jumpIfFalse [o + size c₁ + 7] span
        :: Γ.point (o + size c₁ + 4) 1 .jump [stop] span
        :: Γ.point (o + size c₁ + 7) 1 .pop [] span :: c₂) (n₁ ++ n₂)
  | ternary {Γ o c y n span c₁ c₂ c₃ n₁ n₂ n₃ other stop} :
    Lays Γ (.expr c) o c₁ n₁ → Lays Γ (.expr y) (o + size c₁ + 3) c₂ n₂ →
    Lays Γ (.expr n) other c₃ n₃ →
    other = o + size c₁ + 3 + size c₂ + 3 → stop = other + size c₃ → stop < Opcode.noTarget →
    Lays Γ (.form (.ternary c y n span)) o
      (c₁ ++ Γ.point (o + size c₁) 1 .jumpIfFalse [other] span
        :: (c₂ ++ Γ.point (o + size c₁ + 3 + size c₂) 1 .jump [stop] span :: c₃))
      (n₁ ++ (n₂ ++ n₃))
  | cond {Γ o c y n span c₁ c₂ c₃ n₁ n₂ n₃ other stop} :
    Lays Γ (.expr c) o c₁ n₁ → Lays Γ (.value y) (o + size c₁ + 3) c₂ n₂ →
    Lays Γ (.alternative n span) other c₃ n₃ →
    other = o + size c₁ + 3 + size c₂ + 3 → stop = other + size c₃ → stop < Opcode.noTarget →
    Lays Γ (.form (.cond c y n span)) o
      (c₁ ++ Γ.point (o + size c₁) 1 .jumpIfFalse [other] span
        :: (c₂ ++ Γ.point (o + size c₁ + 3 + size c₂) 1 .jump [stop] span :: c₃))
      (n₁ ++ (n₂ ++ n₃))
  | noAlternative {Γ o span} :
    Lays Γ (.alternative none span) o [Γ.point o 0 .null [] span] []
  | alternative {Γ o b span code notes} :
    Lays Γ (.value b) o code notes → Lays Γ (.alternative (some b) span) o code notes
  /-- The last expression of a branch keeps its value. -/
  | value {Γ o ss e s span c₁ c₂ n₁ n₂} :
    Lays Γ (.stmts ss) o c₁ n₁ → Lays Γ (.expr e) (o + size c₁) c₂ n₂ →
    Lays Γ (.value ⟨ss ++ [.expr e s], span⟩) o (c₁ ++ c₂) (n₁ ++ n₂)
  | noValue {Γ o ss span code notes} :
    endsWithExpr ss = false → Lays Γ (.stmts ss) o code notes →
    Lays Γ (.value ⟨ss, span⟩) o (code ++ [Γ.point (o + size code) 0 .null [] span]) notes
  -- Statements
  | stmt {Γ s o code notes} :
    Lays Γ (.action s) o code notes →
    Lays Γ (.stmt s) o code (.stmt s o (o + size code) Γ :: notes)
  | noStmts {Γ o} : Lays Γ (.stmts []) o [] []
  | stmts {Γ o s ss c₁ c₂ n₁ n₂} :
    Lays Γ (.stmt s) o c₁ n₁ → Lays Γ (.stmts ss) (o + size c₁) c₂ n₂ →
    Lays Γ (.stmts (s :: ss)) o (c₁ ++ c₂) (n₁ ++ n₂)
  | noOptStmt {Γ o} : Lays Γ (.optStmt none) o [] []
  | optStmt {Γ o s code notes} :
    Lays Γ (.stmt s) o code notes → Lays Γ (.optStmt (some s)) o code notes
  | bind {Γ o name e constant span code notes tail} :
    Lays Γ (.expr e) o code notes → Tail True 1 0 tail →
    Lays Γ (.action (.bind name e constant span)) o
      (code ++ row Γ.regions (o + size code) (Γ.height + 1) tail) notes
  | exprStmt {Γ o e span code notes} :
    Lays Γ (.expr e) o code notes →
    Lays Γ (.action (.expr e span)) o (code ++ [Γ.point (o + size code) 1 .pop [] span]) notes
  | throw {Γ o e span code notes} :
    Lays Γ (.expr e) o code notes →
    Lays Γ (.action (.throw e span)) o (code ++ [Γ.point (o + size code) 1 .throw [] span]) notes
  | classDecl {Γ o name parent body span tail} :
    Tail True 0 0 tail →
    Lays Γ (.action (.classDecl name parent body span)) o (row Γ.regions o Γ.height tail) []
  | block {Γ o ss s code notes} :
    Lays Γ (.stmts ss) o code notes → Lays Γ (.action (.block ⟨ss, s⟩)) o code notes
  | retNull {Γ o span code notes} :
    Lays Γ (.exits 0 span) o code notes →
    Lays Γ (.action (.ret none span)) o
      (code ++ [(Γ.exitTo 0).point (o + size code) 0 .returnNull [] span]) notes
  | ret {Γ o e span c₁ c₂ n₁ n₂} :
    Lays Γ (.expr e) o c₁ n₁ → Lays (Γ.up 1) (.exits 0 span) (o + size c₁) c₂ n₂ →
    Lays Γ (.action (.ret (some e) span)) o
      (c₁ ++ (c₂ ++ [(Γ.exitTo 0).point (o + size c₁ + size c₂) 1 .returnValue [] span])) (n₁ ++ n₂)
  -- Loops
  | while {Γ o c body s span c₁ c₂ n₁ n₂ stop} :
    Lays (Γ.loop stop (some o) false) (.expr c) o c₁ n₁ →
    Lays (Γ.loop stop (some o) false) (.stmts body) (o + size c₁ + 3) c₂ n₂ →
    stop = o + size c₁ + 3 + size c₂ + 3 → stop < Opcode.noTarget →
    Lays Γ (.action (.whileLoop c ⟨body, s⟩ span)) o
      (c₁ ++ Γ.point (o + size c₁) 1 .jumpIfFalse [stop] span
        :: (c₂ ++ [Γ.point (o + size c₁ + 3 + size c₂) 0 .jump [o] span])) (n₁ ++ n₂)
  | for {Γ o init c u body s span c₀ c₁ c₂ c₃ n₀ n₁ n₂ n₃ start next stop} :
    Lays Γ (.optStmt init) o c₀ n₀ →
    Lays (Γ.loop stop (some next) true) (.test c span) start c₁ n₁ →
    Lays (Γ.loop stop (some next) true) (.stmts body) (start + size c₁) c₂ n₂ →
    Lays (Γ.loop stop none true) (.update u span) next c₃ n₃ →
    start = o + size c₀ → next = start + size c₁ + size c₂ → stop = next + size c₃ + 3 →
    start < Opcode.noTarget → (c.isSome → stop < Opcode.noTarget) →
    (Waits .brk (Γ.loops.length + 1) (c₁ ++ (c₂ ++ c₃)) → stop < Opcode.noTarget) →
    (Waits .cont (Γ.loops.length + 1) (c₁ ++ c₂) → next < Opcode.noTarget) →
    Lays Γ (.action (.forLoop init c u ⟨body, s⟩ span)) o
      (c₀ ++ (c₁ ++ (c₂ ++ (c₃ ++ [Γ.point (next + size c₃) 0 .jump [start] span]))))
      (n₀ ++ (n₁ ++ (n₂ ++ n₃)))
  | noTest {Γ o span} : Lays Γ (.test none span) o [] []
  | test {Γ : Context} {o c span code notes l ls} :
    Γ.loops = l :: ls → Lays Γ (.expr c) o code notes →
    Lays Γ (.test (some c) span) o
      (code ++ [Γ.point (o + size code) 1 .jumpIfFalse [l.breakTo] span]) notes
  | noUpdate {Γ o span} : Lays Γ (.update none span) o [] []
  | update {Γ o u span code notes} :
    Lays Γ (.expr u) o code notes →
    Lays Γ (.update (some u) span) o (code ++ [Γ.point (o + size code) 1 .pop [] span]) notes
  | brk {Γ : Context} {o span code notes l ls} :
    Γ.loops = l :: ls → Lays Γ (.exits l.regions.length span) o code notes →
    Lays Γ (.action (.breakLoop span)) o
      (code ++ [(Γ.exitTo l.regions.length).leap (o + size code) .brk l.breakTo span]) notes
  /-- A `continue` that knows its target. -/
  | cont {Γ : Context} {o span code notes l ls target} :
    Γ.loops = l :: ls → Lays Γ (.exits l.regions.length span) o code notes →
    l.waits = false → l.continueTo = some target → target < Opcode.noTarget →
    Lays Γ (.action (.continueLoop span)) o
      (code ++ [(Γ.exitTo l.regions.length).point (o + size code) 0 .jump [target] span]) notes
  /-- A `continue` that waits for its target. -/
  | contWait {Γ : Context} {o span code notes l ls} :
    Γ.loops = l :: ls → Lays Γ (.exits l.regions.length span) o code notes →
    l.waits = true →
    Lays Γ (.action (.continueLoop span)) o
      (code ++ [(Γ.exitTo l.regions.length).leap (o + size code) .cont
        (l.continueTo.getD Opcode.noTarget) span]) notes
  -- Protected regions
  | noExits {Γ : Context} {o depth span} :
    Γ.regions.length ≤ depth → Lays Γ (.exits depth span) o [] []
  | exits {Γ : Context} {o depth span r rs c₁ c₂ n₁ n₂} :
    Γ.regions = r :: rs → depth ≤ rs.length →
    Lays (Γ.leave rs) (.stmts (r.cleanup.elim [] Block.statements)) (o + 3) c₁ n₁ →
    Lays (Γ.leave rs) (.exits depth span) (o + 3 + size c₁) c₂ n₂ →
    o + 3 < Opcode.noTarget →
    Lays Γ (.exits depth span) o (Γ.point o 0 .finallyEnd [o + 3] span :: (c₁ ++ c₂)) (n₁ ++ n₂)
  | tryNone {Γ o body s span code notes} :
    Lays Γ (.stmts body) o code notes →
    Lays Γ (.action (.tryCatch ⟨body, s⟩ none none span)) o code notes
  | tryCatch {Γ o body s param handler s' span c₁ c₂ n₁ n₂ bind r handle stop} :
    Lays (Γ.enter r) (.stmts body) (o + 5) c₁ n₁ →
    Binding bind →
    Lays Γ (.stmts handler) (handle + size (row Γ.regions handle (Γ.height + 1) bind)) c₂ n₂ →
    r = ⟨o, some handle, none, Γ.height, none⟩ → handle = o + 5 + size c₁ + 3 →
    stop = handle + size (row Γ.regions handle (Γ.height + 1) bind) + size c₂ + 3 →
    stop < Opcode.noTarget →
    Lays Γ (.action (.tryCatch ⟨body, s⟩ (some ⟨param, ⟨handler, s'⟩⟩) none span)) o
      (Γ.point o 0 .tryEnter [handle, Opcode.noTarget] span
        :: (c₁ ++ (Γ.enter r).point (o + 5 + size c₁) 0 .finallyEnd [stop] span
        :: (row Γ.regions handle (Γ.height + 1) bind ++ (c₂ ++ [Γ.point (stop - 3) 0 .jump [stop] span]))))
      (n₁ ++ n₂)
  | tryFinally {Γ o body s cleanup s' span c₁ c₂ n₁ n₂ r final} :
    Lays (Γ.enter r) (.stmts body) (o + 5) c₁ n₁ →
    Lays (Γ.up 2) (.stmts cleanup) final c₂ n₂ →
    r = ⟨o, none, some final, Γ.height, some ⟨cleanup, s'⟩⟩ → final = o + 5 + size c₁ + 3 + 2 →
    final < Opcode.noTarget →
    Lays Γ (.action (.tryCatch ⟨body, s⟩ none (some ⟨cleanup, s'⟩) span)) o
      (Γ.point o 0 .tryEnter [Opcode.noTarget, final] span
        :: (c₁ ++ (Γ.enter r).point (o + 5 + size c₁) 0 .finallyEnd [final - 2] span
        :: Γ.point (final - 2) 0 .null [] span :: Γ.point (final - 1) 1 .pushFalse [] span
        :: (c₂ ++ [Γ.point (final + size c₂) 2 .rethrow [] span])))
      (n₁ ++ n₂)
  | tryBoth {Γ o body s param handler s' cleanup s'' span c₁ c₂ c₃ n₁ n₂ n₃ bind r r' handle final} :
    Lays (Γ.enter r) (.stmts body) (o + 5) c₁ n₁ →
    Binding bind →
    Lays (Γ.enter r') (.stmts handler) (r'.enter + 5) c₂ n₂ →
    Lays (Γ.up 2) (.stmts cleanup) final c₃ n₃ →
    r = ⟨o, some handle, some final, Γ.height, some ⟨cleanup, s''⟩⟩ →
    r' = ⟨handle + size (row Γ.regions handle (Γ.height + 1) bind), none, some final, Γ.height,
      some ⟨cleanup, s''⟩⟩ →
    handle = o + 5 + size c₁ + 3 → final = r'.enter + 5 + size c₂ + 3 + 2 → final < Opcode.noTarget →
    Lays Γ (.action (.tryCatch ⟨body, s⟩ (some ⟨param, ⟨handler, s'⟩⟩) (some ⟨cleanup, s''⟩) span)) o
      (Γ.point o 0 .tryEnter [handle, final] span
        :: (c₁ ++ (Γ.enter r).point (o + 5 + size c₁) 0 .finallyEnd [final - 2] span
        :: (row Γ.regions handle (Γ.height + 1) bind
        ++ Γ.point r'.enter 0 .tryEnter [Opcode.noTarget, final] span
        :: (c₂ ++ (Γ.enter r').point (r'.enter + 5 + size c₂) 0 .finallyEnd [final - 2] span
        :: Γ.point (final - 2) 0 .null [] span :: Γ.point (final - 1) 1 .pushFalse [] span
        :: (c₃ ++ [Γ.point (final + size c₃) 2 .rethrow [] span])))))
      (n₁ ++ (n₂ ++ n₃))
  -- Blocks
  /-- The last expression of a function body is its result. -/
  | bodyValue {o ss e s span c₁ c₂ n₁ n₂} :
    Lays .top (.stmts ss) o c₁ n₁ → Lays .top (.expr e) (o + size c₁) c₂ n₂ →
    Lays .top (.body ⟨ss ++ [.expr e s], span⟩) o
      (c₁ ++ (c₂ ++ [Context.top.point (o + size c₁ + size c₂) 1 .returnValue [] s])) (n₁ ++ n₂)
  | bodyNull {o ss span code notes} :
    endsWithExpr ss = false → Lays .top (.stmts ss) o code notes →
    Lays .top (.body ⟨ss, span⟩) o (code ++ [Context.top.point (o + size code) 0 .returnNull [] span]) notes
  /-- A body that ends with a return needs none. -/
  | bodyReturn {o ss span code notes p} :
    endsWithExpr ss = false → Lays .top (.stmts ss) o code notes → code.getLast? = some p →
    p.item.opcode = .returnValue ∨ p.item.opcode = .returnNull →
    Lays .top (.body ⟨ss, span⟩) o code notes
  | unit {o ss code notes} :
    Lays .top (.stmts ss) o code notes →
    Lays .top (.unit ss) o (code ++ [Context.top.point (o + size code) 0 .halt [] .dummy]) notes

end ScriptMachine
