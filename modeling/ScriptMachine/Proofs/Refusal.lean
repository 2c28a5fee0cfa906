import ScriptMachine.Ast.Build
import ScriptMachine.Compile.Unit

/-!
# Refused units

Compilation works in place: wherever a unit is refused, new constants stand in the pool, the symbol
table may be that of an inner function, and the class at hand may still be open. The compiler then puts
the old symbol table back and cuts the pool to its old length. This leaves no trace of the unit:

* `Pool.Drafts`, `CompileM.Spares` — a step of compilation only adds constants, and fills places that
  it added itself, whether it ends well or is refused; a class that it adds is not linked;
* one lemma for each primitive step; `SparesBelow` carries the induction over the forms of the source;
* `Compiler.Agrees` — compilers that differ in what the last unit left behind only;
* `Compiler.refused_leaves_no_trace` — the compiler after a refused unit agrees with the one before,
  so no later unit can tell.
-/

namespace ScriptMachine

/-! ## Pools that begin alike -/

/-- The constants of `p` stand at the beginning of `q`. -/
structure Pool.Begins (p q : Pool) : Prop where
  size : p.size ≤ q.size
  same : ∀ place < p.size, q[place]? = p[place]?

namespace Pool.Begins

variable {p q : Pool}

theorem refl (p : Pool) : p.Begins p := ⟨Nat.le_refl _, fun _ _ => rfl⟩

theorem push (h : p.Begins q) (c : Constant) : p.Begins (q.push c) := by
  refine ⟨by simp only [Array.size_push]; exact Nat.le_succ_of_le h.size, fun place hlt => ?_⟩
  have hne : place ≠ q.size := Nat.ne_of_lt (Nat.lt_of_lt_of_le hlt h.size)
  rw [Array.getElem?_push, if_neg hne]
  exact h.same place hlt

/-- A place beyond the old constants may be written. -/
theorem set (h : p.Begins q) {place : Nat} (hplace : p.size ≤ place) (c : Constant) :
    p.Begins (q.setIfInBounds place c) := by
  refine ⟨by simpa only [Array.size_setIfInBounds] using h.size, fun i hlt => ?_⟩
  rw [Array.getElem?_setIfInBounds_ne (Nat.ne_of_gt (Nat.lt_of_lt_of_le hlt hplace))]
  exact h.same i hlt

/-- Cut to its old length, the pool is the old one. -/
theorem extract_eq (h : p.Begins q) : q.extract 0 p.size = p := by
  apply Array.ext_getElem?
  intro place
  rw [Array.getElem?_extract]
  have hsize := h.size
  split
  · next hlt => simpa using h.same place (by omega)
  · next hge => exact (Array.getElem?_eq_none (by omega)).symm

end Pool.Begins

/-- The pool of a unit at work: behind the constants of earlier units its classes wait to be linked. -/
structure Pool.Drafts (p q : Pool) : Prop extends p.Begins q where
  unlinked : ∀ place k, p.size ≤ place → q[place]? = some (.cls k) → k.parent = none

namespace Pool.Drafts

variable {p q : Pool}

theorem refl (p : Pool) : p.Drafts p := by
  refine ⟨.refl p, fun place k hle hk => ?_⟩
  rw [Array.getElem?_eq_none hle] at hk
  cases hk

theorem push (h : p.Drafts q) {c : Constant} (hc : c.class? = none) : p.Drafts (q.push c) := by
  refine ⟨h.toBegins.push c, fun place k hle hk => ?_⟩
  rw [Array.getElem?_push] at hk
  split at hk
  · cases hk
    cases hc
  · exact h.unlinked place k hle hk

/-- A class that is written behind the old constants is not linked either. -/
theorem setClass (h : p.Drafts q) {place : Nat} (hplace : p.size ≤ place) {c : ClassConstant}
    (hc : c.parent = none) : p.Drafts (q.setIfInBounds place (.cls c)) := by
  refine ⟨h.toBegins.set hplace (.cls c), fun i k hle hk => ?_⟩
  by_cases hi : place = i
  · subst hi
    rw [Array.getElem?_setIfInBounds_self] at hk
    split at hk
    · cases hk
      exact hc
    · cases hk
  · rw [Array.getElem?_setIfInBounds_ne hi] at hk
    exact h.unlinked i k hle hk

end Pool.Drafts

theorem Pool.first_le_of_mem_newClasses {p : Pool} {first : Nat} {e : Nat × ClassConstant}
    (he : e ∈ p.newClasses first) : first ≤ e.1 := by
  obtain ⟨place, -, hplace⟩ := List.mem_filterMap.mp he
  split at hplace
  · next hfirst =>
    have hplace : e.1 = place := by
      split at hplace
      · split at hplace <;> cases hplace
        rfl
      · cases hplace
    rw [hplace]
    exact hfirst
  · cases hplace

/-- Linking touches the new classes only. -/
theorem Pool.Begins.link {p q r : Pool} {spans : List (String × Span)} (h : p.Begins q)
    (hlink : q.link spans p.size = .ok r) : p.Begins r := by
  unfold Pool.link at hlink
  dsimp only at hlink
  split at hlink
  · cases hlink
  · cases hlink
    -- each of the new classes is written at its own place
    suffices ∀ (l : List (Nat × ClassConstant)) (r : Pool), p.Begins r → (∀ e ∈ l, p.size ≤ e.1) →
        p.Begins (l.foldl (fun r e => r.setIfInBounds e.1 (.cls (Link.linked q e.2))) r) from
      this _ q h fun e he => Pool.first_le_of_mem_newClasses he
    intro l
    induction l with
    | nil => exact fun r hr _ => hr
    | cons e l ih =>
      intro r hr hl
      have hstep := hr.set (hl e List.mem_cons_self) (.cls (Link.linked q e.2))
      exact ih _ hstep fun e' he' => hl e' (List.mem_cons_of_mem _ he')

namespace CompileM

/-- However `x` ends, the constants of `p` stay at the beginning of the pool, and the classes behind them
are not linked; a result satisfies `Q`. -/
def Spares {α : Type} (p : Pool) (x : CompileM α) (Q : α → Prop) : Prop :=
  ∀ σ, p.Drafts σ.pool → match x σ with
    | .ok a σ' => p.Drafts σ'.pool ∧ Q a
    | .error _ σ' => p.Drafts σ'.pool

section

variable {α β : Type} {p : Pool} {Q : α → Prop} {R : β → Prop} {x : CompileM α} {span : Span}

/-! ## Putting steps together -/

theorem spares_pure {a : α} (h : Q a) : Spares p (pure a) Q := fun _ hσ => ⟨hσ, h⟩

theorem Spares.bind {f : α → CompileM β} (hx : Spares p x Q) (hf : ∀ a, Q a → Spares p (f a) R) :
    Spares p (x >>= f) R := by
  intro σ hσ
  have hend := hx σ hσ
  simp only [Bind.bind, EStateM.bind]
  cases hrun : x σ with
  | ok a σ' =>
    rw [hrun] at hend
    exact hf a hend.2 σ' hend.1
  | error e σ' =>
    rw [hrun] at hend
    exact hend

/-- What comes first has no result that matters. -/
theorem Spares.seq {f : α → CompileM β} (hx : Spares p x fun _ => True)
    (hf : ∀ a, Spares p (f a) R) : Spares p (x >>= f) R := hx.bind fun a _ => hf a

theorem Spares.mono {Q' : α → Prop} (hx : Spares p x Q) (hQ : ∀ a, Q a → Q' a) : Spares p x Q' := by
  intro σ hσ
  have hend := hx σ hσ
  cases hrun : x σ with
  | ok a σ' =>
    rw [hrun] at hend
    exact ⟨hend.1, hQ a hend.2⟩
  | error e σ' =>
    rw [hrun] at hend
    exact hend

theorem Spares.discard (hx : Spares p x Q) : Spares p (discard x) fun _ => True :=
  Spares.bind (f := fun _ => pure ()) hx fun _ _ => spares_pure trivial

theorem spares_fail (cause : CompileCause) : Spares p (fail cause span : CompileM α) Q :=
  fun _ hσ => hσ

theorem spares_throw (e : CompileError) : Spares p (throw e : CompileM α) Q := fun _ hσ => hσ

/-! ## The state -/

theorem spares_get : Spares p (get : CompileM CompileState) fun _ => True := fun _ hσ => ⟨hσ, trivial⟩

/-- The pool that is read begins with the old constants. -/
theorem Spares.withState {f : CompileState → CompileM β}
    (h : ∀ σ, p.Drafts σ.pool → Spares p (f σ) R) : Spares p (get >>= f) R :=
  fun σ hσ => h σ hσ σ hσ

theorem spares_modify {f : CompileState → CompileState}
    (h : ∀ σ, p.Drafts σ.pool → p.Drafts (f σ).pool) :
    Spares p (modify f : CompileM PUnit) fun _ => True := fun σ hσ => ⟨h σ hσ, trivial⟩

/-- The function at hand has no part in the pool. -/
theorem spares_modifyFunction (f : FunctionContext → FunctionContext) :
    Spares p (modifyFunction f) fun _ => True := spares_modify fun _ hσ => hσ

theorem spares_modifyBlock (f : CodeBlock → CodeBlock) :
    Spares p (modifyBlock f) fun _ => True := spares_modifyFunction _

theorem spares_modifyLoop (f : LoopContext → LoopContext) :
    Spares p (modifyLoop f) fun _ => True := spares_modifyFunction _

theorem spares_getBlock : Spares p getBlock fun _ => True :=
  spares_get.seq fun _ => spares_pure trivial

theorem spares_offset : Spares p offset fun _ => True :=
  spares_getBlock.seq fun _ => spares_pure trivial

/-! ## Instructions -/

theorem spares_emit (op : Opcode) (operands : List Nat) :
    Spares p (emit op operands span) fun _ => True :=
  spares_getBlock.seq fun _ => (spares_modifyBlock _).seq fun _ => spares_pure trivial

theorem spares_put (op : Opcode) (operands : List Nat) :
    Spares p (put op operands span) fun _ => True := (spares_emit op operands).discard

theorem spares_emitJump (op : Opcode) : Spares p (emitJump op span) fun _ => True := spares_emit _ _

theorem spares_checkTarget (target : Nat) : Spares p (checkTarget target span) fun _ => True := by
  unfold checkTarget
  split
  · exact spares_fail _
  · exact spares_pure trivial

theorem spares_patch (place operand target : Nat) :
    Spares p (patch place operand target span) fun _ => True :=
  (spares_checkTarget target).seq fun _ => spares_modifyBlock _

theorem spares_patchHere (place : Nat) : Spares p (patchHere place span) fun _ => True :=
  spares_offset.seq fun _ => spares_patch _ _ _

theorem spares_patchAllHere (places : List Nat) :
    Spares p (patchAllHere span places) fun _ => True := by
  induction places with
  | nil => exact spares_pure trivial
  | cons place rest ih => exact (spares_patchHere place).seq fun _ => ih

theorem spares_emitJumpTo (op : Opcode) (target : Nat) :
    Spares p (emitJumpTo op target span) fun _ => True :=
  (spares_checkTarget target).seq fun _ => spares_put _ _

/-! ## Constants -/

/-- A new constant stands behind the old ones. -/
theorem spares_addConstant {c : Constant} (hc : c.class? = none) :
    Spares p (addConstant c span) (p.size ≤ ·) := by
  refine Spares.withState fun σ hσ => ?_
  dsimp only
  split
  · exact spares_fail _
  · exact (spares_modify fun _ hτ => hτ.push hc).seq fun _ => spares_pure hσ.size

theorem spares_emitConstant {c : Constant} (hc : c.class? = none) :
    Spares p (emitConstant c span) fun _ => True :=
  (spares_addConstant hc).bind fun _ _ => spares_put _ _

/-! ## Names -/

theorem spares_define (name : String) (constant : Bool) :
    Spares p (define name constant span) fun _ => True := by
  refine Spares.seq (x := modifyGet _) (fun σ hσ => ⟨hσ, trivial⟩) fun symbol => ?_
  split
  · split
    · exact spares_fail _
    · exact spares_pure trivial
  · split
    · exact spares_fail _
    · exact spares_pure trivial
  · exact spares_pure trivial

theorem spares_resolve (name : String) : Spares p (resolve name span) fun _ => True := by
  refine Spares.seq (x := modifyGet _) (fun σ hσ => ⟨hσ, trivial⟩) fun symbol? => ?_
  cases symbol? with
  | some symbol => exact spares_pure trivial
  | none => exact spares_fail _

theorem spares_load (symbol : Symbol) : Spares p (load symbol span) fun _ => True := by
  unfold load
  split <;> exact spares_put _ _

theorem spares_store (symbol : Symbol) : Spares p (store symbol span) fun _ => True := by
  unfold store
  split
  · exact spares_put _ _
  · exact spares_put _ _
  · exact spares_put _ _
  all_goals exact spares_fail _

theorem spares_captureAll (symbols : List Symbol) :
    Spares p (captureAll span symbols) fun _ => True := by
  induction symbols with
  | nil => exact spares_pure trivial
  | cons symbol rest ih =>
    refine Spares.seq ?_ fun _ => ih
    unfold capture
    split
    · exact spares_put _ _
    · exact spares_put _ _
    · exact spares_put _ _
    all_goals exact spares_pure trivial

theorem spares_defineParams (params : List Ident) : Spares p (defineParams params) fun _ => True := by
  induction params with
  | nil => exact spares_pure trivial
  | cons param rest ih => exact (spares_define _ _).discard.seq fun _ => ih

theorem spares_literal (l : Literal) : Spares p (literal l span) fun _ => True := by
  unfold literal
  split
  · exact spares_emitConstant rfl
  · exact spares_emitConstant rfl
  · exact spares_emitConstant rfl
  all_goals exact spares_put _ _

theorem spares_this : Spares p (this span) fun _ => True := by
  refine spares_get.seq fun σ => ?_
  split
  · exact spares_fail _
  · exact (spares_resolve _).seq fun symbol => spares_load symbol

theorem spares_superClass : Spares p (superClass span) fun _ => True := by
  refine spares_get.seq fun σ => ?_
  split
  · split
    · exact spares_pure trivial
    · exact spares_fail _
  · exact spares_fail _

theorem spares_unaryOpcode (op : String) : Spares p (unaryOpcode op span) fun _ => True := by
  unfold unaryOpcode
  split
  · exact spares_pure trivial
  · exact spares_pure trivial
  · exact spares_fail _

theorem spares_checkArgs (count : Nat) : Spares p (checkArgs count span) fun _ => True := by
  unfold checkArgs
  split
  · exact spares_fail _
  · exact spares_pure trivial

theorem spares_bindThrown (param : Option Ident) : Spares p (bindThrown param span) fun _ => True := by
  cases param with
  | some id => exact (spares_define _ _).seq fun symbol => (spares_store symbol).seq fun _ => spares_put _ _
  | none => exact spares_put _ _

/-! ## Bodies, loops and classes -/

theorem spares_inFunction {body : CompileM Unit} (h : Spares p body fun _ => True) :
    Spares p (inFunction body) fun _ => True :=
  spares_get.seq fun _ => (spares_modify (by intro _ hσ; exact hσ)).seq fun _ => h.seq fun _ =>
    spares_get.seq fun _ => (spares_modify (by intro _ hσ; exact hσ)).seq fun _ => spares_pure trivial

theorem spares_finishBody (body : List Stmt) : Spares p (finishBody body span) fun _ => True := by
  have hreturn : Spares p (do
      let block ← getBlock
      if !block.endsWith .returnValue && !block.endsWith .returnNull then put .returnNull [] span)
      fun _ => True := by
    refine spares_getBlock.seq fun block => ?_
    split
    · exact spares_put _ _
    · exact spares_pure trivial
  unfold finishBody
  dsimp only
  split
  · exact (spares_modifyBlock _).seq fun _ => hreturn
  · exact hreturn

theorem spares_finishBranch (body : List Stmt) : Spares p (finishBranch body span) fun _ => True := by
  refine spares_getBlock.seq fun block => ?_
  split
  · exact spares_modifyBlock _
  · exact spares_put _ _

theorem spares_makeClosure (f : FunctionLiteral) (name : Option String) (body : Body) :
    Spares p (makeClosure f name body) fun _ => True :=
  (spares_captureAll _).seq fun _ => (spares_addConstant rfl).bind fun _ _ => spares_put _ _

theorem spares_makeMethod (cls : String) (f : FunctionLiteral) (name : String) (body : Body) :
    Spares p (makeMethod cls f name body) fun _ => True := by
  unfold makeMethod
  split
  · exact spares_fail _
  · exact spares_pure trivial

theorem spares_enterLoop (target : Option Nat) (depth : Nat) :
    Spares p (enterLoop target depth) fun _ => True := spares_modifyFunction _

theorem spares_leaveLoop : Spares p (leaveLoop span) fun _ => True := by
  refine spares_get.seq fun σ => ?_
  split
  · exact spares_pure trivial
  · exact (spares_modifyFunction _).seq fun _ => spares_patchAllHere _

theorem spares_placeContinues : Spares p (placeContinues span) fun _ => True := by
  refine spares_get.seq fun σ => ?_
  split
  · exact spares_pure trivial
  · exact (spares_modifyLoop _).seq fun _ => spares_patchAllHere _

theorem spares_innermostLoop (m : Misplaced) : Spares p (innermostLoop m span) fun _ => True := by
  refine spares_get.seq fun σ => ?_
  split
  · exact spares_pure trivial
  · exact spares_fail _

/-- The place that is reserved for a class is a new one. -/
theorem spares_beginClass (name : Ident) (hasParent : Bool) :
    Spares p (beginClass name hasParent span) (p.size ≤ ·.2) :=
  (spares_define _ _).seq fun _ => (spares_addConstant rfl).bind fun _ hplace =>
    (spares_modify (by intro _ hσ; exact hσ)).seq fun _ => spares_pure hplace

theorem spares_endClass (symbol : Symbol) {place : Nat} (hplace : p.size ≤ place) {c : ClassConstant}
    (hc : c.parent = none) : Spares p (endClass symbol place c span) fun _ => True :=
  (spares_modify fun _ hσ => hσ.setClass hplace hc).seq fun _ => (spares_put _ _).seq fun _ =>
    (spares_store symbol).seq fun _ => spares_put _ _

end

/-! ## The forms of the source -/

/-- Whatever is smaller than `n`, with the regions around it, spares the constants of earlier units. -/
structure SparesBelow (p : Pool) (n : Nat) : Prop where
  expr : ∀ R e, sizeOf e + sizeOf R < n → Spares p (expr R e) fun _ => True
  stmt : ∀ R s, sizeOf s + sizeOf R < n → Spares p (stmt R s) fun _ => True
  stmts : ∀ R ss, sizeOf ss + sizeOf R < n → Spares p (stmts R ss) fun _ => True
  exits : ∀ R depth span, sizeOf R < n → Spares p (exitRegions R depth span) fun _ => True

section

variable {p : Pool} {n : Nat} {R : Regions}

/-! ### Operands -/

theorem SparesBelow.exprs (h : SparesBelow p n) {es : List Expr} (hn : sizeOf es + sizeOf R < n) :
    Spares p (exprs R es) fun _ => True := by
  induction es with
  | nil =>
    rw [CompileM.exprs]
    exact spares_pure trivial
  | cons e es ih =>
    simp only [List.cons.sizeOf_spec] at hn
    rw [CompileM.exprs]
    exact (h.expr R e (by omega)).seq fun _ => ih (by omega)

theorem SparesBelow.arrayElements (h : SparesBelow p n) {es : List Element}
    (hn : sizeOf es + sizeOf R < n) : Spares p (arrayElements R es) fun _ => True := by
  induction es with
  | nil =>
    rw [CompileM.arrayElements]
    exact spares_pure trivial
  | cons e es ih =>
    obtain ⟨key, value⟩ := e
    simp only [List.cons.sizeOf_spec, Element.mk.sizeOf_spec] at hn
    rw [CompileM.arrayElements]
    exact (h.expr R value (by omega)).seq fun _ => ih (by omega)

theorem SparesBelow.mapElements (h : SparesBelow p n) {span : Span} (next : Int64) {es : List Element}
    (hn : sizeOf es + sizeOf R < n) : Spares p (mapElements R span next es) fun _ => True := by
  induction es generalizing next with
  | nil =>
    rw [CompileM.mapElements]
    exact spares_pure trivial
  | cons e es ih =>
    obtain ⟨key, value⟩ := e
    simp only [List.cons.sizeOf_spec, Element.mk.sizeOf_spec] at hn
    have hvalue := h.expr R value (by omega)
    cases key with
    | some key =>
      simp only [Option.some.sizeOf_spec] at hn
      rw [CompileM.mapElements]
      exact (h.expr R key (by omega)).seq fun _ => hvalue.seq fun _ => ih _ (by omega)
    | none =>
      rw [CompileM.mapElements]
      exact (spares_emitConstant rfl).seq fun _ => hvalue.seq fun _ => ih _ (by omega)

theorem SparesBelow.pairs (h : SparesBelow p n) {ps : List (Expr × Expr)}
    (hn : sizeOf ps + sizeOf R < n) : Spares p (pairs R ps) fun _ => True := by
  induction ps with
  | nil =>
    rw [CompileM.pairs]
    exact spares_pure trivial
  | cons pair ps ih =>
    obtain ⟨key, value⟩ := pair
    simp only [List.cons.sizeOf_spec, Prod.mk.sizeOf_spec] at hn
    rw [CompileM.pairs]
    exact (h.expr R key (by omega)).seq fun _ => (h.expr R value (by omega)).seq fun _ =>
      ih (by omega)

/-! ### Bodies -/

theorem SparesBelow.branch (h : SparesBelow p n) {b : Block} (hn : sizeOf b + sizeOf R < n) :
    Spares p (branch R b) fun _ => True := by
  obtain ⟨ss, span⟩ := b
  simp only [Block.mk.sizeOf_spec] at hn
  rw [CompileM.branch]
  exact (h.stmts R ss (by omega)).seq fun _ => spares_finishBranch ss

theorem SparesBelow.alternative (h : SparesBelow p n) {b : Option Block} {span : Span}
    (hn : sizeOf b + sizeOf R < n) : Spares p (alternative R b span) fun _ => True := by
  cases b with
  | some b =>
    simp only [Option.some.sizeOf_spec] at hn
    rw [CompileM.alternative]
    exact h.branch (by omega)
  | none =>
    rw [CompileM.alternative]
    exact spares_put _ _

theorem SparesBelow.functionBody (h : SparesBelow p n) {b : Block} (hn : sizeOf b < n) :
    Spares p (functionBody b) fun _ => True := by
  obtain ⟨ss, span⟩ := b
  simp only [Block.mk.sizeOf_spec] at hn
  have hss := h.stmts [] ss (by simp only [List.nil.sizeOf_spec]; omega)
  rw [CompileM.functionBody]
  exact hss.seq fun _ => spares_finishBody ss

theorem SparesBelow.functionLiteral (h : SparesBelow p n) {f : FunctionLiteral}
    {binding : Option String} (hn : sizeOf f ≤ n) :
    Spares p (functionLiteral f binding) fun _ => True := by
  obtain ⟨ownName, params, body, span⟩ := f
  simp only [FunctionLiteral.mk.sizeOf_spec] at hn
  have hbody : Spares p (do defineParams params; CompileM.functionBody body) fun _ => True :=
    (spares_defineParams params).seq fun _ => h.functionBody (by omega)
  rw [CompileM.functionLiteral]
  refine Spares.seq (spares_inFunction ?_) fun _ => spares_makeClosure _ _ _
  dsimp only
  split
  · exact (spares_modify (by intro _ hσ; exact hσ)).seq fun _ => hbody
  · exact hbody

theorem SparesBelow.method (h : SparesBelow p n) {cls : String} {f : FunctionLiteral} {name : String}
    (hn : sizeOf f ≤ n) : Spares p (method cls f name) fun _ => True := by
  obtain ⟨ownName, params, body, span⟩ := f
  simp only [FunctionLiteral.mk.sizeOf_spec] at hn
  rw [CompileM.method]
  refine Spares.seq (spares_inFunction ?_) fun _ => spares_makeMethod _ _ _ _
  exact (spares_define _ _).discard.seq fun _ => (spares_defineParams params).seq fun _ =>
    h.functionBody (by omega)

theorem SparesBelow.members (h : SparesBelow p n) {cls : String} {body : List Stmt}
    (found : ClassMembers) (hn : sizeOf body ≤ n) :
    Spares p (members cls body found) fun _ => True := by
  induction body generalizing found with
  | nil =>
    unfold CompileM.members
    exact spares_pure trivial
  | cons s rest ih =>
    simp only [List.cons.sizeOf_spec] at hn
    have hrest : ∀ found, Spares p (CompileM.members cls rest found) fun _ => True :=
      fun found => ih found (by omega)
    unfold CompileM.members
    split
    · exact spares_pure trivial
    · next heq =>
      cases heq
      simp only [Stmt.bind.sizeOf_spec, Expr.function.sizeOf_spec] at hn
      exact (h.method (by omega)).seq fun _ => hrest _
    · next heq =>
      cases heq
      exact hrest _
    · next heq =>
      cases heq
      simp only [Stmt.expr.sizeOf_spec, Expr.function.sizeOf_spec] at hn
      split
      · exact spares_fail _
      · exact (h.method (by omega)).seq fun _ => hrest _
    · next heq =>
      cases heq
      exact hrest _
    · exact spares_fail _

/-! ### Expressions -/

theorem SparesBelow.binary (h : SparesBelow p n) {op : String} {left right : Expr} {span : Span}
    (hn : sizeOf left + sizeOf right + sizeOf R < n) :
    Spares p (CompileM.expr R (.binary op left right span)) fun _ => True := by
  have hleft := h.expr R left (by omega)
  have hright := h.expr R right (by omega)
  rw [CompileM.expr]
  split
  · exact hleft.seq fun _ => (spares_put _ _).seq fun _ => (spares_emitJump _).seq fun _ =>
      (spares_put _ _).seq fun _ => hright.seq fun _ => spares_patchHere _
  · split
    · exact hleft.seq fun _ => (spares_put _ _).seq fun _ => (spares_emitJump _).seq fun _ =>
        (spares_emitJump _).seq fun _ => (spares_patchHere _).seq fun _ =>
        (spares_put _ _).seq fun _ => hright.seq fun _ => spares_patchHere _
    · split
      · exact spares_fail _
      · split
        · exact hright.seq fun _ => hleft.seq fun _ => spares_put _ _
        · exact hleft.seq fun _ => hright.seq fun _ => spares_put _ _

/-- A member is invoked, and so is a method of the parent; anything else is called. -/
theorem SparesBelow.call (h : SparesBelow p n) {callee : Expr} {args : List Expr} {span : Span}
    (hn : sizeOf callee + sizeOf args + sizeOf R < n) :
    Spares p (CompileM.expr R (.call callee args span)) fun _ => True := by
  have hargs : Spares p (CompileM.exprs R args) fun _ => True := h.exprs (by omega)
  cases callee with
  | member target member _ =>
    simp only [Expr.member.sizeOf_spec] at hn
    rw [CompileM.expr]
    exact (h.expr R target (by omega)).seq fun _ => (spares_checkArgs _).seq fun _ =>
      hargs.seq fun _ => (spares_addConstant rfl).bind fun _ _ => spares_put _ _
  | super method _ =>
    rw [CompileM.expr]
    exact spares_superClass.seq fun _ => spares_this.seq fun _ => (spares_checkArgs _).seq fun _ =>
      hargs.seq fun _ => (spares_put _ _).seq fun _ =>
      (spares_addConstant rfl).bind fun _ _ => spares_put _ _
  | _ =>
    rw [CompileM.expr]
    · exact (h.expr R _ (by omega)).seq fun _ => (spares_checkArgs _).seq fun _ =>
        hargs.seq fun _ => spares_put _ _
    · simp
    · simp

theorem SparesBelow.expr_step (h : SparesBelow p n) (e : Expr) (hn : sizeOf e + sizeOf R ≤ n) :
    Spares p (CompileM.expr R e) fun _ => True := by
  have hpos := Regions.sizeOf_pos R
  cases e with
  | literal l span =>
    rw [CompileM.expr]
    exact spares_literal _
  | ident id =>
    rw [CompileM.expr]
    exact (spares_resolve _).seq fun symbol => spares_load symbol
  | unary op operand span =>
    simp only [Expr.unary.sizeOf_spec] at hn
    rw [CompileM.expr]
    exact (spares_unaryOpcode op).seq fun _ => (h.expr R operand (by omega)).seq fun _ =>
      spares_put _ _
  | binary op left right span =>
    simp only [Expr.binary.sizeOf_spec] at hn
    exact h.binary (by omega)
  | ternary condition yes no span =>
    simp only [Expr.ternary.sizeOf_spec] at hn
    rw [CompileM.expr]
    exact (h.expr R condition (by omega)).seq fun _ => (spares_emitJump _).seq fun _ =>
      (h.expr R yes (by omega)).seq fun _ => (spares_emitJump _).seq fun _ =>
      (spares_patchHere _).seq fun _ => (h.expr R no (by omega)).seq fun _ => spares_patchHere _
  | cond condition yes no span =>
    simp only [Expr.cond.sizeOf_spec] at hn
    rw [CompileM.expr]
    exact (h.expr R condition (by omega)).seq fun _ => (spares_emitJump _).seq fun _ =>
      (h.branch (by omega)).seq fun _ => (spares_emitJump _).seq fun _ =>
      (spares_patchHere _).seq fun _ => (h.alternative (by omega)).seq fun _ => spares_patchHere _
  | function f =>
    simp only [Expr.function.sizeOf_spec] at hn
    rw [CompileM.expr]
    exact h.functionLiteral (by omega)
  | call callee args span =>
    simp only [Expr.call.sizeOf_spec] at hn
    exact h.call (by omega)
  | array es ordered span =>
    simp only [Expr.array.sizeOf_spec] at hn
    rw [CompileM.expr]
    split
    · exact (h.mapElements 0 (by omega)).seq fun _ => spares_put _ _
    · exact (h.arrayElements (by omega)).seq fun _ => spares_put _ _
  | index target index span =>
    simp only [Expr.index.sizeOf_spec] at hn
    rw [CompileM.expr]
    exact (h.expr R target (by omega)).seq fun _ => (h.expr R index (by omega)).seq fun _ =>
      spares_put _ _
  | hash ps span =>
    simp only [Expr.hash.sizeOf_spec] at hn
    rw [CompileM.expr]
    exact (h.pairs (by omega)).seq fun _ => spares_put _ _
  | assign target value span =>
    simp only [Expr.assign.sizeOf_spec] at hn
    rw [CompileM.expr]
    refine (spares_resolve _).seq fun symbol => ?_
    split
    · exact spares_fail _
    · exact (h.expr R value (by omega)).seq fun _ => spares_store symbol
  | indexAssign target index value span =>
    simp only [Expr.indexAssign.sizeOf_spec] at hn
    rw [CompileM.expr]
    exact (h.expr R target (by omega)).seq fun _ => (h.expr R index (by omega)).seq fun _ =>
      (h.expr R value (by omega)).seq fun _ => spares_put _ _
  | member target member span =>
    simp only [Expr.member.sizeOf_spec] at hn
    rw [CompileM.expr]
    exact (h.expr R target (by omega)).seq fun _ =>
      (spares_addConstant rfl).bind fun _ _ => spares_put _ _
  | memberAssign target member value span =>
    simp only [Expr.memberAssign.sizeOf_spec] at hn
    rw [CompileM.expr]
    exact (h.expr R target (by omega)).seq fun _ => (h.expr R value (by omega)).seq fun _ =>
      (spares_addConstant rfl).bind fun _ _ => spares_put _ _
  | spawn callee args span =>
    simp only [Expr.spawn.sizeOf_spec] at hn
    rw [CompileM.expr]
    exact (h.expr R callee (by omega)).seq fun _ => (spares_checkArgs _).seq fun _ =>
      (h.exprs (by omega)).seq fun _ => spares_put _ _
  | channel capacity span =>
    cases capacity with
    | some capacity =>
      simp only [Expr.channel.sizeOf_spec, Option.some.sizeOf_spec] at hn
      rw [CompileM.expr]
      exact (h.expr R capacity (by omega)).seq fun _ => spares_put _ _
    | none =>
      rw [CompileM.expr]
      exact spares_put _ _
  | send channel value span =>
    simp only [Expr.send.sizeOf_spec] at hn
    rw [CompileM.expr]
    exact (h.expr R channel (by omega)).seq fun _ => (h.expr R value (by omega)).seq fun _ =>
      spares_put _ _
  | receive channel span =>
    simp only [Expr.receive.sizeOf_spec] at hn
    rw [CompileM.expr]
    exact (h.expr R channel (by omega)).seq fun _ => spares_put _ _
  | this span =>
    rw [CompileM.expr]
    exact spares_this
  | super method span =>
    rw [CompileM.expr]
    exact spares_fail _

/-! ### Statements -/

theorem SparesBelow.optStmt (h : SparesBelow p n) {s : Option Stmt} (hn : sizeOf s + sizeOf R < n) :
    Spares p (optStmt R s) fun _ => True := by
  cases s with
  | some s =>
    simp only [Option.some.sizeOf_spec] at hn
    rw [CompileM.optStmt]
    exact h.stmt R s (by omega)
  | none =>
    rw [CompileM.optStmt]
    exact spares_pure trivial

theorem SparesBelow.loopTest (h : SparesBelow p n) {condition : Option Expr} {span : Span}
    (hn : sizeOf condition + sizeOf R < n) : Spares p (loopTest R condition span) fun _ => True := by
  cases condition with
  | some condition =>
    simp only [Option.some.sizeOf_spec] at hn
    rw [CompileM.loopTest]
    exact (h.expr R condition (by omega)).seq fun _ => (spares_emitJump _).seq fun _ =>
      spares_pure trivial
  | none =>
    rw [CompileM.loopTest]
    exact spares_pure trivial

theorem SparesBelow.loopUpdate (h : SparesBelow p n) {update : Option Expr} {span : Span}
    (hn : sizeOf update + sizeOf R < n) : Spares p (loopUpdate R update span) fun _ => True := by
  cases update with
  | some update =>
    simp only [Option.some.sizeOf_spec] at hn
    rw [CompileM.loopUpdate]
    exact (h.expr R update (by omega)).seq fun _ => spares_put _ _
  | none =>
    rw [CompileM.loopUpdate]
    exact spares_pure trivial

/-- A function is named after the variable that it is bound to. -/
theorem SparesBelow.bind (h : SparesBelow p n) {name : Ident} {value : Expr} {constant : Bool}
    {span : Span} (hn : sizeOf value + sizeOf R < n) :
    Spares p (CompileM.stmt R (.bind name value constant span)) fun _ => True := by
  have hbind : Spares p (do
      let symbol ← define name.name constant name.span
      store symbol span
      put .pop [] span) fun _ => True :=
    (spares_define _ _).seq fun symbol => (spares_store symbol).seq fun _ => spares_put _ _
  cases value with
  | function f =>
    simp only [Expr.function.sizeOf_spec] at hn
    rw [CompileM.stmt]
    exact (h.functionLiteral (by omega)).seq fun _ => hbind
  | _ =>
    rw [CompileM.stmt]
    · exact (h.expr R _ hn).seq fun _ => hbind
    · simp

theorem SparesBelow.ret (h : SparesBelow p n) {value : Option Expr} {span : Span}
    (hn : sizeOf value + sizeOf R < n) :
    Spares p (CompileM.stmt R (.ret value span)) fun _ => True := by
  have hexits := h.exits R 0 span (by omega)
  cases value with
  | some value =>
    simp only [Option.some.sizeOf_spec] at hn
    rw [CompileM.stmt]
    refine spares_get.seq fun σ => ?_
    split
    · exact spares_fail _
    · exact (h.expr R value (by omega)).seq fun _ => hexits.seq fun _ => spares_put _ _
  | none =>
    rw [CompileM.stmt]
    refine spares_get.seq fun σ => ?_
    split
    · exact spares_fail _
    · exact hexits.seq fun _ => spares_put _ _

theorem SparesBelow.jump (h : SparesBelow p n) {m : Misplaced} {span : Span}
    {after : LoopContext → CompileM Unit} (hn : sizeOf R < n) (hafter : ∀ ctx, Spares p (after ctx) fun _ => True) :
    Spares p (do
      let ctx ← innermostLoop m span
      exitRegions R ctx.tryDepth span
      after ctx) fun _ => True :=
  (spares_innermostLoop _).seq fun ctx => (h.exits R ctx.tryDepth span hn).seq fun _ => hafter ctx

theorem SparesBelow.tryCatch (h : SparesBelow p n) {body : Block} {handler : Option CatchClause}
    {cleanup : Option Block} {span : Span}
    (hn : sizeOf body + sizeOf handler + sizeOf cleanup + sizeOf R < n) :
    Spares p (CompileM.stmt R (.tryCatch body handler cleanup span)) fun _ => True := by
  obtain ⟨body, _⟩ := body
  rcases handler with _ | ⟨param, handler, _⟩
  · rcases cleanup with _ | ⟨cleanup, _⟩
    · simp only [Block.mk.sizeOf_spec] at hn
      rw [CompileM.stmt]
      exact h.stmts R body (by omega)
    · simp only [Block.mk.sizeOf_spec, Option.none.sizeOf_spec, Option.some.sizeOf_spec] at hn
      rw [CompileM.stmt]
      refine (spares_emit _ _).seq fun _ => (h.stmts _ body ?_).seq fun _ =>
        (spares_emitJump _).seq fun _ => (spares_patchHere _).seq fun _ =>
        (spares_put _ _).seq fun _ => (spares_put _ _).seq fun _ => spares_offset.seq fun _ =>
        (spares_patch _ _ _).seq fun _ => (h.stmts R cleanup (by omega)).seq fun _ => spares_put _ _
      simp only [List.cons.sizeOf_spec, Option.some.sizeOf_spec, Block.mk.sizeOf_spec]
      omega
  · rcases cleanup with _ | ⟨cleanup, _⟩
    · simp only [Block.mk.sizeOf_spec, Option.none.sizeOf_spec, Option.some.sizeOf_spec,
        CatchClause.mk.sizeOf_spec] at hn
      rw [CompileM.stmt]
      refine (spares_emit _ _).seq fun _ => (h.stmts _ body ?_).seq fun _ =>
        (spares_emitJump _).seq fun _ => spares_offset.seq fun _ =>
        (spares_patch _ _ _).seq fun _ => (spares_bindThrown _).seq fun _ =>
        (h.stmts R handler (by omega)).seq fun _ => (spares_emitJump _).seq fun _ =>
        spares_patchAllHere _
      simp only [List.cons.sizeOf_spec, Option.none.sizeOf_spec]
      omega
    · simp only [Block.mk.sizeOf_spec, Option.some.sizeOf_spec, CatchClause.mk.sizeOf_spec] at hn
      rw [CompileM.stmt]
      refine (spares_emit _ _).seq fun _ => (h.stmts _ body ?_).seq fun _ =>
        (spares_emitJump _).seq fun _ => spares_offset.seq fun _ =>
        (spares_patch _ _ _).seq fun _ => (spares_bindThrown _).seq fun _ =>
        (spares_emit _ _).seq fun _ => (h.stmts _ handler ?_).seq fun _ =>
        (spares_emitJump _).seq fun _ => (spares_patchAllHere _).seq fun _ =>
        (spares_put _ _).seq fun _ => (spares_put _ _).seq fun _ => spares_offset.seq fun _ =>
        (spares_patch _ _ _).seq fun _ => (spares_patch _ _ _).seq fun _ =>
        (h.stmts R cleanup (by omega)).seq fun _ => spares_put _ _
      all_goals
        simp only [List.cons.sizeOf_spec, Option.some.sizeOf_spec, Block.mk.sizeOf_spec]
        omega

theorem SparesBelow.stmt_step (h : SparesBelow p n) (s : Stmt) (hn : sizeOf s + sizeOf R ≤ n) :
    Spares p (CompileM.stmt R s) fun _ => True := by
  have hpos := Regions.sizeOf_pos R
  cases s with
  | bind name value constant span =>
    simp only [Stmt.bind.sizeOf_spec] at hn
    exact h.bind (by omega)
  | expr e span =>
    simp only [Stmt.expr.sizeOf_spec] at hn
    rw [CompileM.stmt]
    exact (h.expr R e (by omega)).seq fun _ => spares_put _ _
  | block b =>
    obtain ⟨ss, span⟩ := b
    simp only [Stmt.block.sizeOf_spec, Block.mk.sizeOf_spec] at hn
    rw [CompileM.stmt]
    exact h.stmts R ss (by omega)
  | ret value span =>
    simp only [Stmt.ret.sizeOf_spec] at hn
    exact h.ret (by omega)
  | forLoop init condition update body span =>
    obtain ⟨body, _⟩ := body
    simp only [Stmt.forLoop.sizeOf_spec, Block.mk.sizeOf_spec] at hn
    rw [CompileM.stmt]
    exact (h.optStmt (by omega)).seq fun _ => spares_offset.seq fun _ =>
      (spares_enterLoop _ _).seq fun _ => (h.loopTest (by omega)).seq fun _ =>
      (h.stmts R body (by omega)).seq fun _ => spares_placeContinues.seq fun _ =>
      (h.loopUpdate (by omega)).seq fun _ => (spares_emitJumpTo _ _).seq fun _ =>
      (spares_patchAllHere _).seq fun _ => spares_leaveLoop
  | whileLoop condition body span =>
    obtain ⟨body, _⟩ := body
    simp only [Stmt.whileLoop.sizeOf_spec, Block.mk.sizeOf_spec] at hn
    rw [CompileM.stmt]
    exact spares_offset.seq fun _ => (spares_enterLoop _ _).seq fun _ =>
      (h.expr R condition (by omega)).seq fun _ => (spares_emitJump _).seq fun _ =>
      (h.stmts R body (by omega)).seq fun _ => (spares_emitJumpTo _ _).seq fun _ =>
      (spares_patchHere _).seq fun _ => spares_leaveLoop
  | breakLoop span =>
    simp only [Stmt.breakLoop.sizeOf_spec] at hn
    rw [CompileM.stmt]
    exact h.jump (by omega) fun _ => (spares_emitJump _).seq fun _ => spares_modifyLoop _
  | continueLoop span =>
    simp only [Stmt.continueLoop.sizeOf_spec] at hn
    rw [CompileM.stmt]
    refine h.jump (by omega) fun _ => ?_
    split
    · exact spares_emitJumpTo _ _
    · exact (spares_emitJump _).seq fun _ => spares_modifyLoop _
  | classDecl name parent body span =>
    simp only [Stmt.classDecl.sizeOf_spec] at hn
    rw [CompileM.stmt]
    exact (spares_beginClass _ _).bind fun _ hplace => (h.members _ (by omega)).seq fun _ =>
      spares_endClass _ hplace rfl
  | tryCatch body handler cleanup span =>
    simp only [Stmt.tryCatch.sizeOf_spec] at hn
    exact h.tryCatch (by omega)
  | throw value span =>
    simp only [Stmt.throw.sizeOf_spec] at hn
    rw [CompileM.stmt]
    exact (h.expr R value (by omega)).seq fun _ => spares_put _ _

/-! ### The induction -/

theorem SparesBelow.stmts_step (h : SparesBelow p n) (ss : List Stmt)
    (hn : sizeOf ss + sizeOf R ≤ n) : Spares p (CompileM.stmts R ss) fun _ => True := by
  cases ss with
  | nil =>
    rw [CompileM.stmts]
    exact spares_pure trivial
  | cons s ss =>
    simp only [List.cons.sizeOf_spec] at hn
    rw [CompileM.stmts]
    exact (h.stmt R s (by omega)).seq fun _ => h.stmts R ss (by omega)

theorem SparesBelow.exits_step (h : SparesBelow p n) (depth : Nat) (span : Span) (hn : sizeOf R ≤ n) :
    Spares p (exitRegions R depth span) fun _ => True := by
  cases R with
  | nil =>
    rw [exitRegions]
    exact spares_pure trivial
  | cons cleanup outer =>
    simp only [List.cons.sizeOf_spec] at hn
    have hrest := h.exits outer depth span (by omega)
    rw [exitRegions]
    split
    · refine spares_offset.seq fun _ => (spares_emitJumpTo _ _).seq fun _ => ?_
      cases cleanup with
      | none => exact hrest
      | some b =>
        obtain ⟨ss, _⟩ := b
        simp only [Option.some.sizeOf_spec, Block.mk.sizeOf_spec] at hn
        exact (h.stmts outer ss (by omega)).seq fun _ => hrest
    · exact spares_pure trivial

theorem SparesBelow.succ (h : SparesBelow p n) : SparesBelow p (n + 1) where
  expr _ e hn := h.expr_step e (Nat.le_of_lt_succ hn)
  stmt _ s hn := h.stmt_step s (Nat.le_of_lt_succ hn)
  stmts _ ss hn := h.stmts_step ss (Nat.le_of_lt_succ hn)
  exits _ depth span hn := h.exits_step depth span (Nat.le_of_lt_succ hn)

theorem sparesBelow (n : Nat) : SparesBelow p n := by
  induction n with
  | zero => exact ⟨by simp, by simp, by simp, by simp⟩
  | succ n ih => exact ih.succ

/-- A unit is compiled behind the constants of earlier units, and linked at its end. -/
theorem unit_drafts (ss : List Stmt) {σ : CompileState} (hσ : p.Drafts σ.pool) :
    match unit p.size ss σ with
    | .ok _ σ' => ∃ q spans, p.Drafts q ∧ q.link spans p.size = .ok σ'.pool
    | .error _ σ' => p.Drafts σ'.pool := by
  have hss := (sparesBelow (p := p) (sizeOf ss + sizeOf ([] : Regions) + 1)).stmts [] ss (Nat.lt_succ_self _) σ hσ
  unfold unit
  simp only [Bind.bind, EStateM.bind]
  cases hrun : CompileM.stmts [] ss σ with
  | error e τ =>
    rw [hrun] at hss
    exact hss
  | ok a τ =>
    rw [hrun] at hss
    dsimp only
    rw [linkClasses_eq]
    cases hlink : τ.pool.link τ.classSpans p.size with
    | error e => exact hss.1
    | ok r => exact ⟨τ.pool, τ.classSpans, hss.1, hlink⟩

end

end CompileM

/-! ## Compilers after a refusal -/

namespace Compiler

/-- Compilers that differ in what the last unit left behind only. -/
structure Agrees (c d : Compiler) : Prop where
  symbols : d.symbols = c.symbols
  pool : d.pool = c.pool
  optimizer : d.optimizer = c.optimizer

variable {c d : Compiler}

/-- The pool after a unit: the classes behind the constants of before were linked, or the unit was refused
and nothing is left of it. -/
theorem attempt_drafts (c : Compiler) (p : Program) : match c.attempt p with
    | (.ok _, d) => ∃ q spans, c.pool.Drafts q ∧ q.link spans c.pool.size = .ok d.pool
    | (.error _, d) => c.Agrees d := by
  have hend := CompileM.unit_drafts (p := c.pool) (c.optimizer.run p).1.statements (σ := c.start) (.refl _)
  unfold attempt EStateM.run
  cases hrun : CompileM.unit c.pool.size (c.optimizer.run p).1.statements c.start with
  | ok block σ =>
    rw [hrun] at hend
    exact hend
  | error e σ =>
    rw [hrun] at hend
    exact ⟨rfl, hend.extract_eq, rfl⟩

/-- What a unit was in the middle of when it was refused does not reach the next one. -/
theorem agrees_of_refused {p : Program} {e : CompileError} (h : c.attempt p = (.error e, d)) :
    c.Agrees d := by
  have hend := c.attempt_drafts p
  rw [h] at hend
  exact hend

/-- The pool after a unit begins with the pool before it, whatever came of the unit. -/
theorem begins_attempt (c : Compiler) (p : Program) : c.pool.Begins (c.attempt p).2.pool := by
  have hend := c.attempt_drafts p
  cases h : c.attempt p with
  | mk result d =>
    rw [h] at hend
    cases result with
    | ok unit =>
      obtain ⟨q, spans, hdrafts, hlink⟩ := hend
      exact hdrafts.link hlink
    | error e => exact hend.pool.symm ▸ Pool.Begins.refl c.pool

/-- A unit cannot tell compilers apart that agree, and they agree again after it. -/
theorem Agrees.attempt (h : c.Agrees d) (p : Program) :
    (d.attempt p).1 = (c.attempt p).1 ∧ (c.attempt p).2.Agrees (d.attempt p).2 := by
  have hstart : d.start = c.start := by
    unfold start
    rw [h.symbols, h.pool]
  unfold Compiler.attempt
  rw [hstart, h.pool, h.optimizer]
  cases (CompileM.unit c.pool.size (c.optimizer.run p).1.statements).run c.start with
  | ok block σ => exact ⟨rfl, rfl, rfl, h.optimizer⟩
  | error e σ =>
    have hpool : σ.pool.extract 0 d.pool.size = σ.pool.extract 0 c.pool.size := by rw [h.pool]
    exact ⟨rfl, h.symbols, hpool, h.optimizer⟩

/-- What comes of units compiled one after the other: the block of each or its refusal, with the
constants that are there then. -/
def outcomes (c : Compiler) : List Program → List (Except CompileError UnitCode × Pool)
  | [] => []
  | p :: ps => ((c.attempt p).1, (c.attempt p).2.pool) :: (c.attempt p).2.outcomes ps

theorem Agrees.outcomes (h : c.Agrees d) (ps : List Program) : d.outcomes ps = c.outcomes ps := by
  induction ps generalizing c d with
  | nil => rfl
  | cons p ps ih =>
    obtain ⟨hresult, hagrees⟩ := h.attempt p
    unfold Compiler.outcomes
    rw [hresult, hagrees.pool, ih hagrees]

/-- A refused unit leaves no trace: names and constants, and with them the classes and their parents,
are those of before, and any later units come to what they would have come to without it. -/
theorem refused_leaves_no_trace {p : Program} {e : CompileError} (h : c.attempt p = (.error e, d)) :
    d.symbols = c.symbols ∧ d.pool = c.pool ∧
      ∀ ps : List Program, d.outcomes ps = c.outcomes ps := by
  have hagrees := agrees_of_refused h
  exact ⟨hagrees.symbols, hagrees.pool, hagrees.outcomes⟩

end Compiler

/-- `fn() { while (true) { try { 2; ?3 } catch { } } }` -/
def strayOperator : Program :=
  ⟨[Build.expr (Build.function none [] [Build.whileLoop (Build.boolean true)
    [Build.tryCatch [Build.expr (Build.int 2), Build.expr (Build.unary "?" (Build.int 3))]
      (some (none, [])) none]])]⟩

theorem attempt_strayOperator : ∃ d, (Compiler.new .empty #[] false).attempt strayOperator =
    (.error ⟨.unknownOperator "?", .dummy⟩, d) := by
  apply Exists.intro
  unfold Compiler.attempt CompileM.unit
  rw [show (Compiler.new .empty #[] false).optimizer.run strayOperator = (strayOperator, ⟨0, 0⟩) from rfl]
  simp only [strayOperator, Build.expr, Build.function, Build.whileLoop, Build.boolean, Build.tryCatch,
    Build.int, Build.unary, Build.block, Option.map, List.map, CompileM.stmts, CompileM.stmt,
    CompileM.expr, CompileM.functionLiteral, CompileM.functionBody, CompileM.literal]
  rfl

/-- The unit is refused inside the scope of a function, with a constant more than before. -/
theorem strayOperator_leaves_no_trace : ∃ d,
    (Compiler.new .empty #[] false).attempt strayOperator =
      (.error ⟨.unknownOperator "?", .dummy⟩, d) ∧
    d.symbols = (Compiler.new .empty #[] false).symbols ∧ d.pool = #[] ∧
      ∀ ps, d.outcomes ps = (Compiler.new .empty #[] false).outcomes ps := by
  obtain ⟨d, h⟩ := attempt_strayOperator
  exact ⟨d, h, Compiler.refused_leaves_no_trace h⟩

end ScriptMachine
