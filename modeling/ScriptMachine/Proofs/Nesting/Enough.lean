import ScriptMachine.Proofs.Hierarchy.Link
import ScriptMachine.Proofs.History
import ScriptMachine.Proofs.Nesting.Bounded

/-!
# Compilation ends

Where a `return`, `break` or `continue` stands in protected regions, compilation goes on with finally bodies that are
no part of it. It ends all the same: a finally body is compiled with only the regions outside it still open, so what is
compiled next and what is open around it get smaller together.

1. **Following**: `OpenM.Follows R x m` says that `x`, begun with the regions `R` open, does what `m` does.
2. **One level**: if all that is smaller is compiled as it should be, so is a level. What counts is the size of the
   piece and of the open regions together.
3. **Units**: `Compiler.compile_ends`. Within a limit that the size of the unit gives, no unit is given up.
-/

namespace ScriptMachine

namespace OpenM

open CompileM

/-! ## Following -/

/-- Begun with the regions `R` open, `x` does what `m` does, and the regions that are open at its end satisfy `Q`. -/
def Ends {α : Type} (R : Regions) (Q : Regions → Prop) (x : OpenM α) (m : CompileM α) : Prop :=
  ∀ σ, match m σ with
    | .ok a τ => ∃ S, Q S ∧ x ⟨σ, R⟩ = .ok a ⟨τ, S⟩
    | .error e τ => ∃ S, x ⟨σ, R⟩ = .error (.refused e) ⟨τ, S⟩

/-- Begun with the regions `R` open, `x` does what `m` does. At the end the same regions are open, unless the source is
refused. -/
abbrev Follows {α : Type} (R : Regions) (x : OpenM α) (m : CompileM α) : Prop := Ends R (· = R) x m

section

variable {α β : Type} {R S : Regions} {P Q : Regions → Prop} {x : OpenM α} {m : CompileM α}

theorem Ends.bind {f : α → OpenM β} {g : α → CompileM β} (h : Ends R P x m)
    (hf : ∀ a S, P S → Ends S Q (f a) (g a)) : Ends R Q (x >>= f) (m >>= g) := by
  intro σ
  have hσ := h σ
  simp only [Bind.bind, EStateM.bind]
  cases hm : m σ with
  | ok a τ =>
    rw [hm] at hσ
    obtain ⟨S, hS, hx⟩ := hσ
    simp only [hx]
    exact hf a S hS τ
  | error e τ =>
    rw [hm] at hσ
    obtain ⟨S, hx⟩ := hσ
    simp only [hx]
    exact ⟨S, rfl⟩

theorem Ends.mono (h : Ends R P x m) (hPQ : ∀ S, P S → Q S) : Ends R Q x m := by
  intro σ
  have hσ := h σ
  cases hm : m σ with
  | ok a τ =>
    rw [hm] at hσ
    obtain ⟨S, hS, hx⟩ := hσ
    exact ⟨S, hPQ S hS, hx⟩
  | error e τ =>
    rw [hm] at hσ
    exact hσ

/-- The stack of regions is set to `S`. -/
theorem Ends.set {f : PUnit → OpenM β} {n : CompileM β} {g : OpenState → OpenState}
    (hg : ∀ σ, g ⟨σ, R⟩ = ⟨σ, S⟩) (h : Ends S Q (f ()) n) : Ends R Q (modify g >>= f) n := by
  intro σ
  have hbegin : (modify g >>= f) ⟨σ, R⟩ = f () ⟨σ, S⟩ := by
    rw [← hg σ]
    rfl
  rw [hbegin]
  exact h σ

/-- The stack is set to `S` at the end. -/
theorem ends_set {g : OpenState → OpenState} (hg : ∀ σ, g ⟨σ, R⟩ = ⟨σ, S⟩) (hS : Q S) :
    Ends R Q (modify g) (pure ()) := by
  intro σ
  refine ⟨S, hS, ?_⟩
  rw [← hg σ]
  rfl

theorem follows_lift (m : CompileM α) : Follows R (liftM m) m := by
  intro σ
  show match m σ with
    | .ok a τ => ∃ S, S = R ∧ lift m ⟨σ, R⟩ = .ok a ⟨τ, S⟩
    | .error e τ => ∃ S, lift m ⟨σ, R⟩ = .error (.refused e) ⟨τ, S⟩
  unfold lift
  cases hm : m σ with
  | ok a τ => exact ⟨R, rfl, rfl⟩
  | error e τ => exact ⟨R, rfl⟩

theorem follows_pure (a : α) : Follows R (pure a) (pure a) := fun _ => ⟨R, rfl, rfl⟩

theorem Follows.bind {f : α → OpenM β} {g : α → CompileM β} (h : Follows R x m) (hf : ∀ a, Ends R Q (f a) (g a)) :
    Ends R Q (x >>= f) (m >>= g) := by
  refine Ends.bind h ?_
  rintro a S rfl
  exact hf a

/-- A step that both take together. -/
theorem follows_step {f : α → OpenM β} {g : α → CompileM β} (hf : ∀ a, Ends R Q (f a) (g a)) :
    Ends R Q (liftM m >>= f) (m >>= g) :=
  Follows.bind (follows_lift m) hf

/-- Both look at the state. -/
theorem follows_get {f : OpenState → OpenM β} {g : CompileState → CompileM β}
    (hf : ∀ σ, Follows R (f ⟨σ, R⟩) (g σ)) : Follows R (get >>= f) (get >>= g) :=
  fun σ => hf σ σ

/-- Only the open regions are looked at. -/
theorem follows_regions {f : OpenState → OpenM β} {n : CompileM β} (hf : ∀ σ, Follows R (f ⟨σ, R⟩) n) :
    Follows R (get >>= f) n :=
  fun σ => hf σ σ

/-- Compilation with one more region open. -/
theorem Follows.inRegion {x : OpenM Unit} {m : CompileM Unit} {cleanup : Option Block}
    (h : Follows (cleanup :: R) x m) : Follows R (OpenM.inRegion cleanup x) m := by
  rw [← bind_pure m]
  refine .set (fun _ => rfl) (Follows.bind h fun _ => ?_)
  exact ends_set (fun _ => rfl) rfl

/-- A function body begins with no region open. -/
theorem Follows.inFunction {x : OpenM Unit} {m : CompileM Unit} (h : Follows [] x m) :
    Follows R (OpenM.inFunction x) (CompileM.inFunction m) := by
  intro σ
  let inner : CompileState := { σ with function := .body, symbols := σ.symbols.enclose }
  have hσ := h inner
  have hleft : CompileM.inFunction m σ = match m inner with
      | .ok _ τ => .ok ⟨τ.function.block, τ.symbols.current.definitions, τ.symbols.current.free.toList⟩
          { τ with function := σ.function, symbols := (τ.symbols.leave?).getD .empty }
      | .error e τ => .error e τ := by
    show (m >>= _) inner = _
    simp only [Bind.bind, EStateM.bind]
    cases m inner <;> rfl
  have hright : OpenM.inFunction x ⟨σ, R⟩ = match x ⟨inner, []⟩ with
      | .ok _ t => .ok ⟨t.state.function.block, t.state.symbols.current.definitions,
          t.state.symbols.current.free.toList⟩
          ⟨{ t.state with function := σ.function, symbols := (t.state.symbols.leave?).getD .empty }, R⟩
      | .error e t => .error e t := by
    show (x >>= _) ⟨inner, []⟩ = _
    simp only [Bind.bind, EStateM.bind]
    cases x ⟨inner, []⟩ <;> rfl
  rw [hleft, hright]
  cases hm : m inner with
  | ok a τ =>
    rw [hm] at hσ
    obtain ⟨S, -, hx⟩ := hσ
    exact ⟨R, rfl, by rw [hx]⟩
  | error e τ =>
    rw [hm] at hσ
    obtain ⟨S, hx⟩ := hσ
    exact ⟨S, by rw [hx]⟩

end

/-! ## One level -/

/-- What is smaller than `n`, the open regions included, is compiled as it should be. -/
structure FollowsBelow (n : Nat) (expr : Expr → OpenM Unit) (stmt : Stmt → OpenM Unit) : Prop where
  expr : ∀ R e, sizeOf e + sizeOf R < n → Follows R (expr e) (CompileM.expr R e)
  stmt : ∀ R s, sizeOf s + sizeOf R < n → Follows R (stmt s) (CompileM.stmt R s)

section

variable {n : Nat} {expr : Expr → OpenM Unit} {stmt : Stmt → OpenM Unit} {R : Regions}

namespace FollowsBelow

variable (h : FollowsBelow n expr stmt)

include h

theorem stmts (ss : List Stmt) (hn : sizeOf ss + sizeOf R ≤ n) :
    Follows R (ss.forM stmt) (CompileM.stmts R ss) := by
  induction ss with
  | nil =>
    rw [CompileM.stmts]
    exact follows_pure ()
  | cons s ss ih =>
    simp only [List.cons.sizeOf_spec] at hn
    rw [CompileM.stmts]
    exact (h.stmt R s (by omega)).bind fun _ => ih (by omega)

theorem exprs (es : List Expr) (hn : sizeOf es + sizeOf R ≤ n) :
    Follows R (es.forM expr) (CompileM.exprs R es) := by
  induction es with
  | nil =>
    rw [CompileM.exprs]
    exact follows_pure ()
  | cons e es ih =>
    simp only [List.cons.sizeOf_spec] at hn
    rw [CompileM.exprs]
    exact (h.expr R e (by omega)).bind fun _ => ih (by omega)

theorem arrayElements (es : List Element) (hn : sizeOf es + sizeOf R ≤ n) :
    Follows R (es.forM fun e => expr e.value) (CompileM.arrayElements R es) := by
  induction es with
  | nil =>
    rw [CompileM.arrayElements]
    exact follows_pure ()
  | cons e es ih =>
    rcases e with ⟨key, value⟩
    simp only [List.cons.sizeOf_spec, Element.mk.sizeOf_spec] at hn
    rw [CompileM.arrayElements]
    exact (h.expr R value (by omega)).bind fun _ => ih (by omega)

theorem mapElements {span : Span} {next : Int64} (es : List Element) (hn : sizeOf es + sizeOf R ≤ n) :
    Follows R (OpenM.mapElements expr span next es) (CompileM.mapElements R span next es) := by
  induction es generalizing next with
  | nil =>
    rw [CompileM.mapElements]
    exact follows_pure ()
  | cons e es ih =>
    rcases e with ⟨_ | key, value⟩ <;>
      simp only [List.cons.sizeOf_spec, Element.mk.sizeOf_spec, Option.some.sizeOf_spec] at hn <;>
      rw [CompileM.mapElements]
    · exact follows_step fun _ => (h.expr R value (by omega)).bind fun _ => ih (by omega)
    · exact (h.expr R key (by omega)).bind fun _ => (h.expr R value (by omega)).bind fun _ => ih (by omega)

theorem pairs (ps : List (Expr × Expr)) (hn : sizeOf ps + sizeOf R ≤ n) :
    Follows R (ps.forM fun p => do expr p.1; expr p.2) (CompileM.pairs R ps) := by
  induction ps with
  | nil =>
    rw [CompileM.pairs]
    exact follows_pure ()
  | cons p ps ih =>
    rcases p with ⟨key, value⟩
    simp only [List.cons.sizeOf_spec, Prod.mk.sizeOf_spec] at hn
    rw [CompileM.pairs, ← bind_assoc]
    exact Follows.bind ((h.expr R key (by omega)).bind fun _ => h.expr R value (by omega)) fun _ => ih (by omega)

theorem branch (b : Block) (hn : sizeOf b + sizeOf R ≤ n) :
    Follows R (OpenM.branch stmt b) (CompileM.branch R b) := by
  rcases b with ⟨ss, span⟩
  simp only [Block.mk.sizeOf_spec] at hn
  rw [CompileM.branch]
  exact (h.stmts ss (by omega)).bind fun _ => follows_lift _

theorem alternative (b : Option Block) (span : Span) (hn : sizeOf b + sizeOf R ≤ n) :
    Follows R (OpenM.alternative stmt b span) (CompileM.alternative R b span) := by
  cases b with
  | none =>
    rw [CompileM.alternative]
    exact follows_lift _
  | some b =>
    simp only [Option.some.sizeOf_spec] at hn
    rw [CompileM.alternative]
    exact h.branch b (by omega)

/-- The body of a function starts afresh, with no region open. -/
theorem functionBody (b : Block) (hn : sizeOf b < n) :
    Follows [] (OpenM.functionBody stmt b) (CompileM.functionBody b) := by
  rcases b with ⟨ss, span⟩
  simp only [Block.mk.sizeOf_spec] at hn
  rw [CompileM.functionBody]
  refine (h.stmts ss ?_).bind fun _ => follows_lift _
  simp only [List.nil.sizeOf_spec]
  omega

theorem functionLiteral {f : FunctionLiteral} {binding : Option String} (hn : sizeOf f < n) :
    Follows R (OpenM.functionLiteral stmt f binding) (CompileM.functionLiteral f binding) := by
  rcases f with ⟨ownName, params, body, span⟩
  simp only [FunctionLiteral.mk.sizeOf_spec] at hn
  rw [CompileM.functionLiteral]
  have hbody := h.functionBody body (by omega)
  refine Follows.bind (Follows.inFunction ?_) fun _ => follows_lift _
  dsimp only
  cases ownName <|> binding with
  | none => exact follows_step fun _ => hbody
  | some name => exact follows_step fun _ => follows_step fun _ => hbody

theorem method {cls : String} {f : FunctionLiteral} {name : String} (hn : sizeOf f < n) :
    Follows R (OpenM.method stmt cls f name) (CompileM.method cls f name) := by
  rcases f with ⟨ownName, params, body, span⟩
  simp only [FunctionLiteral.mk.sizeOf_spec] at hn
  rw [CompileM.method]
  have hbody := h.functionBody body (by omega)
  refine Follows.bind (Follows.inFunction ?_) fun _ => follows_lift _
  refine Follows.bind ?_ fun _ => follows_step fun _ => hbody
  exact follows_step fun _ => follows_pure ()

theorem members {cls : String} {body : List Stmt} (found : ClassMembers) (hn : sizeOf body ≤ n) :
    Follows R (OpenM.members stmt cls body found) (CompileM.members cls body found) := by
  induction body generalizing found with
  | nil =>
    rw [CompileM.members]
    exact follows_pure found
  | cons s rest ih =>
    simp only [List.cons.sizeOf_spec] at hn
    have hrest (found : ClassMembers) := ih found (by omega)
    have hmethod {f : FunctionLiteral} (name : String) (hf : sizeOf f < sizeOf s) :
        Follows R (OpenM.method stmt cls f name >>= fun m => OpenM.members stmt cls rest (found.addMethod name m))
          (CompileM.method cls f name >>= fun m => CompileM.members cls rest (found.addMethod name m)) :=
      (h.method (by omega)).bind fun m => hrest _
    cases s with
    | bind name value constant span =>
      cases value with
      | function f =>
        simp only [CompileM.members, OpenM.members]
        refine hmethod name.name ?_
        simp only [Stmt.bind.sizeOf_spec, Expr.function.sizeOf_spec]
        omega
      | _ =>
        simp only [CompileM.members, OpenM.members]
        exact hrest _
    | expr e span =>
      cases e with
      | function f =>
        simp only [CompileM.members, OpenM.members]
        cases f.name with
        | none => exact follows_lift _
        | some name =>
          refine hmethod name ?_
          simp only [Stmt.expr.sizeOf_spec, Expr.function.sizeOf_spec]
          omega
      | ident id =>
        simp only [CompileM.members, OpenM.members]
        exact hrest _
      | _ =>
        simp only [CompileM.members, OpenM.members]
        exact follows_lift _
    | _ =>
      simp only [CompileM.members, OpenM.members]
      exact follows_lift _

/-! ### Expressions -/

theorem binary {op : String} {left right : Expr} {span : Span} (hn : sizeOf left + sizeOf right + sizeOf R < n) :
    Follows R (exprForm expr stmt (.binary op left right span)) (CompileM.expr R (.binary op left right span)) := by
  have hleft := h.expr R left (by omega)
  have hright := h.expr R right (by omega)
  rw [CompileM.expr]
  simp only [exprForm]
  split
  · exact hleft.bind fun _ => follows_step fun _ => follows_step fun _ => follows_step fun _ =>
      hright.bind fun _ => follows_lift _
  · split
    · exact hleft.bind fun _ => follows_step fun _ => follows_step fun _ => follows_step fun _ =>
        follows_step fun _ => follows_step fun _ => hright.bind fun _ => follows_lift _
    · cases BinaryOp.ofText? op with
      | none => exact follows_lift _
      | some found =>
        rcases found with ⟨op, _ | _⟩
        · exact hleft.bind fun _ => hright.bind fun _ => follows_lift _
        · exact hright.bind fun _ => hleft.bind fun _ => follows_lift _

/-- A call, by the form of its callee. -/
theorem call {callee : Expr} {args : List Expr} {span : Span} (hn : sizeOf callee + sizeOf args + sizeOf R < n) :
    Follows R (exprForm expr stmt (.call callee args span)) (CompileM.expr R (.call callee args span)) := by
  have hargs := h.exprs (R := R) args (by omega)
  cases callee with
  | member target member span' =>
    simp only [Expr.member.sizeOf_spec] at hn
    simp only [CompileM.expr, exprForm]
    exact (h.expr R target (by omega)).bind fun _ => follows_step fun _ => hargs.bind fun _ =>
      follows_step fun _ => follows_lift _
  | super name superSpan =>
    simp only [CompileM.expr, exprForm]
    exact follows_step fun _ => follows_step fun _ => follows_step fun _ => hargs.bind fun _ =>
      follows_step fun _ => follows_step fun _ => follows_lift _
  | _ =>
    have hcallee := h.expr R _ (Nat.lt_of_le_of_lt (Nat.add_le_add_right (Nat.le_add_right _ _) _) hn)
    rw [CompileM.expr.eq_def]
    exact hcallee.bind fun _ => follows_step fun _ => hargs.bind fun _ => follows_lift _

theorem exprForm {e : Expr} (hn : sizeOf e + sizeOf R ≤ n) :
    Follows R (OpenM.exprForm expr stmt e) (CompileM.expr R e) := by
  have hpos := Regions.sizeOf_pos R
  cases e with
  | literal l span =>
    rw [CompileM.expr]
    exact follows_lift _
  | ident id =>
    rw [CompileM.expr]
    exact follows_step fun _ => follows_lift _
  | unary op operand span =>
    simp only [Expr.unary.sizeOf_spec] at hn
    rw [CompileM.expr]
    exact follows_step fun _ => (h.expr R operand (by omega)).bind fun _ => follows_lift _
  | binary op left right span =>
    simp only [Expr.binary.sizeOf_spec] at hn
    exact h.binary (by omega)
  | ternary condition yes no span =>
    simp only [Expr.ternary.sizeOf_spec] at hn
    rw [CompileM.expr]
    exact (h.expr R condition (by omega)).bind fun _ => follows_step fun _ =>
      (h.expr R yes (by omega)).bind fun _ => follows_step fun _ => follows_step fun _ =>
      (h.expr R no (by omega)).bind fun _ => follows_lift _
  | cond condition yes no span =>
    simp only [Expr.cond.sizeOf_spec] at hn
    rw [CompileM.expr]
    have hno := h.alternative (R := R) no span (by omega)
    exact (h.expr R condition (by omega)).bind fun _ => follows_step fun _ =>
      (h.branch yes (by omega)).bind fun _ => follows_step fun _ => follows_step fun _ =>
      hno.bind fun _ => follows_lift _
  | function f =>
    simp only [Expr.function.sizeOf_spec] at hn
    rw [CompileM.expr]
    exact h.functionLiteral (by omega)
  | call callee args span =>
    simp only [Expr.call.sizeOf_spec] at hn
    exact h.call (by omega)
  | array es ordered span =>
    simp only [Expr.array.sizeOf_spec] at hn
    rw [CompileM.expr]
    simp only [OpenM.exprForm]
    split
    · exact (h.mapElements es (by omega)).bind fun _ => follows_lift _
    · exact (h.arrayElements es (by omega)).bind fun _ => follows_lift _
  | index target index span =>
    simp only [Expr.index.sizeOf_spec] at hn
    rw [CompileM.expr]
    exact (h.expr R target (by omega)).bind fun _ => (h.expr R index (by omega)).bind fun _ => follows_lift _
  | hash ps span =>
    simp only [Expr.hash.sizeOf_spec] at hn
    rw [CompileM.expr]
    exact (h.pairs ps (by omega)).bind fun _ => follows_lift _
  | assign target value span =>
    simp only [Expr.assign.sizeOf_spec] at hn
    rw [CompileM.expr]
    refine follows_step fun symbol => ?_
    cases symbol.isAssignable with
    | false => exact follows_lift _
    | true => exact (h.expr R value (by omega)).bind fun _ => follows_lift _
  | indexAssign target index value span =>
    simp only [Expr.indexAssign.sizeOf_spec] at hn
    rw [CompileM.expr]
    exact (h.expr R target (by omega)).bind fun _ => (h.expr R index (by omega)).bind fun _ =>
      (h.expr R value (by omega)).bind fun _ => follows_lift _
  | member target member span =>
    simp only [Expr.member.sizeOf_spec] at hn
    rw [CompileM.expr]
    exact (h.expr R target (by omega)).bind fun _ => follows_step fun _ => follows_lift _
  | memberAssign target member value span =>
    simp only [Expr.memberAssign.sizeOf_spec] at hn
    rw [CompileM.expr]
    exact (h.expr R target (by omega)).bind fun _ => (h.expr R value (by omega)).bind fun _ =>
      follows_step fun _ => follows_lift _
  | spawn callee args span =>
    simp only [Expr.spawn.sizeOf_spec] at hn
    rw [CompileM.expr]
    exact (h.expr R callee (by omega)).bind fun _ => follows_step fun _ =>
      (h.exprs args (by omega)).bind fun _ => follows_lift _
  | channel capacity span =>
    cases capacity with
    | none =>
      rw [CompileM.expr]
      exact follows_lift _
    | some capacity =>
      simp only [Expr.channel.sizeOf_spec, Option.some.sizeOf_spec] at hn
      rw [CompileM.expr]
      exact (h.expr R capacity (by omega)).bind fun _ => follows_lift _
  | send channel value span =>
    simp only [Expr.send.sizeOf_spec] at hn
    rw [CompileM.expr]
    exact (h.expr R channel (by omega)).bind fun _ => (h.expr R value (by omega)).bind fun _ => follows_lift _
  | receive channel span =>
    simp only [Expr.receive.sizeOf_spec] at hn
    rw [CompileM.expr]
    exact (h.expr R channel (by omega)).bind fun _ => follows_lift _
  | this span =>
    rw [CompileM.expr]
    exact follows_lift _
  | super name span =>
    rw [CompileM.expr]
    exact follows_lift _

/-! ### Statements -/

/-- A finally body is compiled with only the regions outside it still open. -/
theorem closeRegions {depth : Nat} {span : Span} (hn : sizeOf R ≤ n) (S : Regions) :
    Ends S (fun _ => True) (OpenM.closeRegions stmt depth span R) (CompileM.exitRegions R depth span) := by
  induction R generalizing S with
  | nil =>
    rw [CompileM.exitRegions]
    exact Ends.mono (follows_pure ()) fun _ _ => trivial
  | cons cleanup outer ih =>
    simp only [List.cons.sizeOf_spec] at hn
    have hrest := ih (by omega) outer
    rw [CompileM.exitRegions]
    unfold OpenM.closeRegions
    split
    · refine .set (fun _ => rfl) (follows_step fun _ => follows_step fun _ => ?_)
      cases cleanup with
      | none => exact hrest
      | some b =>
        rcases b with ⟨ss, span'⟩
        simp only [Option.some.sizeOf_spec, Block.mk.sizeOf_spec] at hn
        exact Follows.bind (h.stmts ss (by omega)) fun _ => hrest
    · exact Ends.mono (follows_pure ()) fun _ _ => trivial

theorem exitRegions {depth : Nat} {span : Span} (hn : sizeOf R ≤ n) :
    Follows R (OpenM.exitRegions stmt depth span) (CompileM.exitRegions R depth span) := by
  rw [← bind_pure (CompileM.exitRegions R depth span)]
  refine follows_regions fun _ => (h.closeRegions hn R).bind fun _ S _ => ?_
  exact ends_set (fun _ => rfl) rfl

theorem optStmt {s : Option Stmt} (hn : sizeOf s + sizeOf R ≤ n) :
    Follows R (OpenM.optStmt stmt s) (CompileM.optStmt R s) := by
  rw [CompileM.optStmt.eq_def]
  cases s with
  | none => exact follows_pure ()
  | some s =>
    simp only [Option.some.sizeOf_spec] at hn
    exact h.stmt R s (by omega)

theorem loopTest {condition : Option Expr} {span : Span} (hn : sizeOf condition + sizeOf R ≤ n) :
    Follows R (OpenM.loopTest expr condition span) (CompileM.loopTest R condition span) := by
  rw [CompileM.loopTest.eq_def]
  cases condition with
  | none => exact follows_pure []
  | some condition =>
    simp only [Option.some.sizeOf_spec] at hn
    exact Follows.bind (h.expr R condition (by omega)) fun _ => follows_step fun _ => follows_pure _

theorem loopUpdate {update : Option Expr} {span : Span} (hn : sizeOf update + sizeOf R ≤ n) :
    Follows R (OpenM.loopUpdate expr update span) (CompileM.loopUpdate R update span) := by
  rw [CompileM.loopUpdate.eq_def]
  cases update with
  | none => exact follows_pure ()
  | some update =>
    simp only [Option.some.sizeOf_spec] at hn
    exact Follows.bind (h.expr R update (by omega)) fun _ => follows_lift _

/-- A declaration, by the form of its value. -/
theorem bind {name : Ident} {value : Expr} {constant : Bool} {span : Span} (hn : sizeOf value + sizeOf R < n) :
    Follows R (stmtForm expr stmt (.bind name value constant span))
      (CompileM.stmt R (.bind name value constant span)) := by
  have hvalue := h.expr R value hn
  cases value with
  | function f =>
    simp only [Expr.function.sizeOf_spec] at hn
    rw [CompileM.stmt.eq_def]
    exact Follows.bind (h.functionLiteral (by omega)) fun _ => follows_step fun _ => follows_step fun _ =>
      follows_lift _
  | _ =>
    rw [CompileM.stmt.eq_def]
    exact Follows.bind hvalue fun _ => follows_step fun _ => follows_step fun _ => follows_lift _

theorem stmtForm {s : Stmt} (hn : sizeOf s + sizeOf R ≤ n) :
    Follows R (OpenM.stmtForm expr stmt s) (CompileM.stmt R s) := by
  have hpos := Regions.sizeOf_pos R
  cases s with
  | bind name value constant span =>
    simp only [Stmt.bind.sizeOf_spec] at hn
    exact h.bind (by omega)
  | expr e span =>
    simp only [Stmt.expr.sizeOf_spec] at hn
    rw [CompileM.stmt]
    exact Follows.bind (h.expr R e (by omega)) fun _ => follows_lift _
  | block b =>
    rcases b with ⟨ss, span⟩
    simp only [Stmt.block.sizeOf_spec, Block.mk.sizeOf_spec] at hn
    rw [CompileM.stmt]
    exact h.stmts ss (by omega)
  | ret value span =>
    simp only [Stmt.ret.sizeOf_spec] at hn
    rw [CompileM.stmt.eq_def]
    refine follows_get fun σ => ?_
    dsimp only
    split
    · exact follows_lift _
    · cases value with
      | none => exact Follows.bind (h.exitRegions (by omega)) fun _ => follows_lift _
      | some value =>
        simp only [Option.some.sizeOf_spec] at hn
        exact Follows.bind (h.expr R value (by omega)) fun _ =>
          Follows.bind (h.exitRegions (by omega)) fun _ => follows_lift _
  | forLoop init condition update body span =>
    rcases body with ⟨ss, span'⟩
    simp only [Stmt.forLoop.sizeOf_spec, Block.mk.sizeOf_spec] at hn
    rw [CompileM.stmt]
    exact Follows.bind (h.optStmt (by omega)) fun _ => follows_step fun _ => follows_regions fun _ =>
      follows_step fun _ => Follows.bind (h.loopTest (by omega)) fun _ =>
      Follows.bind (h.stmts ss (by omega)) fun _ => follows_step fun _ =>
      Follows.bind (h.loopUpdate (by omega)) fun _ => follows_step fun _ => follows_step fun _ => follows_lift _
  | whileLoop condition body span =>
    rcases body with ⟨ss, span'⟩
    simp only [Stmt.whileLoop.sizeOf_spec, Block.mk.sizeOf_spec] at hn
    rw [CompileM.stmt]
    exact follows_step fun _ => follows_regions fun _ => follows_step fun _ =>
      Follows.bind (h.expr R condition (by omega)) fun _ => follows_step fun _ =>
      Follows.bind (h.stmts ss (by omega)) fun _ => follows_step fun _ => follows_step fun _ => follows_lift _
  | breakLoop span =>
    rw [CompileM.stmt]
    exact follows_step fun _ => Follows.bind (h.exitRegions (by omega)) fun _ => follows_step fun _ => follows_lift _
  | continueLoop span =>
    rw [CompileM.stmt.eq_def]
    refine follows_step fun ctx => Follows.bind (h.exitRegions (by omega)) fun _ => ?_
    cases ctx.continueTarget with
    | none => exact follows_step fun _ => follows_lift _
    | some target => exact follows_lift _
  | classDecl name parent body span =>
    simp only [Stmt.classDecl.sizeOf_spec] at hn
    rw [CompileM.stmt]
    refine follows_step fun found => ?_
    rcases found with ⟨symbol, place⟩
    exact Follows.bind (h.members _ (by omega)) fun _ => follows_lift _
  | tryCatch body handler cleanup span =>
    rcases body with ⟨ss, span'⟩
    cases handler with
    | none =>
      cases cleanup with
      | none =>
        simp only [Stmt.tryCatch.sizeOf_spec, Block.mk.sizeOf_spec] at hn
        rw [CompileM.stmt]
        exact h.stmts ss (by omega)
      | some cleanup =>
        rcases cleanup with ⟨cs, span''⟩
        simp only [Stmt.tryCatch.sizeOf_spec, Block.mk.sizeOf_spec, Option.some.sizeOf_spec] at hn
        have hbody : Follows (some ⟨cs, span''⟩ :: R) (ss.forM stmt) (CompileM.stmts (some ⟨cs, span''⟩ :: R) ss) := by
          refine h.stmts _ ?_
          simp only [List.cons.sizeOf_spec, Block.mk.sizeOf_spec, Option.some.sizeOf_spec]
          omega
        rw [CompileM.stmt]
        exact follows_step fun _ => Follows.bind hbody.inRegion fun _ => follows_step fun _ =>
          follows_step fun _ => follows_step fun _ => follows_step fun _ => follows_step fun _ => follows_step fun _ =>
          Follows.bind (h.stmts cs (by omega)) fun _ => follows_lift _
    | some handler =>
      rcases handler with ⟨param, hs, span₁⟩
      cases cleanup with
      | none =>
        simp only [Stmt.tryCatch.sizeOf_spec, Block.mk.sizeOf_spec, Option.some.sizeOf_spec,
          CatchClause.mk.sizeOf_spec] at hn
        have hbody : Follows (none :: R) (ss.forM stmt) (CompileM.stmts (none :: R) ss) := by
          refine h.stmts _ ?_
          simp only [List.cons.sizeOf_spec, Option.none.sizeOf_spec]
          omega
        rw [CompileM.stmt]
        exact follows_step fun _ => Follows.bind hbody.inRegion fun _ => follows_step fun _ =>
          follows_step fun _ => follows_step fun _ => follows_step fun _ =>
          Follows.bind (h.stmts hs (by omega)) fun _ => follows_step fun _ => follows_lift _
      | some cleanup =>
        rcases cleanup with ⟨cs, span''⟩
        simp only [Stmt.tryCatch.sizeOf_spec, Block.mk.sizeOf_spec, Option.some.sizeOf_spec,
          CatchClause.mk.sizeOf_spec] at hn
        have hpart (xs : List Stmt) (hxs : sizeOf xs + sizeOf cs + sizeOf span'' + sizeOf R + 3 ≤ n) :
            Follows (some ⟨cs, span''⟩ :: R) (xs.forM stmt) (CompileM.stmts (some ⟨cs, span''⟩ :: R) xs) := by
          refine h.stmts _ ?_
          simp only [List.cons.sizeOf_spec, Block.mk.sizeOf_spec, Option.some.sizeOf_spec]
          omega
        rw [CompileM.stmt]
        exact follows_step fun _ => Follows.bind (hpart ss (by omega)).inRegion fun _ =>
          follows_step fun _ => follows_step fun _ => follows_step fun _ => follows_step fun _ => follows_step fun _ =>
          Follows.bind (hpart hs (by omega)).inRegion fun _ => follows_step fun _ => follows_step fun _ =>
          follows_step fun _ => follows_step fun _ => follows_step fun _ => follows_step fun _ => follows_step fun _ =>
          Follows.bind (h.stmts cs (by omega)) fun _ => follows_lift _
  | throw value span =>
    simp only [Stmt.throw.sizeOf_spec] at hn
    rw [CompileM.stmt]
    exact Follows.bind (h.expr R value (by omega)) fun _ => follows_lift _

end FollowsBelow

end

/-- With `n` levels all is compiled as it should be that is smaller than `n`, the open regions included. -/
theorem followsBelow (n : Nat) : FollowsBelow n (exprWithin n) (stmtWithin n) := by
  induction n with
  | zero => exact ⟨fun _ _ hn => absurd hn (Nat.not_lt_zero _), fun _ _ hn => absurd hn (Nat.not_lt_zero _)⟩
  | succ n ih =>
    exact ⟨fun _ _ hn => ih.exprForm (Nat.le_of_lt_succ hn), fun _ _ hn => ih.stmtForm (Nat.le_of_lt_succ hn)⟩

end OpenM

/-! ## Walks along parents -/

/-- The names of the classes of a pool. -/
def Pool.classNames (p : Pool) : List String := p.toList.filterMap fun c => c.class?.map (·.name)

theorem Pool.mem_classNames {p : Pool} {place : Nat} {k : ClassConstant} (h : p.class? place = some k) :
    k.name ∈ p.classNames := by
  obtain ⟨c, hc, hk⟩ := Option.bind_eq_some_iff.mp h
  exact List.mem_filterMap.mpr ⟨c, Array.mem_toList_iff.mpr (Array.mem_of_getElem? hc), by rw [hk]; rfl⟩

theorem Pool.length_classNames_le (p : Pool) : p.classNames.length ≤ p.size := by
  unfold classNames
  exact (List.length_filterMap_le _ _).trans_eq Array.length_toList

namespace Link

variable {p : Pool} {n fuel : Nat}

/-- The answer of a walk within a limit that was not reached. -/
def answered {α : Type} : Except CompileError α → Except Halted α := Except.mapError .refused

/-- Each round of a walk meets another name of the pool, so it ends before the names are used up. -/
theorem walkWithin_eq (spans : List (String × Span)) (start : String) {seen : List String} {k : ClassConstant} (hnodup : seen.Nodup) (hseen : seen ⊆ p.classNames)
    (hfuel : p.size < fuel + seen.length) (hn : p.size < n + seen.length) :
    walkWithin p spans start n seen k = answered (walk p spans start fuel seen k) := by
  have hlength := (hnodup.subperm hseen).length_le.trans p.length_classNames_le
  induction fuel generalizing n seen k with
  | zero => omega
  | succ fuel ih =>
    obtain ⟨n, rfl⟩ : ∃ m, n = m + 1 := ⟨n - 1, by omega⟩
    cases hname : k.parentName with
    | none => simp [walkWithin, walk, hname, answered, Except.mapError]
    | some parent =>
      cases hparent : k.parent with
      | some above => simp [walkWithin, walk, hname, hparent, answered, Except.mapError]
      | none =>
        cases hlast : p.lastClass? parent with
        | none => simp [walkWithin, walk, hname, hparent, hlast, answered, Except.mapError]
        | some found =>
          rcases found with ⟨place, next⟩
          simp only [walkWithin, walk, hname, hparent, hlast]
          split
          · rfl
          · next hnot =>
            have hnodup' : (next.name :: seen).Nodup := List.nodup_cons.mpr ⟨by simpa using hnot, hnodup⟩
            have hseen' : next.name :: seen ⊆ p.classNames :=
              List.cons_subset.mpr ⟨Pool.mem_classNames (Pool.of_lastClass? hlast).1, hseen⟩
            refine ih hnodup' hseen' ?_ ?_ ((hnodup'.subperm hseen').length_le.trans p.length_classNames_le) <;>
              simp only [List.length_cons] <;> omega

theorem checkAllWithin_eq (spans : List (String × Span)) (hn : p.size ≤ n) {new : List (Nat × ClassConstant)}
    (hnew : ∀ e ∈ new, p.class? e.1 = some e.2) :
    checkAllWithin n p spans new = answered (checkAll p spans new) := by
  induction new with
  | nil => rfl
  | cons e rest ih =>
    rcases e with ⟨place, k⟩
    have hk := Pool.mem_classNames (hnew _ List.mem_cons_self)
    have hwalk : walkWithin p spans k.name n [k.name] k = answered (walk p spans k.name (p.size + 1) [k.name] k) := by
      refine walkWithin_eq spans k.name (List.nodup_singleton k.name) ?_ ?_ ?_
      · exact List.cons_subset.mpr ⟨hk, List.nil_subset _⟩
      · rw [List.length_singleton]
        omega
      · rw [List.length_singleton]
        omega
    unfold checkAllWithin checkAll
    rw [hwalk]
    cases walk p spans k.name (p.size + 1) [k.name] k with
    | ok => exact ih fun e he => hnew e (List.mem_cons_of_mem _ he)
    | error => rfl

end Link

/-! ## Units -/

namespace OpenM

/-- With as many rounds as there are constants, linking comes to its end. -/
theorem linkWithin_eq {n : Nat} {σ : CompileState} {R : Regions} (first : Nat) (hn : σ.pool.size ≤ n) :
    linkWithin n first ⟨σ, R⟩ = lift (CompileM.linkClasses first) ⟨σ, R⟩ := by
  have hnew : ∀ e ∈ σ.pool.newClasses first, σ.pool.class? e.1 = some e.2 :=
    fun e he => (Pool.mem_newClasses_iff.mp he).2.1
  have hcheck := Link.checkAllWithin_eq σ.classSpans hn hnew
  unfold linkWithin lift
  rw [CompileM.linkClasses_eq]
  unfold Pool.link
  dsimp only
  rw [hcheck]
  cases Link.checkAll σ.pool σ.classSpans (σ.pool.newClasses first) <;> rfl

end OpenM

/-- Compilation ends for every program. The number of levels that are compiled inside each other is less than the size of
the program, and the chains above its classes come to their end as well: beyond these limits the answer is always
that of the compiler. -/
theorem Compiler.compile_ends (c : Compiler) (p : Program) : ∃ rounds, ∀ more : Nat,
    c.compileWithin (sizeOf (c.statements p) + 1 + more) (rounds + more) p = some (c.compile p) := by
  have hstmts (more : Nat) : OpenM.Follows [] ((c.statements p).forM (OpenM.stmtWithin _))
      (CompileM.stmts [] (c.statements p)) :=
    (OpenM.followsBelow (sizeOf (c.statements p) + 1 + more)).stmts _ (Nat.le_add_right _ more)
  unfold Compiler.compileWithin Compiler.compile Compiler.attempt OpenM.unitWithin CompileM.unit
  simp only [Bind.bind, EStateM.run, EStateM.bind]
  cases hrun : CompileM.stmts [] (c.statements p) c.start with
  | error e τ =>
    refine ⟨0, fun more => ?_⟩
    have hopen := hstmts more c.start
    rw [hrun] at hopen
    obtain ⟨R, hopen⟩ := hopen
    rw [statements] at hopen hrun
    simp only [statements, hopen, hrun]
  | ok u σ =>
    refine ⟨σ.pool.size, fun more => ?_⟩
    have hopen := hstmts more c.start
    rw [hrun] at hopen
    obtain ⟨R, rfl, hopen⟩ := hopen
    have hlink : OpenM.linkWithin (σ.pool.size + more) c.pool.size ⟨σ, []⟩ =
        OpenM.lift (CompileM.linkClasses c.pool.size) ⟨σ, []⟩ :=
      OpenM.linkWithin_eq c.pool.size (Nat.le_add_right _ _)
    rw [statements] at hopen hrun
    simp only [statements, hopen, hrun, hlink, OpenM.lift]
    cases CompileM.linkClasses c.pool.size σ <;> rfl

/-- A limit can be too small: the expression of a statement is a second level. -/
example : (Compiler.new .empty #[] false).compileWithin 1 0 ⟨[.expr (.literal (.int 1) .dummy) .dummy]⟩ = none := rfl

end ScriptMachine
