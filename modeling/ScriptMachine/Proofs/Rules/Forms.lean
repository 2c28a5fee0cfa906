import ScriptMachine.Proofs.Rules.Logic

/-!
# Pieces of the source obey the rules

A piece of the source, compiled with regions around it, does what a logic says that its steps do, if the declarations in
the piece and in the finally bodies of the regions are allowed. Early exits compile these bodies anew.

`KeepsBelow` carries the induction: if all that is smaller obeys the rules, so does a piece. What counts is the size of
the piece and of the regions together.
-/

namespace ScriptMachine

namespace CompileM

namespace Logic

/-- What is smaller than `n`, the regions around it included, obeys the rules. -/
structure KeepsBelow (L : Logic) (n : Nat) : Prop where
  expr : ∀ {G K R e}, sizeOf e + sizeOf R < n → L.AllowsAll G e.declared → L.AllowsAll G (Regions.declared R) →
    L.Keeps G K (expr R e)
  stmt : ∀ {G K R s}, sizeOf s + sizeOf R < n → L.AllowsAll G s.declared → L.AllowsAll G (Regions.declared R) →
    L.Keeps G K (stmt R s)

section

variable {L : Logic} {n : Nat} {G : L.Level} {K : List Known} {R : Regions} {span : Span}

namespace KeepsBelow

variable (h : L.KeepsBelow n) (hR : L.AllowsAll G R.declared)

/-! ### Lists -/

section

include h hR

theorem stmts {ss : List Stmt} (hn : sizeOf ss + sizeOf R ≤ n) (hss : L.AllowsAll G (Stmt.declaredAll ss)) :
    L.Keeps G K (stmts R ss) := by
  induction ss with
  | nil =>
    rw [CompileM.stmts]
    exact L.pure (List.forall_mem_nil _)
  | cons s ss ih =>
    simp only [List.cons.sizeOf_spec] at hn
    obtain ⟨hs, hrest⟩ := L.allowsAll_append.mp hss
    rw [CompileM.stmts]
    exact (h.stmt (by omega) hs hR).seq fun _ => ih (by omega) hrest

theorem exprs {es : List Expr} (hn : sizeOf es + sizeOf R ≤ n) (hes : L.AllowsAll G (Expr.declaredAll es)) :
    L.Keeps G K (exprs R es) := by
  induction es with
  | nil =>
    rw [CompileM.exprs]
    exact L.pure (List.forall_mem_nil _)
  | cons e es ih =>
    simp only [List.cons.sizeOf_spec] at hn
    obtain ⟨he, hrest⟩ := L.allowsAll_append.mp hes
    rw [CompileM.exprs]
    exact (h.expr (by omega) he hR).seq fun _ => ih (by omega) hrest

theorem arrayElements {es : List Element} (hn : sizeOf es + sizeOf R ≤ n) (hes : L.AllowsAll G (Element.declaredAll es)) :
    L.Keeps G K (arrayElements R es) := by
  induction es with
  | nil =>
    rw [CompileM.arrayElements]
    exact L.pure (List.forall_mem_nil _)
  | cons e es ih =>
    rcases e with ⟨key, value⟩
    simp only [List.cons.sizeOf_spec, Element.mk.sizeOf_spec] at hn
    obtain ⟨he, hrest⟩ := L.allowsAll_append.mp hes
    obtain ⟨-, hvalue⟩ := L.allowsAll_append.mp he
    rw [CompileM.arrayElements]
    exact (h.expr (by omega) hvalue hR).seq fun _ => ih (by omega) hrest

theorem mapElements {next : Int64} {es : List Element} (hn : sizeOf es + sizeOf R ≤ n)
    (hes : L.AllowsAll G (Element.declaredAll es)) : L.Keeps G K (mapElements R span next es) := by
  induction es generalizing next with
  | nil =>
    rw [CompileM.mapElements]
    exact L.pure (List.forall_mem_nil _)
  | cons e es ih =>
    rcases e with ⟨key, value⟩
    obtain ⟨he, hrest⟩ := L.allowsAll_append.mp hes
    obtain ⟨hkey, hvalue⟩ := L.allowsAll_append.mp he
    cases key with
    | none =>
      simp only [List.cons.sizeOf_spec, Element.mk.sizeOf_spec] at hn
      rw [CompileM.mapElements]
      exact (keeps_emitConstant rfl).seq fun _ => (h.expr (by omega) hvalue hR).seq fun _ => ih (by omega) hrest
    | some key =>
      simp only [List.cons.sizeOf_spec, Element.mk.sizeOf_spec, Option.some.sizeOf_spec] at hn
      rw [CompileM.mapElements]
      exact (h.expr (by omega) hkey hR).seq fun _ => (h.expr (by omega) hvalue hR).seq fun _ => ih (by omega) hrest

theorem pairs {ps : List (Expr × Expr)} (hn : sizeOf ps + sizeOf R ≤ n) (hps : L.AllowsAll G (Expr.declaredPairs ps)) :
    L.Keeps G K (pairs R ps) := by
  induction ps with
  | nil =>
    rw [CompileM.pairs]
    exact L.pure (List.forall_mem_nil _)
  | cons p ps ih =>
    rcases p with ⟨key, value⟩
    simp only [List.cons.sizeOf_spec, Prod.mk.sizeOf_spec] at hn
    simp only [Expr.declaredPairs, L.allowsAll_append] at hps
    obtain ⟨hkey, hvalue, hrest⟩ := hps
    rw [CompileM.pairs]
    exact (h.expr (by omega) hkey hR).seq fun _ => (h.expr (by omega) hvalue hR).seq fun _ => ih (by omega) hrest

/-! ### Bodies -/

theorem branch {b : Block} (hn : sizeOf b + sizeOf R ≤ n) (hb : L.AllowsAll G b.declared) : L.Keeps G K (branch R b) := by
  rcases b with ⟨ss, span⟩
  simp only [Block.mk.sizeOf_spec] at hn
  rw [CompileM.branch]
  exact (h.stmts hR (by omega) hb).seq fun _ => keeps_finishBranch ss

theorem alternative {b : Option Block} (hn : sizeOf b + sizeOf R ≤ n) (hb : L.AllowsAll G (Block.declaredIn b)) :
    L.Keeps G K (alternative R b span) := by
  cases b with
  | none =>
    rw [CompileM.alternative]
    exact keeps_plain rfl
  | some b =>
    simp only [Option.some.sizeOf_spec] at hn
    rw [CompileM.alternative]
    exact h.branch hR (by omega) hb

end

section

include h

/-- In a function body all is allowed. -/
theorem functionBody {b : Block} (hn : sizeOf b < n) : L.Keeps (L.inside G) K (functionBody b) := by
  rcases b with ⟨ss, span⟩
  simp only [Block.mk.sizeOf_spec] at hn
  rw [CompileM.functionBody]
  refine Gives.seq (h.stmts (R := []) L.allowsAll_nil ?_ (L.allowsAll_inside _)) fun _ => keeps_finishBody ss
  simp only [List.nil.sizeOf_spec]
  omega

theorem functionLiteral {f : FunctionLiteral} {binding : Option String} (hn : sizeOf f < n) :
    L.Keeps G K (functionLiteral f binding) := by
  have hbody : sizeOf f.body < n := by
    rcases f with ⟨ownName, params, body, span⟩
    simp only [FunctionLiteral.mk.sizeOf_spec] at hn
    dsimp only
    omega
  rw [functionLiteral_eq]
  refine (L.inFunction (.literal f binding) ?_).bind fun body => L.makeClosure (List.mem_concat_self)
  exact ((L.nameFunction _).seq fun _ => keeps_defineParams _).seq fun _ => h.functionBody hbody

theorem method {cls name : String} {f : FunctionLiteral} (hn : sizeOf f < n) :
    L.Gives G K (method cls f name) fun m => [.method m] := by
  have hbody : sizeOf f.body < n := by
    rcases f with ⟨ownName, params, body, span⟩
    simp only [FunctionLiteral.mk.sizeOf_spec] at hn
    dsimp only
    omega
  rw [method_eq]
  refine (L.inFunction (.method f) ?_).bind fun body => L.makeMethod (List.mem_concat_self)
  exact ((L.define (L.allows_inside G _)).discard.seq fun _ => keeps_defineParams _).seq fun _ =>
    h.functionBody hbody

theorem members {cls : String} {body : List Stmt} {found : ClassMembers} (hn : sizeOf body ≤ n)
    (hfound : Known.methods found.methods ⊆ K) :
    L.Gives G K (members cls body found) fun found => Known.methods found.methods := by
  induction body generalizing K found with
  | nil =>
    unfold CompileM.members
    exact L.pure fun φ hφ => hfound hφ
  | cons s rest ih =>
    simp only [List.cons.sizeOf_spec] at hn
    have hmethod {f : FunctionLiteral} {name : String} (hf : sizeOf f < sizeOf s) :
        L.Gives G K (do
          let m ← CompileM.method cls f name
          CompileM.members cls rest (found.addMethod name m)) fun found => Known.methods found.methods :=
      (h.method (by omega)).bind fun m => ih (by omega) (methods_addMethod hfound)
    have hproperty (name : String) :
        L.Gives G K (CompileM.members cls rest (found.addProperty name)) fun found => Known.methods found.methods := by
      refine ih (by omega) ?_
      unfold ClassMembers.addProperty
      split <;> exact hfound
    unfold CompileM.members
    split
    · next heq => cases heq
    · next heq =>
      cases heq
      refine hmethod ?_
      simp only [Stmt.bind.sizeOf_spec, Expr.function.sizeOf_spec]
      omega
    · next heq =>
      cases heq
      exact hproperty _
    · next heq =>
      cases heq
      split
      · exact L.fail _
      · refine hmethod ?_
        simp only [Stmt.expr.sizeOf_spec, Expr.function.sizeOf_spec]
        omega
    · next heq =>
      cases heq
      exact hproperty _
    · exact L.fail _

end

/-! ### Expressions -/

section

include h hR

theorem binary {op : String} {left right : Expr} (hn : sizeOf left + sizeOf right + sizeOf R < n)
    (hleft : L.AllowsAll G left.declared) (hright : L.AllowsAll G right.declared) :
    L.Keeps G K (CompileM.expr R (.binary op left right span)) := by
  have hl {K : List Known} : L.Keeps G K (CompileM.expr R left) := h.expr (by omega) hleft hR
  have hr {K : List Known} : L.Keeps G K (CompileM.expr R right) := h.expr (by omega) hright hR
  rw [CompileM.expr]
  split
  · exact hl.seq fun _ => (keeps_plain rfl).seq fun _ =>
      (L.emit (.jump (by decide))).bind fun done =>
      (keeps_plain rfl).seq fun _ => hr.seq fun _ => keeps_patchHere List.mem_concat_self
  · split
    · exact hl.seq fun _ => (keeps_plain rfl).seq fun _ =>
        (L.emit (.jump (by decide))).bind fun rest =>
        (L.emit (.jump (by decide))).bind fun done => (keeps_patchHere (by simp)).seq fun _ =>
        (keeps_plain rfl).seq fun _ => hr.seq fun _ => keeps_patchHere List.mem_concat_self
    · split
      · exact L.fail _
      · next op swap _ =>
        have hop : L.Keeps G K (CompileM.put op.opcode [] span) := by
          cases op <;> exact keeps_plain rfl
        split
        · exact hr.seq fun _ => hl.seq fun _ => hop
        · exact hl.seq fun _ => hr.seq fun _ => hop

/-- A member is invoked, and so is a method of the parent; anything else is called. -/
theorem call {callee : Expr} {args : List Expr} (hn : sizeOf callee + sizeOf args + sizeOf R < n)
    (hcallee : L.AllowsAll G callee.declared) (hargs : L.AllowsAll G (Expr.declaredAll args)) :
    L.Keeps G K (CompileM.expr R (.call callee args span)) := by
  have has {K : List Known} : L.Keeps G K (CompileM.exprs R args) := h.exprs hR (by omega) hargs
  cases callee with
  | member target member _ =>
    simp only [Expr.member.sizeOf_spec] at hn
    have htarget : L.AllowsAll G target.declared := hcallee
    rw [CompileM.expr]
    exact (h.expr (by omega) htarget hR).seq fun _ => (L.checkArgs _).bind fun _ => has.seq fun _ =>
      keeps_named fun k => L.put (.invoke (by decide) (by simp) (by simp))
  | super method _ =>
    rw [CompileM.expr]
    exact L.superClass.bind fun c => keeps_this.seq fun _ => (L.checkArgs _).bind fun _ => has.seq fun _ =>
      Gives.seq (L.put (.constant (by decide) (by simp))) fun _ =>
      keeps_named fun k => L.put (.invoke (by decide) (by simp) (by simp))
  | _ =>
    have hc := h.expr (K := K) (Nat.lt_of_le_of_lt (Nat.add_le_add_right (Nat.le_add_right _ _) _) hn) hcallee hR
    rw [CompileM.expr.eq_def]
    exact hc.seq fun _ => (L.checkArgs _).bind fun _ => has.seq fun _ => L.put (.call (by decide) (by simp))

theorem form {e : Expr} (hn : sizeOf e + sizeOf R ≤ n) (he : L.AllowsAll G e.declared) :
    L.Keeps G K (CompileM.expr R e) := by
  have hpos := Regions.sizeOf_pos R
  cases e with
  | literal l span =>
    rw [CompileM.expr]
    exact keeps_literal l
  | ident id =>
    rw [CompileM.expr]
    exact keeps_loadName
  | unary op operand span =>
    simp only [Expr.unary.sizeOf_spec] at hn
    rw [CompileM.expr]
    exact keeps_unary (h.expr (by omega) he hR)
  | binary op left right span =>
    simp only [Expr.binary.sizeOf_spec] at hn
    obtain ⟨hleft, hright⟩ := L.allowsAll_append.mp he
    exact h.binary hR (by omega) hleft hright
  | ternary condition yes no span =>
    simp only [Expr.ternary.sizeOf_spec] at hn
    simp only [Expr.declared, L.allowsAll_append] at he
    obtain ⟨hcondition, hyes, hno⟩ := he
    rw [CompileM.expr]
    exact (h.expr (by omega) hcondition hR).seq fun _ => (L.emit (.jump (by decide))).bind fun skip =>
      (h.expr (by omega) hyes hR).seq fun _ => (L.emit (.jump (by decide))).bind fun done =>
      (keeps_patchHere (by simp)).seq fun _ => (h.expr (by omega) hno hR).seq fun _ =>
      keeps_patchHere List.mem_concat_self
  | cond condition yes no span =>
    simp only [Expr.cond.sizeOf_spec] at hn
    simp only [Expr.declared, L.allowsAll_append] at he
    obtain ⟨hcondition, hyes, hno⟩ := he
    rw [CompileM.expr]
    exact (h.expr (by omega) hcondition hR).seq fun _ => (L.emit (.jump (by decide))).bind fun skip =>
      (h.branch hR (by omega) hyes).seq fun _ => (L.emit (.jump (by decide))).bind fun done =>
      (keeps_patchHere (by simp)).seq fun _ => (h.alternative hR (by omega) hno).seq fun _ =>
      keeps_patchHere List.mem_concat_self
  | function f =>
    simp only [Expr.function.sizeOf_spec] at hn
    rw [CompileM.expr]
    exact h.functionLiteral (by omega)
  | call callee args span =>
    simp only [Expr.call.sizeOf_spec] at hn
    obtain ⟨hcallee, hargs⟩ := L.allowsAll_append.mp he
    exact h.call hR (by omega) hcallee hargs
  | array es ordered span =>
    simp only [Expr.array.sizeOf_spec] at hn
    rw [CompileM.expr]
    split
    · exact (h.mapElements hR (by omega) he).seq fun _ => L.put (.count _ (by decide))
    · exact (h.arrayElements hR (by omega) he).seq fun _ => L.put (.count _ (by decide))
  | index target index span =>
    simp only [Expr.index.sizeOf_spec] at hn
    obtain ⟨htarget, hindex⟩ := L.allowsAll_append.mp he
    rw [CompileM.expr]
    exact (h.expr (by omega) htarget hR).seq fun _ => (h.expr (by omega) hindex hR).seq fun _ =>
      keeps_plain rfl
  | hash ps span =>
    simp only [Expr.hash.sizeOf_spec] at hn
    rw [CompileM.expr]
    exact (h.pairs hR (by omega) he).seq fun _ => L.put (.count _ (by decide))
  | assign target value span =>
    simp only [Expr.assign.sizeOf_spec] at hn
    have hvalue : L.AllowsAll G value.declared := he
    rw [CompileM.expr]
    refine (L.resolve _).bind fun x => ?_
    cases hx : x.isAssignable with
    | false => exact L.fail _
    | true => exact (h.expr (by omega) hvalue hR).seq fun _ => L.store (by simp)
  | indexAssign target index value span =>
    simp only [Expr.indexAssign.sizeOf_spec] at hn
    simp only [Expr.declared, L.allowsAll_append] at he
    obtain ⟨htarget, hindex, hvalue⟩ := he
    rw [CompileM.expr]
    exact (h.expr (by omega) htarget hR).seq fun _ => (h.expr (by omega) hindex hR).seq fun _ =>
      (h.expr (by omega) hvalue hR).seq fun _ => keeps_plain rfl
  | member target member span =>
    simp only [Expr.member.sizeOf_spec] at hn
    have htarget : L.AllowsAll G target.declared := he
    rw [CompileM.expr]
    exact (h.expr (by omega) htarget hR).seq fun _ => keeps_named fun k => L.put (.constant (by decide) List.mem_concat_self)
  | memberAssign target member value span =>
    simp only [Expr.memberAssign.sizeOf_spec] at hn
    obtain ⟨htarget, hvalue⟩ := L.allowsAll_append.mp he
    rw [CompileM.expr]
    exact (h.expr (by omega) htarget hR).seq fun _ => (h.expr (by omega) hvalue hR).seq fun _ =>
      keeps_named fun k => L.put (.constant (by decide) List.mem_concat_self)
  | spawn callee args span =>
    simp only [Expr.spawn.sizeOf_spec] at hn
    obtain ⟨hcallee, hargs⟩ := L.allowsAll_append.mp he
    rw [CompileM.expr]
    exact (h.expr (by omega) hcallee hR).seq fun _ => (L.checkArgs _).bind fun _ =>
      (h.exprs hR (by omega) hargs).seq fun _ => L.put (.call (by decide) (by simp))
  | channel capacity span =>
    cases capacity with
    | none =>
      rw [CompileM.expr]
      exact L.put (.channel (by decide))
    | some capacity =>
      simp only [Expr.channel.sizeOf_spec, Option.some.sizeOf_spec] at hn
      have hcapacity : L.AllowsAll G capacity.declared := he
      rw [CompileM.expr]
      exact (h.expr (by omega) hcapacity hR).seq fun _ => L.put (.channel (by decide))
  | send channel value span =>
    simp only [Expr.send.sizeOf_spec] at hn
    obtain ⟨hchannel, hvalue⟩ := L.allowsAll_append.mp he
    rw [CompileM.expr]
    exact (h.expr (by omega) hchannel hR).seq fun _ => (h.expr (by omega) hvalue hR).seq fun _ =>
      keeps_plain rfl
  | receive channel span =>
    simp only [Expr.receive.sizeOf_spec] at hn
    have hchannel : L.AllowsAll G channel.declared := he
    rw [CompileM.expr]
    exact (h.expr (by omega) hchannel hR).seq fun _ => keeps_plain rfl
  | this span =>
    rw [CompileM.expr]
    exact keeps_this
  | super name span =>
    rw [CompileM.expr]
    exact L.fail _

/-! ### Statements -/

/-- The finally bodies of the regions that are left. -/
theorem exitRegions {depth : Nat} (hn : sizeOf R ≤ n) : L.Keeps G K (exitRegions R depth span) := by
  induction R generalizing K with
  | nil =>
    rw [CompileM.exitRegions]
    exact L.pure (List.forall_mem_nil _)
  | cons cleanup outer ih =>
    simp only [List.cons.sizeOf_spec] at hn
    obtain ⟨hcleanup, houter⟩ := L.allowsAll_append.mp hR
    have hrest {K : List Known} : L.Keeps G K (CompileM.exitRegions outer depth span) := ih houter (by omega)
    rw [CompileM.exitRegions]
    split
    · refine withOffset fun _ => (L.emitJumpTo (by decide)).seq fun _ => ?_
      cases cleanup with
      | none => exact hrest
      | some b =>
        rcases b with ⟨ss, _⟩
        simp only [Option.some.sizeOf_spec, Block.mk.sizeOf_spec] at hn
        exact (h.stmts houter (by omega) hcleanup).seq fun _ => hrest
    · exact L.pure (List.forall_mem_nil _)

theorem optStmt {s : Option Stmt} (hn : sizeOf s + sizeOf R ≤ n) (hs : L.AllowsAll G (Stmt.declaredIn s)) :
    L.Keeps G K (optStmt R s) := by
  cases s with
  | none =>
    rw [CompileM.optStmt]
    exact L.pure (List.forall_mem_nil _)
  | some s =>
    simp only [Option.some.sizeOf_spec] at hn
    have hs : L.AllowsAll G s.declared := hs
    rw [CompileM.optStmt]
    exact h.stmt (by omega) hs hR

/-- The jump out of the loop waits. -/
theorem loopTest {condition : Option Expr} (hn : sizeOf condition + sizeOf R ≤ n)
    (hc : L.AllowsAll G (Expr.declaredIn condition)) :
    L.Gives G K (loopTest R condition span) fun exits => exits.map Known.jump := by
  cases condition with
  | none =>
    rw [CompileM.loopTest]
    exact L.pure (List.forall_mem_nil _)
  | some condition =>
    simp only [Option.some.sizeOf_spec] at hn
    have hc : L.AllowsAll G condition.declared := hc
    rw [CompileM.loopTest]
    exact (h.expr (by omega) hc hR).seq fun _ => (L.emit (.jump (by decide))).bind fun exit =>
      L.pure fun φ hφ => List.mem_append_right _ hφ

theorem loopUpdate {update : Option Expr} (hn : sizeOf update + sizeOf R ≤ n)
    (hu : L.AllowsAll G (Expr.declaredIn update)) : L.Keeps G K (loopUpdate R update span) := by
  cases update with
  | none =>
    rw [CompileM.loopUpdate]
    exact L.pure (List.forall_mem_nil _)
  | some update =>
    simp only [Option.some.sizeOf_spec] at hn
    have hu : L.AllowsAll G update.declared := hu
    rw [CompileM.loopUpdate]
    exact (h.expr (by omega) hu hR).seq fun _ => keeps_plain rfl

/-- A declaration, by the form of its value. -/
theorem bind {name : Ident} {value : Expr} {constant : Bool} (hn : sizeOf value + sizeOf R < n)
    (hname : L.Allows G (name.name, constant)) (hvalue : L.AllowsAll G value.declared) :
    L.Keeps G K (CompileM.stmt R (.bind name value constant span)) := by
  have hbind {K : List Known} : L.Keeps G K (do
      let symbol ← CompileM.define name.name constant name.span
      CompileM.store symbol span
      CompileM.put .pop [] span) := keeps_bindPop hname
  cases value with
  | function f =>
    simp only [Expr.function.sizeOf_spec] at hn
    rw [CompileM.stmt]
    exact (h.functionLiteral (by omega)).seq fun _ => hbind
  | _ =>
    have hv := h.expr (K := K) hn hvalue hR
    rw [CompileM.stmt.eq_def]
    exact hv.seq fun _ => hbind

theorem ret {value : Option Expr} (hn : sizeOf value + sizeOf R < n) (hvalue : L.AllowsAll G (Expr.declaredIn value)) :
    L.Keeps G K (CompileM.stmt R (.ret value span)) := by
  have hexits {K : List Known} : L.Keeps G K (CompileM.exitRegions R 0 span) := h.exitRegions hR (by omega)
  rw [CompileM.stmt.eq_def]
  refine L.withState fun σ => ?_
  split
  · exact L.fail _
  · cases value with
    | none => exact hexits.seq fun _ => keeps_plain rfl
    | some value =>
      simp only [Option.some.sizeOf_spec] at hn
      have hvalue : L.AllowsAll G value.declared := hvalue
      exact (h.expr (by omega) hvalue hR).seq fun _ => hexits.seq fun _ => keeps_plain rfl

theorem forLoop {init : Option Stmt} {condition update : Option Expr} {body : Block}
    (hn : sizeOf init + sizeOf condition + sizeOf update + sizeOf body + sizeOf R < n)
    (hdeclared : L.AllowsAll G (Stmt.forLoop init condition update body span).declared) :
    L.Keeps G K (CompileM.stmt R (.forLoop init condition update body span)) := by
  rcases body with ⟨ss, _⟩
  simp only [Block.mk.sizeOf_spec] at hn
  simp only [Stmt.declared, L.allowsAll_append] at hdeclared
  obtain ⟨hinit, hcondition, hupdate, hbody⟩ := hdeclared
  rw [CompileM.stmt]
  refine (h.optStmt hR (by omega) hinit).seq fun _ => withOffset fun start => (L.enterLoop _ _).seq fun _ =>
    (h.loopTest hR (by omega) hcondition).bind fun exits => (h.stmts hR (by omega) hbody).seq fun _ =>
    L.placeContinues.seq fun _ => (h.loopUpdate hR (by omega) hupdate).seq fun _ =>
    (L.emitJumpTo (by decide)).seq fun _ => Gives.seq (keeps_patchAllHere fun place hplace => ?_) fun _ =>
    L.leaveLoop
  exact List.mem_append_right _ (List.mem_map_of_mem hplace)

theorem whileLoop {condition : Expr} {body : Block} (hn : sizeOf condition + sizeOf body + sizeOf R < n)
    (hcondition : L.AllowsAll G condition.declared) (hbody : L.AllowsAll G body.declared) :
    L.Keeps G K (CompileM.stmt R (.whileLoop condition body span)) := by
  rcases body with ⟨ss, _⟩
  simp only [Block.mk.sizeOf_spec] at hn
  rw [CompileM.stmt]
  exact withOffset fun start => (L.enterLoop _ _).seq fun _ => (h.expr (by omega) hcondition hR).seq fun _ =>
    (L.emit (.jump (by decide))).bind fun exit => (h.stmts hR (by omega) hbody).seq fun _ =>
    (L.emitJumpTo (by decide)).seq fun _ => (keeps_patchHere List.mem_concat_self).seq fun _ =>
    L.leaveLoop

/-- A jump out of the regions inside a loop. -/
theorem jump {m : Misplaced} {after : LoopContext → CompileM Unit} (hn : sizeOf R ≤ n)
    (hafter : ∀ ctx, L.Keeps G K (after ctx)) : L.Keeps G K (do
      let ctx ← innermostLoop m span
      CompileM.exitRegions R ctx.tryDepth span
      after ctx) :=
  withLoop fun ctx => (h.exitRegions hR hn).seq fun _ => hafter ctx

theorem tryCatch {body : Block} {handler : Option CatchClause} {cleanup : Option Block}
    (hn : sizeOf body + sizeOf handler + sizeOf cleanup + sizeOf R < n)
    (hdeclared : L.AllowsAll G (Stmt.tryCatch body handler cleanup span).declared) :
    L.Keeps G K (CompileM.stmt R (.tryCatch body handler cleanup span)) := by
  simp only [Stmt.declared, L.allowsAll_append] at hdeclared
  obtain ⟨hbody, hhandler, hcleanup⟩ := hdeclared
  rcases body with ⟨ss, _⟩
  have hinside : L.AllowsAll G (Regions.declared (cleanup :: R)) := L.allowsAll_append.mpr ⟨hcleanup, hR⟩
  rcases handler with _ | ⟨param, hs, _⟩
  · rcases cleanup with _ | ⟨cs, _⟩
    · simp only [Block.mk.sizeOf_spec] at hn
      rw [CompileM.stmt]
      exact h.stmts hR (by omega) hbody
    · simp only [Block.mk.sizeOf_spec, Option.none.sizeOf_spec, Option.some.sizeOf_spec] at hn
      rw [CompileM.stmt]
      refine (L.emit .tryEnter).bind fun enter =>
        Gives.seq (h.stmts hinside ?_ hbody) fun _ =>
        (L.emit (.jump (by decide))).bind fun leave => (keeps_patchHere (by simp)).seq fun _ =>
        (keeps_plain rfl).seq fun _ => (keeps_plain rfl).seq fun _ =>
        withOffset fun _ => (L.patch (by simp) _ _).seq fun _ =>
        (h.stmts hR (by omega) hcleanup).seq fun _ => keeps_plain rfl
      simp only [List.cons.sizeOf_spec, Option.some.sizeOf_spec, Block.mk.sizeOf_spec]
      omega
  · obtain ⟨hparam, hhandler⟩ := L.allowsAll_append.mp hhandler
    rcases cleanup with _ | ⟨cs, _⟩
    · simp only [Block.mk.sizeOf_spec, Option.none.sizeOf_spec, Option.some.sizeOf_spec,
        CatchClause.mk.sizeOf_spec] at hn
      rw [CompileM.stmt]
      refine (L.emit .tryEnter).bind fun enter =>
        Gives.seq (h.stmts hinside ?_ hbody) fun _ =>
        (L.emit (.jump (by decide))).bind fun leave => withOffset fun _ =>
        (L.patch (by simp) _ _).seq fun _ => (keeps_bindThrown hparam).seq fun _ =>
        (h.stmts hR (by omega) hhandler).seq fun _ => (L.emit (.jump (by decide))).bind fun skip =>
        keeps_patchAllHere (by simp)
      simp only [List.cons.sizeOf_spec, Option.none.sizeOf_spec]
      omega
    · simp only [Block.mk.sizeOf_spec, Option.some.sizeOf_spec, CatchClause.mk.sizeOf_spec] at hn
      rw [CompileM.stmt]
      refine (L.emit .tryEnter).bind fun enter =>
        Gives.seq (h.stmts hinside ?_ hbody) fun _ =>
        (L.emit (.jump (by decide))).bind fun leave => withOffset fun _ =>
        (L.patch (by simp) _ _).seq fun _ => (keeps_bindThrown hparam).seq fun _ =>
        (L.emit .tryEnter).bind fun enterHandler =>
        Gives.seq (h.stmts hinside ?_ hhandler) fun _ =>
        (L.emit (.jump (by decide))).bind fun leaveHandler =>
        Gives.seq (keeps_patchAllHere (by simp)) fun _ => (keeps_plain rfl).seq fun _ =>
        (keeps_plain rfl).seq fun _ => withOffset fun _ =>
        (L.patch (by simp) _ _).seq fun _ => (L.patch (by simp) _ _).seq fun _ =>
        (h.stmts hR (by omega) hcleanup).seq fun _ => keeps_plain rfl
      all_goals
        simp only [List.cons.sizeOf_spec, Option.some.sizeOf_spec, Block.mk.sizeOf_spec]
        omega

theorem stmtForm {s : Stmt} (hn : sizeOf s + sizeOf R ≤ n) (hs : L.AllowsAll G s.declared) :
    L.Keeps G K (CompileM.stmt R s) := by
  have hpos := Regions.sizeOf_pos R
  cases s with
  | bind name value constant span =>
    simp only [Stmt.bind.sizeOf_spec] at hn
    obtain ⟨hname, hvalue⟩ := List.forall_mem_cons.mp hs
    exact h.bind hR (by omega) hname hvalue
  | expr e span =>
    simp only [Stmt.expr.sizeOf_spec] at hn
    have he : L.AllowsAll G e.declared := hs
    rw [CompileM.stmt]
    exact (h.expr (by omega) he hR).seq fun _ => keeps_plain rfl
  | block b =>
    rcases b with ⟨ss, _⟩
    simp only [Stmt.block.sizeOf_spec, Block.mk.sizeOf_spec] at hn
    rw [CompileM.stmt]
    exact h.stmts hR (by omega) hs
  | ret value span =>
    simp only [Stmt.ret.sizeOf_spec] at hn
    exact h.ret hR (by omega) hs
  | forLoop init condition update body span =>
    simp only [Stmt.forLoop.sizeOf_spec] at hn
    exact h.forLoop hR (by omega) hs
  | whileLoop condition body span =>
    simp only [Stmt.whileLoop.sizeOf_spec] at hn
    obtain ⟨hcondition, hbody⟩ := L.allowsAll_append.mp hs
    exact h.whileLoop hR (by omega) hcondition hbody
  | breakLoop span =>
    simp only [Stmt.breakLoop.sizeOf_spec] at hn
    rw [CompileM.stmt]
    exact h.jump hR (by omega) fun _ => (L.emit (.jump (by decide))).bind fun jump =>
      L.modifyLoop List.mem_concat_self fun c => by grind
  | continueLoop span =>
    simp only [Stmt.continueLoop.sizeOf_spec] at hn
    rw [CompileM.stmt]
    refine h.jump hR (by omega) fun ctx => ?_
    split
    · exact L.emitJumpTo (by decide)
    · exact (L.emit (.jump (by decide))).bind fun jump =>
        L.modifyLoop List.mem_concat_self fun c => by grind
  | classDecl name parent body span =>
    simp only [Stmt.classDecl.sizeOf_spec] at hn
    rw [CompileM.stmt]
    refine (L.beginClass (hs _ List.mem_cons_self)).bind fun found =>
      L.bind (h.members (by omega) (List.forall_mem_nil _)) fun members => ?_
    exact L.endClass (by simp) (by simp) (List.subset_append_right _ _)
  | tryCatch body handler cleanup span =>
    simp only [Stmt.tryCatch.sizeOf_spec] at hn
    exact h.tryCatch hR (by omega) hs
  | throw value span =>
    simp only [Stmt.throw.sizeOf_spec] at hn
    have hvalue : L.AllowsAll G value.declared := hs
    rw [CompileM.stmt]
    exact (h.expr (by omega) hvalue hR).seq fun _ => keeps_plain rfl

end

end KeepsBelow

end

theorem keepsBelow {L : Logic} (n : Nat) : L.KeepsBelow n := by
  induction n with
  | zero => exact ⟨fun hn => absurd hn (Nat.not_lt_zero _), fun hn => absurd hn (Nat.not_lt_zero _)⟩
  | succ n ih =>
    exact ⟨fun hn he hR => ih.form hR (Nat.le_of_lt_succ hn) he,
      fun hn hs hR => ih.stmtForm hR (Nat.le_of_lt_succ hn) hs⟩

/-- Statements obey the rules, if their declarations are allowed. -/
theorem keeps_stmts {L : Logic} {G : L.Level} {K : List Known} {ss : List Stmt}
    (hss : L.AllowsAll G (Stmt.declaredAll ss)) : L.Keeps G K (stmts [] ss) :=
  (keepsBelow _).stmts L.allowsAll_nil (Nat.le_refl _) hss

end Logic

end CompileM

end ScriptMachine
