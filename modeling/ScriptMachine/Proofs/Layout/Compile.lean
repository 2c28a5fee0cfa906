import ScriptMachine.Compile.Unit
import ScriptMachine.Proofs.Layout.Control

/-!
# Every compiled block has a layout

The lemmas for the single forms are put together by induction on the size of what is compiled, the
open regions included: `LowersBelow n` says that everything smaller than `n` gets the code that the
layout relation describes, and `LowersBelow.succ` is the step. The result for function bodies and
units is `lowers_stmts`.
-/

namespace ScriptMachine

open Point CompileM
open CompileState (Extends Emits)

/-- Whatever is smaller than `n`, with the regions around it, is compiled as the layout says. -/
structure LowersBelow (Src : Source) (n : Nat) : Prop where
  expr : ∀ R e, sizeOf e + sizeOf R < n → Lowers Src R (.expr e) (expr R e)
  stmt : ∀ R s, sizeOf s + sizeOf R < n → Lowers Src R (.stmt s) (stmt R s)
  stmts : ∀ R ss, sizeOf ss + sizeOf R < n → Lowers Src R (.stmts ss) (stmts R ss)
  exits : ∀ R depth span, sizeOf R < n → Lowers Src R (.exits depth span) (exitRegions R depth span)

section

variable {Src : Source} {n : Nat} {R : Regions}

/-! ## Operands -/

theorem LowersBelow.exprs (h : LowersBelow Src n) {e : Expr} {es : List Expr} (k : Nat)
    (hn : sizeOf es + sizeOf R < n) :
    Lowers Src R (.operands e k (es.map .expr)) (exprs R es) := by
  induction es generalizing k with
  | nil =>
    rw [CompileM.exprs]
    exact lowers_exprs_nil
  | cons x es ih =>
    simp only [List.cons.sizeOf_spec] at hn
    rw [CompileM.exprs]
    exact lowers_operand (h.expr R x (by omega)) (ih (k + 1) (by omega))

theorem LowersBelow.arrayElements (h : LowersBelow Src n) {e : Expr} {es : List Element} (k : Nat)
    (hn : sizeOf es + sizeOf R < n) :
    Lowers Src R (.operands e k (es.map fun x => .expr x.value)) (arrayElements R es) := by
  induction es generalizing k with
  | nil =>
    rw [CompileM.arrayElements]
    exact lowers_exprs_nil
  | cons x es ih =>
    obtain ⟨key, value⟩ := x
    simp only [List.cons.sizeOf_spec, Element.mk.sizeOf_spec] at hn
    rw [CompileM.arrayElements]
    exact lowers_operand (h.expr R value (by omega)) (ih (k + 1) (by omega))

theorem LowersBelow.mapElements (h : LowersBelow Src n) {e : Expr} {span : Span} {es : List Element}
    (k : Nat) (next : Int64) (hn : sizeOf es + sizeOf R < n) :
    Lowers Src R (.operands e k (Operand.ofElements span next es)) (mapElements R span next es) := by
  induction es generalizing k next with
  | nil =>
    rw [CompileM.mapElements]
    exact lowers_exprs_nil
  | cons x es ih =>
    obtain ⟨key, value⟩ := x
    simp only [List.cons.sizeOf_spec, Element.mk.sizeOf_spec] at hn
    cases key with
    | some key =>
      simp only [Option.some.sizeOf_spec] at hn
      rw [CompileM.mapElements]
      exact lowers_operand (h.expr R key (by omega))
        (lowers_operand (h.expr R value (by omega)) (ih (k + 2) _ (by omega)))
    | none =>
      rw [CompileM.mapElements]
      intro Γ σ σ' hrun hr hc
      obtain ⟨_, σ₁, h₁, h₂⟩ := bind_ok hrun
      have hmakes := emitConstant_makes (c := .int next) hr.ok trivial (by simp) h₁
      obtain ⟨tail, -, hemits⟩ := hmakes
      have hrest := lowers_operand (h.expr R value (by omega)) (ih (k + 2) (next + 1) (by omega))
        h₂ ((hr.emits hemits).up 1) (hc.part (T := (Γ.up 1).site) List.mem_cons_self)
      exact Laid.index hr.ok h₁ hrest

theorem LowersBelow.pairs (h : LowersBelow Src n) {e : Expr} {ps : List (Expr × Expr)} (k : Nat)
    (hn : sizeOf ps + sizeOf R < n) :
    Lowers Src R (.operands e k (Operand.ofPairs ps)) (pairs R ps) := by
  induction ps generalizing k with
  | nil =>
    rw [CompileM.pairs]
    exact lowers_exprs_nil
  | cons p ps ih =>
    obtain ⟨key, value⟩ := p
    simp only [List.cons.sizeOf_spec, Prod.mk.sizeOf_spec] at hn
    rw [CompileM.pairs]
    exact lowers_operand (h.expr R key (by omega))
      (lowers_operand (h.expr R value (by omega)) (ih (k + 2) (by omega)))

/-! ## Expressions -/

theorem Operand.length_ofElements (span : Span) (next : Int64) (es : List Element) :
    (ofElements span next es).length = es.length * 2 := by
  induction es generalizing next with
  | nil => rfl
  | cons x es ih =>
    obtain ⟨key, value⟩ := x
    cases key with
    | some key => simp [ofElements, ih]; omega
    | none => simp [ofElements, ih]; omega

theorem Operand.length_ofPairs (ps : List (Expr × Expr)) : (ofPairs ps).length = ps.length * 2 := by
  induction ps with
  | nil => rfl
  | cons p ps ih => simp [ofPairs, ih]; omega

theorem LowersBelow.array (h : LowersBelow Src n) {es : List Element} {ordered : Bool} {span : Span}
    (hn : sizeOf es + sizeOf R < n) :
    Lowers Src R (.form (.array es ordered span)) (CompileM.expr R (.array es ordered span)) := by
  rw [CompileM.expr]
  cases hmap : Element.makeOrderedMap es ordered with
  | true =>
    have hops : (Expr.array es ordered span).operands? = some (Operand.ofElements span 0 es) := by
      simp [Expr.operands?, hmap]
    rw [if_pos rfl]
    refine lowers_strict hops (fun S => by simp [Site.formParts, hops]) (h.mapElements 0 0 hn)
      (finishes_put rfl rfl rfl rfl ?_ ?_)
    · rw [Operand.length_ofElements]
      exact Nat.mod_le _ _
    · intro hcounted
      have hlt := hcounted _ hops
      rw [Operand.length_ofElements] at hlt ⊢
      exact Nat.mod_eq_of_lt hlt
  | false =>
    have hops : (Expr.array es ordered span).operands? = some (es.map fun x => .expr x.value) := by
      simp [Expr.operands?, hmap]
    rw [if_neg (by simp)]
    refine lowers_strict hops (fun S => by simp [Site.formParts, hops]) (h.arrayElements 0 hn)
      (finishes_put rfl rfl rfl rfl ?_ ?_)
    · rw [List.length_map]
      exact Nat.mod_le _ _
    · intro hcounted
      have hlt := hcounted _ hops
      rw [List.length_map] at hlt ⊢
      exact Nat.mod_eq_of_lt hlt

theorem LowersBelow.hash (h : LowersBelow Src n) {ps : List (Expr × Expr)} {span : Span}
    (hn : sizeOf ps + sizeOf R < n) :
    Lowers Src R (.form (.hash ps span)) (CompileM.expr R (.hash ps span)) := by
  rw [CompileM.expr]
  refine lowers_strict rfl (fun S => by simp [Site.formParts, Expr.operands?]) (h.pairs 0 hn)
    (finishes_put rfl rfl rfl rfl ?_ ?_)
  · rw [Operand.length_ofPairs]
    exact Nat.mod_le _ _
  · intro hcounted
    have hlt := hcounted _ rfl
    rw [Operand.length_ofPairs] at hlt ⊢
    exact Nat.mod_eq_of_lt hlt

/-- A number of arguments fits its operand. -/
theorem cut_byte {k : Nat} (hk : k < 256) : Emitted.cut 1 k = k := Nat.mod_eq_of_lt hk

/-- A call of any kind begins with the callee and the arguments. -/
theorem LowersBelow.laid_called (h : LowersBelow Src n) {Γ : Context} {σ σ' : CompileState}
    {e f : Expr} {args : List Expr} {span : Span} {m finish : CompileM Unit}
    (hpart : ∀ S, (S, .operands e 0 (.expr f :: args.map .expr)) ∈ Site.formParts S e)
    (hf : Lowers Src R (.expr f) m) (hn : sizeOf args + sizeOf R < n)
    (hrun : (m >>= fun _ => checkArgs args.length span >>= fun _ =>
      CompileM.exprs R args >>= fun _ => finish) σ = .ok () σ')
    (hr : Ready Src Γ R σ) (hc : Covers Src Γ.site (.form e)) :
    args.length < 256 ∧ ∃ σ₁, Laid Src Γ (.operands e 0 (.expr f :: args.map .expr)) σ σ₁ ∧
      finish σ₁ = .ok () σ' := by
  obtain ⟨_, σ₁, h₁, hrun⟩ := bind_ok hrun
  obtain ⟨_, σ₂, h₂, hrun⟩ := bind_ok hrun
  obtain ⟨_, σ₃, h₃, h₄⟩ := bind_ok hrun
  obtain ⟨hlt, rfl⟩ := checkArgs_ok h₂
  obtain ⟨hc₁, hc₂⟩ := Covers.operand (hc.part (hpart _))
  have hl := hf h₁ hr hc₁
  exact ⟨hlt, σ₃, hl.operand (h.exprs 1 hn h₃ ((hl.ready hr).up 1) hc₂), h₄⟩

/-- A call of any kind: callee, arguments, and the instructions that count the arguments. -/
theorem LowersBelow.called (h : LowersBelow Src n) {e f : Expr} {args : List Expr} {span : Span}
    {m finish : CompileM Unit} (hops : e.operands? = some (.expr f :: args.map .expr))
    (hpart : ∀ S, (S, .operands e 0 (.expr f :: args.map .expr)) ∈ Site.formParts S e)
    (hf : Lowers Src R (.expr f) m) (hn : sizeOf args + sizeOf R < n)
    (hfinish : args.length < 256 → Finishes Src e.Counted (args.length + 1) finish) :
    Lowers Src R (.form e) (m >>= fun _ => checkArgs args.length span >>= fun _ =>
      CompileM.exprs R args >>= fun _ => finish) := by
  intro Γ σ σ' hrun hr hc
  obtain ⟨hlt, σ₁, hargs, hrest⟩ := h.laid_called hpart hf hn hrun hr hc
  obtain ⟨tail, htail, hemits⟩ := hfinish hlt (hargs.ready hr).ok hrest
  refine hargs.strict hops ?_ hemits
  simpa using htail

/-- The class at hand and the name of the method are named after the arguments of a call of the
parent's method. -/
theorem superCall_makes {σ σ' : CompileState} {ctx : ClassContext} {name : String} {count : Nat}
    {span : Span} (hσ : σ.Ok Src) (hctx : ctx ∈ σ.classes) (hcount : count < 256)
    (h : (put .constant [ctx.constant] span >>= fun _ => addConstant (.str name) span >>= fun place =>
      put .invokeSuper [place, count] span) σ = .ok () σ') : Makes Src (count + 1) 1 σ σ' := by
  obtain ⟨_, σ₁, h₁, h⟩ := bind_ok h
  obtain ⟨place, σ₂, h₂, h₃⟩ := bind_ok h
  obtain ⟨hlt, hclass⟩ := hσ.classes ctx hctx
  obtain ⟨c, hc⟩ : ∃ c, σ.pool[ctx.constant]? = some c := by
    rcases hclass with hnull | ⟨c, hc⟩
    · exact ⟨_, hnull⟩
    · exact ⟨_, hc⟩
  have hparent := refer_emits hσ (constant_refers hc) h₁
  obtain ⟨hconst, hplace, hlt'⟩ := addConstant_emits (c := .str name) hparent.ok trivial (by simp) h₂
  obtain rfl := put_ok h₃
  have htakes : Emitted.takes ⟨.invokeSuper, [place, count], span⟩ = count + 2 :=
    congrArg (· + 2) (cut_byte hcount)
  have hload : Tail True (count + 1) (count + 2) [⟨.constant, [ctx.constant], span⟩] :=
    Tail.single rfl rfl (Nat.zero_le _) rfl
  have hcall : Tail True (count + 2) 1 [⟨.invokeSuper, [place, count], span⟩] :=
    Tail.single rfl rfl (Nat.le_of_eq htakes) (by rw [htakes, Nat.sub_self]; rfl)
  refine ⟨_, hcall.append_left hload.toStraight, ?_⟩
  refine (hparent.trans hconst).concat (i := ⟨.invokeSuper, [place, count], span⟩) fun u => ?_
  have hpool := hparent.pool.trans hconst.pool
  refine ⟨?_, ctx.constant, ?_, hclass.mono hpool⟩
  · rw [operand_place rfl hlt']
    exact ⟨name, hplace⟩
  · show Setup.constant _ = _
    rw [operand_place rfl hlt]

/-- A callee that is neither a member nor a method of the parent. -/
theorem callee_cases (f : Expr) : (∃ t m s, f = .member t m s) ∨ (∃ m s, f = .super m s) ∨
    ((∀ t m s, f ≠ .member t m s) ∧ ∀ m s, f ≠ .super m s) := by
  cases f <;> simp

theorem LowersBelow.call (h : LowersBelow Src n) {f : Expr} {args : List Expr} {span : Span}
    (hn : sizeOf f + sizeOf args + sizeOf R < n) :
    Lowers Src R (.form (.call f args span)) (CompileM.expr R (.call f args span)) := by
  rcases callee_cases f with ⟨t, m, s, rfl⟩ | ⟨m, s, rfl⟩ | ⟨hmember, hsuper⟩
  · simp only [Expr.member.sizeOf_spec] at hn
    rw [CompileM.expr]
    refine h.called rfl (fun S => by simp [Site.formParts, Expr.operands?]) (h.expr R t (by omega))
      (by omega) ?_
    intro hlt
    exact finishes_named (.inr (.inr rfl)) rfl fun _ => congrArg (· + 1) (cut_byte hlt)
  · rw [CompileM.expr]
    intro Γ σ σ' hrun hr hc
    obtain ⟨ctx, σ₁, hctx, hrun⟩ := bind_ok hrun
    obtain ⟨hmem, rfl⟩ := superClass_ok hctx
    have hthis : Lowers Src R (.expr (.this s)) (this s) := by
      intro Γ σ σ' h hr _
      exact (Laid.atom rfl hr.ok (this_makes hr.ok h)).expr
    obtain ⟨hlt, σ₂, hargs, hrest⟩ := h.laid_called (e := .call (.super m s) args span)
      (fun S => by simp [Site.formParts, Expr.operands?]) hthis (by omega) hrun hr hc
    obtain ⟨code, notes, hlays, hext⟩ := hargs
    have hmem' : ctx ∈ σ₂.classes := by rwa [hext.classes]
    refine Laid.strict_of_makes rfl ⟨code, notes, hlays, hext⟩ ?_
    rw [List.length_cons, List.length_map]
    exact superCall_makes hext.ok hmem' hlt hrest
  · have heq : CompileM.expr R (.call f args span) = (CompileM.expr R f >>= fun _ =>
        checkArgs args.length span >>= fun _ => CompileM.exprs R args >>= fun _ =>
        put .call [args.length] span) := by
      rw [CompileM.expr]
      · exact hmember
      · exact hsuper
    have hops : (Expr.call f args span).operands? = some (.expr f :: args.map .expr) := by
      cases f <;> first | rfl | exact absurd rfl (hmember _ _ _) | exact absurd rfl (hsuper _ _)
    rw [heq]
    refine h.called hops (fun S => ?_) (h.expr R f (by omega)) (by omega) ?_
    · simp [Site.formParts, hops]
    · intro hlt
      have htakes : Emitted.takes ⟨.call, [args.length], span⟩ = args.length + 1 :=
        congrArg (· + 1) (cut_byte hlt)
      exact finishes_put rfl rfl rfl rfl (Nat.le_of_eq htakes) fun _ => htakes

/-- Binary operators: two of them decide on their second operand, all others evaluate both. -/
theorem LowersBelow.binary (h : LowersBelow Src n) {op : String} {l r : Expr} {span : Span}
    (hn : sizeOf l + sizeOf r + sizeOf R < n) :
    Lowers Src R (.form (.binary op l r span)) (CompileM.expr R (.binary op l r span)) := by
  have hl := h.expr R l (by omega)
  have hr := h.expr R r (by omega)
  by_cases hand : op = "&&"
  · subst hand
    exact lowers_and hl hr
  by_cases hor : op = "||"
  · subst hor
    exact lowers_or hl hr
  have hstrict : (op == "&&" || op == "||") = false := by simp [hand, hor]
  rw [CompileM.expr, if_neg (by simp [hand]), if_neg (by simp [hor])]
  cases hop : BinaryOp.ofText? op with
  | none =>
    intro Γ σ σ' hrun _ _
    exact (fail_ok hrun).elim
  | some found =>
    obtain ⟨op', swap⟩ := found
    have hput {e : Expr} : Finishes Src e.Counted 2 (put op'.opcode [] span) := by
      cases op' <;> exact finishes_put rfl rfl rfl rfl (Nat.le_refl _) fun _ => rfl
    cases swap with
    | true =>
      have hops : (Expr.binary op l r span).operands? = some [.expr r, .expr l] := by
        simp [Expr.operands?, hand, hor, hop]
      show Lowers Src R _ (CompileM.expr R r >>= fun _ => CompileM.expr R l >>= fun _ => _)
      rw [← bind_assoc]
      exact lowers_strict hops (fun S => by simp [Site.formParts, hand, hor, hops])
        (lowers_operand hr (lowers_operand_last hl)) hput
    | false =>
      have hops : (Expr.binary op l r span).operands? = some [.expr l, .expr r] := by
        simp [Expr.operands?, hand, hor, hop]
      show Lowers Src R _ (CompileM.expr R l >>= fun _ => CompileM.expr R r >>= fun _ => _)
      rw [← bind_assoc]
      exact lowers_strict hops (fun S => by simp [Site.formParts, hand, hor, hops])
        (lowers_operand hl (lowers_operand_last hr)) hput

theorem LowersBelow.assign (h : LowersBelow Src n) {target : Ident} {value : Expr} {span : Span}
    (hn : sizeOf value + sizeOf R < n) :
    Lowers Src R (.form (.assign target value span)) (CompileM.expr R (.assign target value span)) := by
  intro Γ σ σ' hrun hr hc
  rw [CompileM.expr] at hrun
  obtain ⟨symbol, σ₁, h₁, h₂⟩ := bind_ok hrun
  obtain ⟨hemits, hknows⟩ := resolve_emits hr.ok h₁
  split at h₂
  · exact (fail_ok h₂).elim
  · obtain ⟨_, σ₂, h₃, h₄⟩ := bind_ok h₂
    have hcov : Covers Src Γ.site (.operands (.assign target value span) 0 [.expr value]) :=
      hc.part (by simp [Site.parts, Site.formParts, Expr.operands?])
    obtain ⟨code, notes, hlays, hext⟩ := lowers_operand_last (h.expr R value (by omega)) h₃
      (hr.emits hemits) hcov
    have hlaid : Laid Src Γ (.operands (.assign target value span) 0 [.expr value]) σ σ₂ := by
      have hstart := hemits.nil Γ.loops
      refine ⟨code, notes, ?_, hstart.trans hext⟩
      rw [hstart.size] at hlays
      exact hlays
    exact hlaid.strict_of_makes rfl (store_makes hext.ok (hknows.mono hext.symbols) h₄)

theorem LowersBelow.branch (h : LowersBelow Src n) {b : Block} (hn : sizeOf b + sizeOf R < n) :
    Lowers Src R (.value b) (branch R b) := by
  obtain ⟨ss, span⟩ := b
  simp only [Block.mk.sizeOf_spec] at hn
  exact lowers_branch (h.stmts R ss (by omega))

/-- The body of a function or method is smaller than what declares it. -/
theorem LowersBelow.body (h : LowersBelow Src n) {b : Block} (hn : sizeOf b < n) :
    Lowers Src [] (.stmts b.statements) (CompileM.stmts [] b.statements) := by
  obtain ⟨ss, span⟩ := b
  simp only [Block.mk.sizeOf_spec] at hn
  refine h.stmts [] ss ?_
  simp only [List.nil.sizeOf_spec]
  omega

theorem LowersBelow.form (h : LowersBelow Src n) (e : Expr) (hn : sizeOf e + sizeOf R ≤ n) :
    Lowers Src R (.form e) (CompileM.expr R e) := by
  have hpos := Regions.sizeOf_pos R
  cases e with
  | literal l span =>
    rw [CompileM.expr]
    exact lowers_atom rfl fun _ _ hσ hrun => literal_makes hσ hrun
  | ident id =>
    rw [CompileM.expr]
    exact lowers_atom rfl fun _ _ hσ hrun => loadName_makes hσ hrun
  | unary op x span =>
    simp only [Expr.unary.sizeOf_spec] at hn
    rw [CompileM.expr]
    intro Γ σ σ' hrun hr hc
    obtain ⟨opcode, σ₁, h₁, h₂⟩ := bind_ok hrun
    obtain ⟨hop, rfl⟩ := unaryOpcode_ok h₁
    refine lowers_strict (e := .unary op x span) rfl
      (fun S => by simp [Site.formParts, Expr.operands?])
      (lowers_operand_last (h.expr R x (by omega))) ?_ h₂ hr hc
    rcases hop with rfl | rfl <;> exact finishes_put rfl rfl rfl rfl (Nat.le_refl _) fun _ => rfl
  | binary op l r span =>
    simp only [Expr.binary.sizeOf_spec] at hn
    exact h.binary (by omega)
  | ternary c y n span =>
    simp only [Expr.ternary.sizeOf_spec] at hn
    exact lowers_ternary (h.expr R c (by omega)) (h.expr R y (by omega)) (h.expr R n (by omega))
  | cond c y n span =>
    simp only [Expr.cond.sizeOf_spec] at hn
    refine lowers_cond (h.expr R c (by omega)) (h.branch (by omega)) ?_
    cases n with
    | none => exact lowers_alternative_none
    | some b =>
      simp only [Option.some.sizeOf_spec] at hn
      exact lowers_alternative_some (h.branch (by omega))
  | function f =>
    obtain ⟨own, params, body, span⟩ := f
    simp only [Expr.function.sizeOf_spec, FunctionLiteral.mk.sizeOf_spec] at hn
    rw [CompileM.expr]
    exact lowers_functionLiteral (h.body (b := body) (by omega))
  | call f args span =>
    simp only [Expr.call.sizeOf_spec] at hn
    exact h.call (by omega)
  | array es ordered span =>
    simp only [Expr.array.sizeOf_spec] at hn
    exact h.array (by omega)
  | index t i span =>
    simp only [Expr.index.sizeOf_spec] at hn
    rw [CompileM.expr, ← bind_assoc]
    exact lowers_strict rfl (fun S => by simp [Site.formParts, Expr.operands?])
      (lowers_operand (h.expr R t (by omega)) (lowers_operand_last (h.expr R i (by omega))))
      (finishes_put rfl rfl rfl rfl (Nat.le_refl _) fun _ => rfl)
  | hash ps span =>
    simp only [Expr.hash.sizeOf_spec] at hn
    exact h.hash (by omega)
  | assign target value span =>
    simp only [Expr.assign.sizeOf_spec] at hn
    exact h.assign (by omega)
  | indexAssign t i v span =>
    simp only [Expr.indexAssign.sizeOf_spec] at hn
    have heq : CompileM.expr R (.indexAssign t i v span) = ((CompileM.expr R t >>= fun _ =>
        CompileM.expr R i >>= fun _ => CompileM.expr R v) >>= fun _ => put .setIndex [] span) := by
      rw [CompileM.expr]
      simp only [bind_assoc]
    rw [heq]
    exact lowers_strict rfl (fun S => by simp [Site.formParts, Expr.operands?])
      (lowers_operand (h.expr R t (by omega)) (lowers_operand (h.expr R i (by omega))
        (lowers_operand_last (h.expr R v (by omega)))))
      (finishes_put rfl rfl rfl rfl (Nat.le_refl _) fun _ => rfl)
  | member t m span =>
    simp only [Expr.member.sizeOf_spec] at hn
    rw [CompileM.expr]
    exact lowers_strict rfl (fun S => by simp [Site.formParts, Expr.operands?])
      (lowers_operand_last (h.expr R t (by omega))) (finishes_named (.inl rfl) rfl fun _ => rfl)
  | memberAssign t m v span =>
    simp only [Expr.memberAssign.sizeOf_spec] at hn
    rw [CompileM.expr, ← bind_assoc]
    exact lowers_strict rfl (fun S => by simp [Site.formParts, Expr.operands?])
      (lowers_operand (h.expr R t (by omega)) (lowers_operand_last (h.expr R v (by omega))))
      (finishes_named (.inr (.inl rfl)) rfl fun _ => rfl)
  | spawn f args span =>
    simp only [Expr.spawn.sizeOf_spec] at hn
    rw [CompileM.expr]
    refine h.called rfl (fun S => by simp [Site.formParts, Expr.operands?]) (h.expr R f (by omega))
      (by omega) ?_
    intro hlt
    have htakes : Emitted.takes ⟨.spawn, [args.length], span⟩ = args.length + 1 :=
      congrArg (· + 1) (cut_byte hlt)
    exact finishes_put rfl rfl rfl rfl (Nat.le_of_eq htakes) fun _ => htakes
  | channel capacity span =>
    cases capacity with
    | none =>
      rw [CompileM.expr]
      exact lowers_atom rfl fun _ _ hσ hrun => put_makes hσ hrun rfl rfl rfl (Nat.le_refl _) rfl
    | some c =>
      simp only [Expr.channel.sizeOf_spec, Option.some.sizeOf_spec] at hn
      rw [CompileM.expr]
      exact lowers_strict rfl (fun S => by simp [Site.formParts, Expr.operands?])
        (lowers_operand_last (h.expr R c (by omega))) (finishes_put rfl rfl rfl rfl (Nat.le_refl _) fun _ => rfl)
  | send c v span =>
    simp only [Expr.send.sizeOf_spec] at hn
    rw [CompileM.expr, ← bind_assoc]
    exact lowers_strict rfl (fun S => by simp [Site.formParts, Expr.operands?])
      (lowers_operand (h.expr R c (by omega)) (lowers_operand_last (h.expr R v (by omega))))
      (finishes_put rfl rfl rfl rfl (Nat.le_refl _) fun _ => rfl)
  | receive c span =>
    simp only [Expr.receive.sizeOf_spec] at hn
    rw [CompileM.expr]
    exact lowers_strict rfl (fun S => by simp [Site.formParts, Expr.operands?])
      (lowers_operand_last (h.expr R c (by omega))) (finishes_put rfl rfl rfl rfl (Nat.le_refl _) fun _ => rfl)
  | this span =>
    rw [CompileM.expr]
    exact lowers_atom rfl fun _ _ hσ hrun => this_makes hσ hrun
  | super m span =>
    rw [CompileM.expr]
    intro Γ σ σ' hrun _ _
    exact (fail_ok hrun).elim

/-! ## Statements -/

theorem sizeOf_methodBodies {b : Block} {body : List Stmt} (hb : b ∈ Site.methodBodies body) :
    sizeOf b < sizeOf body := by
  obtain ⟨s, hs, hbody⟩ := List.mem_filterMap.mp hb
  have hlt := List.sizeOf_lt_of_mem hs
  split at hbody
  · next name f constant span =>
    cases hbody
    obtain ⟨own, params, body, span⟩ := f
    simp only [Stmt.bind.sizeOf_spec, Expr.function.sizeOf_spec, FunctionLiteral.mk.sizeOf_spec] at hlt
    show sizeOf body < _
    omega
  · next f span =>
    cases hbody
    obtain ⟨own, params, body, span⟩ := f
    simp only [Stmt.expr.sizeOf_spec, Expr.function.sizeOf_spec, FunctionLiteral.mk.sizeOf_spec] at hlt
    show sizeOf body < _
    omega
  · cases hbody

/-- Whether a declaration binds a function literal. -/
theorem function_cases (e : Expr) : (∃ f, e = .function f) ∨ ∀ f, e ≠ .function f := by
  cases e <;> simp

theorem LowersBelow.action (h : LowersBelow Src n) (s : Stmt) (hn : sizeOf s + sizeOf R ≤ n) :
    Lowers Src R (.action s) (CompileM.stmt R s) := by
  have hpos := Regions.sizeOf_pos R
  cases s with
  | bind name e constant span =>
    simp only [Stmt.bind.sizeOf_spec] at hn
    rcases function_cases e with ⟨f, rfl⟩ | hnot
    · obtain ⟨own, params, body, fspan⟩ := f
      simp only [Expr.function.sizeOf_spec, FunctionLiteral.mk.sizeOf_spec] at hn
      exact lowers_bind_function (lowers_functionLiteral (h.body (b := body) (by omega)))
    · exact lowers_bind hnot (h.expr R e (by omega))
  | expr e span =>
    simp only [Stmt.expr.sizeOf_spec] at hn
    exact lowers_exprStmt (h.expr R e (by omega))
  | block b =>
    obtain ⟨ss, span⟩ := b
    simp only [Stmt.block.sizeOf_spec, Block.mk.sizeOf_spec] at hn
    exact lowers_block (h.stmts R ss (by omega))
  | ret value span =>
    have hexits := h.exits R 0 span
    simp only [Stmt.ret.sizeOf_spec] at hn
    cases value with
    | none => exact lowers_ret_none (hexits (by omega))
    | some e =>
      simp only [Option.some.sizeOf_spec] at hn
      exact lowers_ret_some (h.expr R e (by omega)) (hexits (by omega))
  | forLoop init c u body span =>
    obtain ⟨ss, s⟩ := body
    simp only [Stmt.forLoop.sizeOf_spec, Block.mk.sizeOf_spec] at hn
    refine lowers_for (lowers_optStmt ?_) ?_ (h.stmts R ss (by omega)) (lowers_update ?_)
    · rintro t rfl
      simp only [Option.some.sizeOf_spec] at hn
      exact h.stmt R t (by omega)
    · rintro e rfl
      simp only [Option.some.sizeOf_spec] at hn
      exact h.expr R e (by omega)
    · rintro e rfl
      simp only [Option.some.sizeOf_spec] at hn
      exact h.expr R e (by omega)
  | whileLoop c body span =>
    obtain ⟨ss, s⟩ := body
    simp only [Stmt.whileLoop.sizeOf_spec, Block.mk.sizeOf_spec] at hn
    exact lowers_while (h.expr R c (by omega)) (h.stmts R ss (by omega))
  | breakLoop span =>
    simp only [Stmt.breakLoop.sizeOf_spec] at hn
    exact lowers_break fun depth => h.exits R depth span (by omega)
  | continueLoop span =>
    simp only [Stmt.continueLoop.sizeOf_spec] at hn
    exact lowers_continue fun depth => h.exits R depth span (by omega)
  | classDecl name parent body span =>
    simp only [Stmt.classDecl.sizeOf_spec] at hn
    refine lowers_classDecl fun b hb => h.body ?_
    have := sizeOf_methodBodies hb
    omega
  | tryCatch body handler cleanup span =>
    obtain ⟨ss, s⟩ := body
    simp only [Stmt.tryCatch.sizeOf_spec, Block.mk.sizeOf_spec] at hn
    cases handler with
    | none =>
      cases cleanup with
      | none => exact lowers_try_none (h.stmts R ss (by omega))
      | some f =>
        obtain ⟨fs, s'⟩ := f
        simp only [Option.some.sizeOf_spec, Option.none.sizeOf_spec, Block.mk.sizeOf_spec] at hn
        refine lowers_try_finally (h.stmts _ ss ?_) (h.stmts R fs (by omega))
        simp only [List.cons.sizeOf_spec, Option.some.sizeOf_spec, Block.mk.sizeOf_spec]
        omega
    | some c =>
      obtain ⟨param, ⟨cs, s'⟩⟩ := c
      simp only [Option.some.sizeOf_spec, CatchClause.mk.sizeOf_spec, Block.mk.sizeOf_spec] at hn
      cases cleanup with
      | none =>
        refine lowers_try_catch (h.stmts _ ss ?_) (h.stmts R cs (by omega))
        simp only [List.cons.sizeOf_spec, Option.none.sizeOf_spec] at hn ⊢
        omega
      | some f =>
        obtain ⟨fs, s''⟩ := f
        simp only [Option.some.sizeOf_spec, Block.mk.sizeOf_spec] at hn
        refine lowers_try_both (h.stmts _ ss ?_) (h.stmts _ cs ?_) (h.stmts R fs (by omega))
        all_goals
          simp only [List.cons.sizeOf_spec, Option.some.sizeOf_spec, Block.mk.sizeOf_spec]
          omega
  | throw e span =>
    simp only [Stmt.throw.sizeOf_spec] at hn
    exact lowers_throw (h.expr R e (by omega))

/-! ## The induction -/

theorem LowersBelow.succ (h : LowersBelow Src n) : LowersBelow Src (n + 1) := by
  have hexpr : ∀ R e, sizeOf e + sizeOf R < n + 1 → Lowers Src R (.expr e) (CompileM.expr R e) := by
    intro R e hn Γ σ σ' hrun hr hc
    exact (h.form e (Nat.le_of_lt_succ hn) hrun hr hc.form).expr
  have hstmt : ∀ R s, sizeOf s + sizeOf R < n + 1 → Lowers Src R (.stmt s) (CompileM.stmt R s) := by
    intro R s hn Γ σ σ' hrun hr hc
    exact (h.action s (Nat.le_of_lt_succ hn) hrun hr (hc.part List.mem_cons_self)).stmt
  refine ⟨hexpr, hstmt, ?_, ?_⟩
  · intro R ss hn
    cases ss with
    | nil => exact lowers_stmts_nil
    | cons s ss =>
      simp only [List.cons.sizeOf_spec] at hn
      exact lowers_stmts_cons (h.stmt R s (by omega)) (h.stmts R ss (by omega))
  · intro R depth span hn
    cases R with
    | nil => exact lowers_exits_nil
    | cons cleanup outer =>
      simp only [List.cons.sizeOf_spec] at hn
      refine lowers_exits_cons ?_ (h.exits outer depth span (by omega))
      rintro ⟨ss, s⟩ rfl
      simp only [Option.some.sizeOf_spec, Block.mk.sizeOf_spec] at hn
      exact h.stmts outer ss (by omega)

theorem lowersBelow (n : Nat) : LowersBelow Src n := by
  induction n with
  | zero => exact ⟨by simp, by simp, by simp, by simp⟩
  | succ n ih => exact ih.succ

/-- Statements are compiled as the layout says. -/
theorem lowers_stmts (R : Regions) (ss : List Stmt) :
    Lowers Src R (.stmts ss) (CompileM.stmts R ss) :=
  (lowersBelow (sizeOf ss + sizeOf R + 1)).stmts R ss (Nat.lt_succ_self _)

/-! ## Units -/

/-- Bindings and functions of the units so far are in order, and no class is under construction. -/
structure Compiler.Ok (Src : Source) (c : Compiler) : Prop where
  isGlobal : c.symbols.isGlobal = true
  symbols : c.symbols.Ok Src.builtin
  pool : c.pool.From Src
  blanks : ∀ place, c.pool[place]? = some .null → Src.blank place

theorem Pool.getElem?_of_mem_newClasses {p : Pool} {first : Nat} {e : Nat × ClassConstant}
    (he : e ∈ p.newClasses first) : p[e.1]? = some (.cls e.2) := by
  obtain ⟨place, -, hplace⟩ := List.mem_filterMap.mp he
  split at hplace
  · split at hplace
    · next c hc =>
      split at hplace
      · cases hplace
        unfold Pool.class? at hc
        obtain ⟨k, hk, hclass⟩ := Option.bind_eq_some_iff.mp hc
        cases k with
        | cls c' =>
          cases hclass
          exact hk
        | _ => cases hclass
      · cases hplace
    · cases hplace
  · cases hplace

/-- The next pool has the same constants, except for the parents of classes. -/
structure Pool.Links (p q : Pool) : Prop where
  grows : p.Grows q
  size : q.size = p.size
  methods : ∀ (place : Nat) (c : ClassConstant), q[place]? = some (.cls c) →
    ∃ c' : ClassConstant, p[place]? = some (.cls c') ∧ c.methods = c'.methods

theorem Pool.Links.set {p q : Pool} (h : p.Links q) {place : Nat} {c c' : ClassConstant}
    (hc : p[place]? = some (.cls c)) (hmethods : c'.methods = c.methods) :
    p.Links (q.setIfInBounds place (.cls c')) where
  grows := h.grows.trans (Pool.grows_setClass (IsClass.mono (.inr ⟨c, hc⟩) h.grows) c')
  size := by rw [Array.size_setIfInBounds, h.size]
  methods := by
    intro i d hd
    by_cases hi : place = i
    · subst hi
      obtain ⟨hlt, -⟩ := Array.getElem?_eq_some_iff.mp hd
      rw [Array.size_setIfInBounds] at hlt
      rw [Array.getElem?_setIfInBounds_self_of_lt hlt] at hd
      cases hd
      exact ⟨c, hc, hmethods⟩
    · rw [Array.getElem?_setIfInBounds_ne hi] at hd
      exact h.methods i d hd

/-- Linking changes nothing but the parents of classes. -/
theorem Pool.links_of_link {p q : Pool} {spans : List (String × Span)} {first : Nat}
    (h : p.link spans first = .ok q) : p.Links q := by
  unfold Pool.link at h
  dsimp only at h
  split at h
  · cases h
  · cases h
    -- each class of the list is written over itself
    suffices ∀ (l : List (Nat × ClassConstant)) (q : Pool), p.Links q →
        (∀ e ∈ l, p[e.1]? = some (.cls e.2)) →
        p.Links (l.foldl (fun q e => q.setIfInBounds e.1 (.cls (Link.linked p e.2))) q) from
      this _ _ ⟨.refl p, rfl, fun _ c hc => ⟨c, hc, rfl⟩⟩ fun e he => getElem?_of_mem_newClasses he
    intro l
    induction l with
    | nil => exact fun q hq _ => hq
    | cons e l ih =>
      intro q hq hl
      exact ih _ (hq.set (hl e List.mem_cons_self) rfl) fun e' he' => hl e' (List.mem_cons_of_mem _ he')

theorem Pool.Links.getElem? {p q : Pool} (h : p.Links q) {place : Nat} {d : Constant}
    (hd : q[place]? = some d) : ∃ c, p[place]? = some c ∧ c.Becomes d := by
  obtain ⟨hlt, -⟩ := Array.getElem?_eq_some_iff.mp hd
  rw [h.size] at hlt
  obtain ⟨d', hd', hbecomes⟩ := h.grows place p[place] (Array.getElem?_eq_getElem hlt)
  rw [hd, Option.some.injEq] at hd'
  subst hd'
  exact ⟨_, Array.getElem?_eq_getElem hlt, hbecomes⟩

theorem Pool.Links.from {p q : Pool} (h : p.Links q) (hp : p.From Src) : q.From Src := by
  intro d hd
  obtain ⟨place, hplace⟩ := Array.mem_iff_getElem?.mp hd
  obtain ⟨c, hc, hbecomes⟩ := h.getElem? hplace
  have hfrom := hp c (Array.mem_of_getElem? hc)
  cases hbecomes with
  | same => exact hfrom.mono h.grows
  | filled k | linked _ k =>
    obtain ⟨k', hk', hmethods⟩ := h.methods place k hplace
    intro m hm
    rw [hmethods] at hm
    exact Function.From.mono (hp _ (Array.mem_of_getElem? hk') m hm) h.grows

/-- Linking leaves the functions as they are. -/
theorem Pool.Links.functions {q r : Pool} (h : q.Links r) {k : Constant} (hk : k ∈ r) {f : Function}
    (hf : f ∈ k.functions) : ∃ k' ∈ q, f ∈ k'.functions := by
  obtain ⟨place, hplace⟩ := Array.mem_iff_getElem?.mp hk
  obtain ⟨k', hk', hbecomes⟩ := h.getElem? hplace
  cases hbecomes with
  | same => exact ⟨_, Array.mem_of_getElem? hk', hf⟩
  | filled d | linked _ d =>
    obtain ⟨d', hd', hmethods⟩ := h.methods place d hplace
    refine ⟨_, Array.mem_of_getElem? hd', ?_⟩
    rw [Constant.functions, hmethods] at hf
    exact hf

theorem CompileM.linkClasses_ok {σ σ' : CompileState} {first : Nat}
    (h : CompileM.linkClasses first σ = .ok () σ') :
    ∃ pool, σ.pool.link σ.classSpans first = .ok pool ∧ σ' = { σ with pool } := by
  rw [CompileM.linkClasses_eq] at h
  cases hpool : σ.pool.link σ.classSpans first with
  | ok pool =>
    rw [hpool] at h
    cases h
    exact ⟨pool, rfl, rfl⟩
  | error e =>
    rw [hpool] at h
    cases h

theorem Compiler.compile_ok {c c' : Compiler} {p : Program} {unit : UnitCode}
    (h : c.compile p = .ok (unit, c')) :
    ∃ σ pool, CompileM.stmts [] (c.optimizer.run p).1.statements c.start = .ok () σ ∧
      σ.pool.link σ.classSpans c.pool.size = .ok pool ∧
      unit = ⟨(σ.function.block.emit .halt [] .dummy).code, (σ.function.block.emit .halt [] .dummy).debug⟩ ∧
      c' = c.keep ({ σ with pool }.emit .halt [] .dummy) := by
  unfold Compiler.compile Compiler.attempt at h
  cases hrun : (CompileM.unit c.pool.size (c.optimizer.run p).1.statements).run c.start with
  | error e τ =>
    rw [hrun] at h
    cases h
  | ok block τ =>
    rw [hrun] at h
    cases h
    obtain ⟨⟨⟩, σ, hstmts, hrest⟩ := CompileM.bind_ok hrun
    obtain ⟨⟨⟩, σ₁, hlink, hrest⟩ := CompileM.bind_ok hrest
    obtain ⟨pool, hpool, rfl⟩ := CompileM.linkClasses_ok hlink
    cases hrest
    exact ⟨σ, pool, hstmts, hpool, rfl, rfl⟩

/-- A unit can begin. -/
theorem Compiler.Ok.ready {c : Compiler} (hc : c.Ok Src) : Ready Src .top [] c.start :=
  ⟨rfl, .nil, hc.symbols, hc.pool, by simp [Compiler.start], fun place hnull => .inl (hc.blanks place hnull)⟩

/-- The symbol table grows while a unit is compiled. -/
theorem Compiler.compile_grows {c c' : Compiler} {p : Program} {unit : UnitCode}
    (h : c.compile p = .ok (unit, c')) (hc : c.Ok Src)
    (hcov : Covers Src .top (.unit (c.optimizer.run p).1.statements)) : c.symbols.Grows c'.symbols := by
  obtain ⟨σ, pool, hrun, -, -, rfl⟩ := Compiler.compile_ok h
  obtain ⟨code, notes, -, hext⟩ := lowers_stmts [] _ hrun hc.ready (hcov.part List.mem_cons_self)
  exact hext.symbols

/-- The top-level block of an accepted unit has a layout, and so has every function of the pool. -/
theorem Compiler.compile_laid {c c' : Compiler} {p : Program} {unit : UnitCode}
    (h : c.compile p = .ok (unit, c')) (hc : c.Ok Src)
    (hcov : Covers Src .top (.unit (c.optimizer.run p).1.statements)) :
    c'.Ok Src ∧ ∃ code notes, Lays .top (.unit (c.optimizer.run p).1.statements) 0 code notes ∧
      (Function.main unit.code unit.debug).Holds code ∧
      ∀ q ∈ code, q.Refers ⟨c'.pool, 0, 0, Src.builtin⟩ := by
  obtain ⟨σ, pool, hrun, hlink, rfl, rfl⟩ := Compiler.compile_ok h
  obtain ⟨code, notes, hlays, hext⟩ := lowers_stmts [] _ hrun hc.ready (hcov.part List.mem_cons_self)
  have hglobal : σ.symbols.isGlobal = true := hext.symbols.isGlobal hc.isGlobal
  have hclasses : σ.classes = [] := hext.classes
  have hlinks := Pool.links_of_link hlink
  have hhalt : Extends Src Context.top.loops c.start (σ.emit .halt [] .dummy)
      (code ++ [Context.top.point (0 + size code) 0 .halt [] .dummy]) :=
    hext.trans (extends_point hext.ok rfl)
  have hblock : σ.function.block.emit .halt [] .dummy = _ := block_eq_of_extends hhalt rfl
  refine ⟨⟨hglobal, hext.ok.symbols, hlinks.from hext.ok.pool, ?_⟩, _, notes, .unit hlays, ⟨?_, ?_⟩, ?_⟩
  · intro place hnull
    obtain ⟨c, hc, hbecomes⟩ := hlinks.getElem? hnull
    cases hbecomes
    rcases hext.ok.blanks place hc with hblank | ⟨k, hk, -⟩
    · exact hblank
    · rw [hclasses] at hk
      cases hk
  · exact congrArg CodeBlock.code hblock
  · exact congrArg CodeBlock.debug hblock
  · -- no slots and no cells at the top level
    refine fun q hq => (hhalt.refers q hq).mono ⟨hlinks.grows, ?_, ?_, fun _ hn => hn⟩
    · simp [CompileState.supply, SymbolTable.slots, hglobal]
    · simp [CompileState.supply, hext.ok.symbols.free_eq hglobal]

end

end ScriptMachine
