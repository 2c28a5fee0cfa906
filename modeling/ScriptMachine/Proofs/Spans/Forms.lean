import ScriptMachine.Proofs.Spans.Steps

/-!
# Pieces of the source and their instructions

Compiling a piece of the source appends the instructions that `Origins` lists for it. `TracesBelow` carries the
induction: if that holds of all that is smaller, it holds of a piece. What counts is the size of the piece and of the
regions around it together, for early exits compile the finally bodies of these anew.
-/

namespace ScriptMachine

/-- Numbers of regions around the loops. -/
def Site.depths (S : Site) : List Nat := S.loops.map LoopShape.depth

@[simp] theorem Site.depths_leave (S : Site) (outer : Regions) : (S.leave outer).depths = S.depths := by
  unfold Site.depths Site.leave
  rw [List.map_map]
  rfl

/-- The operands of an expression are a part of it. -/
theorem Site.mem_formParts {S : Site} {e : Expr} {es : List Operand} (h : e.operands? = some es) :
    (S, Node.operands e 0 es) ∈ Site.formParts S e := by
  cases e with
  | binary op l r span =>
    cases hlazy : op == "&&" || op == "||" with
    | true =>
      rw [Expr.operands?, if_pos hlazy] at h
      cases h
    | false => simp [Site.formParts, hlazy, h]
  | ternary c y n span => cases h
  | cond c y n span => cases h
  | «function» f =>
    cases h
    exact List.mem_cons_self
  | _ => simp [Site.formParts, h]

/-- The operands of an expression from number `k` on, and the instructions that make its value of them. -/
def Origin.Rest (S : Site) (e : Expr) (k : Nat) (xs : List Operand) (os : List Origin) : Prop :=
  ∃ os' ops, Origins (S.up k) (.operands e k xs) os' ∧ e.Finish ops ∧ os = os' ++ ops.map fun op => ⟨op, e.span⟩

namespace Origin

variable {S : Site} {e x : Expr} {k : Nat} {xs es : List Operand} {os os' : List Origin}

theorem rest_nil {ops : List Opcode} (h : e.Finish ops) : Rest S e k [] (ops.map fun op => ⟨op, e.span⟩) :=
  ⟨[], ops, .noOperands, h, rfl⟩

theorem rest_last {op : Opcode} (h : e.Finish [op]) : Rest S e k [] [⟨op, e.span⟩] := rest_nil h

theorem Rest.cons (hx : Origins (S.up k) (.expr x) os) (h : Rest S e (k + 1) xs os') :
    Rest S e k (.expr x :: xs) (os ++ os') := by
  obtain ⟨os'', ops, horigins, hfinish, rfl⟩ := h
  exact ⟨os ++ os'', ops, .operand hx horigins, hfinish, (List.append_assoc _ _ _).symm⟩

theorem Rest.form (h : Rest S e 0 es os) (hops : e.operands? = some es) : Origins S (.form e) os := by
  obtain ⟨os', ops, horigins, hfinish, rfl⟩ := h
  exact .strict hops horigins hfinish

end Origin

/-- The code of a compiled body. -/
def CompileM.Body.Stems (body : CompileM.Body) (b : Block) : Prop :=
  ∃ is, body.block = .ofItems is ∧ Origins .top (.body b) (is.map Emitted.origin) ∧ ∀ i ∈ is, i.Sized

namespace CompileM

open Origin CompileState

/-- Compiling a piece appends its instructions. -/
abbrev Traces (Src : Source) (S : Site) (n : Node) (m : CompileM Unit) : Prop :=
  Appends Src S.depths m S.depths fun _ os => Origins S n os

/-- Compiling what is smaller than `n`, the regions around it included, appends its instructions. -/
structure TracesBelow (Src : Source) (n : Nat) : Prop where
  expr : ∀ {S : Site} {e : Expr}, sizeOf e + sizeOf S.cleanups < n → Covers Src S (.expr e) →
    Traces Src S (.expr e) (expr S.cleanups e)
  stmt : ∀ {S : Site} {s : Stmt}, sizeOf s + sizeOf S.cleanups < n → Covers Src S (.stmt s) →
    Traces Src S (.stmt s) (stmt S.cleanups s)

section

variable {Src : Source} {n k : Nat} {S : Site} {span : Span} {e : Expr}

/-! ### Bodies -/

/-- A branch ends with its value. -/
theorem traces_branch {ss : List Stmt} (h : Traces Src S (.stmts ss) (stmts S.cleanups ss)) :
    Traces Src S (.value ⟨ss, span⟩) (branch S.cleanups ⟨ss, span⟩) := by
  intro σ _ σ' hrun hσ
  rw [branch] at hrun
  obtain ⟨_, σ₁, hstmts, hfinish⟩ := bind_ok hrun
  obtain ⟨os, hos, horigins, hσ₁⟩ := h σ () σ₁ hstmts hσ
  obtain ⟨block, σ₂, hblock, hrest⟩ := bind_ok hfinish
  obtain ⟨rfl, rfl⟩ := getBlock_ok hblock
  cases hends : endsWithExpr ss with
  | true =>
    obtain ⟨ss, e, s, rfl⟩ := endsWithExpr_iff.mp hends
    obtain ⟨os₁, os₂, rfl, hss, he⟩ := hos.split_expr
    rw [← List.append_assoc] at horigins
    have hpop : σ₁.function.block.endsWith .pop = true := endsWith_of_origins horigins .pop
    rw [hends, hpop] at hrest
    obtain rfl := modifyBlock_ok hrest
    obtain ⟨hdrop, htraced⟩ := hσ₁.dropPop horigins
    exact ⟨os₁ ++ os₂, .value hss he, hdrop, htraced⟩
  | false =>
    rw [hends] at hrest
    obtain rfl := put_ok hrest
    refine ⟨os ++ [⟨.null, span⟩], .noValue hends hos, ?_, hσ₁.emit .null [] span rfl⟩
    rw [origins_emit, horigins, List.append_assoc]

theorem needsReturn_eq (op : Opcode) : (!op == .returnValue && !op == .returnNull) = !op.isReturn := by
  cases op <;> decide

/-- A function body ends with a return. -/
theorem traced_body {ss : List Stmt} (h : Traces Src .top (.stmts ss) (stmts [] ss)) {σ σ' : CompileState}
    (hrun : functionBody ⟨ss, span⟩ σ = .ok () σ') (hσ : σ.Traced Src []) (hempty : σ.origins = []) :
    Origins .top (.body ⟨ss, span⟩) σ'.origins ∧ σ'.Traced Src [] := by
  rw [functionBody] at hrun
  obtain ⟨_, σ₁, hstmts, hfinish⟩ := bind_ok hrun
  obtain ⟨os, hos, horigins, hσ₁⟩ := h σ () σ₁ hstmts hσ
  rw [hempty, List.nil_append] at horigins
  unfold finishBody at hfinish
  cases hends : endsWithExpr ss with
  | true =>
    obtain ⟨ss, e, s, rfl⟩ := endsWithExpr_iff.mp hends
    obtain ⟨os₁, os₂, rfl, hss, he⟩ := hos.split_expr
    obtain ⟨hreturn, htraced⟩ := hσ₁.returnPop horigins
    rw [hends] at hfinish
    obtain ⟨_, σ₂, hmod, hrest⟩ := bind_ok hfinish
    obtain rfl := modifyBlock_ok hmod
    obtain ⟨block, σ₃, hblock, hdone⟩ := bind_ok hrest
    obtain ⟨rfl, rfl⟩ := getBlock_ok hblock
    rw [endsWith_of_origins hreturn .returnValue] at hdone
    obtain ⟨-, rfl⟩ := pure_ok hdone
    rw [hreturn, List.append_assoc]
    exact ⟨.bodyValue hss he, htraced⟩
  | false =>
    rw [hends] at hfinish
    obtain ⟨block, σ₃, hblock, hdone⟩ := bind_ok hfinish
    obtain ⟨rfl, rfl⟩ := getBlock_ok hblock
    -- the last instruction decides whether a return is needed
    rcases List.eq_nil_or_concat os with rfl | ⟨before, o, rfl⟩
    · have hitems : σ₁.items = [] := List.map_eq_nil_iff.mp horigins
      rw [endsWith_eq, endsWith_eq, hitems] at hdone
      obtain rfl := put_ok hdone
      rw [origins_emit, horigins]
      exact ⟨.bodyNull hends hos (by simp), hσ₁.emit .returnNull [] span rfl⟩
    · rw [List.concat_eq_append] at hos horigins
      rw [endsWith_of_origins horigins, endsWith_of_origins horigins, needsReturn_eq] at hdone
      have hlast : (before ++ [o]).getLast? = some o := List.getLast?_concat
      cases hreturn : o.opcode.isReturn with
      | true =>
        rw [hreturn] at hdone
        obtain ⟨-, rfl⟩ := pure_ok hdone
        rw [horigins]
        exact ⟨.bodyReturn hends hos hlast hreturn, hσ₁⟩
      | false =>
        rw [hreturn] at hdone
        obtain rfl := put_ok hdone
        rw [origins_emit, horigins]
        refine ⟨.bodyNull hends hos ?_, hσ₁.emit .returnNull [] span rfl⟩
        rw [hlast]
        rintro o' ⟨⟩
        exact hreturn

/-- Around a function body the block at hand stays as it was. -/
theorem appends_inFunction {ds : List Nat} {before : CompileM Unit} {b : Block} (hbefore : Silent Src [] before [])
    (h : Traces Src .top (.stmts b.statements) (stmts [] b.statements)) :
    Appends Src ds (inFunction (before >>= fun _ => functionBody b)) ds fun body os => os = [] ∧ body.Stems b := by
  intro σ body σ' hrun hσ
  rcases b with ⟨ss, span⟩
  obtain ⟨σ₁, hbody, hblock, -, -, rfl⟩ := inFunction_ok hrun
  obtain ⟨_, σ₂, hfirst, hrest⟩ := bind_ok hbody
  have hinside : (inside σ).Traced Src [] := ⟨rfl, nofun, hσ.pool⟩
  obtain ⟨os, rfl, horigins, hσ₂⟩ := hbefore _ () σ₂ hfirst hinside
  obtain ⟨hos, hσ₁⟩ := traced_body h hrest hσ₂ horigins
  refine ⟨[], ⟨rfl, σ₁.items, ?_, hos, hσ₁.sized⟩, (List.append_nil _).symm, hσ.depths, hσ.sized, hσ₁.pool⟩
  rw [hblock]
  exact σ₁.function.block.eq_ofItems

theorem Body.Stems.function {body : Body} {b : Block} (h : body.Stems b) (hb : Src.body b) (name : Option String)
    (locals params : Nat) : (body.block.toFunction name locals params).StemsFrom Src := by
  obtain ⟨is, hblock, horigins, hsized⟩ := h
  rw [hblock]
  exact ⟨b, is, hb, horigins, hsized, rfl, rfl⟩

theorem traces_makeClosure {f : FunctionLiteral} {name : Option String} {body : Body} (h : body.Stems f.body)
    (hf : Src.body f.body) : Traces Src S (.expr (.function f)) (makeClosure f name body) := by
  refine (appends_captureAll _).bind fun _ os hos => Silent.seq (silent_addConstant ?_) fun place =>
    appends_put rfl ?_
  · intro g hg
    rw [List.mem_singleton.mp hg]
    exact h.function hf _ _ _
  · obtain ⟨cells, hcells, rfl⟩ := hos
    have hfinish : (Expr.function f).Finish (cells ++ [.closure]) := ⟨cells, hcells, rfl⟩
    have horigins : Origins S (.form (.function f)) _ := (rest_nil (k := 0) hfinish).form rfl
    rw [List.map_append] at horigins
    exact .expr horigins

theorem appends_makeMethod {ds : List Nat} {cls name : String} {f : FunctionLiteral} {body : Body}
    (h : body.Stems f.body) (hf : Src.body f.body) :
    Appends Src ds (makeMethod cls f name body) ds fun m os => os = [] ∧ m.StemsFrom Src := by
  unfold makeMethod
  split
  · exact appends_fail _
  · exact appends_pure ⟨rfl, h.function hf _ _ _⟩

/-! ### Classes -/

/-- All methods found so far are code of bodies of the source. -/
def MembersStem (Src : Source) (found : ClassMembers) : Prop := ∀ m ∈ found.methods, m.2.StemsFrom Src

theorem MembersStem.addMethod {found : ClassMembers} (h : MembersStem Src found) {name : String} {f : Function}
    (hf : f.StemsFrom Src) : MembersStem Src (found.addMethod name f) := by
  intro m hm
  unfold ClassMembers.addMethod at hm
  split at hm
  · obtain ⟨m', hm', rfl⟩ := List.mem_map.mp hm
    split
    · exact hf
    · exact h m' hm'
  · rcases List.mem_append.mp hm with hm | hm
    · exact h m hm
    · rw [List.mem_singleton.mp hm]
      exact hf

theorem MembersStem.addProperty {found : ClassMembers} (h : MembersStem Src found) (name : String) :
    MembersStem Src (found.addProperty name) := by
  unfold ClassMembers.addProperty
  split
  · exact h
  · exact h

theorem silent_beginClass {ds : List Nat} {id : Ident} {hasParent : Bool} :
    Silent Src ds (beginClass id hasParent span) ds := by
  refine silent_define.seq fun x => Silent.seq (silent_addConstant (c := .null) nofun) fun place => ?_
  refine Silent.seq (m := modify _) (silent_of_eq fun σ _ σ' hrun => ?_) fun _ => silent_pure _
  obtain rfl := modify_ok hrun
  exact ⟨rfl, rfl⟩

theorem appends_endClass {ds : List Nat} {x : Symbol} {place : Nat} {c : ClassConstant}
    (hc : ∀ m ∈ c.methods, m.2.StemsFrom Src) :
    Appends Src ds (endClass x place c span) ds fun _ os =>
      ∃ os', Origin.Stored span os' ∧ os = ⟨.constant, span⟩ :: os' := by
  have hfill : Silent Src ds (modify fun s : CompileState =>
      { s with classes := s.classes.tail, pool := s.pool.setIfInBounds place (.cls c) }) ds := by
    intro σ _ σ' hrun hσ
    obtain rfl := modify_ok hrun
    refine ⟨[], rfl, (List.append_nil _).symm, hσ.depths, hσ.sized, fun d hd => ?_⟩
    rcases Array.mem_or_eq_of_mem_setIfInBounds hd with hd | rfl
    · exact hσ.pool d hd
    · intro f hf
      obtain ⟨m, hm, rfl⟩ := List.mem_map.mp hf
      exact hc m hm
  exact hfill.seq fun _ => Appends.put rfl ((appends_storePop x).imp fun _ os hos => ⟨os, hos, rfl⟩)

/-- An expression that evaluates all of its operands. -/
theorem traces_strict {es : List Operand} {m : CompileM Unit} (hops : e.operands? = some es)
    (hc : Covers Src S (.expr e))
    (hm : Covers Src (S.up 0) (.operands e 0 es) → Appends Src S.depths m S.depths fun _ os => Rest S e 0 es os) :
    Traces Src S (.expr e) m := by
  have hform : Covers Src S (.form e) := hc.part (by simp [Site.parts])
  exact (hm (hform.part (Site.mem_formParts hops))).imp fun _ os hos => .expr (hos.form hops)

namespace TracesBelow

variable (h : TracesBelow Src n)

include h

/-! ### Lists -/

theorem stmts {ss : List Stmt} (hn : sizeOf ss + sizeOf S.cleanups ≤ n) (hc : Covers Src S (.stmts ss)) :
    Traces Src S (.stmts ss) (stmts S.cleanups ss) := by
  induction ss with
  | nil =>
    rw [CompileM.stmts]
    exact appends_pure .noStmts
  | cons s ss ih =>
    simp only [List.cons.sizeOf_spec] at hn
    rw [CompileM.stmts]
    refine (h.stmt (by omega) (hc.part (by simp [Site.parts]))).bind fun _ os hos => ?_
    exact (ih (by omega) (hc.part (by simp [Site.parts]))).imp fun _ os' hos' => .stmts hos hos'

/-- The next operand. -/
theorem operand {x : Expr} {xs : List Operand} {f : Unit → CompileM Unit} (hn : sizeOf x + sizeOf S.cleanups < n)
    (hc : Covers Src (S.up k) (.operands e k (.expr x :: xs)))
    (hf : Covers Src (S.up (k + 1)) (.operands e (k + 1) xs) →
      Appends Src S.depths (f ()) S.depths fun _ os => Rest S e (k + 1) xs os) :
    Appends Src S.depths (CompileM.expr S.cleanups x >>= f) S.depths fun _ os => Rest S e k (.expr x :: xs) os := by
  have hx : Traces Src (S.up k) (.expr x) (CompileM.expr S.cleanups x) :=
    h.expr (S := S.up k) hn (hc.part (by simp [Site.parts]))
  refine hx.bind fun _ os hos => (hf (hc.part (by simp [Site.parts, Site.up, Nat.add_assoc]))).imp fun _ os' hos' => ?_
  exact hos'.cons hos

/-- Operands that are expressions in a row, and what comes after them. -/
theorem exprs {es : List Expr} {f : Unit → CompileM Unit} (hn : sizeOf es + sizeOf S.cleanups ≤ n)
    (hc : Covers Src (S.up k) (.operands e k (es.map .expr)))
    (hf : ∀ k, Appends Src S.depths (f ()) S.depths fun _ os => Rest S e k [] os) :
    Appends Src S.depths (CompileM.exprs S.cleanups es >>= f) S.depths fun _ os => Rest S e k (es.map .expr) os := by
  induction es generalizing k with
  | nil =>
    rw [CompileM.exprs]
    exact (silent_pure ()).seq fun _ => hf k
  | cons x es ih =>
    simp only [List.cons.sizeOf_spec] at hn
    rw [CompileM.exprs, bind_assoc]
    exact h.operand (by omega) hc fun hc => ih (by omega) hc

theorem arrayElements {es : List Element} {f : Unit → CompileM Unit} (hn : sizeOf es + sizeOf S.cleanups ≤ n)
    (hc : Covers Src (S.up k) (.operands e k (es.map fun x => .expr x.value)))
    (hf : ∀ k, Appends Src S.depths (f ()) S.depths fun _ os => Rest S e k [] os) :
    Appends Src S.depths (CompileM.arrayElements S.cleanups es >>= f) S.depths fun _ os =>
      Rest S e k (es.map fun x => .expr x.value) os := by
  induction es generalizing k with
  | nil =>
    rw [CompileM.arrayElements]
    exact (silent_pure ()).seq fun _ => hf k
  | cons x es ih =>
    rcases x with ⟨key, value⟩
    simp only [List.cons.sizeOf_spec, Element.mk.sizeOf_spec] at hn
    rw [CompileM.arrayElements, bind_assoc]
    exact h.operand (by omega) hc fun hc => ih (by omega) hc

theorem mapElements {next : Int64} {es : List Element} {f : Unit → CompileM Unit}
    (hn : sizeOf es + sizeOf S.cleanups ≤ n)
    (hc : Covers Src (S.up k) (.operands e k (Operand.ofElements span next es)))
    (hf : ∀ k, Appends Src S.depths (f ()) S.depths fun _ os => Rest S e k [] os) :
    Appends Src S.depths (CompileM.mapElements S.cleanups span next es >>= f) S.depths fun _ os =>
      Rest S e k (Operand.ofElements span next es) os := by
  induction es generalizing k next with
  | nil =>
    rw [CompileM.mapElements]
    exact (silent_pure ()).seq fun _ => hf k
  | cons x es ih =>
    rcases x with ⟨key, value⟩
    cases key with
    | some key =>
      simp only [List.cons.sizeOf_spec, Element.mk.sizeOf_spec, Option.some.sizeOf_spec] at hn
      rw [CompileM.mapElements, bind_assoc]
      refine h.operand (by omega) hc fun hc => ?_
      rw [bind_assoc]
      exact h.operand (by omega) hc fun hc => ih (by omega) hc
    | none =>
      simp only [List.cons.sizeOf_spec, Element.mk.sizeOf_spec] at hn
      rw [CompileM.mapElements, bind_assoc]
      have hc' : Covers Src (S.up (k + 1))
          (.operands e (k + 1) (.expr value :: Operand.ofElements span (next + 1) es)) :=
        hc.part (by simp [Site.parts, Operand.ofElements, Site.up, Nat.add_assoc])
      refine (appends_emitConstant rfl).bind fun _ _ hos => ?_
      rw [hos, bind_assoc]
      refine (h.operand (by omega) hc' fun hc => ih (by omega) hc).imp fun _ os hos' => ?_
      obtain ⟨os', ops, horigins, hfinish, rfl⟩ := hos'
      exact ⟨_, ops, .index horigins, hfinish, rfl⟩

theorem pairs {ps : List (Expr × Expr)} {f : Unit → CompileM Unit} (hn : sizeOf ps + sizeOf S.cleanups ≤ n)
    (hc : Covers Src (S.up k) (.operands e k (Operand.ofPairs ps)))
    (hf : ∀ k, Appends Src S.depths (f ()) S.depths fun _ os => Rest S e k [] os) :
    Appends Src S.depths (CompileM.pairs S.cleanups ps >>= f) S.depths fun _ os =>
      Rest S e k (Operand.ofPairs ps) os := by
  induction ps generalizing k with
  | nil =>
    rw [CompileM.pairs]
    exact (silent_pure ()).seq fun _ => hf k
  | cons p ps ih =>
    rcases p with ⟨key, value⟩
    simp only [List.cons.sizeOf_spec, Prod.mk.sizeOf_spec] at hn
    rw [CompileM.pairs, bind_assoc]
    refine h.operand (by omega) hc fun hc => ?_
    rw [bind_assoc]
    exact h.operand (by omega) hc fun hc => ih (by omega) hc

/-! ### Functions and classes -/

theorem branch {b : Block} (hn : sizeOf b + sizeOf S.cleanups ≤ n) (hc : Covers Src S (.value b)) :
    Traces Src S (.value b) (branch S.cleanups b) := by
  rcases b with ⟨ss, span⟩
  simp only [Block.mk.sizeOf_spec] at hn
  exact traces_branch (h.stmts (by omega) (covers_value fun p hp => hc.part hp))

theorem alternative {b : Option Block} (hn : sizeOf b + sizeOf S.cleanups ≤ n)
    (hc : Covers Src S (.alternative b span)) :
    Traces Src S (.alternative b span) (alternative S.cleanups b span) := by
  cases b with
  | none =>
    rw [CompileM.alternative]
    exact appends_put rfl .noAlternative
  | some b =>
    simp only [Option.some.sizeOf_spec] at hn
    rw [CompileM.alternative]
    exact (h.branch (by omega) (hc.part (by simp [Site.parts]))).imp fun _ os hos => .alternative hos

/-- The statements of a function body. -/
theorem body {b : Block} (hn : sizeOf b < n) (hc : Covers Src .top (.body b)) :
    Traces Src .top (.stmts b.statements) (CompileM.stmts [] b.statements) := by
  rcases b with ⟨ss, span⟩
  simp only [Block.mk.sizeOf_spec] at hn
  refine h.stmts (S := .top) ?_ (covers_value fun p hp => hc.part hp)
  show sizeOf ss + sizeOf ([] : Regions) ≤ n
  simp only [List.nil.sizeOf_spec]
  omega

theorem functionLiteral {f : FunctionLiteral} {binding : Option String} (hn : sizeOf f < n)
    (hc : Covers Src S (.expr (.function f))) :
    Traces Src S (.expr (.function f)) (functionLiteral f binding) := by
  have hsize : sizeOf f.body < n := by
    rcases f with ⟨ownName, params, body, span⟩
    simp only [FunctionLiteral.mk.sizeOf_spec] at hn
    dsimp only
    omega
  have hform : Covers Src S (.form (.function f)) := hc.part (by simp [Site.parts])
  have hin : (Site.top, .body f.body) ∈ S.parts (.form (.function f)) := by simp [Site.parts, Site.formParts]
  rw [functionLiteral_eq]
  refine (appends_inFunction ?_ (h.body hsize (hform.part hin))).bind ?_
  · exact (silent_nameFunction _).seq fun _ => silent_defineParams _
  · rintro body _ ⟨rfl, hbody⟩
    exact traces_makeClosure hbody (hform.body hin)

theorem method {ds : List Nat} {cls name : String} {f : FunctionLiteral} (hn : sizeOf f < n) (hf : Src.body f.body)
    (hc : Covers Src .top (.body f.body)) :
    Appends Src ds (method cls f name) ds fun m os => os = [] ∧ m.StemsFrom Src := by
  have hsize : sizeOf f.body < n := by
    rcases f with ⟨ownName, params, body, span⟩
    simp only [FunctionLiteral.mk.sizeOf_spec] at hn
    dsimp only
    omega
  rw [method_eq]
  refine (appends_inFunction ?_ (h.body hsize hc)).bind ?_
  · exact silent_define.discard.seq fun _ => silent_defineParams _
  · rintro body _ ⟨rfl, hbody⟩
    exact appends_makeMethod hbody hf

theorem members {ds : List Nat} {cls : String} {body : List Stmt} {found : ClassMembers} (hn : sizeOf body ≤ n)
    (hc : ∀ b ∈ Site.methodBodies body, Src.body b ∧ Covers Src .top (.body b)) (hfound : MembersStem Src found) :
    Appends Src ds (members cls body found) ds fun found os => os = [] ∧ MembersStem Src found := by
  induction body generalizing found with
  | nil =>
    unfold CompileM.members
    exact appends_pure ⟨rfl, hfound⟩
  | cons s rest ih =>
    simp only [List.cons.sizeOf_spec] at hn
    have hrest : ∀ b ∈ Site.methodBodies rest, Src.body b ∧ Covers Src .top (.body b) := by
      intro b hb
      obtain ⟨t, ht, htb⟩ := List.mem_filterMap.mp hb
      exact hc b (List.mem_filterMap.mpr ⟨t, List.mem_cons_of_mem _ ht, htb⟩)
    have hmethod {f : FunctionLiteral} {name : String} (hf : sizeOf f < sizeOf s)
        (hbody : f.body ∈ Site.methodBodies (s :: rest)) :
        Appends Src ds (do
          let m ← CompileM.method cls f name
          CompileM.members cls rest (found.addMethod name m)) ds fun found os => os = [] ∧ MembersStem Src found := by
      obtain ⟨hsrc, hcovers⟩ := hc f.body hbody
      refine (h.method (by omega) hsrc hcovers).bind ?_
      rintro m _ ⟨rfl, hm⟩
      exact ih (by omega) hrest (hfound.addMethod hm)
    have hproperty (name : String) : Appends Src ds (CompileM.members cls rest (found.addProperty name)) ds
        fun found os => os = [] ∧ MembersStem Src found := ih (by omega) hrest (hfound.addProperty name)
    unfold CompileM.members
    split
    · next heq => cases heq
    · next heq =>
      cases heq
      refine hmethod ?_ (by simp [Site.methodBodies])
      simp only [Stmt.bind.sizeOf_spec, Expr.function.sizeOf_spec]
      omega
    · next heq =>
      cases heq
      exact hproperty _
    · next heq =>
      cases heq
      split
      · exact appends_fail _
      · refine hmethod ?_ (by simp [Site.methodBodies])
        simp only [Stmt.expr.sizeOf_spec, Expr.function.sizeOf_spec]
        omega
    · next heq =>
      cases heq
      exact hproperty _
    · exact appends_fail _

/-! ### Expressions -/

theorem binary {op : String} {left right : Expr} (hn : sizeOf left + sizeOf right + sizeOf S.cleanups < n)
    (hc : Covers Src S (.expr (.binary op left right span))) :
    Traces Src S (.expr (.binary op left right span)) (CompileM.expr S.cleanups (.binary op left right span)) := by
  have hform : Covers Src S (.form (.binary op left right span)) := hc.part (by simp [Site.parts])
  by_cases hand : op = "&&"
  · subst hand
    have hl := h.expr (S := S) (e := left) (by omega) (hform.part (by simp [Site.parts, Site.formParts]))
    have hr := h.expr (S := S) (e := right) (by omega) (hform.part (by simp [Site.parts, Site.formParts]))
    rw [CompileM.expr, if_pos (by decide)]
    refine hl.bind fun _ os hos => Appends.put rfl (Appends.emit rfl fun done => Appends.put rfl ?_)
    refine hr.bind fun _ os' hos' => (silent_patchHere done).imp fun _ _ hnone => ?_
    rw [hnone, List.append_nil]
    exact .expr (.and hos hos')
  by_cases hor : op = "||"
  · subst hor
    have hl := h.expr (S := S) (e := left) (by omega) (hform.part (by simp [Site.parts, Site.formParts]))
    have hr := h.expr (S := S) (e := right) (by omega) (hform.part (by simp [Site.parts, Site.formParts]))
    rw [CompileM.expr, if_neg (by decide), if_pos (by decide)]
    refine hl.bind fun _ os hos => Appends.put rfl (Appends.emit rfl fun rest => Appends.emit rfl fun done => ?_)
    refine (silent_patchHere rest).seq fun _ => Appends.put rfl ?_
    refine hr.bind fun _ os' hos' => (silent_patchHere done).imp fun _ _ hnone => ?_
    rw [hnone, List.append_nil]
    exact .expr (.or hos hos')
  rw [CompileM.expr, if_neg (by simp [hand]), if_neg (by simp [hor])]
  cases hop : BinaryOp.ofText? op with
  | none => exact appends_fail _
  | some found =>
    obtain ⟨op', swap⟩ := found
    have hput {k : Nat} : Appends Src S.depths (put op'.opcode [] span) S.depths fun _ os =>
        Rest S (.binary op left right span) k [] os := by
      have hsized : ([] : List Nat).length = op'.opcode.widths.length := by cases op' <;> rfl
      exact appends_put hsized (rest_last ⟨op', swap, hop, rfl⟩)
    cases swap with
    | true =>
      have hops : (Expr.binary op left right span).operands? = some [.expr right, .expr left] := by
        simp [Expr.operands?, hand, hor, hop]
      exact traces_strict hops hc fun hc => h.operand (by omega) hc fun hc => h.operand (by omega) hc fun _ => hput
    | false =>
      have hops : (Expr.binary op left right span).operands? = some [.expr left, .expr right] := by
        simp [Expr.operands?, hand, hor, hop]
      exact traces_strict hops hc fun hc => h.operand (by omega) hc fun hc => h.operand (by omega) hc fun _ => hput

/-- A member is invoked, and so is a method of the parent; anything else is called. -/
theorem call {callee : Expr} {args : List Expr} (hn : sizeOf callee + sizeOf args + sizeOf S.cleanups < n)
    (hc : Covers Src S (.expr (.call callee args span))) :
    Traces Src S (.expr (.call callee args span)) (CompileM.expr S.cleanups (.call callee args span)) := by
  cases callee with
  | member target member _ =>
    simp only [Expr.member.sizeOf_spec] at hn
    rw [CompileM.expr]
    refine traces_strict rfl hc fun hc => h.operand (by omega) hc fun hc => (silent_checkArgs _).seq fun _ => ?_
    exact h.exprs (by omega) hc fun k => (silent_addName _).seq fun place => appends_put rfl (rest_last rfl)
  | super method superSpan =>
    rw [CompileM.expr]
    refine traces_strict rfl hc fun hc => silent_superClass.seq fun ctx => appends_this.bind fun _ os hos => ?_
    have hthis : Origins (S.up 0) (.expr (.this superSpan)) os := by
      obtain ⟨op, hop, rfl⟩ := hos
      exact .expr ((rest_last (e := .this superSpan) (k := 0) ⟨op, hop, rfl⟩).form rfl)
    refine (silent_checkArgs _).seq fun _ => ?_
    refine (h.exprs (k := 1) (by omega) (hc.part (by simp [Site.parts, Site.up])) fun k => ?_).imp
      fun _ os' hos' => hos'.cons hthis
    exact Appends.put rfl ((silent_addName _).seq fun place => appends_put rfl (@rest_nil _ _ _ [_, _] rfl))
  | _ =>
    have hlt := Nat.lt_of_le_of_lt (Nat.add_le_add_right (Nat.le_add_right _ _) _) hn
    rw [CompileM.expr.eq_def]
    refine traces_strict rfl hc fun hc => h.operand hlt hc fun hc => (silent_checkArgs _).seq fun _ => ?_
    exact h.exprs (by omega) hc fun k => appends_put rfl (rest_last rfl)

theorem array {es : List Element} {ordered : Bool} (hn : sizeOf es + sizeOf S.cleanups ≤ n)
    (hc : Covers Src S (.expr (.array es ordered span))) :
    Traces Src S (.expr (.array es ordered span)) (CompileM.expr S.cleanups (.array es ordered span)) := by
  rw [CompileM.expr]
  cases hmap : Element.makeOrderedMap es ordered with
  | true =>
    have hops : (Expr.array es ordered span).operands? = some (Operand.ofElements span 0 es) := by
      simp [Expr.operands?, hmap]
    have hfinish : (Expr.array es ordered span).Finish [.orderedMap] := by simp [Expr.Finish, hmap]
    exact traces_strict hops hc fun hc => h.mapElements hn hc fun k => appends_put rfl (rest_last hfinish)
  | false =>
    have hops : (Expr.array es ordered span).operands? = some (es.map fun x => .expr x.value) := by
      simp [Expr.operands?, hmap]
    have hfinish : (Expr.array es ordered span).Finish [.array] := by simp [Expr.Finish, hmap]
    exact traces_strict hops hc fun hc => h.arrayElements hn hc fun k => appends_put rfl (rest_last hfinish)

theorem unary {op : String} {operand : Expr} (hn : sizeOf operand + sizeOf S.cleanups < n)
    (hc : Covers Src S (.expr (.unary op operand span))) :
    Traces Src S (.expr (.unary op operand span)) (CompileM.expr S.cleanups (.unary op operand span)) := by
  rw [CompileM.expr]
  refine appends_unaryOpcode.bind ?_
  rintro opcode _ ⟨rfl, rfl⟩
  have hsized : ([] : List Nat).length = (if op = "-" then Opcode.negate else .not).widths.length := by split <;> rfl
  exact traces_strict rfl hc fun hc => h.operand hn hc fun _ => appends_put hsized (rest_last rfl)

/-- What holds of all that is smaller holds of an expression. -/
theorem exprForm (hn : sizeOf e + sizeOf S.cleanups ≤ n) (hc : Covers Src S (.expr e)) :
    Traces Src S (.expr e) (CompileM.expr S.cleanups e) := by
  have hpos := Regions.sizeOf_pos S.cleanups
  have hform : Covers Src S (.form e) := hc.part (by simp [Site.parts])
  cases e with
  | literal l span =>
    rw [CompileM.expr]
    exact traces_strict rfl hc fun _ => (appends_literal l).imp fun _ os hos => hos ▸ rest_last rfl
  | ident id =>
    rw [CompileM.expr]
    refine traces_strict rfl hc fun _ => (silent_resolve _).seq fun x => (appends_load x).imp ?_
    rintro _ _ ⟨op, hop, rfl⟩
    exact rest_last ⟨op, hop, rfl⟩
  | unary op operand span =>
    simp only [Expr.unary.sizeOf_spec] at hn
    exact h.unary (by omega) hc
  | binary op left right span =>
    simp only [Expr.binary.sizeOf_spec] at hn
    exact h.binary (by omega) hc
  | ternary condition yes no span =>
    simp only [Expr.ternary.sizeOf_spec] at hn
    rw [CompileM.expr]
    refine (h.expr (by omega) (hform.part (by simp [Site.parts, Site.formParts]))).bind fun _ os₁ hos₁ =>
      Appends.emit rfl fun skip => ?_
    refine (h.expr (by omega) (hform.part (by simp [Site.parts, Site.formParts]))).bind fun _ os₂ hos₂ =>
      Appends.emit rfl fun done => (silent_patchHere skip).seq fun _ => ?_
    refine (h.expr (by omega) (hform.part (by simp [Site.parts, Site.formParts]))).bind fun _ os₃ hos₃ =>
      (silent_patchHere done).imp fun _ _ hnone => ?_
    rw [hnone, List.append_nil]
    exact .expr (.ternary hos₁ hos₂ hos₃)
  | cond condition yes no span =>
    simp only [Expr.cond.sizeOf_spec] at hn
    rw [CompileM.expr]
    refine (h.expr (by omega) (hform.part (by simp [Site.parts, Site.formParts]))).bind fun _ os₁ hos₁ =>
      Appends.emit rfl fun skip => ?_
    refine (h.branch (by omega) (hform.part (by simp [Site.parts, Site.formParts]))).bind fun _ os₂ hos₂ =>
      Appends.emit rfl fun done => (silent_patchHere skip).seq fun _ => ?_
    refine (h.alternative (by omega) (hform.part (by simp [Site.parts, Site.formParts]))).bind fun _ os₃ hos₃ =>
      (silent_patchHere done).imp fun _ _ hnone => ?_
    rw [hnone, List.append_nil]
    exact .expr (.cond hos₁ hos₂ hos₃)
  | «function» f =>
    simp only [Expr.function.sizeOf_spec] at hn
    rw [CompileM.expr]
    exact h.functionLiteral (by omega) hc
  | call callee args span =>
    simp only [Expr.call.sizeOf_spec] at hn
    exact h.call (by omega) hc
  | array es ordered span =>
    simp only [Expr.array.sizeOf_spec] at hn
    exact h.array (by omega) hc
  | index target index span =>
    simp only [Expr.index.sizeOf_spec] at hn
    rw [CompileM.expr]
    exact traces_strict rfl hc fun hc => h.operand (by omega) hc fun hc => h.operand (by omega) hc fun _ =>
      appends_put rfl (rest_last rfl)
  | hash ps span =>
    simp only [Expr.hash.sizeOf_spec] at hn
    rw [CompileM.expr]
    exact traces_strict rfl hc fun hc => h.pairs (by omega) hc fun k => appends_put rfl (rest_last rfl)
  | assign target value span =>
    simp only [Expr.assign.sizeOf_spec] at hn
    rw [CompileM.expr]
    refine (silent_resolve _).seq fun x => ?_
    split
    · exact appends_fail _
    · refine traces_strict rfl hc fun hc => h.operand (by omega) hc fun _ => (appends_store x).imp ?_
      rintro _ _ ⟨op, hop, rfl⟩
      exact rest_last ⟨op, hop, rfl⟩
  | indexAssign target index value span =>
    simp only [Expr.indexAssign.sizeOf_spec] at hn
    rw [CompileM.expr]
    exact traces_strict rfl hc fun hc => h.operand (by omega) hc fun hc => h.operand (by omega) hc fun hc =>
      h.operand (by omega) hc fun _ => appends_put rfl (rest_last rfl)
  | member target member span =>
    simp only [Expr.member.sizeOf_spec] at hn
    rw [CompileM.expr]
    exact traces_strict rfl hc fun hc => h.operand (by omega) hc fun _ => (silent_addName _).seq fun place =>
      appends_put rfl (rest_last rfl)
  | memberAssign target member value span =>
    simp only [Expr.memberAssign.sizeOf_spec] at hn
    rw [CompileM.expr]
    exact traces_strict rfl hc fun hc => h.operand (by omega) hc fun hc => h.operand (by omega) hc fun _ =>
      (silent_addName _).seq fun place => appends_put rfl (rest_last rfl)
  | spawn callee args span =>
    simp only [Expr.spawn.sizeOf_spec] at hn
    rw [CompileM.expr]
    refine traces_strict rfl hc fun hc => h.operand (by omega) hc fun hc => (silent_checkArgs _).seq fun _ => ?_
    exact h.exprs (by omega) hc fun k => appends_put rfl (rest_last rfl)
  | channel capacity span =>
    cases capacity with
    | none =>
      rw [CompileM.expr]
      exact traces_strict rfl hc fun _ => appends_put rfl (rest_last rfl)
    | some capacity =>
      simp only [Expr.channel.sizeOf_spec, Option.some.sizeOf_spec] at hn
      rw [CompileM.expr]
      exact traces_strict rfl hc fun hc => h.operand (by omega) hc fun _ => appends_put rfl (rest_last rfl)
  | send channel value span =>
    simp only [Expr.send.sizeOf_spec] at hn
    rw [CompileM.expr]
    exact traces_strict rfl hc fun hc => h.operand (by omega) hc fun hc => h.operand (by omega) hc fun _ =>
      appends_put rfl (rest_last rfl)
  | receive channel span =>
    simp only [Expr.receive.sizeOf_spec] at hn
    rw [CompileM.expr]
    exact traces_strict rfl hc fun hc => h.operand (by omega) hc fun _ => appends_put rfl (rest_last rfl)
  | this span =>
    rw [CompileM.expr]
    refine traces_strict rfl hc fun _ => appends_this.imp ?_
    rintro _ _ ⟨op, hop, rfl⟩
    exact rest_last ⟨op, hop, rfl⟩
  | super name span =>
    rw [CompileM.expr]
    exact appends_fail _

/-! ### Statements -/

/-- The finally bodies of the regions that are left. -/
theorem exitRegions {depth : Nat} (hn : sizeOf S.cleanups ≤ n) (hc : Covers Src S (.exits depth span)) :
    Traces Src S (.exits depth span) (exitRegions S.cleanups depth span) := by
  induction hR : S.cleanups generalizing S with
  | nil =>
    rw [CompileM.exitRegions]
    refine appends_pure (.noExits ?_)
    rw [hR]
    exact Nat.zero_le _
  | cons cleanup outer ih =>
    rw [hR] at hn
    simp only [List.cons.sizeOf_spec] at hn
    rw [CompileM.exitRegions]
    split
    · next hle =>
      have hrest := ih (S := S.leave outer) (show sizeOf outer ≤ n by omega)
        (hc.part (by simp [Site.parts, Site.exitParts, hR, hle])) rfl
      rw [Traces, Site.depths_leave] at hrest
      refine .withOffset fun _ => Appends.emitJumpTo rfl ?_
      cases cleanup with
      | none => exact hrest.imp fun _ os hos => .exits hR hle .noStmts hos
      | some b =>
        rcases b with ⟨ss, s⟩
        simp only [Option.some.sizeOf_spec, Block.mk.sizeOf_spec] at hn
        have hss := h.stmts (S := S.leave outer) (show sizeOf ss + sizeOf outer ≤ n by omega)
          (hc.part (by simp [Site.parts, Site.exitParts, hR, hle]))
        rw [Traces, Site.depths_leave] at hss
        exact hss.bind fun _ os hos => hrest.imp fun _ os' hos' => .exits hR hle hos hos'
    · next hlt =>
      refine appends_pure (.noExits ?_)
      rw [hR, List.length_cons]
      omega

theorem optStmt {s : Option Stmt} (hn : sizeOf s + sizeOf S.cleanups ≤ n) (hc : Covers Src S (.optStmt s)) :
    Traces Src S (.optStmt s) (optStmt S.cleanups s) := by
  cases s with
  | none =>
    rw [CompileM.optStmt]
    exact appends_pure .noOptStmt
  | some s =>
    simp only [Option.some.sizeOf_spec] at hn
    rw [CompileM.optStmt]
    exact (h.stmt (by omega) (hc.part (by simp [Site.parts]))).imp fun _ os hos => .optStmt hos

theorem loopTest {condition : Option Expr} (hn : sizeOf condition + sizeOf S.cleanups ≤ n)
    (hc : Covers Src S (.test condition span)) :
    Appends Src S.depths (loopTest S.cleanups condition span) S.depths fun _ os =>
      Origins S (.test condition span) os := by
  cases condition with
  | none =>
    rw [CompileM.loopTest]
    exact appends_pure .noTest
  | some condition =>
    simp only [Option.some.sizeOf_spec] at hn
    rw [CompileM.loopTest]
    exact (h.expr (by omega) (hc.part (by simp [Site.parts]))).bind fun _ os hos => Appends.emit rfl fun exit =>
      appends_pure (.test hos)

theorem loopUpdate {update : Option Expr} (hn : sizeOf update + sizeOf S.cleanups ≤ n)
    (hc : Covers Src S (.update update span)) :
    Traces Src S (.update update span) (loopUpdate S.cleanups update span) := by
  cases update with
  | none =>
    rw [CompileM.loopUpdate]
    exact appends_pure .noUpdate
  | some update =>
    simp only [Option.some.sizeOf_spec] at hn
    rw [CompileM.loopUpdate]
    exact (h.expr (by omega) (hc.part (by simp [Site.parts]))).bind fun _ os hos => appends_put rfl (.update hos)

/-- A declaration, by the form of its value. -/
theorem bind {name : Ident} {value : Expr} {constant : Bool} (hn : sizeOf value + sizeOf S.cleanups < n)
    (hc : Covers Src S (.stmt (.bind name value constant span))) :
    Traces Src S (.stmt (.bind name value constant span))
      (CompileM.stmt S.cleanups (.bind name value constant span)) := by
  have haction : Covers Src S (.action (.bind name value constant span)) := hc.part (by simp [Site.parts])
  have hvalue : Covers Src S (.expr value) := haction.part (by simp [Site.parts, Site.actionParts])
  have hstore : Appends Src S.depths (do
      let symbol ← define name.name constant name.span
      store symbol span
      put .pop [] span) S.depths fun _ os => Origin.Stored span os :=
    silent_define.seq fun x => appends_storePop x
  cases value with
  | «function» f =>
    simp only [Expr.function.sizeOf_spec] at hn
    rw [CompileM.stmt]
    exact (h.functionLiteral (by omega) hvalue).bind fun _ os hos => hstore.imp fun _ os' hos' => .stmt (.bind hos hos')
  | _ =>
    have hexpr := h.expr hn hvalue
    rw [CompileM.stmt.eq_def]
    exact hexpr.bind fun _ os hos => hstore.imp fun _ os' hos' => .stmt (.bind hos hos')

theorem ret {value : Option Expr} (hn : sizeOf value + sizeOf S.cleanups < n)
    (hc : Covers Src S (.action (.ret value span))) :
    Traces Src S (.stmt (.ret value span)) (CompileM.stmt S.cleanups (.ret value span)) := by
  rw [CompileM.stmt.eq_def]
  refine .withState fun σ => ?_
  split
  · exact appends_fail _
  · cases value with
    | none =>
      have hexits : Traces Src S (.exits 0 span) (CompileM.exitRegions S.cleanups 0 span) :=
        h.exitRegions (by omega) (hc.part (by simp [Site.parts, Site.actionParts]))
      exact hexits.bind fun _ os hos => appends_put rfl (.stmt (.retNull hos))
    | some value =>
      simp only [Option.some.sizeOf_spec] at hn
      have hexits : Traces Src (S.up 1) (.exits 0 span) (CompileM.exitRegions S.cleanups 0 span) :=
        h.exitRegions (show sizeOf S.cleanups ≤ n by omega) (hc.part (by simp [Site.parts, Site.actionParts]))
      refine (h.expr (by omega) (hc.part (by simp [Site.parts, Site.actionParts]))).bind fun _ os hos => ?_
      exact hexits.bind fun _ os' hos' => appends_put rfl (.stmt (.ret hos hos'))

theorem forLoop {init : Option Stmt} {condition update : Option Expr} {body : Block}
    (hn : sizeOf init + sizeOf condition + sizeOf update + sizeOf body + sizeOf S.cleanups < n)
    (hc : Covers Src S (.action (.forLoop init condition update body span))) :
    Traces Src S (.stmt (.forLoop init condition update body span))
      (CompileM.stmt S.cleanups (.forLoop init condition update body span)) := by
  rcases body with ⟨ss, s⟩
  simp only [Block.mk.sizeOf_spec] at hn
  have hinit := h.optStmt (S := S) (s := init) (by omega) (hc.part (by simp [Site.parts, Site.actionParts]))
  have htest : Appends Src (S.loop false).depths (CompileM.loopTest S.cleanups condition span) (S.loop false).depths
      fun _ os => Origins (S.loop false) (.test condition span) os :=
    h.loopTest (show sizeOf condition + sizeOf S.cleanups ≤ n by omega)
      (hc.part (by simp [Site.parts, Site.actionParts]))
  have hbody := h.stmts (S := S.loop false) (show sizeOf ss + sizeOf S.cleanups ≤ n by omega)
    (hc.part (by simp [Site.parts, Site.actionParts]))
  have hupdate : Traces Src (S.loop true) (.update update span) (CompileM.loopUpdate S.cleanups update span) :=
    h.loopUpdate (show sizeOf update + sizeOf S.cleanups ≤ n by omega)
      (hc.part (by simp [Site.parts, Site.actionParts]))
  rw [CompileM.stmt]
  refine hinit.bind fun _ os₀ hos₀ => .withOffset fun start => (silent_enterLoop _ _).seq fun _ => ?_
  refine htest.bind fun exits os₁ hos₁ => hbody.bind fun _ os₂ hos₂ => silent_placeContinues.seq fun _ => ?_
  refine hupdate.bind fun _ os₃ hos₃ => Appends.emitJumpTo rfl ((silent_patchAllHere exits).seq fun _ => ?_)
  exact silent_leaveLoop.imp fun _ _ hnone => hnone ▸ .stmt (.for hos₀ hos₁ hos₂ hos₃)

theorem whileLoop {condition : Expr} {body : Block} (hn : sizeOf condition + sizeOf body + sizeOf S.cleanups < n)
    (hc : Covers Src S (.action (.whileLoop condition body span))) :
    Traces Src S (.stmt (.whileLoop condition body span))
      (CompileM.stmt S.cleanups (.whileLoop condition body span)) := by
  rcases body with ⟨ss, s⟩
  simp only [Block.mk.sizeOf_spec] at hn
  have hcondition := h.expr (S := S.loop false) (e := condition)
    (show sizeOf condition + sizeOf S.cleanups < n by omega) (hc.part (by simp [Site.parts, Site.actionParts]))
  have hbody := h.stmts (S := S.loop false) (show sizeOf ss + sizeOf S.cleanups ≤ n by omega)
    (hc.part (by simp [Site.parts, Site.actionParts]))
  rw [CompileM.stmt]
  refine .withOffset fun start => (silent_enterLoop _ _).seq fun _ => hcondition.bind fun _ os hos => ?_
  refine Appends.emit rfl fun exit => hbody.bind fun _ os' hos' => Appends.emitJumpTo rfl ?_
  refine (silent_patchHere exit).seq fun _ => ?_
  exact silent_leaveLoop.imp fun _ _ hnone => hnone ▸ .stmt (.while hos hos')

/-- The way out of the regions inside the innermost loop. -/
theorem leaveRegions {m : Misplaced} {after : LoopContext → CompileM Unit} {s : Stmt} (hn : sizeOf S.cleanups ≤ n)
    (hc : ∀ l ls, S.loops = l :: ls → Covers Src S (.exits l.depth span))
    (hafter : ∀ ctx l ls os, S.loops = l :: ls → Origins S (.exits l.depth span) os →
      Appends Src S.depths (after ctx) S.depths fun _ os' => Origins S (.action s) (os ++ os')) :
    Traces Src S (.stmt s) (do
      let ctx ← innermostLoop m span
      CompileM.exitRegions S.cleanups ctx.tryDepth span
      after ctx) := by
  refine (appends_innermostLoop m).bind ?_
  rintro ctx _ ⟨rfl, hhead⟩
  unfold Site.depths at hhead
  cases hloops : S.loops with
  | nil =>
    rw [hloops] at hhead
    cases hhead
  | cons l ls =>
    rw [hloops] at hhead
    have hdepth : l.depth = ctx.tryDepth := Option.some.inj hhead
    rw [← hdepth]
    refine (h.exitRegions hn (hc l ls hloops)).bind fun _ os hos => ?_
    exact (hafter ctx l ls os hloops hos).imp fun _ _ hos' => .stmt hos'

theorem tryCatch {body : Block} {handler : Option CatchClause} {cleanup : Option Block}
    (hn : sizeOf body + sizeOf handler + sizeOf cleanup + sizeOf S.cleanups < n)
    (hc : Covers Src S (.action (.tryCatch body handler cleanup span))) :
    Traces Src S (.stmt (.tryCatch body handler cleanup span))
      (CompileM.stmt S.cleanups (.tryCatch body handler cleanup span)) := by
  rcases body with ⟨ss, s⟩
  have hregion (ss : List Stmt) (hss : sizeOf ss + sizeOf cleanup + sizeOf S.cleanups < n)
      (hcovers : Covers Src (S.enter cleanup) (.stmts ss)) :
      Traces Src (S.enter cleanup) (.stmts ss) (CompileM.stmts (cleanup :: S.cleanups) ss) := by
    refine h.stmts (S := S.enter cleanup) ?_ hcovers
    show sizeOf ss + sizeOf (cleanup :: S.cleanups) ≤ n
    simp only [List.cons.sizeOf_spec]
    omega
  rcases handler with _ | ⟨param, hs, s'⟩
  · rcases cleanup with _ | ⟨cs, s''⟩
    · simp only [Block.mk.sizeOf_spec] at hn
      rw [CompileM.stmt]
      exact (h.stmts (by omega) (hc.part (by simp [Site.parts, Site.actionParts]))).imp fun _ os hos =>
        .stmt (.tryNone hos)
    · simp only [Block.mk.sizeOf_spec, Option.none.sizeOf_spec, Option.some.sizeOf_spec] at hn hregion
      have hbody := hregion ss (by omega) (hc.part (by simp [Site.parts, Site.actionParts]))
      have hcleanup := h.stmts (S := S.up 2) (show sizeOf cs + sizeOf S.cleanups ≤ n by omega)
        (hc.part (by simp [Site.parts, Site.actionParts]))
      rw [CompileM.stmt]
      refine Appends.emit rfl fun enter => hbody.bind fun _ os hos => Appends.emit rfl fun leave => ?_
      refine (silent_patchHere leave).seq fun _ => Appends.put rfl (Appends.put rfl (.withOffset fun _ => ?_))
      refine (silent_patch _ _ _).seq fun _ => hcleanup.bind fun _ os' hos' => appends_put rfl ?_
      exact .stmt (.tryFinally hos hos')
  · rcases cleanup with _ | ⟨cs, s''⟩
    · simp only [Block.mk.sizeOf_spec, Option.none.sizeOf_spec, Option.some.sizeOf_spec,
        CatchClause.mk.sizeOf_spec] at hn hregion
      have hbody := hregion ss (by omega) (hc.part (by simp [Site.parts, Site.actionParts]))
      have hhandler := h.stmts (S := S) (show sizeOf hs + sizeOf S.cleanups ≤ n by omega)
        (hc.part (by simp [Site.parts, Site.actionParts]))
      rw [CompileM.stmt]
      refine Appends.emit rfl fun enter => hbody.bind fun _ os₁ hos₁ => Appends.emit rfl fun leave => ?_
      refine .withOffset fun _ => (silent_patch _ _ _).seq fun _ => ?_
      refine (appends_bindThrown param).bind fun _ os₂ hos₂ => hhandler.bind fun _ os₃ hos₃ => ?_
      refine Appends.emit rfl fun skip => (silent_patchAllHere _).imp fun _ _ hnone => ?_
      exact hnone ▸ .stmt (.tryCatch hos₁ hos₂ hos₃)
    · simp only [Block.mk.sizeOf_spec, Option.some.sizeOf_spec, CatchClause.mk.sizeOf_spec] at hn hregion
      have hbody := hregion ss (by omega) (hc.part (by simp [Site.parts, Site.actionParts]))
      have hhandler := hregion hs (by omega) (hc.part (by simp [Site.parts, Site.actionParts]))
      have hcleanup := h.stmts (S := S.up 2) (show sizeOf cs + sizeOf S.cleanups ≤ n by omega)
        (hc.part (by simp [Site.parts, Site.actionParts]))
      rw [CompileM.stmt]
      refine Appends.emit rfl fun enter => hbody.bind fun _ os₁ hos₁ => Appends.emit rfl fun leave => ?_
      refine .withOffset fun _ => (silent_patch _ _ _).seq fun _ => ?_
      refine (appends_bindThrown param).bind fun _ os₂ hos₂ => Appends.emit rfl fun enterHandler => ?_
      refine hhandler.bind fun _ os₃ hos₃ => Appends.emit rfl fun leaveHandler => ?_
      refine (silent_patchAllHere _).seq fun _ => Appends.put rfl (Appends.put rfl (.withOffset fun _ => ?_))
      refine (silent_patch _ _ _).seq fun _ => (silent_patch _ _ _).seq fun _ => ?_
      exact hcleanup.bind fun _ os₄ hos₄ => appends_put rfl (.stmt (.tryBoth hos₁ hos₂ hos₃ hos₄))

/-- What holds of all that is smaller holds of a statement. -/
theorem stmtForm {s : Stmt} (hn : sizeOf s + sizeOf S.cleanups ≤ n) (hc : Covers Src S (.stmt s)) :
    Traces Src S (.stmt s) (CompileM.stmt S.cleanups s) := by
  have hpos := Regions.sizeOf_pos S.cleanups
  have haction : Covers Src S (.action s) := hc.part (by simp [Site.parts])
  cases s with
  | bind name value constant span =>
    simp only [Stmt.bind.sizeOf_spec] at hn
    exact h.bind (by omega) hc
  | expr e span =>
    simp only [Stmt.expr.sizeOf_spec] at hn
    rw [CompileM.stmt]
    exact (h.expr (by omega) (haction.part (by simp [Site.parts, Site.actionParts]))).bind fun _ os hos =>
      appends_put rfl (.stmt (.exprStmt hos))
  | block b =>
    rcases b with ⟨ss, s⟩
    simp only [Stmt.block.sizeOf_spec, Block.mk.sizeOf_spec] at hn
    rw [CompileM.stmt]
    exact (h.stmts (by omega) (haction.part (by simp [Site.parts, Site.actionParts]))).imp fun _ os hos =>
      .stmt (.block hos)
  | ret value span =>
    simp only [Stmt.ret.sizeOf_spec] at hn
    exact h.ret (by omega) haction
  | forLoop init condition update body span =>
    simp only [Stmt.forLoop.sizeOf_spec] at hn
    exact h.forLoop (by omega) haction
  | whileLoop condition body span =>
    simp only [Stmt.whileLoop.sizeOf_spec] at hn
    exact h.whileLoop (by omega) haction
  | breakLoop span =>
    simp only [Stmt.breakLoop.sizeOf_spec] at hn
    rw [CompileM.stmt]
    refine h.leaveRegions (by omega) (fun l ls hl => haction.part ?_) fun ctx l ls os hl hos => ?_
    · simp [Site.parts, Site.actionParts, hl]
    · refine Appends.emit rfl fun jump => Appends.imp (silent_modifyLoop ?_) fun _ _ hnone => ?_
      · exact fun c => rfl
      · rw [hnone]
        exact .brk hl hos
  | continueLoop span =>
    simp only [Stmt.continueLoop.sizeOf_spec] at hn
    rw [CompileM.stmt]
    refine h.leaveRegions (by omega) (fun l ls hl => haction.part ?_) fun ctx l ls os hl hos => ?_
    · simp [Site.parts, Site.actionParts, hl]
    · split
      · exact appends_emitJumpTo rfl (.cont hl hos)
      · refine Appends.emit rfl fun jump => Appends.imp (silent_modifyLoop ?_) fun _ _ hnone => ?_
        · exact fun c => rfl
        · rw [hnone]
          exact .cont hl hos
  | classDecl name parent body span =>
    simp only [Stmt.classDecl.sizeOf_spec] at hn
    have hbodies : ∀ b ∈ Site.methodBodies body, Src.body b ∧ Covers Src .top (.body b) := by
      intro b hb
      have hin : (Site.top, .body b) ∈ S.parts (.action (.classDecl name parent body span)) :=
        List.mem_map_of_mem hb
      exact ⟨haction.body hin, haction.part hin⟩
    rw [CompileM.stmt]
    refine silent_beginClass.seq fun found => (h.members (by omega) hbodies ?_).bind ?_
    · exact List.forall_mem_nil _
    rintro members _ ⟨rfl, hmembers⟩
    refine (appends_endClass ?_).imp ?_
    · exact hmembers
    · rintro _ _ ⟨os, hos, rfl⟩
      exact .stmt (.classDecl hos)
  | tryCatch body handler cleanup span =>
    simp only [Stmt.tryCatch.sizeOf_spec] at hn
    exact h.tryCatch (by omega) haction
  | throw value span =>
    simp only [Stmt.throw.sizeOf_spec] at hn
    rw [CompileM.stmt]
    exact (h.expr (by omega) (haction.part (by simp [Site.parts, Site.actionParts]))).bind fun _ os hos =>
      appends_put rfl (.stmt (.throw hos))

end TracesBelow

theorem tracesBelow (n : Nat) : TracesBelow Src n := by
  induction n with
  | zero => exact ⟨fun hn => absurd hn (Nat.not_lt_zero _), fun hn => absurd hn (Nat.not_lt_zero _)⟩
  | succ n ih =>
    exact ⟨fun hn hc => ih.exprForm (Nat.le_of_lt_succ hn) hc, fun hn hc => ih.stmtForm (Nat.le_of_lt_succ hn) hc⟩

/-- Compiling statements appends their instructions. -/
theorem traces_stmts {ss : List Stmt} (hc : Covers Src S (.stmts ss)) :
    Traces Src S (.stmts ss) (stmts S.cleanups ss) := (tracesBelow _).stmts (Nat.le_refl _) hc

end

end CompileM

end ScriptMachine
