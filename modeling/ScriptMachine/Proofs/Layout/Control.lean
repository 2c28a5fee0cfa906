import ScriptMachine.Proofs.Layout.Lowering

/-!
# The layout of statements

Statements, loops and protected regions: compiling each appends the code that the layout relation
describes. Loops and regions are entered before their targets are known, so each proof first takes
the run apart to its end, and then builds the code with the targets that the run came to.
-/

namespace ScriptMachine

open Point CompileM
open CompileState (Extends Emits InLoop emit_size emit_items patch_size withLoops)

section

variable {Src : Source} {Γ : Context} {R : Regions} {σ σ' σ₁ σ₂ : CompileState}
  {code : List Point} {e : Expr}

/-! ## Early exits -/

theorem lowers_exits_nil {depth : Nat} {span : Span} :
    Lowers Src [] (.exits depth span) (exitRegions [] depth span) := by
  intro Γ σ σ' h hr _
  rw [exitRegions] at h
  obtain ⟨-, rfl⟩ := pure_ok h
  have hnone : Γ.regions = [] := List.map_eq_nil_iff.mp hr.regions
  exact ⟨[], [], .noExits (by simp [hnone]), Extends.refl hr.ok⟩

theorem Ready.leave {outer : Regions} {rs : List Region} (h : Ready Src Γ R σ)
    (hrs : rs.map Region.cleanup = outer) : Ready Src (Γ.leave rs) outer σ := by
  refine ⟨hrs, ?_, h.ok⟩
  refine List.forall₂_map_left_iff.mpr (h.loops.imp ?_)
  intro l c hl
  exact ⟨hl.depth, hl.target, hl.known⟩

/-- The targets of a loop do not depend on which regions were left. -/
theorem CompileState.Extends.of_leave {loops : List Loop} {depth : Nat}
    (h : Extends Src (loops.map (Loop.leave depth)) σ σ' code) : Extends Src loops σ σ' code := by
  refine ⟨⟨?_, h.size⟩, h.toKeeps, ?_, ?_⟩
  · simpa using h.items
  · simpa using h.listed
  · intro p hp l n hl
    obtain ⟨hle, haims⟩ := h.settled p hp l n hl
    rw [List.length_map] at hle haims
    refine ⟨hle, fun hn => ?_⟩
    obtain ⟨loop, rest, hloops, haim⟩ := haims hn
    obtain ⟨loop', rest', rfl, rfl, -⟩ := List.map_eq_cons_iff.mp hloops
    refine ⟨loop', rest', rfl, ?_⟩
    cases l <;> exact haim

theorem lowers_exits_cons {cleanup : Option Block} {outer : Regions} {depth : Nat} {span : Span}
    (hcleanup : ∀ b, cleanup = some b → Lowers Src outer (.stmts b.statements) (stmts outer b.statements))
    (hrest : Lowers Src outer (.exits depth span) (exitRegions outer depth span)) :
    Lowers Src (cleanup :: outer) (.exits depth span) (exitRegions (cleanup :: outer) depth span) := by
  intro Γ σ σ' h hr hc
  obtain ⟨r, rs, hregions, hr₁, hrs⟩ := List.map_eq_cons_iff.mp hr.regions
  have hlen : rs.length = outer.length := by rw [← hrs, List.length_map]
  rw [exitRegions] at h
  by_cases hdepth : depth ≤ outer.length
  · rw [if_pos hdepth] at h
    obtain ⟨start, σ₁, hstart, h⟩ := bind_ok h
    obtain ⟨rfl, rfl⟩ := offset_ok hstart
    obtain ⟨_, σ₂, hend, h⟩ := bind_ok h
    obtain ⟨hlt, rfl⟩ := emitJumpTo_ok hend
    have hparts : Site.exitParts Γ.site depth span =
        cleanup.toList.map (fun b => ((Γ.leave rs).site, .stmts b.statements)) ++
          [((Γ.leave rs).site, .exits depth span)] := by
      have hcleanups : Γ.site.cleanups = cleanup :: outer := hr.regions
      rw [Context.site_leave, hrs]
      simp only [Site.exitParts, hcleanups, if_pos hdepth]
    have hend : Extends Src Γ.loops _ _
        [Γ.point σ.size 0 .finallyEnd [σ.size + 3] span] := extends_point (s := span) hr.ok rfl
    have hready : Ready Src (Γ.leave rs) outer
        (σ.emit .finallyEnd [σ.size + Opcode.length .finallyEnd] span) :=
      (hr.after hend).leave hrs
    -- the body of the region, if it has one
    have hbody : ∃ σ₃, Laid Src (Γ.leave rs) (.stmts (r.cleanup.elim [] Block.statements))
        (σ.emit .finallyEnd [σ.size + Opcode.length .finallyEnd] span) σ₃ ∧
        exitRegions outer depth span σ₃ = .ok () σ' := by
      rw [hr₁]
      cases cleanup with
      | none => exact ⟨_, ⟨[], [], .noStmts, Extends.refl hready.ok⟩, h⟩
      | some b =>
        obtain ⟨ss, s⟩ := b
        obtain ⟨_, σ₃, hrun, hrun'⟩ := bind_ok h
        refine ⟨σ₃, hcleanup ⟨ss, s⟩ rfl hrun hready (hc.part ?_), hrun'⟩
        show _ ∈ Site.exitParts _ _ _
        simp [hparts]
    obtain ⟨σ₃, ⟨c₁, n₁, hlays₁, hext₁⟩, hrun⟩ := hbody
    obtain ⟨c₂, n₂, hlays₂, hext₂⟩ := hrest hrun (hready.after hext₁) (hc.part (by
      show _ ∈ Site.exitParts _ _ _
      simp [hparts]))
    simp only [hext₁.size, emit_size, Opcode.lengths] at hlays₁ hlays₂
    simp only [Opcode.lengths] at hlt
    exact ⟨_, _, .exits hregions (hlen ▸ hdepth) hlays₁ hlays₂ hlt, hend.trans (hext₁.trans hext₂).of_leave⟩
  · rw [if_neg hdepth] at h
    obtain ⟨-, rfl⟩ := pure_ok h
    refine ⟨[], [], .noExits ?_, Extends.refl hr.ok⟩
    rw [hregions, List.length_cons, hlen]
    omega

/-! ## Statements -/

theorem Laid.stmt {s : Stmt} (h : Laid Src Γ (.action s) σ σ') : Laid Src Γ (.stmt s) σ σ' := by
  obtain ⟨code, notes, hlays, hext⟩ := h
  exact ⟨code, _, .stmt hlays, hext⟩

/-- The value of a declaration, and the instructions that bind it. -/
theorem laid_bind {name : Ident} {constant : Bool} {span : Span}
    (he : Laid Src Γ (.expr e) σ σ₁) (hσ : σ₁.Ok Src)
    (h : (define name.name constant name.span >>= fun symbol => store symbol span >>= fun _ =>
      put .pop [] span) σ₁ = .ok () σ₂) :
    Laid Src Γ (.action (.bind name e constant span)) σ σ₂ := by
  obtain ⟨code, notes, hlays, hext⟩ := he
  obtain ⟨tail, htail, hemits⟩ := bindPop_makes hσ h
  exact ⟨_, _, .bind hlays htail, hext.trans (hemits Γ.loops .nothing _ _ _)⟩

theorem lowers_bind_function {name : Ident} {f : FunctionLiteral} {constant : Bool} {span : Span}
    (hf : Lowers Src R (.form (.function f)) (functionLiteral f (some name.name))) :
    Lowers Src R (.action (.bind name (.function f) constant span))
      (stmt R (.bind name (.function f) constant span)) := by
  intro Γ σ σ' h hr hc
  rw [stmt] at h
  obtain ⟨_, σ₁, h₁, h₂⟩ := bind_ok h
  have hexpr : Covers Src Γ.site (.expr (.function f)) :=
    hc.part (by simp [Site.parts, Site.actionParts])
  have hl := (hf h₁ hr hexpr.form).expr
  exact laid_bind hl (hl.ready hr).ok h₂

theorem lowers_bind {name : Ident} {constant : Bool} {span : Span} (hnot : ∀ f, e ≠ .function f)
    (he : Lowers Src R (.expr e) (expr R e)) :
    Lowers Src R (.action (.bind name e constant span)) (stmt R (.bind name e constant span)) := by
  intro Γ σ σ' h hr hc
  rw [stmt] at h
  · obtain ⟨_, σ₁, h₁, h₂⟩ := bind_ok h
    have hl := he h₁ hr (hc.part (by simp [Site.parts, Site.actionParts]))
    exact laid_bind hl (hl.ready hr).ok h₂
  · exact hnot

theorem lowers_exprStmt {span : Span} (he : Lowers Src R (.expr e) (expr R e)) :
    Lowers Src R (.action (.expr e span)) (stmt R (.expr e span)) := by
  intro Γ σ σ' h hr hc
  rw [stmt] at h
  obtain ⟨_, σ₁, h₁, h₂⟩ := bind_ok h
  obtain ⟨code, notes, hlays, hext⟩ := he h₁ hr (hc.part (by simp [Site.parts, Site.actionParts]))
  obtain rfl := put_ok h₂
  exact ⟨_, _, .exprStmt hlays, hext.trans (extends_point hext.ok rfl)⟩

theorem lowers_throw {span : Span} (he : Lowers Src R (.expr e) (expr R e)) :
    Lowers Src R (.action (.throw e span)) (stmt R (.throw e span)) := by
  intro Γ σ σ' h hr hc
  rw [stmt] at h
  obtain ⟨_, σ₁, h₁, h₂⟩ := bind_ok h
  obtain ⟨code, notes, hlays, hext⟩ := he h₁ hr (hc.part (by simp [Site.parts, Site.actionParts]))
  obtain rfl := put_ok h₂
  exact ⟨_, _, .throw hlays, hext.trans (extends_point hext.ok rfl)⟩

theorem lowers_block {ss : List Stmt} {span : Span} (hss : Lowers Src R (.stmts ss) (stmts R ss)) :
    Lowers Src R (.action (.block ⟨ss, span⟩)) (stmt R (.block ⟨ss, span⟩)) := by
  intro Γ σ σ' h hr hc
  rw [stmt] at h
  obtain ⟨code, notes, hlays, hext⟩ := hss h hr (hc.part (by simp [Site.parts, Site.actionParts]))
  exact ⟨_, _, .block hlays, hext⟩

theorem lowers_ret_none {span : Span}
    (hexits : Lowers Src R (.exits 0 span) (exitRegions R 0 span)) :
    Lowers Src R (.action (.ret none span)) (stmt R (.ret none span)) := by
  intro Γ σ σ' h hr hc
  rw [stmt] at h
  obtain ⟨_, σ₁, hget, h⟩ := bind_ok h
  obtain ⟨rfl, rfl⟩ := get_ok hget
  split at h
  · exact (fail_ok h).elim
  · obtain ⟨_, σ₂, h₁, h₂⟩ := bind_ok h
    obtain ⟨code, notes, hlays, hext⟩ :=
      hexits h₁ hr (hc.part (by simp [Site.parts, Site.actionParts]))
    obtain rfl := put_ok h₂
    exact ⟨_, _, .retNull hlays, hext.trans (extends_point hext.ok rfl)⟩

theorem lowers_ret_some {span : Span} (he : Lowers Src R (.expr e) (expr R e))
    (hexits : Lowers Src R (.exits 0 span) (exitRegions R 0 span)) :
    Lowers Src R (.action (.ret (some e) span)) (stmt R (.ret (some e) span)) := by
  intro Γ σ σ' h hr hc
  rw [stmt] at h
  obtain ⟨_, σ₁, hget, h⟩ := bind_ok h
  obtain ⟨rfl, rfl⟩ := get_ok hget
  split at h
  · exact (fail_ok h).elim
  · obtain ⟨_, σ₂, h₁, h⟩ := bind_ok h
    obtain ⟨_, σ₃, h₂, h₃⟩ := bind_ok h
    obtain ⟨c₁, n₁, hlays₁, hext₁⟩ := he h₁ hr (hc.part (by simp [Site.parts, Site.actionParts]))
    obtain ⟨c₂, n₂, hlays₂, hext₂⟩ := hexits h₂ ((hr.after hext₁).up 1)
      (hc.part (T := (Γ.up 1).site) (List.mem_cons_of_mem _ List.mem_cons_self))
    rw [hext₁.size] at hlays₂
    obtain rfl := put_ok h₃
    exact ⟨_, _, .ret hlays₁ hlays₂, hext₁.trans (hext₂.trans (extends_point hext₂.ok rfl))⟩

theorem lowers_classDecl {name : Ident} {parent : Option Ident} {body : List Stmt} {span : Span}
    (hss : ∀ b ∈ Site.methodBodies body, Lowers Src [] (.stmts b.statements) (stmts [] b.statements)) :
    Lowers Src R (.action (.classDecl name parent body span)) (stmt R (.classDecl name parent body span)) := by
  intro Γ σ σ' h hr hc
  rw [stmt] at h
  obtain ⟨⟨symbol, place⟩, σ₁, h₁, h⟩ := bind_ok h
  obtain ⟨found, σ₂, h₂, h₃⟩ := bind_ok h
  have hcov : ∀ b ∈ Site.methodBodies body, Src.body b ∧ Covers Src .top (.body b) := by
    intro b hb
    have hmem : ((.top, .body b) : Site × Node) ∈
        Γ.site.parts (.action (.classDecl name parent body span)) :=
      List.mem_map.mpr ⟨b, hb, rfl⟩
    exact ⟨hc.body hmem, hc.part hmem⟩
  obtain ⟨hmembers, hfound⟩ := members_from hss hcov (beginClass_ok hr.ok h₁).1
    (by simp [ClassMembers.From, ClassMembers.empty]) h₂
  obtain ⟨tail, htail, hemits⟩ := classDecl_makes hr.ok h₁ hmembers (fun m hm => hfound m hm) h₃
  exact ⟨_, _, .classDecl htail, hemits Γ.loops .nothing _ _ _⟩

/-! ## Loops -/

/-- The innermost loop is the one that compilation has on record. -/
theorem Ready.innermost {c : LoopContext} {cs : List LoopContext} (hr : Ready Src Γ R σ)
    (hcs : σ.function.loops = c :: cs) : ∃ l ls, l.Fits c ∧ Γ.loops = l :: ls := by
  have hfits := hr.loops
  rw [hcs] at hfits
  obtain ⟨l, ls, hl, -, hloops⟩ := List.forall₂_cons_right_iff.mp hfits
  exact ⟨l, ls, hl, hloops⟩

theorem lowers_break {span : Span}
    (hexits : ∀ depth, Lowers Src R (.exits depth span) (exitRegions R depth span)) :
    Lowers Src R (.action (.breakLoop span)) (stmt R (.breakLoop span)) := by
  intro Γ σ σ' h hr hc
  rw [stmt] at h
  obtain ⟨ctx, σ₁, hloop, h⟩ := bind_ok h
  obtain ⟨cs, hcs, rfl⟩ := innermostLoop_ok hloop
  obtain ⟨_, σ₂, h₁, h⟩ := bind_ok h
  obtain ⟨place, σ₃, h₂, h₃⟩ := bind_ok h
  obtain ⟨l, ls, hl, hloops⟩ := hr.innermost hcs
  rw [hl.depth] at h₁
  obtain ⟨code, notes, hlays, hext⟩ := hexits _ h₁ hr
    (hc.part (by simp [Site.parts, Site.actionParts, Context.site, hloops]))
  obtain ⟨rfl, rfl⟩ := emit_ok h₂
  have hlisted := hext.listed
  rw [hcs] at hlisted
  obtain rfl := modifyLoop_ok (σ := σ₂.emit .jump [Opcode.noTarget] span) hlisted h₃
  have hleap := Extends.leap (l := .brk) hext.ok hloops
    (p := (Γ.exitTo l.regions.length).leap (σ.size + size code) .brk l.breakTo span) rfl rfl rfl rfl
  refine ⟨_, _, .brk hloops hlays, hext.trans ?_⟩
  rw [hlisted] at hleap
  simpa [LoopContext.listed, waiting, Context.leap, Context.exitTo] using hleap

theorem lowers_continue {span : Span}
    (hexits : ∀ depth, Lowers Src R (.exits depth span) (exitRegions R depth span)) :
    Lowers Src R (.action (.continueLoop span)) (stmt R (.continueLoop span)) := by
  intro Γ σ σ' h hr hc
  rw [stmt] at h
  obtain ⟨ctx, σ₁, hloop, h⟩ := bind_ok h
  obtain ⟨cs, hcs, rfl⟩ := innermostLoop_ok hloop
  obtain ⟨_, σ₂, h₁, h₂⟩ := bind_ok h
  obtain ⟨l, ls, hl, hloops⟩ := hr.innermost hcs
  rw [hl.depth] at h₁
  obtain ⟨code, notes, hlays, hext⟩ := hexits _ h₁ hr
    (hc.part (by simp [Site.parts, Site.actionParts, Context.site, hloops]))
  have htarget := hl.target
  cases hwaits : l.waits with
  | false =>
    -- the target is known
    obtain ⟨t, ht⟩ := Option.isSome_iff_exists.mp (hl.known hwaits)
    simp only [hwaits, ht, Bool.false_eq_true, if_false] at htarget
    simp only [htarget] at h₂
    obtain ⟨hlt, rfl⟩ := emitJumpTo_ok h₂
    exact ⟨_, _, .cont hloops hlays hwaits ht hlt, hext.trans (extends_point hext.ok rfl)⟩
  | true =>
    simp only [hwaits, if_true] at htarget
    simp only [htarget] at h₂
    obtain ⟨place, σ₃, h₃, h₄⟩ := bind_ok h₂
    obtain ⟨rfl, rfl⟩ := emit_ok h₃
    have hlisted := hext.listed
    rw [hcs] at hlisted
    obtain rfl := modifyLoop_ok (σ := σ₂.emit .jump [Opcode.noTarget] span) hlisted h₄
    have hleap := Extends.leap (l := .cont) hext.ok hloops
      (p := (Γ.exitTo l.regions.length).leap (σ.size + size code) .cont
        (l.continueTo.getD Opcode.noTarget) span) rfl rfl rfl ⟨hwaits, rfl⟩
    refine ⟨_, _, .contWait hloops hlays hwaits, hext.trans ?_⟩
    rw [hlisted] at hleap
    simpa [LoopContext.listed, waiting, Context.leap, Context.exitTo] using hleap

/-- Inside a loop that was just entered. -/
theorem Ready.loop (hr : Ready Src Γ R σ) (stop : Nat) (target continueTo : Option Nat) (waits : Bool)
    (htarget : target = if waits then none else continueTo)
    (hknown : waits = false → continueTo.isSome) :
    Ready Src (Γ.loop stop continueTo waits) R
      (σ.withLoops (⟨target, [], [], R.length⟩ :: σ.function.loops)) := by
  refine ⟨hr.regions, .cons ⟨?_, htarget, hknown⟩ hr.loops, hr.ok.congr rfl rfl rfl⟩
  rw [← hr.regions, List.length_map]

/-- The end of a loop: its `break` jumps are placed. -/
theorem laid_leave {loops : List Loop} {stop : Nat} {span : Span}
    (h : InLoop Src loops stop σ σ₁ code) (hstop : stop = σ₁.size)
    (hrun : leaveLoop span σ₁ = .ok () σ') :
    Extends Src loops σ σ' code ∧ (Waits .brk (loops.length + 1) code → stop < Opcode.noTarget) := by
  obtain ⟨c, hcs, -⟩ := h.listed
  obtain ⟨hext, hbreaks⟩ := h.leave hcs
  obtain ⟨hlt, rfl⟩ := leaveLoop_ok hcs hrun
  rw [← hstop] at hlt ⊢
  refine ⟨hext, ?_⟩
  intro hwaits
  refine hlt fun hnil => ?_
  rw [hbreaks] at hnil
  exact not_waits_of_waiting hnil hwaits

theorem lowers_while {c : Expr} {body : List Stmt} {s span : Span}
    (hcond : Lowers Src R (.expr c) (expr R c)) (hbody : Lowers Src R (.stmts body) (stmts R body)) :
    Lowers Src R (.action (.whileLoop c ⟨body, s⟩ span)) (stmt R (.whileLoop c ⟨body, s⟩ span)) := by
  intro Γ σ σ' h hr hc
  rw [stmt] at h
  obtain ⟨start, σ₀, h₀, h⟩ := bind_ok h
  obtain ⟨rfl, rfl⟩ := offset_ok h₀
  obtain ⟨_, σ₁, h₁, h⟩ := bind_ok h
  obtain ⟨_, σ₂, h₂, h⟩ := bind_ok h
  obtain ⟨exit, σ₃, h₃, h⟩ := bind_ok h
  obtain ⟨_, σ₄, h₄, h⟩ := bind_ok h
  obtain ⟨_, σ₅, h₅, h⟩ := bind_ok h
  obtain ⟨_, σ₆, h₆, h₇⟩ := bind_ok h
  obtain rfl := enterLoop_ok h₁
  obtain ⟨rfl, rfl⟩ := emit_ok h₃
  obtain ⟨-, rfl⟩ := emitJumpTo_ok h₅
  obtain ⟨hlt, rfl⟩ := patchHere_ok h₆
  generalize hstop : (σ₄.emit .jump [σ.size] span).size = stop at *
  -- the whole loop, with its end known in advance
  have hready := hr.loop stop (some σ.size) (some σ.size) false rfl (by simp)
  obtain ⟨c₁, n₁, hlays₁, hext₁⟩ := hcond h₂ hready
    (hc.part (by simp [Site.parts, Site.actionParts]))
  have hexit : Extends Src (Γ.loop stop (some σ.size) false).loops _ _
      [Γ.point (σ.size + size c₁) 1 .jumpIfFalse [Opcode.noTarget] span] :=
    extends_point (s := span) hext₁.ok rfl
  obtain ⟨c₂, n₂, hlays₂, hext₂⟩ := hbody h₄ ((hready.after hext₁).after hexit)
    (hc.part (by simp [Site.parts, Site.actionParts]))
  have hback : Extends Src (Γ.loop stop (some σ.size) false).loops _ _
      [Γ.point (σ.size + size c₁ + 3 + size c₂) 0 .jump [σ.size] span] :=
    extends_point (s := span) hext₂.ok rfl
  have henter : InLoop Src Γ.loops stop σ _ [] := InLoop.enter hr.ok (some σ.size) R.length
  have hin := henter.extend
    (hext₁.trans (hexit.trans (hext₂.trans hback))) rfl (by simp)
  have hsize₁ : σ₂.size = σ.size + size c₁ := hext₁.size
  have hsize₂ := hext₂.size
  simp only [emit_size, hsize₁, Opcode.lengths] at hlays₂ hsize₂
  simp only [emit_size, hsize₂, Opcode.lengths] at hstop
  have hplace : σ₂.items.length = σ.items.length + c₁.length := hext₁.length_items
  have hdone := InLoop.patch (k := 0) (t := stop) hin rfl hplace rfl
  obtain ⟨hext, -⟩ := laid_leave hdone (by simp [hsize₂, Opcode.lengths, ← hstop]) h₇
  refine ⟨_, _, .while hlays₁ hlays₂ hstop.symm hlt, ?_⟩
  simpa using hext

/-- The test of a loop: the code as it stands while the jump out of the loop waits, and as it stands
at the end. -/
theorem laid_test {condition : Option Expr} {span : Span} {exits : List Nat} {l : Loop} {ls : List Loop}
    (hcond : ∀ c, condition = some c → Lowers Src R (.expr c) (expr R c))
    (h : loopTest R condition span σ = .ok exits σ') (hr : Ready Src Γ R σ)
    (hc : Covers Src Γ.site (.test condition span)) (hloops : Γ.loops = l :: ls) :
    (condition = none ∧ exits = [] ∧ σ' = σ) ∨
      ∃ c code notes, condition = some c ∧ exits = [σ.items.length + code.length] ∧
        Lays Γ (.test condition span) σ.size
          (code ++ [Γ.point (σ.size + size code) 1 .jumpIfFalse [l.breakTo] span]) notes ∧
        Extends Src Γ.loops σ σ'
          (code ++ [Γ.point (σ.size + size code) 1 .jumpIfFalse [Opcode.noTarget] span]) := by
  cases condition with
  | none =>
    rw [loopTest] at h
    obtain ⟨rfl, rfl⟩ := pure_ok h
    exact .inl ⟨rfl, rfl, rfl⟩
  | some c =>
    rw [loopTest] at h
    obtain ⟨_, σ₁, h₁, h⟩ := bind_ok h
    obtain ⟨place, σ₂, h₂, h₃⟩ := bind_ok h
    obtain ⟨rfl, rfl⟩ := pure_ok h₃
    obtain ⟨rfl, rfl⟩ := emit_ok h₂
    obtain ⟨code, notes, hlays, hext⟩ := hcond c rfl h₁ hr (hc.part (by simp [Site.parts]))
    refine .inr ⟨c, code, notes, rfl, by rw [hext.length_items], .test hloops hlays, ?_⟩
    exact hext.trans (extends_point hext.ok rfl)

theorem lowers_update {u : Option Expr} {span : Span}
    (hu : ∀ e, u = some e → Lowers Src R (.expr e) (expr R e)) :
    Lowers Src R (.update u span) (loopUpdate R u span) := by
  intro Γ σ σ' h hr hc
  cases u with
  | none =>
    rw [loopUpdate] at h
    obtain ⟨-, rfl⟩ := pure_ok h
    exact ⟨[], [], .noUpdate, Extends.refl hr.ok⟩
  | some e =>
    rw [loopUpdate] at h
    obtain ⟨_, σ₁, h₁, h₂⟩ := bind_ok h
    obtain ⟨code, notes, hlays, hext⟩ := hu e rfl h₁ hr (hc.part (by simp [Site.parts]))
    obtain rfl := put_ok h₂
    exact ⟨_, _, .update hlays, hext.trans (extends_point hext.ok rfl)⟩

theorem lowers_optStmt {s : Option Stmt} (hs : ∀ t, s = some t → Lowers Src R (.stmt t) (stmt R t)) :
    Lowers Src R (.optStmt s) (optStmt R s) := by
  intro Γ σ σ' h hr hc
  cases s with
  | none =>
    rw [optStmt] at h
    obtain ⟨-, rfl⟩ := pure_ok h
    exact ⟨[], [], .noOptStmt, Extends.refl hr.ok⟩
  | some t =>
    rw [optStmt] at h
    obtain ⟨code, notes, hlays, hext⟩ := hs t rfl h hr (hc.part (by simp [Site.parts]))
    exact ⟨code, notes, .optStmt hlays, hext⟩

/-- From the start of a `for` loop to the end of its body: the waiting `continue` jumps are placed. -/
theorem laid_continues {stop next : Nat} {span : Span}
    (h : Extends Src (Γ.loop stop (some next) true).loops
      (σ.withLoops (⟨none, [], [], R.length⟩ :: σ.function.loops)) σ₁ code)
    (hr : Ready Src (Γ.loop stop (some next) true) R σ₁) (hnext : next = σ₁.size)
    (hrun : placeContinues span σ₁ = .ok () σ₂) :
    InLoop Src Γ.loops stop σ σ₂ code ∧ σ₂.size = σ₁.size ∧
      Ready Src (Γ.loop stop none true) R σ₂ ∧
      (Waits .cont (Γ.loops.length + 1) code → next < Opcode.noTarget) := by
  obtain ⟨c, cs, hcs⟩ : ∃ c cs, σ₁.function.loops = c :: cs := ⟨_, _, h.listed⟩
  obtain ⟨hlt, rfl⟩ := placeContinues_ok hcs hrun
  rw [← hnext] at hlt ⊢
  obtain ⟨-, hsize, hloops, -, -⟩ := CompileState.patchAll_spec
    (σ₁.withLoops ({ c with continueJumps := [] } :: cs)) next c.continueJumps
  have hin := InLoop.place h rfl rfl hcs
  refine ⟨hin, hsize.trans hnext.symm, ?_, ?_⟩
  · have hfits := hr.loops
    rw [hcs] at hfits
    cases hfits with
    | cons hd tl =>
      refine ⟨hr.regions, ?_, hin.ok⟩
      rw [hloops]
      exact .cons ⟨hd.depth, hd.target, by simp⟩ tl
  · intro hwaits
    refine hlt fun hnil => ?_
    have hlisted := h.listed
    rw [hcs] at hlisted
    have hconts := congrArg LoopContext.continueJumps (List.cons.inj hlisted).1
    rw [hnil] at hconts
    exact not_waits_of_waiting hconts.symm hwaits

/-- From the test of a `for` loop, whose code is `test`, to the jump back to its start. -/
theorem laid_rounds (test : List Point) {u : Option Expr} {body : List Stmt} {stop start : Nat}
    {span : Span} {σ₃ σ₄ σ₅ σ₆ : CompileState}
    (hbody : Lowers Src R (.stmts body) (stmts R body))
    (hupdate : Lowers Src R (.update u span) (loopUpdate R u span))
    (htest : Extends Src (Γ.loop stop (some σ₃.size) true).loops
      (σ.withLoops (⟨none, [], [], R.length⟩ :: σ.function.loops)) σ₂ test)
    (hr : Ready Src (Γ.loop stop (some σ₃.size) true) R σ₂)
    (hc₂ : Covers Src (Γ.site.loop false) (.stmts body))
    (hc₃ : Covers Src (Γ.site.loop true) (.update u span))
    (h₃ : stmts R body σ₂ = .ok () σ₃) (h₄ : placeContinues span σ₃ = .ok () σ₄)
    (h₅ : loopUpdate R u span σ₄ = .ok () σ₅) (h₆ : σ₆ = σ₅.emit .jump [start] span) :
    ∃ c₂ c₃ n₂ n₃,
      Lays (Γ.loop stop (some σ₃.size) true) (.stmts body) (σ.size + size test) c₂ n₂ ∧
      Lays (Γ.loop stop none true) (.update u span) σ₃.size c₃ n₃ ∧
      σ₃.size = σ.size + size test + size c₂ ∧ σ₆.size = σ₃.size + size c₃ + 3 ∧
      InLoop Src Γ.loops stop σ σ₆ (test ++ (c₂ ++ (c₃
        ++ [Γ.point (σ₃.size + size c₃) 0 .jump [start] span]))) ∧
      (Waits .cont (Γ.loops.length + 1) (test ++ c₂) → σ₃.size < Opcode.noTarget) := by
  obtain ⟨c₂, n₂, hlays₂, hext₂⟩ := hbody h₃ hr (by simpa using hc₂)
  obtain ⟨hin, hsize₄, hready₄, hconts⟩ :=
    laid_continues (htest.trans hext₂) (hr.after hext₂) rfl h₄
  obtain ⟨c₃, n₃, hlays₃, hext₃⟩ := hupdate h₅ hready₄ (by simpa using hc₃)
  have hback : Extends Src (Γ.loop stop none true).loops σ₅ σ₆
      [Γ.point (σ₃.size + size c₃) 0 .jump [start] span] := by
    rw [h₆]
    exact extends_point hext₃.ok rfl
  have hsize₂ : σ₂.size = σ.size + size test := htest.size
  have hall := hin.extend (hext₃.trans hback) rfl fun _ => rfl
  rw [hsize₂] at hlays₂
  rw [hsize₄] at hlays₃
  refine ⟨c₂, c₃, n₂, n₃, hlays₂, hlays₃, ?_, ?_, ?_, hconts⟩
  · rw [hext₂.size, hsize₂]
  · rw [h₆, emit_size, hext₃.size, hsize₄]
    rfl
  · simpa using hall

theorem lowers_for {init : Option Stmt} {c u : Option Expr} {body : List Stmt} {s span : Span}
    (hinit : Lowers Src R (.optStmt init) (optStmt R init))
    (hcond : ∀ e, c = some e → Lowers Src R (.expr e) (expr R e))
    (hbody : Lowers Src R (.stmts body) (stmts R body))
    (hupdate : Lowers Src R (.update u span) (loopUpdate R u span)) :
    Lowers Src R (.action (.forLoop init c u ⟨body, s⟩ span))
      (stmt R (.forLoop init c u ⟨body, s⟩ span)) := by
  intro Γ σ σ' h hr hc
  rw [stmt] at h
  obtain ⟨_, σ₀, h₀, h⟩ := bind_ok h
  obtain ⟨start, τ, hτ, h⟩ := bind_ok h
  obtain ⟨rfl, rfl⟩ := offset_ok hτ
  obtain ⟨_, σ₁, h₁, h⟩ := bind_ok h
  obtain rfl := enterLoop_ok h₁
  obtain ⟨exits, σ₂, h₂, h⟩ := bind_ok h
  obtain ⟨_, σ₃, h₃, h⟩ := bind_ok h
  obtain ⟨_, σ₄, h₄, h⟩ := bind_ok h
  obtain ⟨_, σ₅, h₅, h⟩ := bind_ok h
  obtain ⟨_, σ₆, h₆, h⟩ := bind_ok h
  obtain ⟨_, σ₇, h₇, h₈⟩ := bind_ok h
  obtain ⟨hstart, hσ₆⟩ := emitJumpTo_ok h₆
  obtain ⟨hexit, rfl⟩ := patchAllHere_ok h₇
  obtain ⟨c₀, n₀, hlays₀, hext₀⟩ := hinit h₀ hr (hc.part (by simp [Site.parts, Site.actionParts]))
  have hready := (hr.after hext₀).loop σ₆.size none (some σ₃.size) true rfl (by simp)
  have hc₂ : Covers Src (Γ.site.loop false) (.stmts body) :=
    hc.part (by simp [Site.parts, Site.actionParts])
  have hc₃ : Covers Src (Γ.site.loop true) (.update u span) :=
    hc.part (by simp [Site.parts, Site.actionParts])
  rcases laid_test hcond h₂ hready (hc.part (by simp [Site.parts, Site.actionParts])) rfl with
    ⟨rfl, rfl, rfl⟩ | ⟨e, code, n₁, rfl, rfl, hlays₁, hext₁⟩
  · obtain ⟨c₂, c₃, n₂, n₃, hlays₂, hlays₃, hnext, hstop, hin, hconts⟩ := laid_rounds []
      hbody hupdate (Extends.refl hready.ok) hready hc₂ hc₃ h₃ h₄ h₅ hσ₆
    obtain ⟨hext, hbreaks⟩ := laid_leave hin rfl h₈
    refine ⟨_, _, .for hlays₀ .noTest hlays₂ hlays₃ hext₀.size hnext hstop hstart (by simp) ?_ hconts,
      hext₀.trans hext⟩
    rintro ⟨p, hp, hl⟩
    refine hbreaks ⟨p, ?_, hl⟩
    simp only [List.nil_append, List.mem_append] at hp ⊢
    rcases hp with hp | hp
    · exact .inl hp
    · exact .inr (.inl hp)
  · obtain ⟨c₂, c₃, n₂, n₃, hlays₂, hlays₃, hnext, hstop, hin, hconts⟩ := laid_rounds _
      hbody hupdate hext₁ (hready.after hext₁) hc₂ hc₃ h₃ h₄ h₅ hσ₆
    simp only [CompileState.withLoops_size, CompileState.withLoops_items] at hlays₁ hin hconts h₈
    rw [List.append_assoc, List.singleton_append] at hin
    have hdone := hin.patch (k := 0) (t := σ₆.size) rfl rfl rfl
    obtain ⟨hext, hbreaks⟩ := laid_leave hdone rfl h₈
    refine ⟨_, _, .for hlays₀ hlays₁ (by simpa using hlays₂) hlays₃ hext₀.size (by simpa using hnext)
      hstop hstart (fun _ => hexit (by simp)) ?_ ?_, hext₀.trans (by simpa using hext)⟩
    · rintro ⟨p, hp, hl⟩
      refine hbreaks ⟨p, ?_, hl⟩
      simp only [List.mem_append, List.mem_singleton] at hp
      simp only [List.mem_append, List.mem_cons]
      rcases hp with (hp | rfl) | hp | hp
      · exact .inl hp
      · exact .inr (.inl rfl)
      · exact .inr (.inr (.inl hp))
      · exact .inr (.inr (.inr (.inl hp)))
    · rintro ⟨p, hp, hl⟩
      refine hconts ⟨p, ?_, hl⟩
      simp only [List.mem_append, List.mem_singleton] at hp ⊢
      rcases hp with (hp | rfl) | hp
      · exact .inl (.inl hp)
      · cases hl
      · exact .inr hp

/-! ## Protected regions -/

theorem lowers_try_none {body : List Stmt} {s span : Span}
    (hbody : Lowers Src R (.stmts body) (stmts R body)) :
    Lowers Src R (.action (.tryCatch ⟨body, s⟩ none none span))
      (stmt R (.tryCatch ⟨body, s⟩ none none span)) := by
  intro Γ σ σ' h hr hc
  rw [stmt] at h
  obtain ⟨code, notes, hlays, hext⟩ := hbody h hr (hc.part (by simp [Site.parts, Site.actionParts]))
  exact ⟨_, _, .tryNone hlays, hext⟩

/-- The entry of a region and the code inside it, up to the instruction that leaves it. -/
theorem laid_region {body : List Stmt} {span : Span} {r : Region} {cleanup : Option Block}
    {m : CompileM Unit} (hcleanup : r.cleanup = cleanup)
    (hbody : Lowers Src (cleanup :: R) (.stmts body) m) (hr : Ready Src Γ R σ)
    (hc : Covers Src (Γ.site.enter cleanup) (.stmts body))
    (h : m (σ.emit .tryEnter [Opcode.noTarget, Opcode.noTarget] span) = .ok () σ') :
    ∃ code notes, Lays (Γ.enter r) (.stmts body) (σ.size + 5) code notes ∧
      σ'.size = σ.size + 5 + size code ∧
      Extends Src Γ.loops σ (σ'.emit .finallyEnd [Opcode.noTarget] span)
        (Γ.point σ.size 0 .tryEnter [Opcode.noTarget, Opcode.noTarget] span
          :: (code ++ [(Γ.enter r).point (σ.size + 5 + size code) 0 .finallyEnd [Opcode.noTarget] span]))
      ∧ σ'.items.length = σ.items.length + (code.length + 1) := by
  have henter : Extends Src Γ.loops σ (σ.emit .tryEnter [Opcode.noTarget, Opcode.noTarget] span)
      [Γ.point σ.size 0 .tryEnter [Opcode.noTarget, Opcode.noTarget] span] :=
    extends_point hr.ok rfl
  subst hcleanup
  obtain ⟨code, notes, hlays, hext⟩ := hbody h ((hr.after henter).enter r) hc
  have hleave : Extends Src Γ.loops σ' (σ'.emit .finallyEnd [Opcode.noTarget] span)
      [(Γ.enter r).point (σ.size + 5 + size code) 0 .finallyEnd [Opcode.noTarget] span] :=
    extends_point hext.ok rfl
  have hlen := (henter.trans hext).length_items
  have hsize := hext.size
  simp only [emit_size, Opcode.lengths] at hlays hsize
  refine ⟨code, notes, hlays, hsize, henter.trans (hext.trans hleave), ?_⟩
  simpa using hlen

theorem lowers_try_catch {body handler : List Stmt} {param : Option Ident} {s s' span : Span}
    (hbody : Lowers Src (none :: R) (.stmts body) (stmts (none :: R) body))
    (hhandler : Lowers Src R (.stmts handler) (stmts R handler)) :
    Lowers Src R (.action (.tryCatch ⟨body, s⟩ (some ⟨param, ⟨handler, s'⟩⟩) none span))
      (stmt R (.tryCatch ⟨body, s⟩ (some ⟨param, ⟨handler, s'⟩⟩) none span)) := by
  intro Γ σ σ' h hr hc
  rw [stmt] at h
  obtain ⟨enter, σ₁, h₁, h⟩ := bind_ok h
  obtain ⟨_, σ₂, h₂, h⟩ := bind_ok h
  obtain ⟨leave, σ₃, h₃, h⟩ := bind_ok h
  obtain ⟨handle, σ₄, h₄, h⟩ := bind_ok h
  obtain ⟨_, σ₅, h₅, h⟩ := bind_ok h
  obtain ⟨_, σ₆, h₆, h⟩ := bind_ok h
  obtain ⟨_, σ₇, h₇, h⟩ := bind_ok h
  obtain ⟨skip, σ₈, h₈, h₉⟩ := bind_ok h
  obtain ⟨rfl, rfl⟩ := emit_ok h₁
  obtain ⟨rfl, rfl⟩ := emit_ok h₃
  obtain ⟨rfl, rfl⟩ := offset_ok h₄
  obtain ⟨hlt₅, rfl⟩ := patch_ok h₅
  obtain ⟨rfl, rfl⟩ := emit_ok h₈
  obtain ⟨hlt, rfl⟩ := patchAllHere_ok h₉
  generalize hhandle : (σ₂.emit .finallyEnd [Opcode.noTarget] span).size = handle at *
  obtain ⟨r, hregion⟩ : ∃ r : Region, r = ⟨σ.size, some handle, none, Γ.height, none⟩ := ⟨_, rfl⟩
  obtain ⟨c₁, n₁, hlays₁, hsize₁, hext₁, hlen₁⟩ :=
    laid_region (r := r) (by rw [hregion]) hbody hr (hc.part List.mem_cons_self) h₂
  simp only [emit_size, hsize₁, Opcode.lengths] at hhandle
  have hcatch := Extends.patch (a := []) (k := 0) (t := handle) hext₁ rfl rfl rfl
  obtain ⟨bind, hbind, hemits⟩ := bindThrown_binds hcatch.ok h₆
  have hentry := hemits Γ.loops .nothing Γ.regions handle (Γ.height + 1)
  obtain ⟨c₂, n₂, hlays₂, hext₂⟩ := hhandler h₇ ((hr.after hcatch).after hentry)
    (hc.part (by simp [Site.parts, Site.actionParts]))
  have hsize₆ : σ₆.size = handle + size (row Γ.regions handle (Γ.height + 1) bind) := by
    rw [hentry.size, patch_size, emit_size, hsize₁, ← hhandle]
    rfl
  have hsize₇ := hext₂.size
  rw [hsize₆] at hlays₂ hsize₇
  generalize hstop : (σ₇.emit .jump [Opcode.noTarget] span).size = stop at *
  simp only [emit_size, hsize₇, Opcode.lengths] at hstop
  have hskip : Extends Src Γ.loops σ₇ (σ₇.emit .jump [Opcode.noTarget] span)
      [Γ.point (stop - 3) 0 .jump [Opcode.noTarget] span] := extends_point hext₂.ok rfl
  -- both ways out of the statement are known now: first the end of the body, then that of the handler
  have hall : Extends Src Γ.loops σ (σ₇.emit .jump [Opcode.noTarget] span)
      ((Γ.point σ.size 0 .tryEnter [handle, Opcode.noTarget] span :: c₁)
        ++ (Γ.enter r).point (σ.size + 5 + size c₁) 0 .finallyEnd [Opcode.noTarget] span
        :: (row Γ.regions handle (Γ.height + 1) bind
        ++ (c₂ ++ [Γ.point (stop - 3) 0 .jump [Opcode.noTarget] span]))) := by
    simpa using hcatch.trans (hentry.trans (hext₂.trans hskip))
  have hleave : Extends Src Γ.loops σ
      ((σ₇.emit .jump [Opcode.noTarget] span).patch σ₂.items.length 0 stop)
      ((Γ.point σ.size 0 .tryEnter [handle, Opcode.noTarget] span
        :: (c₁ ++ (Γ.enter r).point (σ.size + 5 + size c₁) 0 .finallyEnd [stop] span
        :: (row Γ.regions handle (Γ.height + 1) bind ++ c₂)))
        ++ Γ.point (stop - 3) 0 .jump [Opcode.noTarget] span :: []) := by
    simpa using hall.patch (k := 0) (t := stop) rfl hlen₁ rfl
  have hlen₇ := (hcatch.trans (hentry.trans hext₂)).length_items
  have hdone := hleave.patch (k := 0) (t := stop) rfl (hlen₇.trans (by simp)) rfl
  refine ⟨_, _, .tryCatch hlays₁ hbind hlays₂ hregion hhandle.symm hstop.symm (hlt (by simp)), ?_⟩
  simpa [CompileState.patchAll] using hdone

theorem lowers_try_finally {body cleanup : List Stmt} {s s' span : Span}
    (hbody : Lowers Src (some ⟨cleanup, s'⟩ :: R) (.stmts body) (stmts (some ⟨cleanup, s'⟩ :: R) body))
    (hcleanup : Lowers Src R (.stmts cleanup) (stmts R cleanup)) :
    Lowers Src R (.action (.tryCatch ⟨body, s⟩ none (some ⟨cleanup, s'⟩) span))
      (stmt R (.tryCatch ⟨body, s⟩ none (some ⟨cleanup, s'⟩) span)) := by
  intro Γ σ σ' h hr hc
  rw [stmt] at h
  obtain ⟨enter, σ₁, h₁, h⟩ := bind_ok h
  obtain ⟨_, σ₂, h₂, h⟩ := bind_ok h
  obtain ⟨leave, σ₃, h₃, h⟩ := bind_ok h
  obtain ⟨_, σ₄, h₄, h⟩ := bind_ok h
  obtain ⟨_, σ₅, h₅, h⟩ := bind_ok h
  obtain ⟨_, σ₆, h₆, h⟩ := bind_ok h
  obtain ⟨start, σ₇, h₇, h⟩ := bind_ok h
  obtain ⟨_, σ₈, h₈, h⟩ := bind_ok h
  obtain ⟨_, σ₉, h₉, h₁₀⟩ := bind_ok h
  obtain ⟨rfl, rfl⟩ := emit_ok h₁
  obtain ⟨rfl, rfl⟩ := emit_ok h₃
  obtain ⟨-, rfl⟩ := patchHere_ok h₄
  obtain rfl := put_ok h₅
  obtain rfl := put_ok h₆
  obtain ⟨rfl, rfl⟩ := offset_ok h₇
  obtain ⟨hlt, rfl⟩ := patch_ok h₈
  obtain rfl := put_ok h₁₀
  generalize hnormal : (σ₂.emit .finallyEnd [Opcode.noTarget] span).size = normal at *
  generalize hfinal : ((((σ₂.emit .finallyEnd [Opcode.noTarget] span).patch σ₂.items.length 0
    normal).emit .null [] span).emit .pushFalse [] span).size = final at *
  obtain ⟨r, hregion⟩ : ∃ r : Region, r = ⟨σ.size, none, some final, Γ.height, some ⟨cleanup, s'⟩⟩ :=
    ⟨_, rfl⟩
  obtain ⟨c₁, n₁, hlays₁, hsize₁, hext₁, hlen₁⟩ :=
    laid_region (r := r) (by rw [hregion]) hbody hr (hc.part List.mem_cons_self) h₂
  simp only [emit_size, patch_size, hsize₁, Opcode.lengths] at hnormal hfinal
  have hleave := Extends.patch (a := Γ.point σ.size 0 .tryEnter [Opcode.noTarget, Opcode.noTarget] span
    :: c₁) (k := 0) (t := normal) hext₁ rfl hlen₁ rfl
  have hnull : Extends Src Γ.loops _ _ [Γ.point (final - 2) 0 .null [] span] :=
    extends_point (s := span) hleave.ok rfl
  have hfalse : Extends Src Γ.loops _ _ [Γ.point (final - 1) 1 .pushFalse [] span] :=
    extends_point (s := span) hnull.ok rfl
  have hentry := Extends.patch (a := []) (k := 1) (t := final)
    (hleave.trans (hnull.trans hfalse)) rfl rfl rfl
  obtain ⟨c₂, n₂, hlays₂, hext₂⟩ := hcleanup h₉ ((hr.after hentry).up 2)
    (hc.part (T := (Γ.up 2).site) (List.mem_cons_of_mem _ List.mem_cons_self))
  have hlast : Extends Src Γ.loops σ₉ _ [Γ.point (final + size c₂) 2 .rethrow [] span] :=
    extends_point (s := span) hext₂.ok rfl
  simp only [emit_size, patch_size, hsize₁, Opcode.lengths, hfinal] at hlays₂
  have hfinal' : final = σ.size + 5 + size c₁ + 3 + 2 := by omega
  have hnormal' : normal = final - 2 := by omega
  refine ⟨_, _, .tryFinally hlays₁ hlays₂ hregion hfinal' hlt, ?_⟩
  simpa [hnormal'] using hentry.trans (hext₂.trans hlast)

theorem lowers_try_both {body handler cleanup : List Stmt} {param : Option Ident} {s s' s'' span : Span}
    (hbody : Lowers Src (some ⟨cleanup, s''⟩ :: R) (.stmts body) (stmts (some ⟨cleanup, s''⟩ :: R) body))
    (hhandler : Lowers Src (some ⟨cleanup, s''⟩ :: R) (.stmts handler)
      (stmts (some ⟨cleanup, s''⟩ :: R) handler))
    (hcleanup : Lowers Src R (.stmts cleanup) (stmts R cleanup)) :
    Lowers Src R
      (.action (.tryCatch ⟨body, s⟩ (some ⟨param, ⟨handler, s'⟩⟩) (some ⟨cleanup, s''⟩) span))
      (stmt R (.tryCatch ⟨body, s⟩ (some ⟨param, ⟨handler, s'⟩⟩) (some ⟨cleanup, s''⟩) span)) := by
  intro Γ σ σ' h hr hc
  rw [stmt] at h
  obtain ⟨enter, σ₁, h₁, h⟩ := bind_ok h
  obtain ⟨_, σ₂, h₂, h⟩ := bind_ok h
  obtain ⟨leave, σ₃, h₃, h⟩ := bind_ok h
  obtain ⟨handle, σ₄, h₄, h⟩ := bind_ok h
  obtain ⟨_, σ₅, h₅, h⟩ := bind_ok h
  obtain ⟨_, σ₆, h₆, h⟩ := bind_ok h
  obtain ⟨enter', σ₇, h₇, h⟩ := bind_ok h
  obtain ⟨_, σ₈, h₈, h⟩ := bind_ok h
  obtain ⟨leave', σ₉, h₉, h⟩ := bind_ok h
  obtain ⟨_, σ₁₀, h₁₀, h⟩ := bind_ok h
  obtain ⟨_, σ₁₁, h₁₁, h⟩ := bind_ok h
  obtain ⟨_, σ₁₂, h₁₂, h⟩ := bind_ok h
  obtain ⟨start, σ₁₃, h₁₃, h⟩ := bind_ok h
  obtain ⟨_, σ₁₄, h₁₄, h⟩ := bind_ok h
  obtain ⟨_, σ₁₅, h₁₅, h⟩ := bind_ok h
  obtain ⟨_, σ₁₆, h₁₆, h₁₇⟩ := bind_ok h
  obtain ⟨rfl, rfl⟩ := emit_ok h₁
  obtain ⟨rfl, rfl⟩ := emit_ok h₃
  obtain ⟨rfl, rfl⟩ := offset_ok h₄
  obtain ⟨-, rfl⟩ := patch_ok h₅
  obtain ⟨rfl, rfl⟩ := emit_ok h₇
  obtain ⟨rfl, rfl⟩ := emit_ok h₉
  obtain ⟨-, rfl⟩ := patchAllHere_ok h₁₀
  obtain rfl := put_ok h₁₁
  obtain rfl := put_ok h₁₂
  obtain ⟨rfl, rfl⟩ := offset_ok h₁₃
  obtain ⟨hlt, rfl⟩ := patch_ok h₁₄
  obtain ⟨-, rfl⟩ := patch_ok h₁₅
  obtain rfl := put_ok h₁₇
  simp only [CompileState.patchAll] at hlt h₁₆
  generalize hhandle : (σ₂.emit .finallyEnd [Opcode.noTarget] span).size = handle at *
  generalize hnormal : (σ₈.emit .finallyEnd [Opcode.noTarget] span).size = normal at *
  generalize hfinal : (((((σ₈.emit .finallyEnd [Opcode.noTarget] span).patch σ₂.items.length 0
    normal).patch σ₈.items.length 0 normal).emit .null [] span).emit .pushFalse [] span).size
      = final at *
  obtain ⟨r, hregion⟩ : ∃ r : Region,
      r = ⟨σ.size, some handle, some final, Γ.height, some ⟨cleanup, s''⟩⟩ := ⟨_, rfl⟩
  obtain ⟨r', hregion'⟩ : ∃ r : Region,
      r = ⟨σ₆.size, none, some final, Γ.height, some ⟨cleanup, s''⟩⟩ := ⟨_, rfl⟩
  obtain ⟨c₁, n₁, hlays₁, hsize₁, hext₁, hlen₁⟩ :=
    laid_region (r := r) (by rw [hregion]) hbody hr (hc.part List.mem_cons_self) h₂
  simp only [emit_size, hsize₁, Opcode.lengths] at hhandle
  have hcatch := Extends.patch (a := []) (k := 0) (t := handle) hext₁ rfl rfl rfl
  obtain ⟨bind, hbind, hemits⟩ := bindThrown_binds hcatch.ok h₆
  have hbound := hcatch.trans (hemits Γ.loops .nothing Γ.regions handle (Γ.height + 1))
  have hsize₆ : σ₆.size = handle + size (row Γ.regions handle (Γ.height + 1) bind) := by
    rw [(hemits Γ.loops .nothing Γ.regions handle (Γ.height + 1)).size, patch_size, emit_size, hsize₁, ← hhandle]
    rfl
  obtain ⟨c₂, n₂, hlays₂, hsize₂, hext₂, hlen₂⟩ := laid_region (r := r') (by rw [hregion'])
    hhandler (hr.after hbound) (hc.part (List.mem_cons_of_mem _ List.mem_cons_self)) h₈
  have hσ₆ : σ₆.size = r'.enter := by rw [hregion']
  rw [hσ₆] at hlays₂ hsize₂ hext₂
  simp only [emit_size, patch_size, hsize₂, Opcode.lengths] at hnormal hfinal
  have hnormal' : normal = final - 2 := by omega
  have hfinal' : final = r'.enter + 5 + size c₂ + 3 + 2 := by omega
  -- both ends of protected code go to the normal entry of the finally body
  have hall : Extends Src Γ.loops σ (σ₈.emit .finallyEnd [Opcode.noTarget] span)
      ((Γ.point σ.size 0 .tryEnter [handle, Opcode.noTarget] span :: c₁)
        ++ (Γ.enter r).point (σ.size + 5 + size c₁) 0 .finallyEnd [Opcode.noTarget] span
        :: (row Γ.regions handle (Γ.height + 1) bind
        ++ Γ.point r'.enter 0 .tryEnter [Opcode.noTarget, Opcode.noTarget] span
        :: (c₂ ++ [(Γ.enter r').point (r'.enter + 5 + size c₂) 0 .finallyEnd
          [Opcode.noTarget] span]))) := by
    simpa using hbound.trans hext₂
  have hleave : Extends Src Γ.loops σ
      ((σ₈.emit .finallyEnd [Opcode.noTarget] span).patch σ₂.items.length 0 normal)
      ((Γ.point σ.size 0 .tryEnter [handle, Opcode.noTarget] span
        :: (c₁ ++ (Γ.enter r).point (σ.size + 5 + size c₁) 0 .finallyEnd [normal] span
        :: (row Γ.regions handle (Γ.height + 1) bind
        ++ Γ.point r'.enter 0 .tryEnter [Opcode.noTarget, Opcode.noTarget] span :: c₂)))
        ++ (Γ.enter r').point (r'.enter + 5 + size c₂) 0 .finallyEnd [Opcode.noTarget] span :: []) := by
    simpa using hall.patch (k := 0) (t := normal) rfl hlen₁ rfl
  have hlen₆ := hbound.length_items
  have hleave' := hleave.patch (k := 0) (t := normal) rfl
    (hlen₂.trans (by rw [hlen₆]; simp [row]; omega)) rfl
  have hnull : Extends Src Γ.loops _ _ [Γ.point (final - 2) 0 .null [] span] :=
    extends_point (s := span) hleave'.ok rfl
  have hfalse : Extends Src Γ.loops _ _ [Γ.point (final - 1) 1 .pushFalse [] span] :=
    extends_point (s := span) hnull.ok rfl
  -- both entries learn where the finally body starts
  have hentry := Extends.patch (a := []) (k := 1) (t := final)
    (hleave'.trans (hnull.trans hfalse)) rfl rfl rfl
  have hentry' := Extends.patch (a := Γ.point σ.size 0 .tryEnter [handle, final] span
    :: (c₁ ++ (Γ.enter r).point (σ.size + 5 + size c₁) 0 .finallyEnd [normal] span
    :: row Γ.regions handle (Γ.height + 1) bind)) (k := 1) (t := final)
    (p := Γ.point r'.enter 0 .tryEnter [Opcode.noTarget, Opcode.noTarget] span)
    (b := c₂ ++ (Γ.enter r').point (r'.enter + 5 + size c₂) 0 .finallyEnd [normal] span
      :: Γ.point (final - 2) 0 .null [] span :: [Γ.point (final - 1) 1 .pushFalse [] span])
    (by simpa using hentry) rfl (hlen₆.trans (by simp)) rfl
  obtain ⟨c₃, n₃, hlays₃, hext₃⟩ := hcleanup h₁₆ ((hr.after hentry').up 2)
    (hc.part (T := (Γ.up 2).site)
      (List.mem_cons_of_mem _ (List.mem_cons_of_mem _ List.mem_cons_self)))
  have hlast : Extends Src Γ.loops σ₁₆ _ [Γ.point (final + size c₃) 2 .rethrow [] span] :=
    extends_point (s := span) hext₃.ok rfl
  simp only [emit_size, patch_size, hsize₂, Opcode.lengths, hfinal] at hlays₃
  refine ⟨_, _, .tryBoth hlays₁ hbind hlays₂ hlays₃ hregion (by rw [hregion', hsize₆])
    hhandle.symm hfinal' hlt, ?_⟩
  simpa [CompileState.patchAll, hnormal'] using hentry'.trans (hext₃.trans hlast)

end

end ScriptMachine
