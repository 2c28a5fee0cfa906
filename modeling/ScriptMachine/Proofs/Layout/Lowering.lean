import ScriptMachine.Proofs.Layout.Steps

/-!
# Compilation makes the layout

Every run of the compiler appends code that the layout relation describes. `Lowers R n m` states this
for the step `m` that compiles the piece `n` under the regions `R`. This module has the lemmas for
expressions, blocks and functions, one for each form of the source.
-/

namespace ScriptMachine

open Point CompileM
open CompileState (Extends Emits InLoop emit_size emit_items patch_size withLoops)

/-! ## What compilation starts from -/

/-- The record that compilation keeps of a loop agrees with the loop. -/
structure Loop.Fits (l : Loop) (c : LoopContext) : Prop where
  depth : c.tryDepth = l.regions.length
  target : c.continueTarget = if l.waits then none else l.continueTo
  known : l.waits = false → l.continueTo.isSome

/-- Compilation stands where the context says. -/
structure Ready (Src : Source) (Γ : Context) (R : Regions) (σ : CompileState) : Prop where
  regions : Γ.regions.map Region.cleanup = R
  loops : List.Forall₂ Loop.Fits Γ.loops σ.function.loops
  ok : σ.Ok Src

/-- From `σ` to `σ'` the block at hand grew by the code of a piece. -/
def Laid (Src : Source) (Γ : Context) (n : Node) (σ σ' : CompileState) : Prop :=
  ∃ code notes, Lays Γ n σ.size code notes ∧ Extends Src Γ.loops σ σ' code

/-- A step of compilation appends the code of a piece, in any context with the given regions. -/
def Lowers (Src : Source) (R : Regions) (n : Node) (m : CompileM Unit) : Prop :=
  ∀ ⦃Γ σ σ'⦄, m σ = .ok () σ' → Ready Src Γ R σ → Covers Src Γ.site n → Laid Src Γ n σ σ'

section

variable {Src : Source} {Γ : Context} {R : Regions} {σ σ' σ₁ σ₂ : CompileState}
  {code : List Point} {n : Node} {e : Expr} {k m : Nat}

theorem Loop.fits_listed {ls : List Loop} {cs : List LoopContext} {base : Nat}
    (h : List.Forall₂ Loop.Fits ls cs) :
    List.Forall₂ Loop.Fits ls (LoopContext.listed k base code cs) := by
  cases h with
  | nil => exact .nil
  | cons hd tl => exact .cons ⟨hd.depth, hd.target, hd.known⟩ tl

theorem Ready.after (h : Ready Src Γ R σ) (h' : Extends Src Γ.loops σ σ' code) :
    Ready Src Γ R σ' := by
  refine ⟨h.regions, ?_, h'.ok⟩
  rw [h'.listed]
  exact Loop.fits_listed h.loops

theorem Laid.ready (h : Laid Src Γ n σ σ') (hr : Ready Src Γ R σ) : Ready Src Γ R σ' := by
  obtain ⟨code, notes, -, hext⟩ := h
  exact hr.after hext

theorem Ready.up (h : Ready Src Γ R σ) (k : Nat) : Ready Src (Γ.up k) R σ :=
  ⟨h.regions, h.loops, h.ok⟩

/-- Inside one more region. -/
theorem Ready.enter (h : Ready Src Γ R σ) (r : Region) : Ready Src (Γ.enter r) (r.cleanup :: R) σ :=
  ⟨by simp [Context.enter, h.regions], h.loops, h.ok⟩

theorem Ready.emits {tail : List Emitted} (h : Ready Src Γ R σ) (h' : Emits Src σ σ' tail) :
    Ready Src Γ R σ' := h.after (h' Γ.loops .nothing [] 0 0)

/-! ## Operands and strict forms -/

theorem Laid.expr (h : Laid Src Γ (.form e) σ σ') : Laid Src Γ (.expr e) σ σ' := by
  obtain ⟨code, notes, hlays, hext⟩ := h
  exact ⟨code, _, .expr hlays, hext⟩

theorem Laid.noOperands (h : Emits Src σ σ' []) : Laid Src Γ (.operands e k []) σ σ' :=
  ⟨[], [], .noOperands, h.nil _⟩

theorem Laid.operand {x : Expr} {xs : List Operand} (h : Laid Src Γ (.expr x) σ σ₁)
    (h' : Laid Src (Γ.up 1) (.operands e (k + 1) xs) σ₁ σ₂) :
    Laid Src Γ (.operands e k (.expr x :: xs)) σ σ₂ := by
  obtain ⟨c₁, n₁, hlays₁, hext₁⟩ := h
  obtain ⟨c₂, n₂, hlays₂, hext₂⟩ := h'
  rw [hext₁.size] at hlays₂
  exact ⟨_, _, .operand hlays₁ hlays₂, hext₁.trans hext₂⟩

theorem Laid.index {i : Int64} {span : Span} {xs : List Operand}
    (hσ : σ.Ok Src) (h : emitConstant (.int i) span σ = .ok () σ₁)
    (h' : Laid Src (Γ.up 1) (.operands e (k + 1) xs) σ₁ σ₂) :
    Laid Src Γ (.operands e k (.index i span :: xs)) σ σ₂ := by
  obtain ⟨place, σ₃, hadd, hput⟩ := bind_ok h
  obtain ⟨hconst, hplace, -⟩ := addConstant_emits (c := .int i) hσ trivial (by simp) hadd
  have hpoint := refer_emits hconst.ok (constant_refers hplace) hput
  have hext : Extends Src Γ.loops σ σ₁ [Γ.point σ.size 0 .constant [place] span] :=
    (hconst.after hpoint) Γ.loops .nothing Γ.regions σ.size (Γ.height + 0)
  obtain ⟨c₂, n₂, hlays₂, hext₂⟩ := h'
  rw [hext.size] at hlays₂
  exact ⟨_, _, .index hlays₂, hext.trans hext₂⟩

/-- An expression whose operands are all evaluated, with the instructions that follow them. -/
theorem Laid.strict {es : List Operand} {tail : List Emitted} (hops : e.operands? = some es)
    (h : Laid Src Γ (.operands e 0 es) σ σ₁) (htail : Tail e.Counted es.length 1 tail)
    (hemits : Emits Src σ₁ σ₂ tail) : Laid Src Γ (.form e) σ σ₂ := by
  obtain ⟨code, notes, hlays, hext⟩ := h
  exact ⟨_, _, .strict hops hlays htail, hext.trans (hemits Γ.loops .nothing _ _ _)⟩

theorem Laid.strict_of_makes {es : List Operand} (hops : e.operands? = some es)
    (h : Laid Src Γ (.operands e 0 es) σ σ₁) (hmakes : Makes Src es.length 1 σ₁ σ₂) :
    Laid Src Γ (.form e) σ σ₂ := by
  obtain ⟨tail, htail, hemits⟩ := hmakes
  exact h.strict hops htail.of_counted hemits

/-- An expression without operands. -/
theorem Laid.atom (hops : e.operands? = some []) (hσ : σ.Ok Src) (hmakes : Makes Src 0 1 σ σ') :
    Laid Src Γ (.form e) σ σ' :=
  (Laid.noOperands (Emits.refl hσ)).strict_of_makes hops hmakes

theorem Covers.form (h : Covers Src Γ.site (.expr e)) : Covers Src Γ.site (.form e) :=
  h.part (by simp [Site.parts])

theorem Covers.operand {x : Expr} {xs : List Operand}
    (h : Covers Src Γ.site (.operands e k (.expr x :: xs))) :
    Covers Src Γ.site (.expr x) ∧ Covers Src (Γ.up 1).site (.operands e (k + 1) xs) :=
  ⟨h.part (by simp [Site.parts]), h.part (T := (Γ.up 1).site) (List.mem_cons_of_mem _ List.mem_cons_self)⟩

theorem lowers_exprs_nil : Lowers Src R (.operands e k []) (pure ()) := by
  intro Γ σ σ' h hr _
  obtain ⟨-, rfl⟩ := pure_ok h
  exact Laid.noOperands (Emits.refl hr.ok)

theorem lowers_operand {x : Expr} {xs : List Operand} {m₁ m₂ : CompileM Unit}
    (hx : Lowers Src R (.expr x) m₁) (hxs : Lowers Src R (.operands e (k + 1) xs) m₂) :
    Lowers Src R (.operands e k (.expr x :: xs)) (m₁ >>= fun _ => m₂) := by
  intro Γ σ σ' h hr hc
  obtain ⟨_, σ₁, h₁, h₂⟩ := bind_ok h
  obtain ⟨hc₁, hc₂⟩ := hc.operand
  have hl := hx h₁ hr hc₁
  exact hl.operand (hxs h₂ ((hl.ready hr).up 1) hc₂)

theorem lowers_operand_last {x : Expr} {m₁ : CompileM Unit} (hx : Lowers Src R (.expr x) m₁) :
    Lowers Src R (.operands e k [.expr x]) m₁ := by
  intro Γ σ σ' h hr hc
  have hl := hx h hr hc.operand.1
  exact hl.operand (Laid.noOperands (Emits.refl (hl.ready hr).ok))

/-- What follows the operands of an expression, once they are there. -/
def Finishes (Src : Source) (counted : Prop) (k : Nat) (m : CompileM Unit) : Prop :=
  ∀ ⦃σ σ'⦄, σ.Ok Src → m σ = .ok () σ' → ∃ tail, Tail counted k 1 tail ∧ Emits Src σ σ' tail

theorem finishes_of_makes {c : Prop} {m : CompileM Unit}
    (h : ∀ ⦃σ σ'⦄, σ.Ok Src → m σ = .ok () σ' → Makes Src k 1 σ σ') : Finishes Src c k m := by
  intro σ σ' hσ hrun
  obtain ⟨tail, htail, hemits⟩ := h hσ hrun
  exact ⟨tail, htail.of_counted, hemits⟩

/-- The one instruction for the value, when its operands may be counted wrong. -/
theorem Tail.value {c : Prop} {i : Emitted} (hplain : i.opcode.isPlain = true)
    (hsized : i.operands.length = i.opcode.widths.length) (hleaves : i.leaves = 1) (htakes : i.takes ≤ k)
    (hcounted : c → i.takes = k) : Tail c k 1 [i] := by
  refine Tail.counted hplain hsized htakes ?_ fun hc => ?_
  · unfold Emitted.after
    omega
  · have := hcounted hc
    unfold Emitted.after
    omega

/-- One instruction for the value. -/
theorem finishes_put {c : Prop} {op : Opcode} {xs : List Nat} {span : Span}
    (hop : op.refers = false) (hplain : op.isPlain = true)
    (hsized : xs.length = op.widths.length) (hleaves : Emitted.leaves ⟨op, xs, span⟩ = 1)
    (htakes : Emitted.takes ⟨op, xs, span⟩ ≤ k) (hcounted : c → Emitted.takes ⟨op, xs, span⟩ = k) :
    Finishes Src c k (put op xs span) := by
  intro σ σ' hσ hrun
  exact ⟨_, Tail.value hplain hsized hleaves htakes hcounted, put_emits hσ hop hrun⟩

/-- The instructions that name a property or a method of a value. -/
theorem refers_name {S : Supply} {op : Opcode} {xs : List Nat} {place : Nat} {span : Span}
    (hop : op = .getProperty ∨ op = .setProperty ∨ op = .invoke) (hlt : place < Pool.capacity)
    (hname : S.pool.IsName place) (u : Setup) : Emitted.Refers S u ⟨op, place :: xs, span⟩ := by
  rcases hop with rfl | rfl | rfl
  all_goals
    show S.pool.IsName _
    rwa [operand_place rfl hlt]

/-- A name is added before the instruction that uses it. -/
theorem finishes_named {c : Prop} {name : String} {op : Opcode} {xs : List Nat} {span : Span}
    (hop : op = .getProperty ∨ op = .setProperty ∨ op = .invoke) (hsized : 1 + xs.length = op.widths.length)
    (htakes : ∀ place, Emitted.takes ⟨op, place :: xs, span⟩ = k) :
    Finishes Src c k (addConstant (.str name) span >>= fun place => put op (place :: xs) span) := by
  intro σ σ' hσ hrun
  obtain ⟨place, σ₁, hadd, hput⟩ := bind_ok hrun
  obtain ⟨hconst, hplace, hlt⟩ := addConstant_emits (c := .str name) hσ trivial (by simp) hadd
  have hemits := refer_emits hconst.ok (refers_name hop hlt ⟨name, hplace⟩) hput
  refine ⟨_, Tail.value ?_ (by rw [← hsized, Nat.add_comm]; rfl) ?_ (Nat.le_of_eq (htakes place))
    (fun _ => htakes place), hconst.after hemits⟩
  · rcases hop with rfl | rfl | rfl <;> rfl
  · rcases hop with rfl | rfl | rfl <;> rfl

theorem lowers_strict {es : List Operand} {m₁ m₂ : CompileM Unit} (hops : e.operands? = some es)
    (hpart : ∀ S, (S, .operands e 0 es) ∈ Site.formParts S e)
    (h₁ : Lowers Src R (.operands e 0 es) m₁) (h₂ : Finishes Src e.Counted es.length m₂) :
    Lowers Src R (.form e) (m₁ >>= fun _ => m₂) := by
  intro Γ σ σ' h hr hc
  obtain ⟨_, σ₁, hrun₁, hrun₂⟩ := bind_ok h
  have hl := h₁ hrun₁ hr (hc.part (hpart _))
  obtain ⟨tail, htail, hemits⟩ := h₂ (hl.ready hr).ok hrun₂
  exact hl.strict hops htail hemits

theorem lowers_atom {m : CompileM Unit} (hops : e.operands? = some [])
    (h : ∀ ⦃σ σ'⦄, σ.Ok Src → m σ = .ok () σ' → Makes Src 0 1 σ σ') :
    Lowers Src R (.form e) m := by
  intro Γ σ σ' hrun hr _
  exact Laid.atom hops hr.ok (h hr.ok hrun)

/-- Checking the number of arguments changes nothing. -/
theorem lowers_checked {args : Nat} {span : Span} {m : CompileM Unit}
    (h : args < 256 → Lowers Src R n m) : Lowers Src R n (checkArgs args span >>= fun _ => m) := by
  intro Γ σ σ' hrun hr hc
  obtain ⟨_, σ₁, hcheck, hrest⟩ := bind_ok hrun
  obtain ⟨hlt, rfl⟩ := checkArgs_ok hcheck
  exact h hlt hrest hr hc

/-! ## Jumps -/

/-- An instruction of the piece at hand is appended. -/
theorem extends_point {loops : List Loop} {op : Opcode} {xs : List Nat} {s : Span} {o : Nat}
    (hσ : σ.Ok Src) (hop : op.refers = false) :
    Extends Src loops σ (σ.emit op xs s) [Γ.point o k op xs s] :=
  Extends.emit (p := Γ.point o k op xs s) hσ rfl (Emitted.refers_of_not hop)

/-- A jump forward: over the code `b`, to where the target is. -/
theorem extends_jump {loops : List Loop} {op : Opcode} {span : Span} {a b : List Point} {o t : Nat}
    (hop : op = .jump ∨ op = .jumpIfFalse ∨ op = .finallyEnd) (ha : Extends Src loops σ σ₁ a)
    (hb : Extends Src loops (σ₁.emit op [Opcode.noTarget] span) σ₂ b) :
    Extends Src loops σ (σ₂.patch σ₁.items.length 0 t) (a ++ Γ.point o k op [t] span :: b) := by
  have hrefers : op.refers = false := by
    rcases hop with rfl | rfl | rfl <;> rfl
  have hpoint : Extends Src loops σ₁ _ [Γ.point o k op [Opcode.noTarget] span] :=
    extends_point ha.ok hrefers
  exact (ha.trans (hpoint.trans hb)).patch rfl ha.length_items hrefers

theorem lowers_and {l r : Expr} {span : Span} (hl : Lowers Src R (.expr l) (expr R l))
    (hr : Lowers Src R (.expr r) (expr R r)) :
    Lowers Src R (.form (.binary "&&" l r span)) (expr R (.binary "&&" l r span)) := by
  intro Γ σ σ' h hready hc
  rw [expr, if_pos (by decide)] at h
  obtain ⟨_, σ₁, h₁, h⟩ := bind_ok h
  obtain ⟨_, σ₂, h₂, h⟩ := bind_ok h
  obtain ⟨done, σ₃, h₃, h⟩ := bind_ok h
  obtain ⟨_, σ₄, h₄, h⟩ := bind_ok h
  obtain ⟨_, σ₅, h₅, h₆⟩ := bind_ok h
  obtain ⟨c₁, n₁, hlays₁, hext₁⟩ := hl h₁ hready (hc.part (by simp [Site.parts, Site.formParts]))
  obtain rfl := put_ok h₂
  obtain ⟨rfl, rfl⟩ := emit_ok h₃
  obtain rfl := put_ok h₄
  have hdup : Extends Src Γ.loops σ _ (c₁ ++ [Γ.point (σ.size + size c₁) 1 .dup [] span]) :=
    hext₁.trans (extends_point hext₁.ok rfl)
  have hjump : Extends Src Γ.loops _ _
      [Γ.point (σ.size + size c₁ + 1) 2 .jumpIfFalse [Opcode.noTarget] span] :=
    extends_point (s := span) hdup.ok rfl
  have hpop : Extends Src Γ.loops _ _ [Γ.point (σ.size + size c₁ + 4) 1 .pop [] span] :=
    extends_point (s := span) hjump.ok rfl
  obtain ⟨c₂, n₂, hlays₂, hext₂⟩ := hr h₅ (((hready.after hdup).after hjump).after hpop)
    (hc.part (by simp [Site.parts, Site.formParts]))
  obtain ⟨hlt, rfl⟩ := patchHere_ok h₆
  have hsize := hext₂.size
  simp only [emit_size, hext₁.size, Opcode.lengths] at hlays₂ hsize
  have hext := extends_jump (Γ := Γ) (k := 2) (o := σ.size + size c₁ + 1) (t := σ₅.size)
    (.inr (.inl rfl)) hdup (hpop.trans hext₂)
  refine ⟨_, _, .and hlays₁ hlays₂ hsize hlt, ?_⟩
  simpa using hext

theorem lowers_or {l r : Expr} {span : Span} (hl : Lowers Src R (.expr l) (expr R l))
    (hr : Lowers Src R (.expr r) (expr R r)) :
    Lowers Src R (.form (.binary "||" l r span)) (expr R (.binary "||" l r span)) := by
  intro Γ σ σ' h hready hc
  rw [expr, if_neg (by decide), if_pos (by decide)] at h
  obtain ⟨_, σ₁, h₁, h⟩ := bind_ok h
  obtain ⟨_, σ₂, h₂, h⟩ := bind_ok h
  obtain ⟨rest, σ₃, h₃, h⟩ := bind_ok h
  obtain ⟨done, σ₄, h₄, h⟩ := bind_ok h
  obtain ⟨_, σ₅, h₅, h⟩ := bind_ok h
  obtain ⟨_, σ₆, h₆, h⟩ := bind_ok h
  obtain ⟨_, σ₇, h₇, h₈⟩ := bind_ok h
  obtain ⟨c₁, n₁, hlays₁, hext₁⟩ := hl h₁ hready (hc.part (by simp [Site.parts, Site.formParts]))
  obtain rfl := put_ok h₂
  obtain ⟨rfl, rfl⟩ := emit_ok h₃
  obtain ⟨rfl, rfl⟩ := emit_ok h₄
  obtain ⟨hlt₅, rfl⟩ := patchHere_ok h₅
  obtain rfl := put_ok h₆
  have hdup : Extends Src Γ.loops σ _ (c₁ ++ [Γ.point (σ.size + size c₁) 1 .dup [] span]) :=
    hext₁.trans (extends_point hext₁.ok rfl)
  have hjump : Extends Src Γ.loops _ _
      [Γ.point (σ.size + size c₁ + 1) 2 .jumpIfFalse [Opcode.noTarget] span] :=
    extends_point (s := span) hdup.ok rfl
  have hskip : Extends Src Γ.loops _ _
      [Γ.point (σ.size + size c₁ + 4) 1 .jump [Opcode.noTarget] span] :=
    extends_point (s := span) hjump.ok rfl
  have hrest := extends_jump (Γ := Γ) (k := 2) (o := σ.size + size c₁ + 1)
    (t := σ.size + size c₁ + 7) (.inr (.inl rfl)) hdup hskip
  simp only [emit_size, hext₁.size, Opcode.lengths] at h₇
  have hpop : Extends Src Γ.loops _ _ [Γ.point (σ.size + size c₁ + 7) 1 .pop [] span] :=
    extends_point (s := span) hrest.ok rfl
  obtain ⟨c₂, n₂, hlays₂, hext₂⟩ := hr h₇ ((hready.after hrest).after hpop)
    (hc.part (by simp [Site.parts, Site.formParts]))
  obtain ⟨hlt, rfl⟩ := patchHere_ok h₈
  have hsize := hext₂.size
  simp only [emit_size, patch_size, hext₁.size, Opcode.lengths] at hlays₂ hsize
  have hext : Extends Src Γ.loops σ σ₇ ((c₁ ++ [Γ.point (σ.size + size c₁) 1 .dup [] span,
      Γ.point (σ.size + size c₁ + 1) 2 .jumpIfFalse [σ.size + size c₁ + 7] span])
      ++ Γ.point (σ.size + size c₁ + 4) 1 .jump [Opcode.noTarget] span
      :: (Γ.point (σ.size + size c₁ + 7) 1 .pop [] span :: c₂)) := by
    simpa using hrest.trans (hpop.trans hext₂)
  have hdone := hext.patch (k := 0) (t := σ₇.size) rfl
    ((hdup.trans hjump).length_items.trans (by simp)) rfl
  refine ⟨_, _, .or hlays₁ hlays₂ hsize hlt, ?_⟩
  simpa using hdone

/-- Two ways to a value: the condition, the way taken if it holds, and the other one. -/
theorem laid_branches {c : Expr} {yes no : Node} {span : Span} {m₁ m₂ m₃ : CompileM Unit}
    (hcond : Lowers Src R (.expr c) m₁) (hyes : Lowers Src R yes m₂) (hno : Lowers Src R no m₃)
    (h : (m₁ >>= fun _ => emitJump .jumpIfFalse span >>= fun skip => m₂ >>= fun _ =>
      emitJump .jump span >>= fun done => patchHere skip span >>= fun _ => m₃ >>= fun _ =>
      patchHere done span) σ = .ok () σ') (hready : Ready Src Γ R σ)
    (hc₁ : Covers Src Γ.site (.expr c)) (hc₂ : Covers Src Γ.site yes) (hc₃ : Covers Src Γ.site no) :
    ∃ c₁ c₂ c₃ n₁ n₂ n₃ other stop, Lays Γ (.expr c) σ.size c₁ n₁ ∧
      Lays Γ yes (σ.size + size c₁ + 3) c₂ n₂ ∧ Lays Γ no other c₃ n₃ ∧
      other = σ.size + size c₁ + 3 + size c₂ + 3 ∧ stop = other + size c₃ ∧
      stop < Opcode.noTarget ∧
      Extends Src Γ.loops σ σ' (c₁ ++ Γ.point (σ.size + size c₁) 1 .jumpIfFalse [other] span
        :: (c₂ ++ Γ.point (σ.size + size c₁ + 3 + size c₂) 1 .jump [stop] span :: c₃)) := by
  obtain ⟨_, σ₁, h₁, h⟩ := bind_ok h
  obtain ⟨skip, σ₂, h₂, h⟩ := bind_ok h
  obtain ⟨_, σ₃, h₃, h⟩ := bind_ok h
  obtain ⟨done, σ₄, h₄, h⟩ := bind_ok h
  obtain ⟨_, σ₅, h₅, h⟩ := bind_ok h
  obtain ⟨_, σ₆, h₆, h₇⟩ := bind_ok h
  obtain ⟨c₁, n₁, hlays₁, hext₁⟩ := hcond h₁ hready hc₁
  obtain ⟨rfl, rfl⟩ := emit_ok h₂
  have hjump : Extends Src Γ.loops _ _
      [Γ.point (σ.size + size c₁) 1 .jumpIfFalse [Opcode.noTarget] span] :=
    extends_point (s := span) hext₁.ok rfl
  obtain ⟨c₂, n₂, hlays₂, hext₂⟩ := hyes h₃ ((hready.after hext₁).after hjump) hc₂
  obtain ⟨rfl, rfl⟩ := emit_ok h₄
  obtain ⟨hlt₅, rfl⟩ := patchHere_ok h₅
  have hsize₂ := hext₂.size
  simp only [emit_size, hext₁.size, Opcode.lengths] at hlays₂ hsize₂
  simp only [emit_size, hsize₂, Opcode.lengths] at h₆
  have hskip : Extends Src Γ.loops _ _
      [Γ.point (σ.size + size c₁ + 3 + size c₂) 1 .jump [Opcode.noTarget] span] :=
    extends_point (s := span) hext₂.ok rfl
  have hother := extends_jump (Γ := Γ) (k := 1) (o := σ.size + size c₁)
    (t := σ.size + size c₁ + 3 + size c₂ + 3) (.inr (.inl rfl)) hext₁ (hext₂.trans hskip)
  obtain ⟨c₃, n₃, hlays₃, hext₃⟩ := hno h₆ (hready.after hother) hc₃
  obtain ⟨hlt, rfl⟩ := patchHere_ok h₇
  have hsize₃ := hext₃.size
  simp only [emit_size, patch_size, hsize₂, Opcode.lengths] at hlays₃ hsize₃
  have hext : Extends Src Γ.loops σ σ₆ ((c₁ ++ Γ.point (σ.size + size c₁) 1 .jumpIfFalse
      [σ.size + size c₁ + 3 + size c₂ + 3] span :: c₂)
      ++ Γ.point (σ.size + size c₁ + 3 + size c₂) 1 .jump [Opcode.noTarget] span :: c₃) := by
    simpa using hother.trans hext₃
  have hdone := hext.patch (k := 0) (t := σ₆.size) rfl
    ((hext₁.trans (hjump.trans hext₂)).length_items.trans (by simp)) rfl
  refine ⟨c₁, c₂, c₃, n₁, n₂, n₃, _, _, hlays₁, hlays₂, hlays₃, rfl, hsize₃, hlt, ?_⟩
  simpa using hdone

theorem lowers_ternary {c y n : Expr} {span : Span} (hc : Lowers Src R (.expr c) (expr R c))
    (hy : Lowers Src R (.expr y) (expr R y)) (hn : Lowers Src R (.expr n) (expr R n)) :
    Lowers Src R (.form (.ternary c y n span)) (expr R (.ternary c y n span)) := by
  intro Γ σ σ' h hready hcov
  rw [expr] at h
  obtain ⟨c₁, c₂, c₃, n₁, n₂, n₃, other, stop, h₁, h₂, h₃, hother, hstop, hlt, hext⟩ :=
    laid_branches hc hy hn h hready (hcov.part (by simp [Site.parts, Site.formParts]))
      (hcov.part (by simp [Site.parts, Site.formParts]))
      (hcov.part (by simp [Site.parts, Site.formParts]))
  exact ⟨_, _, .ternary h₁ h₂ h₃ hother hstop hlt, hext⟩

theorem lowers_cond {c : Expr} {y : Block} {n : Option Block} {span : Span}
    (hc : Lowers Src R (.expr c) (expr R c)) (hy : Lowers Src R (.value y) (branch R y))
    (hn : Lowers Src R (.alternative n span) (alternative R n span)) :
    Lowers Src R (.form (.cond c y n span)) (expr R (.cond c y n span)) := by
  intro Γ σ σ' h hready hcov
  rw [expr] at h
  obtain ⟨c₁, c₂, c₃, n₁, n₂, n₃, other, stop, h₁, h₂, h₃, hother, hstop, hlt, hext⟩ :=
    laid_branches hc hy hn h hready (hcov.part (by simp [Site.parts, Site.formParts]))
      (hcov.part (by simp [Site.parts, Site.formParts]))
      (hcov.part (by simp [Site.parts, Site.formParts]))
  exact ⟨_, _, .cond h₁ h₂ h₃ hother hstop hlt, hext⟩

/-! ## Sequences, branches and bodies -/

theorem endsWithExpr_iff {ss : List Stmt} :
    endsWithExpr ss = true ↔ ∃ pre e s, ss = pre ++ [.expr e s] := by
  constructor
  · intro h
    rcases List.eq_nil_or_concat ss with rfl | ⟨pre, last, rfl⟩
    · simp [endsWithExpr] at h
    · simp only [endsWithExpr, List.concat_eq_append, List.getLast?_concat] at h
      cases last with
      | expr e s => exact ⟨pre, e, s, by simp⟩
      | _ => simp at h
  · rintro ⟨pre, e, s, rfl⟩
    simp [endsWithExpr]

/-- The code of statements that end with an expression ends with a `pop`. -/
theorem Lays.split_expr {pre : List Stmt} {s : Span} {o : Nat} {notes : List Note}
    (h : Lays Γ (.stmts (pre ++ [.expr e s])) o code notes) :
    ∃ c₁ c₂ n₁ n₂, code = c₁ ++ c₂ ++ [Γ.point (o + size c₁ + size c₂) 1 .pop [] s] ∧
      Lays Γ (.stmts pre) o c₁ n₁ ∧ Lays Γ (.expr e) (o + size c₁) c₂ n₂ := by
  induction pre generalizing o code notes with
  | nil =>
    cases h with
    | stmts hone hrest =>
      cases hrest
      cases hone with
      | stmt haction =>
        cases haction with
        | exprStmt hexpr =>
          refine ⟨[], _, [], _, ?_, .noStmts, hexpr⟩
          simp
  | cons t pre ih =>
    cases h with
    | stmts hone hrest =>
      obtain ⟨c₁, c₂, n₁, n₂, rfl, hpre, hexpr⟩ := ih hrest
      refine ⟨_, c₂, _, n₂, ?_, .stmts hone hpre, ?_⟩
      · simp [Nat.add_assoc]
      · simpa [Nat.add_assoc] using hexpr

theorem lowers_stmts_nil : Lowers Src R (.stmts []) (stmts R []) := by
  intro Γ σ σ' h hr _
  rw [stmts] at h
  obtain ⟨-, rfl⟩ := pure_ok h
  exact ⟨[], [], .noStmts, Extends.refl hr.ok⟩

theorem lowers_stmts_cons {s : Stmt} {ss : List Stmt} (hs : Lowers Src R (.stmt s) (stmt R s))
    (hss : Lowers Src R (.stmts ss) (stmts R ss)) :
    Lowers Src R (.stmts (s :: ss)) (stmts R (s :: ss)) := by
  intro Γ σ σ' h hr hc
  rw [stmts] at h
  obtain ⟨_, σ₁, h₁, h₂⟩ := bind_ok h
  obtain ⟨c₁, n₁, hlays₁, hext₁⟩ := hs h₁ hr (hc.part (by simp [Site.parts]))
  obtain ⟨c₂, n₂, hlays₂, hext₂⟩ := hss h₂ (hr.after hext₁) (hc.part (by simp [Site.parts]))
  rw [hext₁.size] at hlays₂
  exact ⟨_, _, .stmts hlays₁ hlays₂, hext₁.trans hext₂⟩

theorem modifyBlock_ok {f : CodeBlock → CodeBlock} (h : modifyBlock f σ = .ok () σ') :
    σ' = σ.withBlock (f σ.function.block) := by
  cases h
  rfl

theorem getBlock_ok {b : CodeBlock} (h : getBlock σ = .ok b σ') :
    b = σ.function.block ∧ σ = σ' := by
  cases h
  exact ⟨rfl, rfl⟩

/-- A function body on the way through a piece is met on the way through a part of it. -/
theorem visits_body {S T : Site} {n : Node} {b : Block} (h : Site.Visits (S, n) (T, .body b))
    (hn : ∀ b, n ≠ .body b) : ∃ p ∈ S.parts n, Site.Visits p (T, .body b) := by
  rcases Relation.ReflTransGen.cases_head h with heq | ⟨p, hp, hv⟩
  · exact absurd (congrArg Prod.snd heq) (hn b)
  · exact ⟨p, hp, hv⟩

/-- The bodies in statements that end with an expression are those before it and those inside it. -/
theorem covers_concat {S : Site} {pre : List Stmt} {s : Span} (hpre : Covers Src S (.stmts pre))
    (he : Covers Src S (.expr e)) : Covers Src S (.stmts (pre ++ [.expr e s])) := by
  intro T b hv
  induction pre with
  | nil =>
    obtain ⟨p, hp, hv⟩ := visits_body hv (by simp)
    simp only [Site.parts, List.nil_append, List.mem_cons, List.not_mem_nil, or_false] at hp
    rcases hp with rfl | rfl
    · obtain ⟨p, hp, hv⟩ := visits_body hv (by simp)
      obtain rfl := List.mem_singleton.mp hp
      obtain ⟨p, hp, hv⟩ := visits_body hv (by simp)
      obtain rfl := List.mem_singleton.mp hp
      exact he T b hv
    · obtain ⟨p, hp, -⟩ := visits_body hv (by simp)
      cases hp
  | cons t pre ih =>
    obtain ⟨p, hp, hv⟩ := visits_body hv (by simp)
    simp only [Site.parts, List.cons_append, List.mem_cons, List.not_mem_nil, or_false] at hp
    rcases hp with rfl | rfl
    · exact hpre.part (by simp [Site.parts]) T b hv
    · exact ih (hpre.part (by simp [Site.parts])) hv

/-- What covers a block with a value covers its statements. -/
theorem covers_value {S : Site} {ss : List Stmt}
    (h : ∀ p ∈ Site.valueParts S ss, Covers Src p.1 p.2) : Covers Src S (.stmts ss) := by
  cases hends : endsWithExpr ss with
  | true =>
    obtain ⟨pre, e, s, rfl⟩ := endsWithExpr_iff.mp hends
    refine covers_concat (h (S, .stmts pre) ?_) (h (S, .expr e) ?_)
    all_goals simp [Site.valueParts]
  | false =>
    refine h (S, .stmts ss) ?_
    rw [Site.valueParts_of_not_endsWithExpr hends]
    exact List.mem_singleton.mpr rfl

theorem lowers_branch {ss : List Stmt} {span : Span} (hss : Lowers Src R (.stmts ss) (stmts R ss)) :
    Lowers Src R (.value ⟨ss, span⟩) (branch R ⟨ss, span⟩) := by
  intro Γ σ σ' h hr hc
  rw [branch] at h
  obtain ⟨_, σ₁, h₁, h₂⟩ := bind_ok h
  obtain ⟨code, notes, hlays, hext⟩ := hss h₁ hr (covers_value fun p hp => hc.part hp)
  obtain ⟨block, σ₂, hblock, h₃⟩ := bind_ok h₂
  obtain ⟨rfl, rfl⟩ := getBlock_ok hblock
  cases hends : endsWithExpr ss with
  | true =>
    obtain ⟨pre, e, s, rfl⟩ := endsWithExpr_iff.mp hends
    obtain ⟨c₁, c₂, n₁, n₂, rfl, hpre, hexpr⟩ := hlays.split_expr
    have hpop : σ₁.function.block.endsWith .pop = true := by
      rw [hext.endsWith]
      rfl
    rw [hends, hpop] at h₃
    obtain rfl := modifyBlock_ok h₃
    exact ⟨_, _, .value hpre hexpr, hext.dropPop rfl rfl⟩
  | false =>
    rw [hends] at h₃
    obtain rfl := put_ok h₃
    exact ⟨_, _, .noValue hends hlays, hext.trans (extends_point hext.ok rfl)⟩

theorem lowers_alternative_none {span : Span} :
    Lowers Src R (.alternative none span) (alternative R none span) := by
  intro Γ σ σ' h hr _
  rw [alternative] at h
  obtain rfl := put_ok h
  exact ⟨_, _, .noAlternative, extends_point hr.ok rfl⟩

theorem lowers_alternative_some {b : Block} {span : Span} (hb : Lowers Src R (.value b) (branch R b)) :
    Lowers Src R (.alternative (some b) span) (alternative R (some b) span) := by
  intro Γ σ σ' h hr hc
  rw [alternative] at h
  obtain ⟨code, notes, hlays, hext⟩ := hb h hr (hc.part (by simp [Site.parts]))
  exact ⟨code, notes, .alternative hlays, hext⟩

/-- A function body starts from an empty block and ends with a return. -/
theorem laid_body {ss : List Stmt} {span : Span} (hss : Lowers Src [] (.stmts ss) (stmts [] ss))
    (h : functionBody ⟨ss, span⟩ σ = .ok () σ') (hr : Ready Src .top [] σ) (hempty : σ.items = [])
    (hc : Covers Src .top (.body ⟨ss, span⟩)) : Laid Src .top (.body ⟨ss, span⟩) σ σ' := by
  rw [functionBody] at h
  obtain ⟨_, σ₁, h₁, h₂⟩ := bind_ok h
  obtain ⟨code, notes, hlays, hext⟩ := hss h₁ hr (covers_value fun p hp => hc.part hp)
  cases hends : endsWithExpr ss with
  | true =>
    obtain ⟨pre, e, s, rfl⟩ := endsWithExpr_iff.mp hends
    obtain ⟨c₁, c₂, n₁, n₂, rfl, hpre, hexpr⟩ := hlays.split_expr
    have hret := hext.returnPop rfl rfl
    unfold finishBody at h₂
    rw [hends] at h₂
    obtain ⟨_, σ₂, hmod, h₃⟩ := bind_ok h₂
    obtain rfl := modifyBlock_ok hmod
    obtain ⟨block, σ₃, hblock, h₄⟩ := bind_ok h₃
    obtain ⟨rfl, rfl⟩ := getBlock_ok hblock
    have hlast := hret.endsWith .returnValue
    rw [hlast] at h₄
    obtain ⟨-, rfl⟩ := pure_ok h₄
    refine ⟨_, _, .bodyValue hpre hexpr, ?_⟩
    rw [← List.append_assoc]
    exact hret
  | false =>
    unfold finishBody at h₂
    rw [hends] at h₂
    obtain ⟨block, σ₃, hblock, h₄⟩ := bind_ok h₂
    obtain ⟨rfl, rfl⟩ := getBlock_ok hblock
    split at h₄
    · obtain rfl := put_ok h₄
      exact ⟨_, _, .bodyNull hends hlays, hext.trans (extends_point hext.ok rfl)⟩
    · next hret =>
      -- the block ends with a return, so the code is not empty
      obtain ⟨-, rfl⟩ := pure_ok h₄
      rcases List.eq_nil_or_concat code with rfl | ⟨pre, p, rfl⟩
      · have hnone : σ₁.items = [] := by
          rw [hext.items, hempty]
          rfl
        simp [CompileState.endsWith_eq, hnone] at hret
      · simp only [List.concat_eq_append] at hext hlays
        rw [hext.endsWith, hext.endsWith] at hret
        refine ⟨_, _, .bodyReturn hends hlays (p := p) (by simp) ?_, hext⟩
        by_cases hp : p.item.opcode = .returnValue
        · exact .inl hp
        · right
          simpa [hp] using hret

/-! ## Functions and classes -/

/-- Outside of loops no jump waits. -/
theorem block_eq_of_extends (h : Extends Src [] σ σ' code) (hitems : σ.items = []) :
    σ'.function.block = .ofItems (items code) := by
  have hraw : code.map (raw (fun _ => true) 0) = items code := by
    refine List.map_congr_left fun p hp => ?_
    rcases hl : p.leap with _ | ⟨l, n⟩
    · exact raw_of_leap_none hl _ _
    · have hset := (h.settled p hp l n hl).2
      have hn : n ≠ 0 := by
        intro hn
        obtain ⟨loop, rest, heq, -⟩ := hset hn
        cases heq
      simp [raw, hl, hn]
  have hlist : σ'.function.block.items.toList = items code := by
    have hgrown := h.items
    rw [hitems, List.nil_append] at hgrown
    exact hgrown.trans hraw
  rw [← hlist, ← CodeBlock.eq_ofItems]

/-- A compiled body comes from its source, and compiling it leaves the block around it alone. -/
theorem inFunction_from {pre : CompileM Unit} {b : Block} {body : Body}
    (hss : Lowers Src [] (.stmts b.statements) (stmts [] b.statements))
    (hpre : ∀ ⦃σ σ'⦄, σ.Ok Src → pre σ = .ok () σ' → Emits Src σ σ' []) (hσ : σ.Ok Src)
    (hsrc : Src.body b) (hcov : Covers Src .top (.body b))
    (h : inFunction (pre >>= fun _ => functionBody b) σ = .ok body σ') :
    Emits Src σ σ' [] ∧
      (∀ s ∈ body.free, σ'.symbols.Knows Src.builtin s ∧ s.IsCaptured) ∧
      ∀ name params, (body.block.toFunction name body.locals params).From Src σ'.pool body.free.length := by
  obtain ⟨σ₁, hrun, hblock, hlocals, hfree, hleft⟩ := inFunction_ok h
  obtain ⟨_, σ₂, hrun₁, hrun₂⟩ := bind_ok hrun
  have hinside := inside_ok hσ
  have hemits := hpre hinside hrun₁
  have hready : Ready Src .top [] σ₂ := Ready.emits ⟨rfl, .nil, hinside⟩ hemits
  have hstart := hemits.nil []
  obtain ⟨ss, span⟩ := b
  obtain ⟨code, notes, hlays, hext⟩ := laid_body hss hrun₂ hready hstart.items hcov
  have hsize : σ₂.size = 0 := hstart.size
  have hitems : σ₂.items = [] := hstart.items
  have haround := inFunction_emits h fun σ₃ hrun₃ => by
    rw [hrun] at hrun₃
    cases hrun₃
    exact ⟨_, hstart.toKeeps.trans hext.toKeeps⟩
  refine ⟨haround.1, haround.2, fun name params => ?_⟩
  have hpool : σ'.pool = σ₁.pool := by rw [hleft]
  rw [hsize] at hlays
  refine ⟨_, code, notes, hsrc, hlays, ⟨?_, ?_⟩, fun p hp => (hext.refers p hp).mono ?_⟩
  · rw [hblock, block_eq_of_extends hext hitems]
    rfl
  · rw [hblock, block_eq_of_extends hext hitems]
    rfl
  · refine ⟨hpool ▸ .refl _, ?_, Nat.le_of_eq ?_, fun _ hn => hn⟩
    · show _ ≤ body.locals
      rw [hlocals]
      exact SymbolTable.slots_le _
    · rw [hfree, Array.length_toList]
      rfl

theorem lowers_functionLiteral {f : FunctionLiteral} {binding : Option String}
    (hss : Lowers Src [] (.stmts f.body.statements) (stmts [] f.body.statements)) :
    Lowers Src R (.form (.function f)) (functionLiteral f binding) := by
  intro Γ σ σ' h hr hc
  obtain ⟨own, params, body, span⟩ := f
  rw [functionLiteral] at h
  obtain ⟨compiled, σ₁, h₁, h₂⟩ := bind_ok h
  have hsrc : Src.body body := hc.body (T := .top) (by simp [Site.parts, Site.formParts])
  have hcov : Covers Src .top (.body body) := hc.part (by simp [Site.parts, Site.formParts])
  have hcompiled : Emits Src σ σ₁ [] ∧
      (∀ s ∈ compiled.free, σ₁.symbols.Knows Src.builtin s ∧ s.IsCaptured) ∧ ∀ name params,
      (compiled.block.toFunction name compiled.locals params).From Src σ₁.pool compiled.free.length := by
    cases hname : (own <|> binding) with
    | none =>
      simp only [hname] at h₁
      exact inFunction_from hss (fun _ _ hσ hrun => defineParams_emits hσ hrun) hr.ok hsrc hcov h₁
    | some name =>
      simp only [hname] at h₁
      rw [← bind_assoc] at h₁
      refine inFunction_from hss ?_ hr.ok hsrc hcov h₁
      intro τ τ' hτ hrun
      obtain ⟨_, τ₁, hmod, hparams⟩ := bind_ok hrun
      obtain rfl := modify_ok hmod
      obtain ⟨hok, hgrow⟩ :=
        @SymbolTable.bind_ok _ _ hτ.symbols ⟨name, .functionSelf, 0, true⟩ trivial (fun hst => by cases hst)
      have hemits : Emits Src τ { τ with symbols := (τ.symbols.defineFunctionName name).2 } [] :=
        Emits.bind hτ hok hgrow
      exact hemits.after (defineParams_emits hemits.ok hparams)
  obtain ⟨hemits, hfree, hfrom⟩ := hcompiled
  exact Laid.atom rfl hr.ok ((makeClosure_makes hemits.ok (hfrom _ _) hfree h₂).after hemits)

/-- The functions of all methods found so far come from their sources, and they have no cells. -/
def ClassMembers.From (Src : Source) (p : Pool) (found : ClassMembers) : Prop :=
  ∀ m ∈ found.methods, m.2.From Src p 0

theorem ClassMembers.From.mono {p q : Pool} {found : ClassMembers} (h : found.From Src p)
    (hgrow : p.Grows q) : found.From Src q := fun m hm => (h m hm).mono hgrow

theorem ClassMembers.From.addMethod {p : Pool} {found : ClassMembers} {name : String} {f : Function}
    (h : found.From Src p) (hf : f.From Src p 0) : (found.addMethod name f).From Src p := by
  intro m hm
  unfold ClassMembers.addMethod at hm
  split at hm
  · obtain ⟨m', hm', rfl⟩ := List.mem_map.mp hm
    split
    · exact hf
    · exact h m' hm'
  · rcases List.mem_append.mp hm with hm | hm
    · exact h m hm
    · rw [List.mem_singleton.mp hm]
      exact hf

theorem ClassMembers.From.addProperty {p : Pool} {found : ClassMembers} {name : String}
    (h : found.From Src p) : (found.addProperty name).From Src p := by
  intro m hm
  unfold ClassMembers.addProperty at hm
  split at hm <;> exact h m hm

theorem method_from {cls name : String} {f : FunctionLiteral} {m : Function}
    (hss : Lowers Src [] (.stmts f.body.statements) (stmts [] f.body.statements)) (hσ : σ.Ok Src)
    (hsrc : Src.body f.body) (hcov : Covers Src .top (.body f.body))
    (h : method cls f name σ = .ok m σ') : Emits Src σ σ' [] ∧ m.From Src σ'.pool 0 := by
  obtain ⟨own, params, body, span⟩ := f
  rw [method] at h
  obtain ⟨compiled, σ₁, h₁, h₂⟩ := bind_ok h
  rw [← bind_assoc] at h₁
  obtain ⟨hemits, -, hfrom⟩ := inFunction_from hss (by
    intro τ τ' hτ hrun
    obtain ⟨_, τ₁, hthis, hparams⟩ := bind_ok hrun
    obtain ⟨symbol, hdefine⟩ := discard_ok hthis
    have hemits := (define_emits hτ hdefine).1
    exact hemits.after (defineParams_emits hemits.ok hparams)) hσ hsrc hcov h₁
  unfold makeMethod at h₂
  cases hfree : compiled.free with
  | cons captured rest =>
    simp only [hfree] at h₂
    exact (fail_ok h₂).elim
  | nil =>
    simp only [hfree] at h₂ hfrom
    obtain ⟨rfl, rfl⟩ := pure_ok h₂
    exact ⟨hemits, hfrom _ _⟩

/-- Compiling the members of a class leaves the block around it alone. -/
theorem members_from {cls : String} {body : List Stmt} {found found' : ClassMembers}
    (hss : ∀ b ∈ Site.methodBodies body, Lowers Src [] (.stmts b.statements) (stmts [] b.statements))
    (hcov : ∀ b ∈ Site.methodBodies body, Src.body b ∧ Covers Src .top (.body b)) (hσ : σ.Ok Src)
    (hfound : found.From Src σ.pool) (h : members cls body found σ = .ok found' σ') :
    Emits Src σ σ' [] ∧ found'.From Src σ'.pool := by
  induction body generalizing σ found with
  | nil =>
    rw [members] at h
    obtain ⟨rfl, rfl⟩ := pure_ok h
    exact ⟨Emits.refl hσ, hfound⟩
  | cons s rest ih =>
    have hone (f : FunctionLiteral) (name : String) (m : Function) {τ : CompileState}
        (hb : f.body ∈ Site.methodBodies (s :: rest)) (hm : method cls f name σ = .ok m τ) :=
      method_from (hss f.body hb) hσ (hcov f.body hb).1 (hcov f.body hb).2 hm
    have hsub : ∀ b ∈ Site.methodBodies rest, b ∈ Site.methodBodies (s :: rest) := by
      intro b hb
      simp only [Site.methodBodies, List.filterMap_cons]
      split
      · exact hb
      · exact List.mem_cons_of_mem _ hb
    have hrest {τ : CompileState} {found : ClassMembers} (hτ : τ.Ok Src) (hfound : found.From Src τ.pool)
        (hrun : members cls rest found τ = .ok found' σ') :=
      ih (fun b hb => hss b (hsub b hb)) (fun b hb => hcov b (hsub b hb)) hτ hfound hrun
    rw [members.eq_def] at h
    generalize hcons : s :: rest = body at h
    split at h
    · cases hcons
    · next name f constant span tail =>
      obtain ⟨rfl, rfl⟩ := List.cons.inj hcons
      obtain ⟨m, σ₁, hm, hrun⟩ := bind_ok h
      obtain ⟨hemits, hfrom⟩ := hone f name.name m (by simp [Site.methodBodies]) hm
      obtain ⟨hemits', hfrom'⟩ := hrest hemits.ok ((hfound.mono hemits.pool).addMethod hfrom) hrun
      exact ⟨hemits.after hemits', hfrom'⟩
    · next name e constant span tail _ =>
      obtain ⟨rfl, rfl⟩ := List.cons.inj hcons
      exact hrest hσ hfound.addProperty h
    · next f span tail =>
      obtain ⟨rfl, rfl⟩ := List.cons.inj hcons
      cases hname : f.name with
      | none =>
        simp only [hname] at h
        exact (fail_ok h).elim
      | some name =>
        simp only [hname] at h
        obtain ⟨m, σ₁, hm, hrun⟩ := bind_ok h
        obtain ⟨hemits, hfrom⟩ := hone f name m (by simp [Site.methodBodies]) hm
        obtain ⟨hemits', hfrom'⟩ := hrest hemits.ok ((hfound.mono hemits.pool).addMethod hfrom) hrun
        exact ⟨hemits.after hemits', hfrom'⟩
    · next id span tail =>
      obtain ⟨rfl, rfl⟩ := List.cons.inj hcons
      exact hrest hσ hfound.addProperty h
    · exact (fail_ok h).elim

end

end ScriptMachine
