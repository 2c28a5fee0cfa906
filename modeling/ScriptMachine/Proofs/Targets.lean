import ScriptMachine.Ast.Build
import ScriptMachine.Proofs.History
import ScriptMachine.Proofs.Layout.Bytes
import ScriptMachine.Proofs.Layout.Ways

/-!
# Jump targets

A block is closed if each of its jumps has a target, each target is an instruction of the block, and
control never runs off its end. The blocks of an accepted unit are closed, with one exception:

* a `continue` that is compiled while only the update clause of its loop is left is *stranded*. Its
  jump is put on the list of the loop after that list was emptied, and nothing places it.

`Lays.closed_iff` says that stranded jumps are the only exception, and
`Compiler.Built.closed_iff_not_strands` says it for whole units: a block is closed if and only if no `continue` is
stranded in it.
-/

namespace ScriptMachine

open Point

/-! ## Closed blocks -/

namespace Instruction

/-- The jump has a target, or one of its targets. -/
def HasTarget (i : Instruction) : Prop :=
  match i.opcode with
  | .jump | .jumpIfFalse | .finallyEnd => i.operands ≠ [Opcode.noTarget]
  | .tryEnter => i.targets ≠ []
  | _ => True

/-- Control may go on to the instruction that follows. -/
def FallsThrough (i : Instruction) : Prop :=
  i.opcode.isPlain = true ∨ i.opcode = .jumpIfFalse ∨ i.opcode = .tryEnter ∨ i.opcode = .rethrow

end Instruction

/-- Every jump has a target, all targets are instructions of the block, and control does not run off
its end. -/
structure ClosedList (is : List Instruction) : Prop where
  hasTarget : ∀ i ∈ is, i.HasTarget
  targets : ∀ i ∈ is, ∀ t ∈ i.targets, ∃ j ∈ is, j.offset = t
  next : ∀ i ∈ is, i.FallsThrough → ∃ j ∈ is, j.offset = i.next

/-- The block decodes to a closed list of instructions. -/
def Closed (code : Array UInt8) : Prop := ∃ is, decode code = .ok is ∧ ClosedList is

/-- A `continue` is compiled on the way through a piece, into the same block, while nothing is left
that could place its jump. -/
def Site.Strands (S : Site) (n : Node) : Prop :=
  ∃ T span l, Within (S, n) (T, .action (.continueLoop span)) ∧ T.loops.head? = some l ∧
    l.closed = true

/-- Without regard to regions and heights, only stranded jumps are unsound. -/
theorem Site.sound_iff_not_strands {S : Site} {n : Node} :
    Sound False False S n ↔ ¬ Strands S n := by
  constructor
  · rintro hsound ⟨T, span, l, hwithin, hl, hclosed⟩
    have hopen := (hsound _ hwithin l hl).target rfl
    rw [hclosed] at hopen
    cases hopen
  · rintro hnot ⟨T, k⟩ hwithin
    unfold Fine
    split
    · exact fun l _ => ⟨by simp, False.elim, False.elim⟩
    · next U span heq =>
      cases heq
      intro l hl
      refine ⟨fun _ => ?_, False.elim, False.elim⟩
      by_contra hclosed
      exact hnot ⟨_, span, l, hwithin, hl, by simpa using hclosed⟩
    · exact False.elim
    · trivial

section

variable {Γ : Context} {n : Node} {o : Nat} {code : List Point} {notes : List Note} {f : Function}

/-! ## From layouts to closed blocks -/

theorem Handler.target?_eq_some {x t : Nat} : target? x = some t ↔ x = t ∧ t ≠ Opcode.noTarget := by
  unfold target?
  split
  · next h => simp_all
  · next h =>
    simp only [Option.some.injEq]
    refine ⟨?_, fun h => h.1⟩
    rintro rfl
    exact ⟨rfl, by simpa using h⟩

/-- A point from which every way leads to a point of the code. -/
theorem Point.closed_of_flows {p : Point} (hp : p.item.Sized) (h : p.Flows (Lands False False code)) :
    p.instruction.HasTarget ∧
      (∀ t ∈ p.instruction.targets, ∃ j ∈ code.map Point.instruction, j.offset = t) ∧
      (p.instruction.FallsThrough → ∃ j ∈ code.map Point.instruction,
        j.offset = p.instruction.next) := by
  have lands : ∀ {s : Spot}, Lands False False code s →
      ∃ j ∈ code.map Point.instruction, j.offset = s.offset := by
    rintro s ⟨q, hq, hmeets⟩
    exact ⟨q.instruction, List.mem_map_of_mem hq, hmeets.offset.symm⟩
  have jumps : ∀ {t : Nat}, p.item.read = [t] → p.item.opcode.jumpOperands = [0] →
      ∀ u ∈ p.instruction.targets, u = t := by
    intro t hread hops u hu
    simp only [Instruction.targets, Point.instruction, hread, hops] at hu
    simpa using (List.mem_filter.mp hu).1
  unfold Point.Flows at h
  cases hop : p.item.opcode
  case jump =>
    rw [hop] at h
    have hread := Emitted.read_one hp (w := 2) (by rw [hop]; rfl)
    refine ⟨?_, ?_, ?_⟩
    · simpa [Instruction.HasTarget, Point.instruction, hop, hread] using h.1.target
    · intro t ht
      obtain rfl := jumps hread (by rw [hop]; rfl) t ht
      exact lands h.2
    · simp [Instruction.FallsThrough, Point.instruction, hop, Opcode.isPlain]
  case jumpIfFalse =>
    rw [hop] at h
    have hread := Emitted.read_one hp (w := 2) (by rw [hop]; rfl)
    refine ⟨?_, ?_, fun _ => ?_⟩
    · simpa [Instruction.HasTarget, Point.instruction, hop, hread] using h.1
    · intro t ht
      obtain rfl := jumps hread (by rw [hop]; rfl) t ht
      exact lands h.2.1
    · obtain ⟨j, hj, hoffset⟩ := lands h.2.2
      refine ⟨j, hj, hoffset.trans ?_⟩
      simp [Instruction.next, Point.instruction, hop, Opcode.lengths]
  case finallyEnd =>
    rw [hop] at h
    have hread := Emitted.read_one hp (w := 2) (by rw [hop]; rfl)
    obtain ⟨hne, r, outer, -, hL⟩ := h
    refine ⟨?_, ?_, ?_⟩
    · simpa [Instruction.HasTarget, Point.instruction, hop, hread] using hne
    · intro t ht
      obtain rfl := jumps hread (by rw [hop]; rfl) t ht
      exact lands hL
    · simp [Instruction.FallsThrough, Point.instruction, hop, Opcode.isPlain]
  case tryEnter =>
    rw [hop] at h
    have hread := Emitted.read_two hp (v := 2) (w := 2) (by rw [hop]; rfl)
    obtain ⟨r, hopens, hbody, hresumes⟩ := h
    -- the targets of the instruction are those of the region
    have htargets : ∀ t, t ∈ p.instruction.targets ↔ t ∈ r.catchTarget ∨ t ∈ r.finallyTarget := by
      intro t
      simp only [hopens.catchTarget, hopens.finallyTarget, Option.mem_def, Handler.target?_eq_some]
      simp only [Instruction.targets, Point.instruction, hop, hread, Opcode.jumpOperands]
      simp only [List.filterMap_cons, List.getElem?_cons_zero, List.getElem?_cons_succ,
        List.filterMap_nil, List.mem_filter, List.mem_cons, List.not_mem_nil, or_false, bne_iff_ne]
      grind
    refine ⟨?_, ?_, fun _ => ?_⟩
    · have hsome : ∃ t, t ∈ r.catchTarget ∨ t ∈ r.finallyTarget := by
        rcases hresumes.some with hsome | hsome
        · exact ⟨_, .inl (Option.get_mem hsome)⟩
        · exact ⟨_, .inr (Option.get_mem hsome)⟩
      obtain ⟨t, ht⟩ := hsome
      have hmem := (htargets t).mpr ht
      have hne : p.instruction.targets ≠ [] := List.ne_nil_of_mem hmem
      simpa [Instruction.HasTarget, Point.instruction, hop] using hne
    · intro t ht
      rcases (htargets t).mp ht with ht | ht
      · exact lands (hresumes.catches t ht)
      · exact lands (hresumes.cleans t ht)
    · obtain ⟨j, hj, hoffset⟩ := lands hbody
      refine ⟨j, hj, hoffset.trans ?_⟩
      simp [Instruction.next, Point.instruction, hop, Opcode.lengths]
  case rethrow =>
    rw [hop] at h
    refine ⟨?_, ?_, fun _ => ?_⟩
    · simp [Instruction.HasTarget, Point.instruction, hop]
    · simp [Instruction.targets, Point.instruction, hop, Opcode.jumpOperands]
    · obtain ⟨j, hj, hoffset⟩ := lands h
      refine ⟨j, hj, hoffset.trans ?_⟩
      simp [Instruction.next, Point.instruction, hop, Opcode.lengths]
  case' returnValue | returnNull | throw | halt =>
    refine ⟨?_, ?_, ?_⟩
    · simp [Instruction.HasTarget, Point.instruction, hop]
    · simp [Instruction.targets, Point.instruction, hop, Opcode.jumpOperands]
    · simp [Instruction.FallsThrough, Point.instruction, hop, Opcode.isPlain]
  all_goals
    rw [hop] at h
    refine ⟨?_, ?_, fun _ => ?_⟩
    · simp [Instruction.HasTarget, Point.instruction, hop]
    · simp [Instruction.targets, Point.instruction, hop, Opcode.jumpOperands]
    · obtain ⟨j, hj, hoffset⟩ := lands h
      refine ⟨j, hj, hoffset.trans ?_⟩
      simp [Instruction.next, Point.instruction, hop]

theorem Lays.closedList (h : Lays .top n 0 code notes) (hn : n.isBlock = true)
    (hsound : Site.Sound False False .top n) : ClosedList (code.map Point.instruction) := by
  have hall := fun (p : Point) (hp : p ∈ code) =>
    Point.closed_of_flows (h.neat.split hp).choose_spec.choose_spec.2.2.2 (h.flows_block hn hsound p hp)
  refine ⟨?_, ?_, ?_⟩ <;> simp only [List.forall_mem_map]
  · exact fun p hp => (hall p hp).1
  · exact fun p hp => (hall p hp).2.1
  · exact fun p hp => (hall p hp).2.2

/-! ## Stranded jumps -/

/-- The parts of a form are its operands and function bodies. -/
theorem Site.parts_of_operands {S : Site} {e : Expr} {es : List Operand} (h : e.operands? = some es)
    {b : Site × Node} (hb : b ∈ S.parts (.form e)) :
    b = (S, .operands e 0 es) ∨ ∃ body, b.2 = .body body := by
  cases e with
  | binary op l r span =>
    by_cases hop : (op == "&&" || op == "||") = true
    · simp only [Expr.operands?, if_pos hop, reduceCtorEq] at h
    · simp only [Site.parts, Site.formParts, if_neg hop, h, Option.getD_some, List.mem_singleton] at hb
      exact .inl hb
  | ternary | cond => cases h
  | function =>
    cases h
    simp only [Site.parts, Site.formParts, List.mem_cons, List.not_mem_nil, or_false] at hb
    rcases hb with rfl | rfl
    · exact .inl rfl
    · exact .inr ⟨_, rfl⟩
  | _ =>
    simp only [Site.parts, Site.formParts, h, Option.getD_some, List.mem_singleton] at hb
    exact .inl hb

/-- Every part of a piece, unless it is a block of its own, has its code inside the code of the
piece. -/
theorem Lays.part (h : Lays Γ n o code notes) {b : Site × Node} (hb : b ∈ Γ.site.parts n)
    (hbody : ∀ body, b.2 ≠ .body body) :
    ∃ Δ o' c ns, Δ.site = b.1 ∧ Lays Δ b.2 o' c ns ∧ c ⊆ code := by
  have pick : ∀ {Δ : Context} {k : Node} {o' : Nat} {c : List Point} {ns : List Note},
      Lays Δ k o' c ns → b = (Δ.site, k) → c ⊆ code →
      ∃ Δ o' c ns, Δ.site = b.1 ∧ Lays Δ b.2 o' c ns ∧ c ⊆ code := by
    rintro Δ k o' c ns hk rfl hc
    exact ⟨Δ, o', c, ns, rfl, hk, hc⟩
  cases h with
  | expr h₁ | stmt h₁ | alternative h₁ | optStmt h₁ =>
    simp only [Site.parts, Option.toList_some, List.map_cons, List.map_nil, List.mem_singleton] at hb
    exact pick h₁ hb (List.Subset.refl _)
  | strict hops h₁ htail =>
    rcases Site.parts_of_operands hops hb with rfl | ⟨body, hbody'⟩
    · exact pick h₁ rfl (List.subset_append_left _ _)
    · exact (hbody body hbody').elim
  | operand h₁ h₂ =>
    simp only [Site.parts, List.mem_cons, List.not_mem_nil, or_false] at hb
    rcases hb with rfl | rfl
    · exact pick h₁ rfl (List.subset_append_left _ _)
    · exact pick h₂ rfl (List.subset_append_right _ _)
  | index h₂ =>
    simp only [Site.parts, List.mem_singleton] at hb
    exact pick h₂ hb (List.subset_cons_self _ _)
  | and h₁ h₂ | or h₁ h₂ =>
    simp only [Site.parts, Site.formParts] at hb
    rw [if_pos (by decide), List.mem_cons, List.mem_singleton] at hb
    rcases hb with rfl | rfl
    · exact pick h₁ rfl (List.subset_append_left _ _)
    · exact pick h₂ rfl fun q hq => by simp [hq]
  | ternary h₁ h₂ h₃ | cond h₁ h₂ h₃ =>
    simp only [Site.parts, Site.formParts, List.mem_cons, List.not_mem_nil, or_false] at hb
    rcases hb with rfl | rfl | rfl
    · exact pick h₁ rfl (List.subset_append_left _ _)
    · exact pick h₂ rfl fun q hq => by simp [hq]
    · exact pick h₃ rfl fun q hq => by simp [hq]
  | value h₁ h₂ =>
    simp only [Site.parts, Site.valueParts, List.getLast?_concat, List.dropLast_concat, List.mem_cons,
      List.not_mem_nil, or_false] at hb
    rcases hb with rfl | rfl
    · exact pick h₁ rfl (List.subset_append_left _ _)
    · exact pick h₂ rfl (List.subset_append_right _ _)
  | bodyValue h₁ h₂ =>
    simp only [Site.parts, Site.valueParts, List.getLast?_concat, List.dropLast_concat, List.mem_cons,
      List.not_mem_nil, or_false] at hb
    rcases hb with rfl | rfl
    · exact pick h₁ rfl (List.subset_append_left _ _)
    · exact pick h₂ rfl fun q hq => by simp [hq]
  | noValue hends h₁ | bodyNull hends h₁ =>
    simp only [Site.parts, Site.valueParts_of_not_endsWithExpr hends, List.mem_singleton] at hb
    exact pick h₁ hb (List.subset_append_left _ _)
  | bodyReturn hends h₁ =>
    simp only [Site.parts, Site.valueParts_of_not_endsWithExpr hends, List.mem_singleton] at hb
    exact pick h₁ hb (List.Subset.refl _)
  | unit h₁ | update h₁ | test _ h₁ =>
    simp only [Site.parts, Option.toList_some, List.map_cons, List.map_nil, List.mem_singleton] at hb
    exact pick h₁ hb (List.subset_append_left _ _)
  | stmts h₁ h₂ =>
    simp only [Site.parts, List.mem_cons, List.not_mem_nil, or_false] at hb
    rcases hb with rfl | rfl
    · exact pick h₁ rfl (List.subset_append_left _ _)
    · exact pick h₂ rfl (List.subset_append_right _ _)
  | bind h₁ | exprStmt h₁ | throw h₁ | retNull h₁ =>
    simp only [Site.parts, Site.actionParts, List.mem_singleton] at hb
    exact pick h₁ hb (List.subset_append_left _ _)
  | block h₁ | tryNone h₁ =>
    simp only [Site.parts, Site.actionParts, List.mem_singleton] at hb
    exact pick h₁ hb (List.Subset.refl _)
  | classDecl =>
    obtain ⟨body, -, rfl⟩ := List.mem_map.mp hb
    exact (hbody _ rfl).elim
  | ret h₁ h₂ =>
    simp only [Site.parts, Site.actionParts, List.mem_cons, List.not_mem_nil, or_false] at hb
    rcases hb with rfl | rfl
    · exact pick h₁ rfl (List.subset_append_left _ _)
    · exact pick h₂ rfl fun q hq => by simp [hq]
  | «while» h₁ h₂ =>
    simp only [Site.parts, Site.actionParts, List.mem_cons, List.not_mem_nil, or_false] at hb
    rcases hb with rfl | rfl
    · exact pick h₁ (by simp) (List.subset_append_left _ _)
    · exact pick h₂ (by simp) fun q hq => by simp [hq]
  | «for» h₀ h₁ h₂ h₃ =>
    simp only [Site.parts, Site.actionParts, List.mem_cons, List.not_mem_nil, or_false] at hb
    rcases hb with rfl | rfl | rfl | rfl
    · exact pick h₀ rfl (List.subset_append_left _ _)
    · exact pick h₁ (by simp) fun q hq => by simp [hq]
    · exact pick h₂ (by simp) fun q hq => by simp [hq]
    · exact pick h₃ (by simp) fun q hq => by simp [hq]
  | brk hloops h₁ | cont hloops h₁ | contWait hloops h₁ =>
    simp only [Site.parts, Site.actionParts, Context.site, hloops, List.map_cons, List.head?_cons,
      Option.toList_some, List.map_nil, List.mem_singleton] at hb
    refine pick h₁ ?_ (List.subset_append_left _ _)
    rw [hb]
    simp [Context.site, hloops]
  | @exits _ _ depth span r rs c₁ c₂ n₁ n₂ hr hdepth h₁ h₂ =>
    have hcleanups : Γ.site.cleanups = r.cleanup :: rs.map Region.cleanup := by simp [Context.site, hr]
    have hlen : depth ≤ (rs.map Region.cleanup).length := by simpa using hdepth
    simp only [Site.parts, Site.exitParts, hcleanups, if_pos hlen, List.mem_append, List.mem_map,
      Option.mem_toList, List.mem_singleton] at hb
    rcases hb with ⟨body, hclean, rfl⟩ | rfl
    · rw [hclean] at h₁
      exact pick h₁ (by simp) fun q hq => by simp [hq]
    · exact pick h₂ (by simp) fun q hq => by simp [hq]
  | tryCatch h₁ _ h₂ hr =>
    simp only [Site.parts, Site.actionParts, List.mem_cons, List.not_mem_nil, or_false] at hb
    rcases hb with rfl | rfl
    · exact pick h₁ (by rw [hr]; rfl) fun q hq => by simp [hq]
    · exact pick h₂ rfl fun q hq => by simp [hq]
  | tryFinally h₁ h₂ hr =>
    simp only [Site.parts, Site.actionParts, List.mem_cons, List.not_mem_nil, or_false] at hb
    rcases hb with rfl | rfl
    · exact pick h₁ (by rw [hr]; rfl) fun q hq => by simp [hq]
    · exact pick h₂ rfl fun q hq => by simp [hq]
  | tryBoth h₁ _ h₂ h₃ hr hr' =>
    simp only [Site.parts, Site.actionParts, List.mem_cons, List.not_mem_nil, or_false] at hb
    rcases hb with rfl | rfl | rfl
    · exact pick h₁ (by rw [hr]; rfl) fun q hq => by simp [hq]
    · exact pick h₂ (by rw [hr']; rfl) fun q hq => by simp [hq]
    · exact pick h₃ rfl fun q hq => by simp [hq]
  | noOperands | noAlternative | noStmts | noOptStmt | noTest | noUpdate => cases hb
  | noExits hle =>
    -- nothing to leave
    simp only [Site.parts, Site.exitParts] at hb
    split at hb
    · cases hb
    · next cleanup outer hcleanups =>
      have hlen := congrArg List.length hcleanups
      simp only [Context.site, List.length_map, List.length_cons] at hlen
      rw [if_neg (by omega)] at hb
      cases hb

theorem Lays.within (h : Lays Γ n o code notes) {b : Site × Node} (hb : Site.Within (Γ.site, n) b) :
    ∃ Δ o' c ns, Δ.site = b.1 ∧ Lays Δ b.2 o' c ns ∧ c ⊆ code := by
  induction hb with
  | refl => exact ⟨Γ, o, code, notes, rfl, h, List.Subset.refl _⟩
  | tail _ hstep ih =>
    obtain ⟨Δ, o', c, ns, hΔ, hc, hsub⟩ := ih
    obtain ⟨E, o'', d, ms, hE, hd, hsub'⟩ := hc.part (hΔ ▸ hstep.1) hstep.2
    exact ⟨E, o'', d, ms, hE, hd, List.Subset.trans hsub' hsub⟩

/-- A stranded jump stays without a target. -/
theorem Lays.exists_of_strands (h : Lays Γ n o code notes) (hn : Site.Strands Γ.site n) :
    ∃ p ∈ code, ∃ span, p.item = ⟨.jump, [Opcode.noTarget], span⟩ := by
  obtain ⟨T, span, l, hwithin, hl, hclosed⟩ := hn
  obtain ⟨Δ, o', c, ns, rfl, hc, hsub⟩ := h.within hwithin
  -- the loop on record is the innermost one
  have hnone : ∀ l' ls, Δ.loops = l' :: ls → l'.continueTo = none := by
    intro l' ls hloops
    simp only [Context.site, hloops, List.map_cons, List.head?_cons, Option.some.injEq] at hl
    subst hl
    simpa using hclosed
  cases hc with
  | cont hloops _ _ htarget =>
    rw [hnone _ _ hloops] at htarget
    cases htarget
  | contWait hloops =>
    refine ⟨_, hsub (List.mem_append_right _ List.mem_cons_self), span, ?_⟩
    simp [Context.leap, hnone _ _ hloops]

/-- A block is closed unless a jump is stranded in it. -/
theorem Lays.closed_iff (h : Lays .top n 0 code notes) (hn : n.isBlock = true) (hf : f.Holds code) :
    Closed f.code ↔ ¬ Site.Strands .top n := by
  have hdecode := decode_of_holds hf h.neat
  constructor
  · rintro ⟨is, his, hclosed⟩ hstrands
    rw [hdecode] at his
    cases his
    obtain ⟨p, hp, span, hitem⟩ := h.exists_of_strands hstrands
    have htarget := hclosed.hasTarget p.instruction (List.mem_map_of_mem hp)
    simp [Instruction.HasTarget, Point.instruction, hitem, Emitted.read, Emitted.cut, Opcode.widths,
      Opcode.noTarget] at htarget
  · intro hnot
    exact ⟨_, hdecode, h.closedList hn (Site.sound_iff_not_strands.mpr hnot)⟩

end

/-! ## Units -/

/-- The block of an accepted unit is closed unless a `continue` is stranded at its top level. Every
function of the pool, that of a literal or that of a method, comes from a function body of this unit or
an earlier one, and it is closed unless a `continue` is stranded in that body. -/
theorem Compiler.Built.closed_iff_not_strands {us : List (List Stmt)} {c c' : Compiler} {p : Program}
    {unit : UnitCode} (hc : c.Built us) (h : c.compile p = .ok (unit, c')) :
    (Closed unit.code ↔ ¬ Site.Strands .top (.unit (c.statements p))) ∧
      ∀ k ∈ c'.pool, ∀ f ∈ k.functions, ∃ b, BodyOf (c.statements p :: us) b ∧
        (Closed f.code ↔ ¬ Site.Strands .top (.body b)) := by
  obtain ⟨hok, code, notes, hlays, hholds⟩ := hc.laid h
  constructor
  · exact hlays.closed_iff rfl hholds
  · intro k hk f hf
    obtain ⟨_, b, code, notes, hlies⟩ := (hok.pool k hk).functions hf
    exact ⟨b, hlies.body, hlies.lays.closed_iff rfl hlies.holds⟩

/-- `for (;; if (true) { continue }) {}` -/
def strandedLoop : Program :=
  ⟨[Build.forLoop none none (some (Build.cond (Build.boolean true) [Build.continueLoop] none)) []]⟩

theorem compile_strandedLoop :
    ∃ unit c', (Compiler.new .empty #[] false).compile strandedLoop = .ok (unit, c') := by
  apply Exists.intro
  apply Exists.intro
  unfold Compiler.compile Compiler.attempt CompileM.unit
  rw [show (Compiler.new .empty #[] false).optimizer.run strandedLoop = (strandedLoop, ⟨0, 0⟩) from rfl]
  simp only [strandedLoop, Build.forLoop, Build.cond, Build.boolean, Build.continueLoop, Build.block,
    Option.map, CompileM.stmts, CompileM.stmt, CompileM.optStmt, CompileM.loopTest,
    CompileM.loopUpdate, CompileM.expr, CompileM.branch, CompileM.alternative, CompileM.exitRegions,
    CompileM.literal]
  rfl

theorem strands_strandedLoop : Site.Strands .top (.unit strandedLoop.statements) := by
  refine ⟨⟨[], [⟨0, 0, true, false⟩], 0⟩, .dummy, ⟨0, 0, true, false⟩, ?_, rfl, rfl⟩
  -- from the unit to the update clause, and through the branch of the condition
  have step : ∀ {a b c : Site × Node}, b ∈ a.1.parts a.2 → (∀ body, b.2 ≠ .body body) →
      Site.Within b c → Site.Within a c := fun h hb => Relation.ReflTransGen.head ⟨h, hb⟩
  let S : Site := ⟨[], [⟨0, 0, true, false⟩], 0⟩
  let branch : Block := Build.block [Build.continueLoop]
  let test : Expr := Build.cond (Build.boolean true) [Build.continueLoop] none
  let loop : Stmt := Build.forLoop none none (some test) []
  refine step (b := (.top, .stmts [loop])) (List.mem_singleton.mpr rfl) (by simp) ?_
  refine step (b := (.top, .stmt loop)) List.mem_cons_self (by simp) ?_
  refine step (b := (.top, .action loop)) List.mem_cons_self (by simp) ?_
  refine step (b := (S, .update (some test) .dummy)) (by simp [loop, S, Site.parts, Site.actionParts,
    Site.loop, Site.top, Build.forLoop]) (by simp) ?_
  refine step (b := (S, .expr test)) List.mem_cons_self (by simp) ?_
  refine step (b := (S, .form test)) List.mem_cons_self (by simp) ?_
  refine step (b := (S, .value branch)) (List.mem_cons_of_mem _ List.mem_cons_self) (by simp) ?_
  refine step (b := (S, .stmts [Build.continueLoop])) List.mem_cons_self (by simp) ?_
  refine step (b := (S, .stmt Build.continueLoop)) List.mem_cons_self (by simp) ?_
  exact step List.mem_cons_self (by simp) .refl

/-- A `continue` in an update clause is accepted, and leaves its block open. -/
theorem not_closed_strandedLoop : ∃ unit c',
    (Compiler.new .empty #[] false).compile strandedLoop = .ok (unit, c') ∧ ¬ Closed unit.code := by
  obtain ⟨unit, c', h⟩ := compile_strandedLoop
  refine ⟨unit, c', h, fun hclosed => ?_⟩
  exact (Compiler.Built.closed_iff_not_strands (.new .empty 0 false) h).1.mp hclosed
    strands_strandedLoop

end ScriptMachine
