import ScriptMachine.Proofs.Layout.Ways

/-!
# Quiet pieces and tidy blocks

A piece of the source is *quiet* if no `return`, `break` or `continue` is compiled on the way through it.
A block is *tidy* if its finally bodies are quiet, no `continue` is compiled in an update clause, and all
operands can be counted.

* `Site.Tidy.sound` — in a tidy block every jump leaves the regions that are open, and no others.
* `Lays.unloop` — a quiet piece has the same code whatever the loops around it are.
* `Site.Quiet.sound` — so the heights in its layout are exact.
-/

namespace ScriptMachine

open Point

/-- The pieces by which control leaves regions and loops early. -/
def Node.isExit : Node → Bool
  | .exits _ _ => true
  | .action (.ret _ _) | .action (.breakLoop _) | .action (.continueLoop _) => true
  | _ => false

namespace Site

/-- No early exit is compiled on the way through a piece, into the same block. -/
def Quiet (S : Site) (n : Node) : Prop := ∀ b, Within (S, n) b → b.2.isExit = false

end Site

/-- A finally body that has no early exits and whose literals can be counted, wherever it is
compiled. -/
structure Block.Quiet (b : Block) : Prop where
  exits : ∀ S, Site.Quiet S (.stmts b.statements)
  counted : ∀ S T e, Site.Within (S, .stmts b.statements) (T, .form e) → e.Counted

namespace Site

/-- What a block has to keep to. -/
structure Tidy (S : Site) (n : Node) : Prop where
  cleanups : ∀ T b c f span, Within (S, n) (T, .action (.tryCatch b c (some f) span)) → f.Quiet
  /-- Update clauses have no `continue`. -/
  updates : ∀ T u span U span', Within (S, n) (T, .update u span) →
    ¬ Within (T, .update u span) (U, .action (.continueLoop span'))

section

variable {S T : Site} {n k : Node}

theorem Quiet.part (h : Quiet S n) (hk : (T, k) ∈ S.parts n) (hbody : ∀ body, k ≠ .body body) :
    Quiet T k := by
  intro b hb
  exact h b (Relation.ReflTransGen.head ⟨hk, hbody⟩ hb)

theorem Quiet.isExit (h : Quiet S n) : n.isExit = false := h (S, n) .refl

/-- Without early exits only operands have to be counted. -/
theorem Quiet.sound {R H : Prop} (h : Quiet S n) (hcounted : ∀ T e, Within (S, n) (T, .form e) → e.Counted) :
    Sound R H S n := by
  rintro ⟨T, k⟩ hk
  have hexit := h _ hk
  unfold Fine
  split
  · next heq =>
    cases heq
    cases hexit
  · next heq =>
    cases heq
    cases hexit
  · next heq =>
    cases heq
    exact fun _ => hcounted _ _ hk
  · trivial

/-! ## Sites of parts -/

end

/-- What changes around a part of a piece. -/
inductive Shift : Site × Node → Site × Node → Prop where
  | same {S T n k} (hn : ∀ depth span, n ≠ .exits depth span) (hloops : T.loops = S.loops)
    (hcleanups : T.cleanups = S.cleanups) : Shift (S, n) (T, k)
  | enter {S b c f span k} :
    Shift (S, .action (.tryCatch b c (some f) span)) (S.enter (some f), k)
  | unprotected {S n k} (hn : ∀ depth span, n ≠ .exits depth span) : Shift (S, n) (S.enter none, k)
  | loop {S n k} (hn : ∀ depth span, n ≠ .exits depth span) : Shift (S, n) (S.loop false, k)
  | update {S n u span} (hn : ∀ depth span, n ≠ .exits depth span) :
    Shift (S, n) (S.loop true, .update u span)
  | exits {S depth span cleanup outer depth' span'} (hcleanups : S.cleanups = cleanup :: outer) :
    Shift (S, .exits depth span) (S.leave outer, .exits depth' span')
  | cleanup {S depth span b outer} (hcleanups : S.cleanups = some b :: outer) :
    Shift (S, .exits depth span) (S.leave outer, .stmts b.statements)

theorem shift_of_parts {S T : Site} {n k : Node} (h : (T, k) ∈ S.parts n) (hbody : ∀ b, k ≠ .body b) :
    Shift (S, n) (T, k) := by
  cases n with
  | exits depth span =>
    simp only [parts, exitParts] at h
    split at h
    · simp at h
    · next cleanup outer hcleanups =>
      split at h
      · rcases List.mem_append.mp h with h | h
        · obtain ⟨b, hb, heq⟩ := List.mem_map.mp h
          cases heq
          obtain rfl := Option.mem_toList.mp hb
          exact .cleanup hcleanups
        · obtain ⟨rfl, rfl⟩ := Prod.mk.inj (List.mem_singleton.mp h)
          exact .exits hcleanups
      · simp at h
  | form e =>
    refine .same (by simp) ?_ ?_ <;>
    · simp only [parts, formParts] at h
      split at h <;> (try split at h) <;> simp at h <;> grind
  | operands e j es =>
    refine .same (by simp) ?_ ?_ <;>
    · rcases es with - | ⟨x, xs⟩
      · simp [parts] at h
      · cases x <;> simp [parts, up] at h <;> grind
  | value b | body b =>
    refine .same (by simp) ?_ ?_ <;>
    · simp only [parts, valueParts] at h
      split at h <;> simp at h <;> grind
  | stmts ss =>
    refine .same (by simp) ?_ ?_ <;>
    · cases ss <;> simp [parts] at h
      grind
  | alternative b span | optStmt b | test b span | update b span =>
    refine .same (by simp) ?_ ?_ <;>
    · simp [parts] at h
      grind
  | expr | stmt | unit =>
    refine .same (by simp) ?_ ?_ <;>
    · simp [parts] at h
      rw [h.1]
  | action s =>
    have same : T.loops = S.loops → T.cleanups = S.cleanups → Shift (S, .action s) (T, k) :=
      .same (by simp)
    cases s with
    | ret e span =>
      cases e <;> simp [parts, actionParts, up] at h <;> exact same (by grind) (by grind)
    | breakLoop | continueLoop =>
      simp [parts, actionParts] at h
      exact same (by grind) (by grind)
    | whileLoop c b span =>
      simp [parts, actionParts] at h
      rcases h with ⟨rfl, rfl⟩ | ⟨rfl, rfl⟩ <;> exact .loop (by simp)
    | forLoop init c u b span =>
      simp [parts, actionParts] at h
      rcases h with ⟨rfl, rfl⟩ | ⟨rfl, rfl⟩ | ⟨rfl, rfl⟩ | ⟨rfl, rfl⟩
      · exact same rfl rfl
      · exact .loop (by simp)
      · exact .loop (by simp)
      · exact .update (by simp)
    | classDecl name parent body span =>
      simp [parts, actionParts] at h
      obtain ⟨b, -, -, rfl⟩ := h
      exact (hbody b rfl).elim
    | tryCatch b c f span =>
      cases c <;> cases f <;> simp [parts, actionParts] at h
      · exact same (by rw [h.1]) (by rw [h.1])
      · rcases h with ⟨rfl, rfl⟩ | ⟨rfl, rfl⟩
        · exact .enter
        · exact same rfl rfl
      · rcases h with ⟨rfl, rfl⟩ | ⟨rfl, rfl⟩
        · exact .unprotected (by simp)
        · exact same rfl rfl
      · rcases h with ⟨rfl, rfl⟩ | ⟨rfl, rfl⟩ | ⟨rfl, rfl⟩
        · exact .enter
        · exact .enter
        · exact same rfl rfl
    | _ =>
      simp [parts, actionParts] at h
      exact same (by rw [h.1]) (by rw [h.1])

/-! ## Tidy blocks are sound -/

theorem Within.part {S T U : Site} {n k j : Node} (h : Within (S, n) (T, k)) (hj : (U, j) ∈ T.parts k)
    (hbody : ∀ b, j ≠ .body b) : Within (S, n) (U, j) := Relation.ReflTransGen.tail h ⟨hj, hbody⟩

/-- Where a piece of a tidy block may stand: it is quiet, or no region around its loops was left. -/
structure Inside (n₀ : Node) (b : Site × Node) : Prop where
  within : Within (.top, n₀) b
  open_ : Quiet b.1 b.2 ∨
    (∀ f, some f ∈ b.1.cleanups → ∀ U, Quiet U (.stmts f.statements)) ∧
      ((∃ depth span, b.2 = .exits depth span) ∨ ∀ l ∈ b.1.loops, l.left = false)
  /-- Nothing but an update clause stands where a `continue` has no target. -/
  closed : ∀ l ∈ b.1.loops.head?, l.closed = true → ∃ U u span,
    Within (.top, n₀) (U, .update u span) ∧ Within (U, .update u span) b

theorem Inside.part {n₀ n k : Node} {S T : Site} (htidy : Tidy .top n₀) (h : Inside n₀ (S, n))
    (hk : (T, k) ∈ S.parts n) (hbody : ∀ b, k ≠ .body b) : Inside n₀ (T, k) := by
  have hwithin : Within (.top, n₀) (T, k) := h.within.part hk hbody
  -- the loops around a part, as far as their targets matter
  have hkeeps : T.loops.head?.map LoopShape.closed = S.loops.head?.map LoopShape.closed →
      ∀ l ∈ T.loops.head?, l.closed = true → ∃ U u span,
        Within (.top, n₀) (U, .update u span) ∧ Within (U, .update u span) (T, k) := by
    intro hsame l hl hclosed
    rw [Option.mem_def.mp hl] at hsame
    obtain ⟨l', hl', hclosed'⟩ := Option.map_eq_some_iff.mp hsame.symm
    obtain ⟨U, u, span, hU, hwith⟩ := h.closed l' hl' (hclosed'.trans hclosed)
    exact ⟨U, u, span, hU, hwith.part hk hbody⟩
  have hexits : ∀ {P Q : Prop}, (∀ depth span, n ≠ .exits depth span) →
      (P ∧ ((∃ depth span, n = .exits depth span) ∨ Q)) → P ∧ Q := by
    rintro P Q hn ⟨hp, ⟨depth, span, heq⟩ | hq⟩
    · exact (hn depth span heq).elim
    · exact ⟨hp, hq⟩
  rcases h.open_ with hq | hopen
  · -- quiet pieces have quiet parts, and update clauses are always in reach
    refine ⟨hwithin, .inl (hq.part hk hbody), ?_⟩
    cases shift_of_parts hk hbody with
    | same _ hloops => exact hkeeps (by rw [hloops])
    | enter | unprotected => exact hkeeps rfl
    | loop => simp [loop]
    | update => exact fun _ _ _ => ⟨_, _, _, hwithin, .refl⟩
    | exits | cleanup => exact hkeeps (by simp [leave, Function.comp_def])
  · cases shift_of_parts hk hbody with
    | same hn hloops hcleanups =>
      obtain ⟨hquiet, hleft⟩ := hexits hn hopen
      exact ⟨hwithin, .inr ⟨by rwa [hcleanups], .inr (by rwa [hloops])⟩, hkeeps (by rw [hloops])⟩
    | @enter _ b c f span =>
      obtain ⟨hquiet, hleft⟩ := hexits (by simp) hopen
      refine ⟨hwithin, .inr ⟨?_, .inr hleft⟩, hkeeps rfl⟩
      intro g hg
      rcases List.mem_cons.mp hg with hg | hg
      · cases hg
        exact (htidy.cleanups S b c f span h.within).exits
      · exact hquiet g hg
    | unprotected hn =>
      obtain ⟨hquiet, hleft⟩ := hexits hn hopen
      refine ⟨hwithin, .inr ⟨?_, .inr hleft⟩, hkeeps rfl⟩
      intro g hg
      rcases List.mem_cons.mp hg with hg | hg
      · cases hg
      · exact hquiet g hg
    | loop hn =>
      obtain ⟨hquiet, hleft⟩ := hexits hn hopen
      refine ⟨hwithin, .inr ⟨hquiet, .inr ?_⟩, by simp [loop]⟩
      exact List.forall_mem_cons.mpr ⟨rfl, hleft⟩
    | update hn =>
      obtain ⟨hquiet, hleft⟩ := hexits hn hopen
      refine ⟨hwithin, .inr ⟨hquiet, .inr ?_⟩, fun _ _ _ => ⟨_, _, _, hwithin, .refl⟩⟩
      exact List.forall_mem_cons.mpr ⟨rfl, hleft⟩
    | @exits _ depth span cleanup outer depth' span' hcleanups =>
      refine ⟨hwithin, .inr ⟨?_, .inl ⟨depth', span', rfl⟩⟩, hkeeps (by simp [leave, Function.comp_def])⟩
      intro g hg
      refine hopen.1 g ?_
      rw [show S.cleanups = _ from hcleanups]
      exact List.mem_cons_of_mem _ hg
    | @cleanup _ depth span b outer hcleanups =>
      refine ⟨hwithin, .inl (hopen.1 b ?_ _), hkeeps (by simp [leave, Function.comp_def])⟩
      rw [show S.cleanups = _ from hcleanups]
      exact List.mem_cons_self

theorem Tidy.inside {n : Node} (h : Tidy .top n) {b : Site × Node} (hb : Within (.top, n) b) :
    Inside n b := by
  induction hb with
  | refl => exact ⟨.refl, .inr ⟨by simp [top], .inr (by simp [top])⟩, by simp [top]⟩
  | tail _ hpart ih => exact Inside.part h ih hpart.1 hpart.2

/-- In a tidy block every jump leaves just the regions that are open. -/
theorem Tidy.sound {n : Node} (h : Tidy .top n) : Sound True False .top n := by
  rintro ⟨S, k⟩ hk
  have hinside := h.inside hk
  have hleft : k.isExit = true → (∀ depth span, k ≠ .exits depth span) → ∀ l ∈ S.loops, l.left = false := by
    intro hexit hne
    rcases hinside.open_ with hq | ⟨-, ⟨depth, span, heq⟩ | hleft⟩
    · rw [show k.isExit = false from hq.isExit] at hexit
      cases hexit
    · exact (hne depth span heq).elim
    · exact hleft
  unfold Fine
  split
  · next heq =>
    cases heq
    intro l hl
    exact ⟨by simp, fun _ => hleft rfl (by simp) l (List.mem_of_mem_head? hl), False.elim⟩
  · next U span heq =>
    cases heq
    intro l hl
    refine ⟨fun _ => ?_, fun _ => hleft rfl (by simp) l (List.mem_of_mem_head? hl), False.elim⟩
    -- a `continue` has no target only in an update clause
    by_contra hclosed
    obtain ⟨U, u, uspan, hU, hwith⟩ := hinside.closed l hl (by simpa using hclosed)
    exact h.updates U u uspan _ span hU hwith
  · exact False.elim
  · trivial

end Site

/-! ## Code of quiet pieces -/

section

variable {Γ Γ' : Context} {n : Node} {o : Nat} {code : List Point} {notes : List Note}

/-- A point of a piece without early exits: control stays in the regions around the piece. -/
structure Point.Stays (rs : List Region) (p : Point) : Prop where
  leap : p.leap = none
  not_return : p.item.opcode ≠ .returnValue ∧ p.item.opcode ≠ .returnNull
  regions : rs <:+ p.regions

theorem Point.stays_row {regions : List Region} {u : Setup} {height : Nat} {tail : List Emitted}
    (hplain : ∀ i ∈ tail, i.opcode.isPlain = true) :
    ∀ p ∈ rowFrom u regions o height tail, p.Stays regions := by
  induction tail generalizing u o height with
  | nil => simp [rowFrom]
  | cons i is ih =>
    intro p hp
    rcases List.mem_cons.mp hp with rfl | hp
    · have hi := hplain i List.mem_cons_self
      refine ⟨rfl, ⟨fun hop => ?_, fun hop => ?_⟩, List.suffix_refl _⟩
      all_goals
        rw [hop] at hi
        cases hi
    · exact ih (fun j hj => hplain j (List.mem_cons_of_mem _ hj)) p hp

theorem Point.stays_point {k : Nat} {op : Opcode} {xs : List Nat} {span : Span}
    (hop : op ≠ .returnValue ∧ op ≠ .returnNull) : (Γ.point o k op xs span).Stays Γ.regions :=
  ⟨rfl, hop, List.suffix_refl _⟩

theorem Point.Stays.leave {r : Region} {p : Point} (h : p.Stays (r :: Γ.regions)) : p.Stays Γ.regions :=
  { h with regions := (List.suffix_cons r Γ.regions).trans h.regions }

/-- Control stays in the regions around a quiet piece. -/
theorem Lays.stays (h : Lays Γ n o code notes) (hq : Site.Quiet Γ.site n) (hn : n.isBlock = false) :
    ∀ p ∈ code, p.Stays Γ.regions := by
  induction h with
  | noOperands | noStmts | noOptStmt | noTest | noUpdate => simp
  | expr _ ih | stmt _ ih | alternative _ ih | optStmt _ ih =>
    exact ih (hq.part (by simp [Site.parts]) (by simp)) rfl
  | block _ ih | tryNone _ ih => exact ih (hq.part (by simp [Site.parts, Site.actionParts]) (by simp)) rfl
  | strict hops _ htail ih =>
    exact List.forall_mem_append.mpr ⟨ih (hq.part (Site.strict_part hops) (by simp)) rfl,
      stays_row htail.plain⟩
  | bind _ htail ih =>
    exact List.forall_mem_append.mpr ⟨ih (hq.part (by simp [Site.parts, Site.actionParts]) (by simp)) rfl,
      stays_row htail.plain⟩
  | classDecl htail => exact stays_row htail.plain
  | operand _ _ ih₁ ih₂ | stmts _ _ ih₁ ih₂ =>
    exact List.forall_mem_append.mpr ⟨ih₁ (hq.part (by simp [Site.parts]) (by simp)) rfl,
      ih₂ (hq.part (by simp [Site.parts]) (by simp)) rfl⟩
  | value _ _ ih₁ ih₂ =>
    exact List.forall_mem_append.mpr ⟨ih₁ (hq.part (by simp [Site.parts, Site.valueParts]) (by simp)) rfl,
      ih₂ (hq.part (by simp [Site.parts, Site.valueParts]) (by simp)) rfl⟩
  | index _ ih =>
    exact List.forall_mem_cons.mpr ⟨stays_point (by simp), ih (hq.part (by simp [Site.parts]) (by simp)) rfl⟩
  | noAlternative => exact List.forall_mem_singleton.mpr (stays_point (by simp))
  | noValue hends _ ih =>
    exact List.forall_mem_append.mpr ⟨ih (hq.part (by simp [Site.parts,
      Site.valueParts_of_not_endsWithExpr hends]) (by simp)) rfl,
      List.forall_mem_singleton.mpr (stays_point (by simp))⟩
  | exprStmt _ ih | throw _ ih =>
    exact List.forall_mem_append.mpr ⟨ih (hq.part (by simp [Site.parts, Site.actionParts]) (by simp)) rfl,
      List.forall_mem_singleton.mpr (stays_point (by simp))⟩
  | update _ ih | test _ _ ih =>
    exact List.forall_mem_append.mpr ⟨ih (hq.part (by simp [Site.parts]) (by simp)) rfl,
      List.forall_mem_singleton.mpr (stays_point (by simp))⟩
  | and _ _ _ _ ih₁ ih₂ | or _ _ _ _ ih₁ ih₂ =>
    have h₁ := ih₁ (hq.part (by simp [Site.parts, Site.formParts]) (by simp)) rfl
    have h₂ := ih₂ (hq.part (by simp [Site.parts, Site.formParts]) (by simp)) rfl
    simp only [List.forall_mem_append, List.forall_mem_cons]
    exact ⟨h₁, stays_point (by simp), stays_point (by simp), stays_point (by simp), by
      first | exact h₂ | exact ⟨stays_point (by simp), h₂⟩⟩
  | ternary _ _ _ _ _ _ ih₁ ih₂ ih₃ | cond _ _ _ _ _ _ ih₁ ih₂ ih₃ =>
    simp only [List.forall_mem_append, List.forall_mem_cons]
    exact ⟨ih₁ (hq.part (by simp [Site.parts, Site.formParts]) (by simp)) rfl, stays_point (by simp),
      ih₂ (hq.part (by simp [Site.parts, Site.formParts]) (by simp)) rfl, stays_point (by simp),
      ih₃ (hq.part (by simp [Site.parts, Site.formParts]) (by simp)) rfl⟩
  | «while» _ _ _ _ ih₁ ih₂ =>
    simp only [List.forall_mem_append, List.forall_mem_cons]
    exact ⟨ih₁ (hq.part (by simp [Site.parts, Site.actionParts]) (by simp)) rfl, stays_point (by simp),
      ih₂ (hq.part (by simp [Site.parts, Site.actionParts]) (by simp)) rfl, stays_point (by simp), by simp⟩
  | «for» _ _ _ _ _ _ _ _ _ _ _ ih₀ ih₁ ih₂ ih₃ =>
    simp only [List.forall_mem_append, List.forall_mem_singleton]
    exact ⟨ih₀ (hq.part (by simp [Site.parts, Site.actionParts]) (by simp)) rfl,
      ih₁ (hq.part (by simp [Site.parts, Site.actionParts]) (by simp)) rfl,
      ih₂ (hq.part (by simp [Site.parts, Site.actionParts]) (by simp)) rfl,
      ih₃ (hq.part (by simp [Site.parts, Site.actionParts]) (by simp)) rfl, stays_point (by simp)⟩
  | @tryCatch Γ o body s param handler s' span c₁ c₂ n₁ n₂ bind r handle stop _ hbind _ hr _ _ _ ih₁ ih₂ =>
    have h₁ := ih₁ (hq.part (by simp [Site.parts, Site.actionParts, hr]) (by simp)) rfl
    have h₂ := ih₂ (hq.part (by simp [Site.parts, Site.actionParts]) (by simp)) rfl
    simp only [List.forall_mem_append, List.forall_mem_cons]
    exact ⟨stays_point (by simp), fun p hp => (h₁ p hp).leave, (stays_point (Γ := Γ.enter r) (by simp)).leave,
      stays_row hbind.plain, h₂, stays_point (by simp), by simp⟩
  | @tryFinally Γ o body s cleanup s' span c₁ c₂ n₁ n₂ r final _ _ hr _ _ ih₁ ih₂ =>
    have h₁ := ih₁ (hq.part (by simp [Site.parts, Site.actionParts, hr]) (by simp)) rfl
    have h₂ := ih₂ (hq.part (by simp [Site.parts, Site.actionParts]) (by simp)) rfl
    simp only [List.forall_mem_append, List.forall_mem_cons]
    exact ⟨stays_point (by simp), fun p hp => (h₁ p hp).leave, (stays_point (Γ := Γ.enter r) (by simp)).leave,
      stays_point (by simp), stays_point (by simp), h₂, stays_point (by simp), by simp⟩
  | @tryBoth Γ _ _ _ _ _ _ _ _ _ _ _ _ _ _ _ _ r r' _ _ _ hbind _ _ hr hr' _ _ _ ih₁ ih₂ ih₃ =>
    have h₁ := ih₁ (hq.part (by simp [Site.parts, Site.actionParts, hr]) (by simp)) rfl
    have h₂ := ih₂ (hq.part (by simp [Site.parts, Site.actionParts, hr']) (by simp)) rfl
    have h₃ := ih₃ (hq.part (by simp [Site.parts, Site.actionParts]) (by simp)) rfl
    simp only [List.forall_mem_append, List.forall_mem_cons]
    exact ⟨stays_point (by simp), fun p hp => (h₁ p hp).leave, (stays_point (Γ := Γ.enter r) (by simp)).leave,
      stays_row hbind.plain, stays_point (by simp), fun p hp => (h₂ p hp).leave,
      (stays_point (Γ := Γ.enter r') (by simp)).leave, stays_point (by simp), stays_point (by simp), h₃,
      stays_point (by simp), by simp⟩
  | noExits | exits | ret | retNull | brk | cont | contWait => cases hq.isExit
  | bodyValue | bodyNull | bodyReturn | unit => cases hn

theorem Point.not_waits {l : Leap} {m : Nat} {rs : List Region} (h : ∀ p ∈ code, p.Stays rs) :
    ¬ Waits l m code := by
  rintro ⟨p, hp, hleap⟩
  rw [(h p hp).leap] at hleap
  cases hleap

/-- The same regions and the same height inside other loops. -/
def Context.within (Γ : Context) (loops : List Loop) : Context := { Γ with loops }

/-- The code of a quiet piece does not depend on the loops around it. -/
theorem Lays.unloops (h : Lays Γ n o code notes) (hq : Site.Quiet Γ.site n) (hn : n.isBlock = false)
    (ls : List Loop) (hls : ∀ c s, n = .test (some c) s → ls.head? = Γ.loops.head?) :
    ∃ notes, Lays (Γ.within ls) n o code notes := by
  induction h generalizing ls with
  | noOperands | noStmts | noOptStmt | noTest | noUpdate | noAlternative => exact ⟨_, by constructor⟩
  | expr _ ih =>
    obtain ⟨_, h⟩ := ih (hq.part (by simp [Site.parts]) (by simp)) rfl ls (by simp)
    exact ⟨_, .expr h⟩
  | stmt _ ih =>
    obtain ⟨_, h⟩ := ih (hq.part (by simp [Site.parts]) (by simp)) rfl ls (by simp)
    exact ⟨_, .stmt h⟩
  | alternative _ ih =>
    obtain ⟨_, h⟩ := ih (hq.part (by simp [Site.parts]) (by simp)) rfl ls (by simp)
    exact ⟨_, .alternative h⟩
  | optStmt _ ih =>
    obtain ⟨_, h⟩ := ih (hq.part (by simp [Site.parts]) (by simp)) rfl ls (by simp)
    exact ⟨_, .optStmt h⟩
  | block _ ih =>
    obtain ⟨_, h⟩ := ih (hq.part (by simp [Site.parts, Site.actionParts]) (by simp)) rfl ls (by simp)
    exact ⟨_, .block h⟩
  | tryNone _ ih =>
    obtain ⟨_, h⟩ := ih (hq.part (by simp [Site.parts, Site.actionParts]) (by simp)) rfl ls (by simp)
    exact ⟨_, .tryNone h⟩
  | strict hops _ htail ih =>
    obtain ⟨_, h⟩ := ih (hq.part (Site.strict_part hops) (by simp)) rfl ls (by simp)
    exact ⟨_, .strict hops h htail⟩
  | operand _ _ ih₁ ih₂ =>
    obtain ⟨_, h₁⟩ := ih₁ (hq.part (by simp [Site.parts]) (by simp)) rfl ls (by simp)
    obtain ⟨_, h₂⟩ := ih₂ (hq.part (by simp [Site.parts]) (by simp)) rfl ls (by simp)
    exact ⟨_, .operand h₁ h₂⟩
  | index _ ih =>
    obtain ⟨_, h⟩ := ih (hq.part (by simp [Site.parts]) (by simp)) rfl ls (by simp)
    exact ⟨_, .index h⟩
  | and _ _ hstop hlt ih₁ ih₂ =>
    obtain ⟨_, h₁⟩ := ih₁ (hq.part (by simp [Site.parts, Site.formParts]) (by simp)) rfl ls (by simp)
    obtain ⟨_, h₂⟩ := ih₂ (hq.part (by simp [Site.parts, Site.formParts]) (by simp)) rfl ls (by simp)
    exact ⟨_, .and h₁ h₂ hstop hlt⟩
  | or _ _ hstop hlt ih₁ ih₂ =>
    obtain ⟨_, h₁⟩ := ih₁ (hq.part (by simp [Site.parts, Site.formParts]) (by simp)) rfl ls (by simp)
    obtain ⟨_, h₂⟩ := ih₂ (hq.part (by simp [Site.parts, Site.formParts]) (by simp)) rfl ls (by simp)
    exact ⟨_, .or h₁ h₂ hstop hlt⟩
  | ternary _ _ _ hother hstop hlt ih₁ ih₂ ih₃ =>
    obtain ⟨_, h₁⟩ := ih₁ (hq.part (by simp [Site.parts, Site.formParts]) (by simp)) rfl ls (by simp)
    obtain ⟨_, h₂⟩ := ih₂ (hq.part (by simp [Site.parts, Site.formParts]) (by simp)) rfl ls (by simp)
    obtain ⟨_, h₃⟩ := ih₃ (hq.part (by simp [Site.parts, Site.formParts]) (by simp)) rfl ls (by simp)
    exact ⟨_, .ternary h₁ h₂ h₃ hother hstop hlt⟩
  | cond _ _ _ hother hstop hlt ih₁ ih₂ ih₃ =>
    obtain ⟨_, h₁⟩ := ih₁ (hq.part (by simp [Site.parts, Site.formParts]) (by simp)) rfl ls (by simp)
    obtain ⟨_, h₂⟩ := ih₂ (hq.part (by simp [Site.parts, Site.formParts]) (by simp)) rfl ls (by simp)
    obtain ⟨_, h₃⟩ := ih₃ (hq.part (by simp [Site.parts, Site.formParts]) (by simp)) rfl ls (by simp)
    exact ⟨_, .cond h₁ h₂ h₃ hother hstop hlt⟩
  | value _ _ ih₁ ih₂ =>
    obtain ⟨_, h₁⟩ := ih₁ (hq.part (by simp [Site.parts, Site.valueParts]) (by simp)) rfl ls (by simp)
    obtain ⟨_, h₂⟩ := ih₂ (hq.part (by simp [Site.parts, Site.valueParts]) (by simp)) rfl ls (by simp)
    exact ⟨_, .value h₁ h₂⟩
  | stmts _ _ ih₁ ih₂ =>
    obtain ⟨_, h₁⟩ := ih₁ (hq.part (by simp [Site.parts]) (by simp)) rfl ls (by simp)
    obtain ⟨_, h₂⟩ := ih₂ (hq.part (by simp [Site.parts]) (by simp)) rfl ls (by simp)
    exact ⟨_, .stmts h₁ h₂⟩
  | noValue hends _ ih =>
    obtain ⟨_, h⟩ := ih (hq.part (by simp [Site.parts, Site.valueParts_of_not_endsWithExpr hends]) (by simp))
      rfl ls (by simp)
    exact ⟨_, .noValue hends h⟩
  | bind _ htail ih =>
    obtain ⟨_, h⟩ := ih (hq.part (by simp [Site.parts, Site.actionParts]) (by simp)) rfl ls (by simp)
    exact ⟨_, .bind h htail⟩
  | exprStmt _ ih =>
    obtain ⟨_, h⟩ := ih (hq.part (by simp [Site.parts, Site.actionParts]) (by simp)) rfl ls (by simp)
    exact ⟨_, .exprStmt h⟩
  | throw _ ih =>
    obtain ⟨_, h⟩ := ih (hq.part (by simp [Site.parts, Site.actionParts]) (by simp)) rfl ls (by simp)
    exact ⟨_, .throw h⟩
  | update _ ih =>
    obtain ⟨_, h⟩ := ih (hq.part (by simp [Site.parts]) (by simp)) rfl ls (by simp)
    exact ⟨_, .update h⟩
  | classDecl htail => exact ⟨_, .classDecl htail⟩
  | @test Γ o c span code notes l rest hloops _ ih =>
    obtain ⟨_, h⟩ := ih (hq.part (by simp [Site.parts]) (by simp)) rfl ls (by simp)
    -- the innermost loop is the same
    have hhead := hls c span rfl
    rw [hloops] at hhead
    obtain ⟨rest, rfl⟩ := List.head?_eq_some_iff.mp hhead
    exact ⟨_, .test rfl h⟩
  | «while» _ _ hstop hlt ih₁ ih₂ =>
    obtain ⟨_, h₁⟩ := ih₁ (hq.part (by simp [Site.parts, Site.actionParts]) (by simp)) rfl (_ :: ls) (by simp)
    obtain ⟨_, h₂⟩ := ih₂ (hq.part (by simp [Site.parts, Site.actionParts]) (by simp)) rfl (_ :: ls) (by simp)
    exact ⟨_, .while h₁ h₂ hstop hlt⟩
  | «for» _ l₁ l₂ l₃ hstart hnext hstop hlt hsome hbrk hcont ih₀ ih₁ ih₂ ih₃ =>
    obtain ⟨_, h₀⟩ := ih₀ (hq.part (by simp [Site.parts, Site.actionParts]) (by simp)) rfl ls (by simp)
    obtain ⟨_, h₁⟩ := ih₁ (hq.part (by simp [Site.parts, Site.actionParts]) (by simp)) rfl (_ :: ls)
      fun _ _ _ => rfl
    obtain ⟨_, h₂⟩ := ih₂ (hq.part (by simp [Site.parts, Site.actionParts]) (by simp)) rfl (_ :: ls) (by simp)
    obtain ⟨_, h₃⟩ := ih₃ (hq.part (by simp [Site.parts, Site.actionParts]) (by simp)) rfl (_ :: ls) (by simp)
    -- no jump waits for the loop
    have stays₁ := l₁.stays (hq.part (by simp [Site.parts, Site.actionParts]) (by simp)) rfl
    have stays₂ := l₂.stays (hq.part (by simp [Site.parts, Site.actionParts]) (by simp)) rfl
    have stays₃ := l₃.stays (hq.part (by simp [Site.parts, Site.actionParts]) (by simp)) rfl
    refine ⟨_, .for h₀ h₁ h₂ h₃ hstart hnext hstop hlt hsome ?_ ?_⟩
    · exact fun hw => (not_waits (List.forall_mem_append.mpr ⟨stays₁,
        List.forall_mem_append.mpr ⟨stays₂, stays₃⟩⟩) hw).elim
    · exact fun hw => (not_waits (List.forall_mem_append.mpr ⟨stays₁, stays₂⟩) hw).elim
  | @tryCatch _ _ _ _ _ _ _ _ _ _ _ _ _ r _ _ _ hbind _ hr hh hstop hlt ih₁ ih₂ =>
    obtain ⟨_, h₁⟩ := ih₁ (hq.part (by simp [Site.parts, Site.actionParts, hr]) (by simp)) rfl ls (by simp)
    obtain ⟨_, h₂⟩ := ih₂ (hq.part (by simp [Site.parts, Site.actionParts]) (by simp)) rfl ls (by simp)
    exact ⟨_, .tryCatch h₁ hbind h₂ hr hh hstop hlt⟩
  | tryFinally _ _ hr hf hlt ih₁ ih₂ =>
    obtain ⟨_, h₁⟩ := ih₁ (hq.part (by simp [Site.parts, Site.actionParts, hr]) (by simp)) rfl ls (by simp)
    obtain ⟨_, h₂⟩ := ih₂ (hq.part (by simp [Site.parts, Site.actionParts]) (by simp)) rfl ls (by simp)
    exact ⟨_, .tryFinally h₁ h₂ hr hf hlt⟩
  | tryBoth _ hbind _ _ hr hr' hh hf hlt ih₁ ih₂ ih₃ =>
    obtain ⟨_, h₁⟩ := ih₁ (hq.part (by simp [Site.parts, Site.actionParts, hr]) (by simp)) rfl ls (by simp)
    obtain ⟨_, h₂⟩ := ih₂ (hq.part (by simp [Site.parts, Site.actionParts, hr']) (by simp)) rfl ls (by simp)
    obtain ⟨_, h₃⟩ := ih₃ (hq.part (by simp [Site.parts, Site.actionParts]) (by simp)) rfl ls (by simp)
    exact ⟨_, .tryBoth h₁ hbind h₂ h₃ hr hr' hh hf hlt⟩
  | noExits | exits | ret | retNull | brk | cont | contWait => cases hq.isExit
  | bodyValue | bodyNull | bodyReturn | unit => cases hn

theorem Lays.stmts_nil (h : Lays Γ (.stmts []) o code notes) : code = [] := by
  cases h
  rfl

end

/-! ## Finally bodies of regions -/

/-- Every finally body that is compiled on the way through a piece, into the same block, satisfies `Q`. -/
def Site.Cleans (Q : Block → Prop) (S : Site) (n : Node) : Prop :=
  ∀ T b c f span, Within (S, n) (T, .action (.tryCatch b c (some f) span)) → Q f

theorem Site.Cleans.part {Q : Block → Prop} {S T : Site} {n k : Node} (h : Cleans Q S n)
    (hk : (T, k) ∈ S.parts n) (hbody : ∀ body, k ≠ .body body) : Cleans Q T k :=
  fun U b c f span hwithin => h U b c f span (Relation.ReflTransGen.head ⟨hk, hbody⟩ hwithin)

/-- The finally bodies of some regions satisfy `Q`. -/
def Region.Clean (Q : Block → Prop) (rs : List Region) : Prop := ∀ r ∈ rs, ∀ F ∈ r.cleanup, Q F

section

variable {Q : Block → Prop} {Γ : Context} {n : Node} {o : Nat} {code : List Point} {notes : List Note}

theorem Point.clean_row {regions : List Region} {u : Setup} {height : Nat} {tail : List Emitted}
    (h : Region.Clean Q regions) : ∀ p ∈ rowFrom u regions o height tail, Region.Clean Q p.regions := by
  induction tail generalizing u o height with
  | nil => simp [rowFrom]
  | cons i is ih =>
    intro p hp
    rcases List.mem_cons.mp hp with rfl | hp
    · exact h
    · exact ih p hp

theorem Region.Clean.enter {r : Region} {rs : List Region} (h : Clean Q rs) (hr : ∀ F ∈ r.cleanup, Q F) :
    Clean Q (r :: rs) := List.forall_mem_cons.mpr ⟨hr, h⟩

theorem Region.Clean.exitTo (h : Clean Q Γ.regions) (depth : Nat) : Clean Q (Γ.exitTo depth).regions :=
  fun r hr => h r (List.mem_of_mem_drop hr)

/-- The finally bodies of the regions around a point are compiled on the way through the piece. -/
theorem Lays.clean (h : Lays Γ n o code notes) (hn : Site.Cleans Q Γ.site n)
    (hΓ : Region.Clean Q Γ.regions) : ∀ p ∈ code, Region.Clean Q p.regions := by
  induction h with
  | noOperands | noStmts | noOptStmt | noTest | noUpdate | noExits => simp
  | expr _ ih | stmt _ ih | alternative _ ih | optStmt _ ih =>
    exact ih (hn.part (by simp [Site.parts]) (by simp)) hΓ
  | and _ _ _ _ ih₁ ih₂ =>
    have h₁ := ih₁ (hn.part (by simp [Site.parts, Site.formParts]) (by simp)) hΓ
    have h₂ := ih₂ (hn.part (by simp [Site.parts, Site.formParts]) (by simp)) hΓ
    simp only [List.forall_mem_append, List.forall_mem_cons]
    exact ⟨h₁, hΓ, hΓ, hΓ, h₂⟩
  | or _ _ _ _ ih₁ ih₂ =>
    have h₁ := ih₁ (hn.part (by simp [Site.parts, Site.formParts]) (by simp)) hΓ
    have h₂ := ih₂ (hn.part (by simp [Site.parts, Site.formParts]) (by simp)) hΓ
    simp only [List.forall_mem_append, List.forall_mem_cons]
    exact ⟨h₁, hΓ, hΓ, hΓ, hΓ, h₂⟩
  | ternary _ _ _ _ _ _ ih₁ ih₂ ih₃ | cond _ _ _ _ _ _ ih₁ ih₂ ih₃ =>
    simp only [List.forall_mem_append, List.forall_mem_cons]
    exact ⟨ih₁ (hn.part (by simp [Site.parts, Site.formParts]) (by simp)) hΓ, hΓ,
      ih₂ (hn.part (by simp [Site.parts, Site.formParts]) (by simp)) hΓ, hΓ,
      ih₃ (hn.part (by simp [Site.parts, Site.formParts]) (by simp)) hΓ⟩
  | «while» _ _ _ _ ih₁ ih₂ =>
    simp only [List.forall_mem_append, List.forall_mem_cons]
    exact ⟨ih₁ (hn.part (by simp [Site.parts, Site.actionParts]) (by simp)) hΓ, hΓ,
      ih₂ (hn.part (by simp [Site.parts, Site.actionParts]) (by simp)) hΓ, hΓ, by simp⟩
  | «for» _ _ _ _ _ _ _ _ _ _ _ ih₀ ih₁ ih₂ ih₃ =>
    simp only [List.forall_mem_append, List.forall_mem_singleton]
    exact ⟨ih₀ (hn.part (by simp [Site.parts, Site.actionParts]) (by simp)) hΓ,
      ih₁ (hn.part (by simp [Site.parts, Site.actionParts]) (by simp)) hΓ,
      ih₂ (hn.part (by simp [Site.parts, Site.actionParts]) (by simp)) hΓ,
      ih₃ (hn.part (by simp [Site.parts, Site.actionParts]) (by simp)) hΓ, hΓ⟩
  | block _ ih | tryNone _ ih => exact ih (hn.part (by simp [Site.parts, Site.actionParts]) (by simp)) hΓ
  | bodyReturn hends _ _ _ ih =>
    exact ih (hn.part (by simp [Site.parts, Site.valueParts_of_not_endsWithExpr hends]) (by simp)) hΓ
  | strict hops _ _ ih =>
    exact List.forall_mem_append.mpr ⟨ih (hn.part (Site.strict_part hops) (by simp)) hΓ, clean_row hΓ⟩
  | bind _ _ ih =>
    exact List.forall_mem_append.mpr ⟨ih (hn.part (by simp [Site.parts, Site.actionParts]) (by simp)) hΓ,
      clean_row hΓ⟩
  | classDecl _ => exact clean_row hΓ
  | operand _ _ ih₁ ih₂ | stmts _ _ ih₁ ih₂ =>
    exact List.forall_mem_append.mpr ⟨ih₁ (hn.part (by simp [Site.parts]) (by simp)) hΓ,
      ih₂ (hn.part (by simp [Site.parts]) (by simp)) hΓ⟩
  | value _ _ ih₁ ih₂ =>
    exact List.forall_mem_append.mpr ⟨ih₁ (hn.part (by simp [Site.parts, Site.valueParts]) (by simp)) hΓ,
      ih₂ (hn.part (by simp [Site.parts, Site.valueParts]) (by simp)) hΓ⟩
  | index _ ih =>
    exact List.forall_mem_cons.mpr ⟨hΓ, ih (hn.part (by simp [Site.parts]) (by simp)) hΓ⟩
  | noAlternative => exact List.forall_mem_singleton.mpr hΓ
  | noValue hends _ ih | bodyNull hends _ ih =>
    exact List.forall_mem_append.mpr ⟨ih (hn.part (by simp [Site.parts,
      Site.valueParts_of_not_endsWithExpr hends]) (by simp)) hΓ, List.forall_mem_singleton.mpr hΓ⟩
  | exprStmt _ ih | throw _ ih =>
    exact List.forall_mem_append.mpr ⟨ih (hn.part (by simp [Site.parts, Site.actionParts]) (by simp)) hΓ,
      List.forall_mem_singleton.mpr hΓ⟩
  | update _ ih | test _ _ ih | unit _ ih =>
    exact List.forall_mem_append.mpr ⟨ih (hn.part (by simp [Site.parts]) (by simp)) hΓ,
      List.forall_mem_singleton.mpr hΓ⟩
  | bodyValue _ _ ih₁ ih₂ =>
    simp only [List.forall_mem_append, List.forall_mem_singleton]
    exact ⟨ih₁ (hn.part (by simp [Site.parts, Site.valueParts]) (by simp)) hΓ,
      ih₂ (hn.part (by simp [Site.parts, Site.valueParts]) (by simp)) hΓ, hΓ⟩
  | retNull _ ih =>
    exact List.forall_mem_append.mpr ⟨ih (hn.part (by simp [Site.parts, Site.actionParts]) (by simp)) hΓ,
      List.forall_mem_singleton.mpr (hΓ.exitTo 0)⟩
  | ret _ _ ih₁ ih₂ =>
    simp only [List.forall_mem_append, List.forall_mem_singleton]
    exact ⟨ih₁ (hn.part (by simp [Site.parts, Site.actionParts]) (by simp)) hΓ,
      ih₂ (hn.part (by simp [Site.parts, Site.actionParts]) (by simp)) hΓ, hΓ.exitTo 0⟩
  | @brk Γ _ _ _ _ l _ hloops _ ih =>
    refine List.forall_mem_append.mpr ⟨ih (hn.part ?_ (by simp)) hΓ,
      List.forall_mem_singleton.mpr (hΓ.exitTo l.regions.length)⟩
    simp [Site.parts, Site.actionParts, Context.site, hloops]
  | @cont Γ _ _ _ _ l _ _ hloops _ _ _ _ ih =>
    refine List.forall_mem_append.mpr ⟨ih (hn.part ?_ (by simp)) hΓ,
      List.forall_mem_singleton.mpr (hΓ.exitTo l.regions.length)⟩
    simp [Site.parts, Site.actionParts, Context.site, hloops]
  | @contWait Γ _ _ _ _ l _ hloops _ _ ih =>
    refine List.forall_mem_append.mpr ⟨ih (hn.part ?_ (by simp)) hΓ,
      List.forall_mem_singleton.mpr (hΓ.exitTo l.regions.length)⟩
    simp [Site.parts, Site.actionParts, Context.site, hloops]
  | @exits Γ o depth span r rs c₁ c₂ n₁ n₂ hr hdepth h₁ _ _ ih₁ ih₂ =>
    have hrs : Region.Clean Q rs := fun q hq => hΓ q (by rw [hr]; exact List.mem_cons_of_mem _ hq)
    have hparts : Γ.site.cleanups = r.cleanup :: rs.map Region.cleanup := by simp [Context.site, hr]
    simp only [List.forall_mem_append, List.forall_mem_cons]
    refine ⟨hΓ, ?_, ih₂ (hn.part ?_ (by simp)) hrs⟩
    · cases hclean : r.cleanup with
      | none =>
        rw [hclean] at h₁
        have hnil := h₁.stmts_nil
        simp [hnil]
      | some F =>
        rw [hclean] at ih₁
        exact ih₁ (hn.part (by simp [Site.parts, Site.exitParts, hparts, hdepth, hclean]) (by simp)) hrs
    · simp [Site.parts, Site.exitParts, hparts, hdepth]
  | @tryCatch Γ o body s param handler s' span c₁ c₂ n₁ n₂ bind r handle stop _ _ _ hr _ _ _ ih₁ ih₂ =>
    have hbody : Region.Clean Q (Γ.enter r).regions := hΓ.enter (by simp [hr])
    simp only [List.forall_mem_append, List.forall_mem_cons]
    exact ⟨hΓ, ih₁ (hn.part (by simp [Site.parts, Site.actionParts, hr]) (by simp)) hbody, hbody,
      clean_row hΓ, ih₂ (hn.part (by simp [Site.parts, Site.actionParts]) (by simp)) hΓ, hΓ, by simp⟩
  | @tryFinally Γ o body s cleanup s' span c₁ c₂ n₁ n₂ r final _ _ hr _ _ ih₁ ih₂ =>
    have hbody : Region.Clean Q (Γ.enter r).regions := by
      refine hΓ.enter fun F hF => ?_
      rw [hr] at hF
      cases hF
      exact hn _ _ _ _ _ .refl
    simp only [List.forall_mem_append, List.forall_mem_cons]
    exact ⟨hΓ, ih₁ (hn.part (by simp [Site.parts, Site.actionParts, hr]) (by simp)) hbody, hbody, hΓ, hΓ,
      ih₂ (hn.part (by simp [Site.parts, Site.actionParts]) (by simp)) hΓ, hΓ, by simp⟩
  | @tryBoth Γ _ _ _ _ _ _ _ _ _ _ _ _ _ _ _ _ r r' _ _ _ _ _ _ hr hr' _ _ _ ih₁ ih₂ ih₃ =>
    have hquiet : ∀ q : Region, q.cleanup = r.cleanup → ∀ F ∈ q.cleanup, Q F := by
      intro q hq F hF
      rw [hq, hr] at hF
      cases hF
      exact hn _ _ _ _ _ .refl
    have hbody : Region.Clean Q (Γ.enter r).regions := hΓ.enter (hquiet r rfl)
    have hcatch : Region.Clean Q (Γ.enter r').regions := hΓ.enter (hquiet r' (by rw [hr, hr']))
    simp only [List.forall_mem_append, List.forall_mem_cons]
    exact ⟨hΓ, ih₁ (hn.part (by simp [Site.parts, Site.actionParts, hr]) (by simp)) hbody, hbody,
      clean_row hΓ, hΓ, ih₂ (hn.part (by simp [Site.parts, Site.actionParts, hr']) (by simp)) hcatch, hcatch,
      hΓ, hΓ, ih₃ (hn.part (by simp [Site.parts, Site.actionParts]) (by simp)) hΓ, hΓ, by simp⟩

end

end ScriptMachine
