import ScriptMachine.Proofs.Layout.Flow

/-!
# Ways through a layout

Every way through the code of a piece leads to a point of the block or to one of the ways out of the
piece. `Leads` states this for one piece; there is a lemma for each kind of code shape, and
`Lays.flows` puts them together by induction on the layout. For a whole block no way out is left
(`Lays.flows_block`).
-/

namespace ScriptMachine

open Point

section

variable {R H : Prop} {L : Spot → Prop} {Γ Γ' : Context} {n k : Node} {o o' : Nat}
  {code a b c : List Point} {notes : List Note}

/-- Every way through a piece of code leads on, if the ways out of it do. -/
def Leads (R H : Prop) (L : Spot → Prop) (Γ : Context) (n : Node) (o : Nat) (code : List Point) :
    Prop :=
  Γ.Nested → Site.Sound R H Γ.site n → Landing L Γ n o code → ∀ p ∈ code, p.Flows L

/-- A part that is followed by an instruction. -/
theorem Landing.before (h : Landing L Γ n o code) (hsub : c ⊆ code) (hΓ : Γ'.loops = Γ.loops)
    (hk : ∀ e s, k ≠ .test (some e) s) {q : Point} (hq : q ∈ code)
    (hspot : q.spot = k.after Γ' (o' + size c)) : Landing L Γ' k o' c :=
  h.sub hsub hΓ hk fun _ _ => hspot ▸ h.points q hq

/-- The first instruction of a row that is not empty. -/
theorem Tail.row_head {counted : Prop} {j m : Nat} {tail : List Emitted} (h : Tail counted j m tail)
    (regions : List Region) (o height : Nat) :
    ∃ q ∈ row regions o height tail, q.spot = ⟨o, regions, height, .nothing⟩ := by
  cases tail with
  | nil => exact (h.nonempty rfl).elim
  | cons i is => exact ⟨_, List.mem_cons_self, rfl⟩

/-- A piece and the instructions that follow its operands. -/
theorem leads_tail {counted : Prop} {tail : List Emitted} {j m : Nat} (hL : Coarse R H L)
    (ih : Leads R H L Γ k o c) (htail : Tail counted j m tail)
    (hpart : (Γ.site, k) ∈ Γ.site.parts n) (hk : ∀ e s, k ≠ .test (some e) s)
    (hb : ∀ b, k ≠ .body b) (hcounted : Site.Sound R H Γ.site n → H → counted)
    (hmid : ∀ t, k.after Γ t = Γ.spot t j) (hend : ∀ t, n.after Γ t = Γ.spot t m) :
    Leads R H L Γ n o (c ++ row Γ.regions (o + size c) (Γ.height + j) tail) := by
  intro hΓ hsound hland p hp
  have hplain := htail.endsPlain Γ.regions (o + size c) (Γ.height + j)
  obtain ⟨q, hq, hspot⟩ := htail.row_head Γ.regions (o + size c) (Γ.height + j)
  rcases List.mem_append.mp hp with hp | hp
  · exact ih hΓ (hsound.part hpart hb) (hland.before (List.subset_append_left _ _) rfl hk
      (List.mem_append_right _ hq) (hspot.trans (hmid _).symm)) p hp
  · refine htail.flows_row hL (hcounted hsound) (fun q hq => hland.points q (List.mem_append_right _ hq))
      ?_ p hp
    have hstop := hland.stop (hplain.append c).ne_nil (hplain.append c).not_final
    rwa [hend, size_append, ← Nat.add_assoc] at hstop

/-- One piece after the other, in the same context or with one more operand. -/
theorem leads_seq {k₁ k₂ : Node} {c₁ c₂ : List Point} {j : Nat}
    (ih₁ : Leads R H L Γ k₁ o c₁) (ih₂ : Leads R H L (Γ.up j) k₂ (o + size c₁) c₂)
    (hstarts : Starts (Γ.up j) k₂ (o + size c₁) c₂)
    (hmid : k₁.after Γ (o + size c₁) = (Γ.up j).spot (o + size c₁) 0)
    (hend : k₂.after (Γ.up j) (o + size c₁ + size c₂) = n.after Γ (o + size (c₁ ++ c₂)))
    (hp₁ : (Γ.site, k₁) ∈ Γ.site.parts n) (hp₂ : (Γ.site.up j, k₂) ∈ Γ.site.parts n)
    (hk₁ : ∀ e s, k₁ ≠ .test (some e) s) (hk₂ : ∀ e s, k₂ ≠ .test (some e) s)
    (hb₁ : ∀ b, k₁ ≠ .body b) (hb₂ : ∀ b, k₂ ≠ .body b) :
    Leads R H L Γ n o (c₁ ++ c₂) := by
  intro hΓ hsound hland p hp
  rcases List.mem_append.mp hp with hp | hp
  · refine ih₁ hΓ (hsound.part hp₁ hb₁) (hland.sub (List.subset_append_left _ _) rfl hk₁ ?_) p hp
    intro hne
    refine hstarts.follow (fun q hq => hland.points q (List.mem_append_right _ hq)) hmid ?_
    intro hfinal
    rw [hend]
    exact hland.stop (by simp [hne]) hfinal
  · refine ih₂ (hΓ.up j) (hsound.part hp₂ hb₂) (hland.sub (List.subset_append_right _ _) rfl hk₂ ?_) p hp
    intro hne hfinal
    rw [hend]
    exact hland.stop (by simp [hne]) (by rwa [final_append c₁ hne])

/-- A piece and one more instruction. -/
theorem leads_last {q : Point} (ih : Leads R H L Γ k o c)
    (hspot : q.spot = k.after Γ (o + size c)) (hpart : (Γ.site, k) ∈ Γ.site.parts n)
    (hk : ∀ e s, k ≠ .test (some e) s) (hb : ∀ b, k ≠ .body b)
    (hq : Γ.Nested → Site.Sound R H Γ.site n → Landing L Γ n o (c ++ [q]) → q.Flows L) :
    Leads R H L Γ n o (c ++ [q]) := by
  intro hΓ hsound hland p hp
  rcases List.mem_append.mp hp with hp | hp
  · exact ih hΓ (hsound.part hpart hb) (hland.before (List.subset_append_left _ _) rfl hk
      (List.mem_append_right _ List.mem_cons_self) hspot) p hp
  · obtain rfl := List.mem_singleton.mp hp
    exact hq hΓ hsound hland

/-- The end of a piece whose last instruction does not end the block. -/
theorem Landing.stop_last {q : Point} (h : Landing L Γ n o code) (hlast : code.getLast? = some q)
    (hq : q.item.opcode ≠ .returnValue ∧ q.item.opcode ≠ .returnNull ∧ q.item.opcode ≠ .halt)
    {t : Nat} (ht : o + size code = t) : L (n.after Γ t) := by
  rw [← ht]
  refine h.stop (by rintro rfl; cases hlast) ?_
  rintro ⟨q', hq', hop⟩
  rw [hlast] at hq'
  cases hq'
  rcases hop with hop | hop | hop
  · exact hq.1 hop
  · exact hq.2.1 hop
  · exact hq.2.2 hop

/-- The end of a piece that control runs through. -/
theorem Landing.stop_plain (h : Landing L Γ n o code) (hplain : EndsPlain code) {t : Nat}
    (ht : o + size code = t) : L (n.after Γ t) := by
  rw [← ht]
  exact h.stop hplain.ne_nil hplain.not_final

theorem leads_and {l r : Expr} {span : Span} {c₁ c₂ : List Point} {n₂ : List Note}
    (h₂ : Lays Γ (.expr r) (o + size c₁ + 5) c₂ n₂)
    (hlt : o + size c₁ + 5 + size c₂ < Opcode.noTarget)
    (ih₁ : Leads R H L Γ (.expr l) o c₁) (ih₂ : Leads R H L Γ (.expr r) (o + size c₁ + 5) c₂) :
    Leads R H L Γ (.form (.binary "&&" l r span)) o
      (c₁ ++ Γ.point (o + size c₁) 1 .dup [] span
        :: Γ.point (o + size c₁ + 1) 2 .jumpIfFalse [o + size c₁ + 5 + size c₂] span
        :: Γ.point (o + size c₁ + 4) 1 .pop [] span :: c₂) := by
  intro hΓ hsound hland p hp
  have hplain := h₂.endsPlain rfl
  have hstop : L (Γ.spot (o + size c₁ + 5 + size c₂) 1) := by
    refine hland.stop_plain ((((hplain.cons _).cons _).cons _).append _) ?_
    simp only [size_append, size_cons, Context.point_item, Opcode.lengths]
    omega
  simp only [List.mem_append, List.mem_cons] at hp
  rcases hp with hp | rfl | rfl | rfl | hp
  · exact ih₁ hΓ (hsound.part (by simp [Site.parts, Site.formParts]) (by simp))
      (hland.before (List.subset_append_left _ _) rfl (by simp)
        (List.mem_append_right _ List.mem_cons_self) rfl) p hp
  · refine Γ.flows_plain rfl rfl ?_
    exact hland.points (Γ.point (o + size c₁ + 1) 2 .jumpIfFalse [o + size c₁ + 5 + size c₂] span)
      (by simp)
  · refine Γ.flows_jumpIfFalse hlt hstop ?_
    exact hland.points (Γ.point (o + size c₁ + 4) 1 .pop [] span) (by simp)
  · refine Γ.flows_plain rfl rfl ?_
    exact h₂.starts.lands hplain.ne_nil fun q hq => hland.points q (by simp [hq])
  · refine ih₂ hΓ (hsound.part (by simp [Site.parts, Site.formParts]) (by simp))
      (hland.sub (fun q hq => by simp [hq]) rfl (by simp) ?_) p hp
    exact fun _ _ => hstop

theorem leads_or {l r : Expr} {span : Span} {c₁ c₂ : List Point} {n₂ : List Note}
    (h₂ : Lays Γ (.expr r) (o + size c₁ + 8) c₂ n₂)
    (hlt : o + size c₁ + 8 + size c₂ < Opcode.noTarget)
    (ih₁ : Leads R H L Γ (.expr l) o c₁) (ih₂ : Leads R H L Γ (.expr r) (o + size c₁ + 8) c₂) :
    Leads R H L Γ (.form (.binary "||" l r span)) o
      (c₁ ++ Γ.point (o + size c₁) 1 .dup [] span
        :: Γ.point (o + size c₁ + 1) 2 .jumpIfFalse [o + size c₁ + 7] span
        :: Γ.point (o + size c₁ + 4) 1 .jump [o + size c₁ + 8 + size c₂] span
        :: Γ.point (o + size c₁ + 7) 1 .pop [] span :: c₂) := by
  intro hΓ hsound hland p hp
  have hplain := h₂.endsPlain rfl
  have hstop : L (Γ.spot (o + size c₁ + 8 + size c₂) 1) := by
    refine hland.stop_plain (((((hplain.cons _).cons _).cons _).cons _).append _) ?_
    simp only [size_append, size_cons, Context.point_item, Opcode.lengths]
    omega
  have hpop : L (Γ.spot (o + size c₁ + 7) 1) :=
    hland.points (Γ.point (o + size c₁ + 7) 1 .pop [] span) (by simp)
  simp only [List.mem_append, List.mem_cons] at hp
  rcases hp with hp | rfl | rfl | rfl | rfl | hp
  · exact ih₁ hΓ (hsound.part (by simp [Site.parts, Site.formParts]) (by simp))
      (hland.before (List.subset_append_left _ _) rfl (by simp)
        (List.mem_append_right _ List.mem_cons_self) rfl) p hp
  · refine Γ.flows_plain rfl rfl ?_
    exact hland.points (Γ.point (o + size c₁ + 1) 2 .jumpIfFalse [o + size c₁ + 7] span) (by simp)
  · refine Γ.flows_jumpIfFalse (by omega) hpop ?_
    exact hland.points (Γ.point (o + size c₁ + 4) 1 .jump [o + size c₁ + 8 + size c₂] span) (by simp)
  · exact Γ.flows_jump hlt hstop
  · refine Γ.flows_plain rfl rfl ?_
    exact h₂.starts.lands hplain.ne_nil fun q hq => hland.points q (by simp [hq])
  · refine ih₂ hΓ (hsound.part (by simp [Site.parts, Site.formParts]) (by simp))
      (hland.sub (fun q hq => by simp [hq]) rfl (by simp) ?_) p hp
    exact fun _ _ => hstop

/-- Two ways to a value. -/
theorem leads_branches {x : Expr} {yes no : Node} {span : Span} {c₁ c₂ c₃ : List Point}
    {n₂ n₃ : List Note} {other stop : Nat} (h₂ : Lays Γ yes (o + size c₁ + 3) c₂ n₂)
    (h₃ : Lays Γ no other c₃ n₃) (hyes : yes.hasValue = true) (hno : no.hasValue = true)
    (hn : n.hasValue = true)
    (hother : other = o + size c₁ + 3 + size c₂ + 3) (hst : stop = other + size c₃)
    (hlt : stop < Opcode.noTarget)
    (hp₁ : (Γ.site, .expr x) ∈ Γ.site.parts n) (hp₂ : (Γ.site, yes) ∈ Γ.site.parts n)
    (hp₃ : (Γ.site, no) ∈ Γ.site.parts n) (ih₁ : Leads R H L Γ (.expr x) o c₁)
    (ih₂ : Leads R H L Γ yes (o + size c₁ + 3) c₂) (ih₃ : Leads R H L Γ no other c₃) :
    Leads R H L Γ n o
      (c₁ ++ Γ.point (o + size c₁) 1 .jumpIfFalse [other] span
        :: (c₂ ++ Γ.point (o + size c₁ + 3 + size c₂) 1 .jump [stop] span :: c₃)) := by
  have hafter : ∀ {k : Node} {t : Nat}, k.hasValue = true → k.after Γ t = Γ.spot t 1 := by
    intro k t hk
    cases k <;> first | rfl | cases hk
  have hvalue : ∀ {k : Node}, k.hasValue = true → (∀ e s, k ≠ .test (some e) s) ∧ ∀ b, k ≠ .body b := by
    intro k hk
    constructor <;> (intros; rintro rfl; cases hk)
  intro hΓ hsound hland p hp
  have hplain₂ := h₂.endsPlain hyes
  have hplain := h₃.endsPlain hno
  have hstop : L (Γ.spot stop 1) := by
    rw [← hafter hn]
    refine hland.stop_plain ((((hplain.cons _).append _).cons _).append _) ?_
    simp only [size_append, size_cons, Context.point_item, Opcode.lengths]
    omega
  simp only [List.mem_append, List.mem_cons] at hp
  rcases hp with hp | rfl | hp | rfl | hp
  · exact ih₁ hΓ (hsound.part hp₁ (by simp)) (hland.before (List.subset_append_left _ _) rfl (by simp)
      (List.mem_append_right _ List.mem_cons_self) rfl) p hp
  · refine Γ.flows_jumpIfFalse (by omega) ?_ ?_
    · exact h₃.starts.lands hplain.ne_nil fun q hq => hland.points q (by simp [hq])
    · exact h₂.starts.lands hplain₂.ne_nil fun q hq => hland.points q (by simp [hq])
  · refine ih₂ hΓ (hsound.part hp₂ (hvalue hyes).2) (hland.before (fun q hq => by simp [hq]) rfl
      (hvalue hyes).1 (q := Γ.point (o + size c₁ + 3 + size c₂) 1 .jump [stop] span) (by simp) ?_) p hp
    rw [hafter hyes]
    rfl
  · exact Γ.flows_jump hlt hstop
  · refine ih₃ hΓ (hsound.part hp₃ (hvalue hno).2) (hland.sub (fun q hq => by simp [hq]) rfl
      (hvalue hno).1 ?_) p hp
    intro _ _
    rwa [hafter hno, ← hst]

/-- A piece that is followed by an instruction, or that instruction, comes first. -/
theorem Point.Starts.lands_then {s : Spot} (h : Starts Γ n o c) (hL : ∀ p ∈ c, L p.spot)
    (hs : s = Γ.spot o 0) {q : Point} (hq : L q.spot) (hspot : q.spot = n.after Γ (o + size c)) :
    L s := by
  subst hs
  rcases h with ⟨rfl, hstart⟩ | ⟨p, rest, rfl, hp⟩
  · rw [← hstart]
    rw [size_nil, Nat.add_zero] at hspot
    exact hspot ▸ hq
  · exact hp ▸ hL p List.mem_cons_self

/-! ## Loops -/

/-- A part inside one more loop. -/
theorem landing_loop {breakTo : Nat} {continueTo : Option Nat} {waits : Bool}
    (hpoints : ∀ p ∈ c, L p.spot) (hbrk : L (Γ.spot breakTo 0))
    (hlt : Waits .brk (Γ.loops.length + 1) c ∨ (∃ e s, k = .test (some e) s) →
      breakTo < Opcode.noTarget)
    (hcont : ∀ t ∈ continueTo, L (Γ.spot t 0) ∧
      (Waits .cont (Γ.loops.length + 1) c → t < Opcode.noTarget))
    (hstop : c ≠ [] → ¬ Final c → L (k.after Γ (o' + size c))) :
    Landing L (Γ.loop breakTo continueTo waits) k o' c := by
  refine ⟨hpoints, fun hne hfinal => ?_, ?_, ?_, ?_⟩
  · have := hstop hne hfinal
    cases k <;> exact this
  · intro l hl e s hes
    cases hl
    exact ⟨hbrk, hlt (.inr ⟨e, s, hes⟩)⟩
  · intro l hl
    cases hl
    exact ⟨hbrk, fun hw => hlt (.inl hw)⟩
  · intro l hl t ht
    cases hl
    exact hcont t ht

theorem leads_while {x : Expr} {body : List Stmt} {s span : Span} {c₁ c₂ : List Point}
    {n₁ n₂ : List Note} {stop : Nat} (h₁ : Lays (Γ.loop stop (some o) false) (.expr x) o c₁ n₁)
    (h₂ : Lays (Γ.loop stop (some o) false) (.stmts body) (o + size c₁ + 3) c₂ n₂)
    (hst : stop = o + size c₁ + 3 + size c₂ + 3) (hlt : stop < Opcode.noTarget)
    (ih₁ : Leads R H L (Γ.loop stop (some o) false) (.expr x) o c₁)
    (ih₂ : Leads R H L (Γ.loop stop (some o) false) (.stmts body) (o + size c₁ + 3) c₂) :
    Leads R H L Γ (.action (.whileLoop x ⟨body, s⟩ span)) o
      (c₁ ++ Γ.point (o + size c₁) 1 .jumpIfFalse [stop] span
        :: (c₂ ++ [Γ.point (o + size c₁ + 3 + size c₂) 0 .jump [o] span])) := by
  intro hΓ hsound hland p hp
  have hback := hland.points (Γ.point (o + size c₁ + 3 + size c₂) 0 .jump [o] span) (by simp)
  have htest := hland.points (Γ.point (o + size c₁) 1 .jumpIfFalse [stop] span) (by simp)
  have hstart : L (Γ.spot o 0) :=
    h₁.starts.lands (h₁.endsPlain rfl).ne_nil fun q hq => hland.points q (by simp [hq])
  have hstop : L (Γ.spot stop 0) := by
    refine hland.stop_last (q := Γ.point _ 0 .jump [o] span) (by simp [List.getLast?_cons]; rfl)
      (by simp) ?_
    simp only [size_append, size_cons, size_nil, Context.point_item, Opcode.lengths]
    omega
  have hcont : ∀ t ∈ some o, L (Γ.spot t 0) ∧ (∀ w : Prop, w → t < Opcode.noTarget) := by
    rintro t ⟨⟩
    exact ⟨hstart, fun _ _ => by omega⟩
  simp only [List.mem_append, List.mem_cons, List.not_mem_nil, or_false] at hp
  rcases hp with hp | rfl | hp | rfl
  · refine ih₁ (hΓ.loop _ _ _) (hsound.part (by simp [Site.parts, Site.actionParts]) (by simp))
      (landing_loop (fun q hq => hland.points q (by simp [hq])) hstop (fun _ => hlt)
        (fun t ht => ⟨(hcont t ht).1, (hcont t ht).2 _⟩) fun _ _ => htest) p hp
  · refine Γ.flows_jumpIfFalse hlt hstop ?_
    exact h₂.starts.lands_then (fun q hq => hland.points q (by simp [hq])) rfl hback rfl
  · refine ih₂ (hΓ.loop _ _ _) (hsound.part (by simp [Site.parts, Site.actionParts]) (by simp))
      (landing_loop (fun q hq => hland.points q (by simp [hq])) hstop (fun _ => hlt)
        (fun t ht => ⟨(hcont t ht).1, (hcont t ht).2 _⟩) fun _ _ => hback) p hp
  · exact Γ.flows_jump (by omega) hstart

theorem leads_for {init : Option Stmt} {x u : Option Expr} {body : List Stmt} {s span : Span}
    {c₀ c₁ c₂ c₃ : List Point} {n₁ n₂ n₃ : List Note} {start next stop : Nat}
    (h₁ : Lays (Γ.loop stop (some next) true) (.test x span) start c₁ n₁)
    (h₂ : Lays (Γ.loop stop (some next) true) (.stmts body) (start + size c₁) c₂ n₂)
    (h₃ : Lays (Γ.loop stop none true) (.update u span) next c₃ n₃)
    (hst : start = o + size c₀) (hnx : next = start + size c₁ + size c₂)
    (hsp : stop = next + size c₃ + 3) (hstart : start < Opcode.noTarget)
    (hsome : x.isSome → stop < Opcode.noTarget)
    (hbrk : Waits .brk (Γ.loops.length + 1) (c₁ ++ (c₂ ++ c₃)) → stop < Opcode.noTarget)
    (hcont : Waits .cont (Γ.loops.length + 1) (c₁ ++ c₂) → next < Opcode.noTarget)
    (ih₀ : Leads R H L Γ (.optStmt init) o c₀)
    (ih₁ : Leads R H L (Γ.loop stop (some next) true) (.test x span) start c₁)
    (ih₂ : Leads R H L (Γ.loop stop (some next) true) (.stmts body) (start + size c₁) c₂)
    (ih₃ : Leads R H L (Γ.loop stop none true) (.update u span) next c₃) :
    Leads R H L Γ (.action (.forLoop init x u ⟨body, s⟩ span)) o
      (c₀ ++ (c₁ ++ (c₂ ++ (c₃ ++ [Γ.point (next + size c₃) 0 .jump [start] span])))) := by
  intro hΓ hsound hland p hp
  have hback := hland.points (Γ.point (next + size c₃) 0 .jump [start] span) (by simp)
  -- where the update, the body and the test start
  have hnext : L (Γ.spot next 0) :=
    h₃.starts.lands_then (fun q hq => hland.points q (by simp [hq])) rfl hback rfl
  have hbody : L (Γ.spot (start + size c₁) 0) := by
    rcases h₂.starts with ⟨rfl, -⟩ | ⟨q, rest, rfl, hq⟩
    · rwa [hnx, size_nil, Nat.add_zero] at hnext
    · exact hq ▸ hland.points q (by simp)
  have htest : L (Γ.spot start 0) := by
    rcases h₁.starts with ⟨rfl, -⟩ | ⟨q, rest, rfl, hq⟩
    · rwa [size_nil, Nat.add_zero] at hbody
    · exact hq ▸ hland.points q (by simp)
  have hstop : L (Γ.spot stop 0) := by
    refine hland.stop_last (q := Γ.point _ 0 .jump [start] span) (by simp; rfl) (by simp) ?_
    simp only [size_append, size_cons, size_nil, Context.point_item, Opcode.lengths]
    omega
  simp only [List.mem_append, List.mem_cons, List.not_mem_nil, or_false] at hp
  rcases hp with hp | hp | hp | hp | rfl
  · refine ih₀ hΓ (hsound.part (by simp [Site.parts, Site.actionParts]) (by simp))
      (hland.sub (fun q hq => by simp [hq]) rfl (by simp) fun _ _ => ?_) p hp
    rw [← hst]
    exact htest
  · refine ih₁ (hΓ.loop _ _ _) (hsound.part (by simp [Site.parts, Site.actionParts]) (by simp))
      (landing_loop (fun q hq => hland.points q (by simp [hq])) hstop ?_ ?_ fun _ _ => hbody) p hp
    · rintro (hw | ⟨e, t, hes⟩)
      · exact hbrk (hw.mono fun q hq => by simp [hq])
      · cases hes
        exact hsome rfl
    · rintro t ⟨⟩
      exact ⟨hnext, fun hw => hcont (hw.mono fun q hq => by simp [hq])⟩
  · refine ih₂ (hΓ.loop _ _ _) (hsound.part (by simp [Site.parts, Site.actionParts]) (by simp))
      (landing_loop (fun q hq => hland.points q (by simp [hq])) hstop ?_ ?_ fun _ _ => ?_) p hp
    · rintro (hw | ⟨e, t, hes⟩)
      · exact hbrk (hw.mono fun q hq => by simp [hq])
      · cases hes
    · rintro t ⟨⟩
      exact ⟨hnext, fun hw => hcont (hw.mono fun q hq => by simp [hq])⟩
    · rw [← hnx]
      exact hnext
  · refine ih₃ (hΓ.loop _ _ _) (hsound.part (by simp [Site.parts, Site.actionParts]) (by simp))
      (landing_loop (fun q hq => hland.points q (by simp [hq])) hstop ?_ ?_ fun _ _ => hback) p hp
    · rintro (hw | ⟨e, t, hes⟩)
      · exact hbrk (hw.mono fun q hq => by simp [hq])
      · cases hes
    · rintro t ⟨⟩
  · exact Γ.flows_jump hstart htest

/-! ## Early exits -/

theorem leads_break {l : Loop} {ls : List Loop} {span : Span} (hL : Coarse R H L)
    (hloops : Γ.loops = l :: ls) (ih : Leads R H L Γ (.exits l.regions.length span) o c) :
    Leads R H L Γ (.action (.breakLoop span)) o
      (c ++ [(Γ.exitTo l.regions.length).leap (o + size c) .brk l.breakTo span]) := by
  refine leads_last ih rfl (by simp [Site.parts, Site.actionParts, Context.site, hloops]) (by simp)
    (by simp) ?_
  intro hΓ hsound hland
  have hfine := hsound.fine
  simp only [Site.Fine, Context.site, hloops, List.map_cons, List.head?_cons, Option.mem_def,
    Option.some.injEq, forall_eq'] at hfine
  have hl : l ∈ Γ.loops.head? := by simp [hloops]
  refine Context.flows_leap hL hΓ (List.mem_of_mem_head? hl) hfine ((hland.brk l hl).2 ?_) (hland.brk l hl).1 rfl rfl
  exact ⟨_, List.mem_append_right _ List.mem_cons_self, rfl⟩

theorem leads_continue {l : Loop} {ls : List Loop} {t : Nat} {span : Span} {q : Point}
    (hL : Coarse R H L) (hloops : Γ.loops = l :: ls) (ht : l.continueTo = some t)
    (hlt : t < Opcode.noTarget ∨ q.leap = some (.cont, Γ.loops.length))
    (hitem : q.item = ⟨.jump, [t], span⟩)
    (hspot : q.spot = (Γ.exitTo l.regions.length).spot (o + size c) 0)
    (ih : Leads R H L Γ (.exits l.regions.length span) o c) :
    Leads R H L Γ (.action (.continueLoop span)) o (c ++ [q]) := by
  refine leads_last ih hspot (by simp [Site.parts, Site.actionParts, Context.site, hloops]) (by simp)
    (by simp) ?_
  intro hΓ hsound hland
  have hfine := hsound.fine
  simp only [Site.Fine, Context.site, hloops, List.map_cons, List.head?_cons, Option.mem_def,
    Option.some.injEq, forall_eq'] at hfine
  have hl : l ∈ Γ.loops.head? := by simp [hloops]
  have hcont := hland.cont l hl t ht
  refine Context.flows_leap hL hΓ (List.mem_of_mem_head? hl) hfine ?_ hcont.1 hitem hspot
  rcases hlt with hlt | hleap
  · exact hlt
  · exact hcont.2 ⟨q, List.mem_append_right _ List.mem_cons_self, hleap⟩

theorem leads_exits {depth : Nat} {span : Span} {r : Region} {rs : List Region}
    {c₁ c₂ : List Point} {n₁ n₂ : List Note} (hr : Γ.regions = r :: rs) (hdepth : depth ≤ rs.length)
    (h₁ : Lays (Γ.leave rs) (.stmts (r.cleanup.elim [] Block.statements)) (o + 3) c₁ n₁)
    (h₂ : Lays (Γ.leave rs) (.exits depth span) (o + 3 + size c₁) c₂ n₂)
    (hlt : o + 3 < Opcode.noTarget)
    (ih₁ : Leads R H L (Γ.leave rs) (.stmts (r.cleanup.elim [] Block.statements)) (o + 3) c₁)
    (ih₂ : Leads R H L (Γ.leave rs) (.exits depth span) (o + 3 + size c₁) c₂) :
    Leads R H L Γ (.exits depth span) o
      (Γ.point o 0 .finallyEnd [o + 3] span :: (c₁ ++ c₂)) := by
  intro hΓ hsound hland p hp
  have hafter : ∀ t, Node.after (Γ.leave rs) t (.exits depth span) = Node.after Γ t (.exits depth span) := by
    intro t
    have hdrop : rs.length + 1 - depth = (rs.length - depth) + 1 := by omega
    simp [Node.after, Context.exitTo, Context.leave, Context.spot, hr, hdrop]
  have hend : ∀ {a b : List Point} {t : Nat}, a ++ b = Γ.point o 0 .finallyEnd [o + 3] span :: (c₁ ++ c₂) →
      t = o + 3 + size c₁ + size c₂ → ¬ Final (a ++ b) →
      L (Node.after (Γ.leave rs) t (.exits depth span)) := by
    intro a b t hab ht hfinal
    rw [hab] at hfinal
    rw [hafter, ht]
    have hstop := hland.stop (by simp) hfinal
    simpa [Opcode.lengths, Nat.add_assoc] using hstop
  have hsecond : c₁ ≠ [] → ¬ Final c₁ → L ((Γ.leave rs).spot (o + 3 + size c₁) 0) := by
    intro hne hfinal
    refine h₂.starts.follow (a := Γ.point o 0 .finallyEnd [o + 3] span :: c₁)
      (fun q hq => hland.points q (by simp [hq])) rfl (hend (by simp) rfl) ?_
    rwa [← List.singleton_append, final_append _ hne]
  have hparts : Site.exitParts Γ.site depth span =
      r.cleanup.toList.map (fun b => ((Γ.leave rs).site, .stmts b.statements)) ++
        [((Γ.leave rs).site, .exits depth span)] := by
    have hcleanups : Γ.site.cleanups = r.cleanup :: rs.map Region.cleanup := by
      simp [Context.site, hr]
    have hlen : depth ≤ (rs.map Region.cleanup).length := by simpa using hdepth
    simp only [Site.exitParts, hcleanups, if_pos hlen, Context.site_leave]
  simp only [List.mem_append, List.mem_cons] at hp
  rcases hp with rfl | hp | hp
  · refine Γ.flows_finallyEnd hr hlt ?_
    have hstarts : Starts (Γ.leave rs) (.exits depth span) (o + 3) (c₁ ++ c₂) := by
      refine h₁.starts.append rfl fun hnil _ => ?_
      subst hnil
      exact h₂.starts
    refine hstarts.follow (a := [Γ.point o 0 .finallyEnd [o + 3] span]) (s := ⟨o + 3, rs, Γ.height, .nothing⟩)
      (fun q hq => hland.points q (List.mem_cons_of_mem _ hq)) rfl (hend rfl ?_) ?_
    · simp [Nat.add_assoc]
    · simp [Final]
  · cases hclean : r.cleanup with
    | none =>
      rw [hclean] at h₁
      generalize Γ.leave rs = Δ at h₁
      cases h₁
      cases hp
    | some body =>
      refine ih₁ (hΓ.leave hr) (hsound.part ?_ (by simp)) (hland.sub_leave (fun q hq => by simp [hq])
        (by simp) hsecond) p hp
      show _ ∈ Site.exitParts _ _ _
      simp [hparts, hclean]
  · refine ih₂ (hΓ.leave hr) (hsound.part ?_ (by simp)) (hland.sub_leave (fun q hq => by simp [hq])
      (by simp) fun hne hfinal => ?_) p hp
    · show _ ∈ Site.exitParts _ _ _
      simp [hparts]
    · refine hend (a := Γ.point o 0 .finallyEnd [o + 3] span :: c₁) (b := c₂) (by simp) rfl ?_
      rwa [final_append _ hne]

/-! ## Protected regions -/

theorem Handler.target?_of_lt {t : Nat} (ht : t < Opcode.noTarget) : Handler.target? t = some t := by
  have hne : t ≠ Opcode.noTarget := Nat.ne_of_lt ht
  simp [Handler.target?, hne]

/-- An operand of `tryEnter`, as the machine reads it. -/
theorem target?_operand {x y : Nat} (span : Span) (hx : x ≤ Opcode.noTarget)
    (hy : y ≤ Opcode.noTarget) :
    Handler.target? (Emitted.operand ⟨.tryEnter, [x, y], span⟩ 0) = Handler.target? x ∧
      Handler.target? (Emitted.operand ⟨.tryEnter, [x, y], span⟩ 1) = Handler.target? y := by
  have hx' : x % 65536 = x := Nat.mod_eq_of_lt (Nat.lt_succ_of_le hx)
  have hy' : y % 65536 = y := Nat.mod_eq_of_lt (Nat.lt_succ_of_le hy)
  simp [Emitted.operand, Emitted.cut, Opcode.widths, hx', hy']

/-- The first instruction of a `try`. -/
theorem flows_tryEnter {r : Region} {x y : Nat} {span : Span} (hx : x ≤ Opcode.noTarget)
    (hy : y ≤ Opcode.noTarget) (hr : r = ⟨o, Handler.target? x, Handler.target? y, Γ.height, r.cleanup⟩)
    (hbody : L ((Γ.enter r).spot (o + 5) 0)) (hresumes : r.Resumes L Γ.regions) :
    (Γ.point o 0 .tryEnter [x, y] span).Flows L := by
  obtain ⟨h₀, h₁⟩ := target?_operand span hx hy
  refine ⟨r, ?_, hbody, hresumes⟩
  rw [hr]
  exact ⟨rfl, h₀.symm, h₁.symm, rfl⟩

theorem Handler.target?_noTarget : Handler.target? Opcode.noTarget = none := rfl

theorem leads_tryCatch {body handler : List Stmt} {s s' span : Span} {param : Option Ident}
    {c₁ c₂ : List Point} {n₁ n₂ : List Note} {bind : List Emitted} {r : Region} {handle stop : Nat}
    (hL : Coarse R H L) (h₁ : Lays (Γ.enter r) (.stmts body) (o + 5) c₁ n₁) (hbind : Binding bind)
    (h₂ : Lays Γ (.stmts handler) (handle + size (row Γ.regions handle (Γ.height + 1) bind)) c₂ n₂)
    (hr : r = ⟨o, some handle, none, Γ.height, none⟩) (hh : handle = o + 5 + size c₁ + 3)
    (hst : stop = handle + size (row Γ.regions handle (Γ.height + 1) bind) + size c₂ + 3)
    (hlt : stop < Opcode.noTarget) (ih₁ : Leads R H L (Γ.enter r) (.stmts body) (o + 5) c₁)
    (ih₂ : Leads R H L Γ (.stmts handler)
      (handle + size (row Γ.regions handle (Γ.height + 1) bind)) c₂) :
    Leads R H L Γ (.action (.tryCatch ⟨body, s⟩ (some ⟨param, ⟨handler, s'⟩⟩) none span)) o
      (Γ.point o 0 .tryEnter [handle, Opcode.noTarget] span
        :: (c₁ ++ (Γ.enter r).point (o + 5 + size c₁) 0 .finallyEnd [stop] span
        :: (row Γ.regions handle (Γ.height + 1) bind
        ++ (c₂ ++ [Γ.point (stop - 3) 0 .jump [stop] span])))) := by
  intro hΓ hsound hland p hp
  have hleave := hland.points ((Γ.enter r).point (o + 5 + size c₁) 0 .finallyEnd [stop] span) (by simp)
  have hskip := hland.points (Γ.point (stop - 3) 0 .jump [stop] span) (by simp)
  obtain ⟨q, hq, hqs⟩ := hbind.row_head Γ.regions handle (Γ.height + 1)
  have hcatch : L ⟨handle, Γ.regions, Γ.height + 1, .nothing⟩ := hqs ▸ hland.points q (by simp [hq])
  have hjump : stop - 3 = handle + size (row Γ.regions handle (Γ.height + 1) bind) + size c₂ := by
    omega
  have hstop : L (Γ.spot stop 0) := by
    refine hland.stop_last (q := Γ.point _ 0 .jump [stop] span) (by simp [List.getLast?_cons]; rfl)
      (by simp) ?_
    simp only [size_append, size_cons, size_nil, Context.point_item, Opcode.lengths]
    omega
  simp only [List.mem_append, List.mem_cons, List.not_mem_nil, or_false] at hp
  rcases hp with rfl | hp | rfl | hp | hp | rfl
  · refine flows_tryEnter (r := r) (by omega) (Nat.le_refl _) ?_ ?_ ?_
    · rw [hr, Handler.target?_of_lt (by omega), Handler.target?_noTarget]
    · exact h₁.starts.lands_then (fun q hq => hland.points q (by simp [hq])) rfl hleave rfl
    · rw [hr]
      exact ⟨by rintro t ⟨⟩; exact hcatch, by simp, .inl rfl⟩
  · refine ih₁ (hΓ.enter r) (hsound.part ?_ (by simp)) (hland.sub (fun q hq => by simp [hq]) rfl
      (by simp) fun _ _ => hleave) p hp
    simp [Site.parts, Site.actionParts, hr]
  · exact (Γ.enter r).flows_finallyEnd rfl hlt hstop
  · refine hbind.flows_row hL (fun _ => trivial) (fun q hq => hland.points q (by simp [hq])) ?_ p hp
    refine h₂.starts.lands_then (fun q hq => hland.points q (by simp [hq])) rfl hskip ?_
    rw [← hjump]
    rfl
  · refine ih₂ hΓ (hsound.part (by simp [Site.parts, Site.actionParts]) (by simp))
      (hland.sub (fun q hq => by simp [hq]) rfl (by simp) fun _ _ => ?_) p hp
    rw [← hjump]
    exact hskip
  · exact Γ.flows_jump hlt hstop

/-- The shared end of every `try` with a finally body. -/
theorem leads_cleanup {cleanup : List Stmt} {span : Span} {c₃ : List Point} {n₃ : List Note}
    {final : Nat} (h₃ : Lays (Γ.up 2) (.stmts cleanup) final c₃ n₃) (h2 : 2 ≤ final)
    (hpart : (Γ.site.up 2, .stmts cleanup) ∈ Γ.site.parts n)
    (hstop : L (Γ.spot (final + size c₃ + 1) 0))
    (hsub : Γ.point (final - 2) 0 .null [] span :: Γ.point (final - 1) 1 .pushFalse [] span
        :: (c₃ ++ [Γ.point (final + size c₃) 2 .rethrow [] span]) ⊆ code)
    (hΓ : Γ.Nested) (hsound : Site.Sound R H Γ.site n) (hland : Landing L Γ n o code)
    (ih₃ : Leads R H L (Γ.up 2) (.stmts cleanup) final c₃) :
    L ⟨final, Γ.regions, Γ.height + 2, .nothing⟩ ∧
      ∀ p ∈ Γ.point (final - 2) 0 .null [] span :: Γ.point (final - 1) 1 .pushFalse [] span
        :: (c₃ ++ [Γ.point (final + size c₃) 2 .rethrow [] span]), p.Flows L := by
  have hrethrow := hland.points (Γ.point (final + size c₃) 2 .rethrow [] span) (hsub (by simp))
  have hpush := hland.points (Γ.point (final - 1) 1 .pushFalse [] span) (hsub (by simp))
  have hfinal : L ⟨final, Γ.regions, Γ.height + 2, .nothing⟩ :=
    h₃.starts.lands_then (fun q hq => hland.points q (hsub (by simp [hq]))) rfl hrethrow rfl
  refine ⟨hfinal, fun p hp => ?_⟩
  simp only [List.mem_append, List.mem_cons, List.not_mem_nil, or_false] at hp
  rcases hp with rfl | rfl | hp | rfl
  · refine Γ.flows_plain rfl rfl ?_
    rw [show final - 2 + Opcode.length .null = final - 1 by simp [Opcode.lengths]; omega]
    exact hpush
  · refine Γ.flows_plain rfl rfl ?_
    rw [show final - 1 + Opcode.length .pushFalse = final by simp [Opcode.lengths]; omega]
    exact hfinal
  · exact ih₃ (hΓ.up 2) (hsound.part hpart (by simp)) (hland.sub (fun q hq => hsub (by simp [hq])) rfl (by simp)
      fun _ _ => hrethrow) p hp
  · exact hstop

theorem leads_tryFinally {body cleanup : List Stmt} {s s' span : Span} {c₁ c₂ : List Point}
    {n₁ n₂ : List Note} {r : Region} {final : Nat}
    (h₁ : Lays (Γ.enter r) (.stmts body) (o + 5) c₁ n₁) (h₂ : Lays (Γ.up 2) (.stmts cleanup) final c₂ n₂)
    (hr : r = ⟨o, none, some final, Γ.height, some ⟨cleanup, s'⟩⟩)
    (hf : final = o + 5 + size c₁ + 3 + 2) (hlt : final < Opcode.noTarget)
    (ih₁ : Leads R H L (Γ.enter r) (.stmts body) (o + 5) c₁)
    (ih₂ : Leads R H L (Γ.up 2) (.stmts cleanup) final c₂) :
    Leads R H L Γ (.action (.tryCatch ⟨body, s⟩ none (some ⟨cleanup, s'⟩) span)) o
      (Γ.point o 0 .tryEnter [Opcode.noTarget, final] span
        :: (c₁ ++ (Γ.enter r).point (o + 5 + size c₁) 0 .finallyEnd [final - 2] span
        :: Γ.point (final - 2) 0 .null [] span :: Γ.point (final - 1) 1 .pushFalse [] span
        :: (c₂ ++ [Γ.point (final + size c₂) 2 .rethrow [] span]))) := by
  intro hΓ hsound hland p hp
  have hleave := hland.points ((Γ.enter r).point (o + 5 + size c₁) 0 .finallyEnd [final - 2] span)
    (by simp)
  have hnull := hland.points (Γ.point (final - 2) 0 .null [] span) (by simp)
  have hstop : L (Γ.spot (final + size c₂ + 1) 0) := by
    refine hland.stop_last (q := Γ.point _ 2 .rethrow [] span) (by simp [List.getLast?_cons]; rfl)
      (by simp) ?_
    simp only [size_append, size_cons, size_nil, Context.point_item, Opcode.lengths]
    omega
  obtain ⟨hfinal, hrest⟩ := leads_cleanup h₂ (by omega) (by simp [Site.parts, Site.actionParts]) hstop
    (fun q hq => List.mem_cons_of_mem _ (List.mem_append_right _ (List.mem_cons_of_mem _ hq)))
    hΓ hsound hland ih₂
  rw [List.mem_cons, List.mem_append, List.mem_cons] at hp
  rcases hp with rfl | hp | rfl | hp
  · refine flows_tryEnter (r := r) (Nat.le_refl _) (by omega) ?_ ?_ ?_
    · rw [hr, Handler.target?_of_lt hlt, Handler.target?_noTarget]
    · exact h₁.starts.lands_then (fun q hq => hland.points q (by simp [hq])) rfl hleave rfl
    · rw [hr]
      exact ⟨by simp, by rintro t ⟨⟩; exact hfinal, .inr rfl⟩
  · refine ih₁ (hΓ.enter r) (hsound.part ?_ (by simp)) (hland.sub (fun q hq => by simp [hq]) rfl
      (by simp) fun _ _ => hleave) p hp
    simp [Site.parts, Site.actionParts, hr]
  · exact (Γ.enter r).flows_finallyEnd rfl (by omega) hnull
  · exact hrest p hp

theorem leads_tryBoth {body handler cleanup : List Stmt} {s s' s'' span : Span}
    {param : Option Ident} {c₁ c₂ c₃ : List Point} {n₁ n₂ n₃ : List Note} {bind : List Emitted}
    {r r' : Region} {handle final : Nat} (hL : Coarse R H L)
    (h₁ : Lays (Γ.enter r) (.stmts body) (o + 5) c₁ n₁) (hbind : Binding bind)
    (h₂ : Lays (Γ.enter r') (.stmts handler) (r'.enter + 5) c₂ n₂)
    (h₃ : Lays (Γ.up 2) (.stmts cleanup) final c₃ n₃)
    (hr : r = ⟨o, some handle, some final, Γ.height, some ⟨cleanup, s''⟩⟩)
    (hr' : r' = ⟨handle + size (row Γ.regions handle (Γ.height + 1) bind), none, some final,
      Γ.height, some ⟨cleanup, s''⟩⟩)
    (hh : handle = o + 5 + size c₁ + 3) (hf : final = r'.enter + 5 + size c₂ + 3 + 2)
    (hlt : final < Opcode.noTarget) (ih₁ : Leads R H L (Γ.enter r) (.stmts body) (o + 5) c₁)
    (ih₂ : Leads R H L (Γ.enter r') (.stmts handler) (r'.enter + 5) c₂)
    (ih₃ : Leads R H L (Γ.up 2) (.stmts cleanup) final c₃) :
    Leads R H L Γ
      (.action (.tryCatch ⟨body, s⟩ (some ⟨param, ⟨handler, s'⟩⟩) (some ⟨cleanup, s''⟩) span)) o
      (Γ.point o 0 .tryEnter [handle, final] span
        :: (c₁ ++ (Γ.enter r).point (o + 5 + size c₁) 0 .finallyEnd [final - 2] span
        :: (row Γ.regions handle (Γ.height + 1) bind
        ++ Γ.point r'.enter 0 .tryEnter [Opcode.noTarget, final] span
        :: (c₂ ++ (Γ.enter r').point (r'.enter + 5 + size c₂) 0 .finallyEnd [final - 2] span
        :: Γ.point (final - 2) 0 .null [] span :: Γ.point (final - 1) 1 .pushFalse [] span
        :: (c₃ ++ [Γ.point (final + size c₃) 2 .rethrow [] span]))))) := by
  intro hΓ hsound hland p hp
  have henter : r'.enter = handle + size (row Γ.regions handle (Γ.height + 1) bind) := by rw [hr']
  have hleave := hland.points ((Γ.enter r).point (o + 5 + size c₁) 0 .finallyEnd [final - 2] span)
    (by simp)
  have hleave' := hland.points
    ((Γ.enter r').point (r'.enter + 5 + size c₂) 0 .finallyEnd [final - 2] span) (by simp)
  have hagain := hland.points (Γ.point r'.enter 0 .tryEnter [Opcode.noTarget, final] span) (by simp)
  have hnull := hland.points (Γ.point (final - 2) 0 .null [] span) (by simp)
  obtain ⟨q, hq, hqs⟩ := hbind.row_head Γ.regions handle (Γ.height + 1)
  have hcatch : L ⟨handle, Γ.regions, Γ.height + 1, .nothing⟩ := hqs ▸ hland.points q (by simp [hq])
  have hstop : L (Γ.spot (final + size c₃ + 1) 0) := by
    refine hland.stop_last (q := Γ.point _ 2 .rethrow [] span) (by simp [List.getLast?_cons]; rfl)
      (by simp) ?_
    simp only [size_append, size_cons, size_nil, Context.point_item, Opcode.lengths]
    omega
  have hpart : (Γ.site.up 2, .stmts cleanup) ∈ Γ.site.parts
      (.action (.tryCatch ⟨body, s⟩ (some ⟨param, ⟨handler, s'⟩⟩) (some ⟨cleanup, s''⟩) span)) := by
    simp [Site.parts, Site.actionParts]
  obtain ⟨hfinal, hrest⟩ := leads_cleanup h₃ (by omega) hpart hstop
    (fun q hq => List.mem_cons_of_mem _ (List.mem_append_right _ (List.mem_cons_of_mem _
      (List.mem_append_right _ (List.mem_cons_of_mem _ (List.mem_append_right _
      (List.mem_cons_of_mem _ hq))))))) hΓ hsound hland ih₃
  rw [List.mem_cons, List.mem_append, List.mem_cons, List.mem_append, List.mem_cons, List.mem_append,
    List.mem_cons] at hp
  rcases hp with rfl | hp | rfl | hp | rfl | hp | rfl | hp
  · refine flows_tryEnter (r := r) (by omega) (by omega) ?_ ?_ ?_
    · rw [hr, Handler.target?_of_lt (by omega), Handler.target?_of_lt hlt]
    · exact h₁.starts.lands_then (fun q hq => hland.points q (by simp [hq])) rfl hleave rfl
    · rw [hr]
      exact ⟨by rintro t ⟨⟩; exact hcatch, by rintro t ⟨⟩; exact hfinal, .inl rfl⟩
  · refine ih₁ (hΓ.enter r) (hsound.part ?_ (by simp)) (hland.sub (fun q hq => by simp [hq]) rfl
      (by simp) fun _ _ => hleave) p hp
    simp [Site.parts, Site.actionParts, hr]
  · exact (Γ.enter r).flows_finallyEnd rfl (by omega) hnull
  · refine hbind.flows_row hL (fun _ => trivial) (fun q hq => hland.points q (by simp [hq])) ?_ p hp
    rw [← henter]
    exact hagain
  · refine flows_tryEnter (r := r') (Nat.le_refl _) (by omega) ?_ ?_ ?_
    · rw [hr', Handler.target?_of_lt hlt, Handler.target?_noTarget]
    · exact h₂.starts.lands_then (fun q hq => hland.points q (by simp [hq])) rfl hleave' rfl
    · rw [hr']
      exact ⟨by simp, by rintro t ⟨⟩; exact hfinal, .inr rfl⟩
  · refine ih₂ (hΓ.enter r') (hsound.part ?_ (by simp)) (hland.sub (fun q hq => by simp [hq]) rfl
      (by simp) fun _ _ => hleave') p hp
    simp [Site.parts, Site.actionParts, hr']
  · exact (Γ.enter r').flows_finallyEnd rfl (by omega) hnull
  · exact hrest p hp

/-! ## The induction -/

/-- A piece that is no more than one of its parts. -/
theorem leads_only (ih : Leads R H L Γ k o c) (hpart : (Γ.site, k) ∈ Γ.site.parts n)
    (hk : ∀ e s, k ≠ .test (some e) s) (hb : ∀ b, k ≠ .body b)
    (hafter : ∀ t, k.after Γ t = n.after Γ t) : Leads R H L Γ n o c := by
  intro hΓ hsound hland
  refine ih hΓ (hsound.part hpart hb) (hland.sub (List.Subset.refl c) rfl hk ?_)
  rw [hafter]
  exact hland.stop

/-- The operands of an expression are its parts. -/
theorem Site.strict_part {S : Site} {e : Expr} {es : List Operand} (h : e.operands? = some es) :
    (S, .operands e 0 es) ∈ S.parts (.form e) := by
  cases e with
  | binary op l r span =>
    by_cases hop : (op == "&&" || op == "||") = true
    · simp only [Expr.operands?, if_pos hop, reduceCtorEq] at h
    · simp only [Site.parts, Site.formParts, if_neg hop, h, Option.getD_some, List.mem_singleton]
  | ternary | cond => cases h
  | function => cases h; exact List.mem_cons_self
  | _ => simp [Site.parts, Site.formParts, h]

/-- Every way through a layout leads on. -/
theorem Lays.flows (hL : Coarse R H L) (h : Lays Γ n o code notes) : Leads R H L Γ n o code := by
  induction h with
  | noOperands | noStmts | noOptStmt | noTest | noUpdate | noExits =>
    intro _ _ _ p hp
    cases hp
  | expr _ ih | stmt _ ih | alternative _ ih | optStmt _ ih =>
    exact leads_only ih (by simp [Site.parts]) (by simp) (by simp) fun _ => rfl
  | block _ ih | tryNone _ ih =>
    exact leads_only ih (by simp [Site.parts, Site.actionParts]) (by simp) (by simp) fun _ => rfl
  | bodyReturn hends _ _ _ ih =>
    exact leads_only ih (by simp [Site.parts, Site.valueParts_of_not_endsWithExpr hends]) (by simp)
      (by simp) fun _ => rfl
  | strict hops _ htail ih =>
    exact leads_tail hL ih htail (Site.strict_part hops) (by simp) (by simp) (fun hsound => hsound.fine)
      (fun _ => rfl) fun _ => rfl
  | @operand Γ e j o x xs c₁ c₂ n₁ n₂ _ h₂ ih₁ ih₂ =>
    refine leads_seq ih₁ ih₂ h₂.starts rfl ?_ (by simp [Site.parts]) (by simp [Site.parts]) (by simp)
      (by simp) (by simp) (by simp)
    simp [Node.after, Context.spot, Context.up, Nat.add_assoc, Nat.add_comm 1]
  | value _ h₂ ih₁ ih₂ | stmts _ h₂ ih₁ ih₂ =>
    refine leads_seq (j := 0) ih₁ ih₂ h₂.starts rfl ?_ ?_ ?_ (by simp) (by simp) (by simp) (by simp)
    · simp [Node.after, Context.spot, Context.up, Nat.add_assoc]
    · simp [Site.parts, Site.valueParts]
    · simp [Site.parts, Site.valueParts, Site.up]
  | @index Γ e j o i span xs place c₂ n₂ h₂ ih₂ =>
    intro hΓ hsound hland p hp
    have hend : Node.after (Γ.up 1) (o + 3 + size c₂) (.operands e (j + 1) xs) = Node.after Γ
        (o + size (Γ.point o 0 .constant [place] span :: c₂)) (.operands e j (.index i span :: xs)) := by
      simp [Node.after, Context.spot, Context.up, Opcode.lengths, Nat.add_assoc, Nat.add_comm 1]
    rcases List.mem_cons.mp hp with rfl | hp
    · -- nothing that comes next relies on the constant
      have hnext : L ((Γ.up 1).spot (o + 3) 0) := by
        refine h₂.starts.follow (a := [Γ.point o 0 .constant [place] span])
          (fun q hq => hland.points q (List.mem_cons_of_mem _ hq)) rfl ?_ (by simp [Final])
        rw [hend]
        exact hland.stop (by simp)
      exact (Point.flows_plain rfl).mpr
        (hL.spot hnext (fun _ => rfl) (Nat.le_refl _) fun _ => rfl)
    · refine ih₂ (hΓ.up 1) (hsound.part (by simp [Site.parts]) (by simp))
        (hland.sub (fun q hq => List.mem_cons_of_mem _ hq) rfl (by simp) fun hne hfinal => ?_) p hp
      rw [hend]
      refine hland.stop (by simp) ?_
      rwa [← List.singleton_append, final_append _ hne]
  | and h₁ h₂ hstop hlt ih₁ ih₂ =>
    subst hstop
    exact leads_and h₂ hlt ih₁ ih₂
  | or h₁ h₂ hstop hlt ih₁ ih₂ =>
    subst hstop
    exact leads_or h₂ hlt ih₁ ih₂
  | ternary h₁ h₂ h₃ hother hstop hlt ih₁ ih₂ ih₃ | cond h₁ h₂ h₃ hother hstop hlt ih₁ ih₂ ih₃ =>
    exact leads_branches h₂ h₃ rfl rfl rfl hother hstop hlt (by simp [Site.parts, Site.formParts])
      (by simp [Site.parts, Site.formParts]) (by simp [Site.parts, Site.formParts]) ih₁ ih₂ ih₃
  | noAlternative =>
    intro _ _ hland p hp
    obtain rfl := List.mem_singleton.mp hp
    exact Context.flows_plain rfl rfl (hland.stop_last (by simp; rfl) (by simp) (by simp))
  | noValue hends _ ih =>
    refine leads_last ih rfl (by simp [Site.parts, Site.valueParts_of_not_endsWithExpr hends]) (by simp)
      (by simp) fun _ _ hland => ?_
    refine Context.flows_plain rfl rfl (hland.stop_last (by simp; rfl) (by simp) ?_)
    simp [Nat.add_assoc]
  | bodyNull hends _ ih =>
    exact leads_last ih rfl (by simp [Site.parts, Site.valueParts_of_not_endsWithExpr hends]) (by simp)
      (by simp) fun _ _ _ => rfl
  | unit _ ih => exact leads_last ih rfl (by simp [Site.parts]) (by simp) (by simp) fun _ _ _ => rfl
  | @bodyValue o ss e s span c₁ c₂ n₁ n₂ h₁ h₂ ih₁ ih₂ =>
    intro hΓ hsound hland p hp
    simp only [List.mem_append, List.mem_singleton] at hp
    rcases hp with hp | hp | rfl
    · refine ih₁ hΓ (hsound.part (by simp [Site.parts, Site.valueParts]) (by simp))
        (hland.sub (fun q hq => by simp [hq]) rfl (by simp) fun _ _ => ?_) p hp
      exact h₂.starts.lands (h₂.endsPlain rfl).ne_nil fun q hq => hland.points q (by simp [hq])
    · exact ih₂ hΓ (hsound.part (by simp [Site.parts, Site.valueParts]) (by simp))
        (hland.before (fun q hq => by simp [hq]) rfl (by simp)
          (q := Context.top.point (o + size c₁ + size c₂) 1 .returnValue [] s) (by simp) rfl) p hp
    · exact rfl
  | bind _ htail ih =>
    exact leads_tail hL ih htail (by simp [Site.parts, Site.actionParts]) (by simp) (by simp)
      (fun _ _ => trivial) (fun _ => rfl) fun _ => rfl
  | @classDecl Γ o name parent body span tail htail =>
    intro _ _ hland
    have hplain := htail.endsPlain Γ.regions o Γ.height
    exact htail.flows_row hL (fun _ => trivial) hland.points (hland.stop hplain.ne_nil hplain.not_final)
  | exprStmt _ ih =>
    refine leads_last ih rfl (by simp [Site.parts, Site.actionParts]) (by simp) (by simp)
      fun _ _ hland => ?_
    refine Context.flows_plain rfl rfl (hland.stop_last (by simp; rfl) (by simp) ?_)
    simp [Nat.add_assoc]
  | update _ ih =>
    refine leads_last ih rfl (by simp [Site.parts]) (by simp) (by simp) fun _ _ hland => ?_
    refine Context.flows_plain rfl rfl (hland.stop_last (by simp; rfl) (by simp) ?_)
    simp [Nat.add_assoc]
  | throw _ ih =>
    exact leads_last ih rfl (by simp [Site.parts, Site.actionParts]) (by simp) (by simp)
      fun _ _ _ => trivial
  | retNull _ ih =>
    refine leads_last ih rfl (by simp [Site.parts, Site.actionParts]) (by simp) (by simp)
      fun _ _ _ => ?_
    exact List.drop_eq_nil_of_le (Nat.le_refl _)
  | @ret Γ o e span c₁ c₂ n₁ n₂ h₁ h₂ ih₁ ih₂ =>
    intro hΓ hsound hland p hp
    have hlast := hland.points
      ((Γ.exitTo 0).point (o + size c₁ + size c₂) 1 .returnValue [] span) (by simp)
    simp only [List.mem_append, List.mem_singleton] at hp
    rcases hp with hp | hp | rfl
    · refine ih₁ hΓ (hsound.part (by simp [Site.parts, Site.actionParts]) (by simp))
        (hland.sub (fun q hq => by simp [hq]) rfl (by simp) fun _ _ => ?_) p hp
      exact h₂.starts.lands_then (fun q hq => hland.points q (by simp [hq])) rfl hlast rfl
    · exact ih₂ (hΓ.up 1) (hsound.part (by simp [Site.parts, Site.actionParts]) (by simp))
        (hland.sub (fun q hq => by simp [hq]) rfl (by simp) fun _ _ => hlast) p hp
    · exact List.drop_eq_nil_of_le (Nat.le_refl _)
  | @test Γ o c span code notes l ls hloops _ ih =>
    refine leads_last ih rfl (by simp [Site.parts]) (by simp) (by simp) fun _ _ hland => ?_
    obtain ⟨hbrk, hlt⟩ := hland.test l (by simp [hloops]) c span rfl
    refine Γ.flows_jumpIfFalse hlt hbrk (hland.stop_last (by simp; rfl) (by simp) ?_)
    simp [Nat.add_assoc, Opcode.lengths]
  | brk hloops _ ih => exact leads_break hL hloops ih
  | cont hloops _ _ htarget hlt ih =>
    exact leads_continue hL hloops htarget (.inl hlt) rfl rfl ih
  | @contWait Γ o span code notes l ls hloops _ _ ih =>
    cases htarget : l.continueTo with
    | some t => exact leads_continue hL hloops htarget (.inr rfl) rfl rfl ih
    | none =>
      -- without a target the piece is not sound
      refine leads_last ih rfl (by simp [Site.parts, Site.actionParts, Context.site, hloops]) (by simp)
        (by simp) fun _ hsound _ => ?_
      have hfine := hsound.fine
      simp only [Site.Fine, Context.site, hloops, List.map_cons, List.head?_cons, Option.mem_def,
        Option.some.injEq, forall_eq'] at hfine
      have hopen := hfine.target rfl
      simp [htarget] at hopen
  | «while» h₁ h₂ hstop hlt ih₁ ih₂ => exact leads_while h₁ h₂ hstop hlt ih₁ ih₂
  | «for» _ h₁ h₂ h₃ hstart hnext hstop hlt hsome hbrk hcont ih₀ ih₁ ih₂ ih₃ =>
    exact leads_for h₁ h₂ h₃ hstart hnext hstop hlt hsome hbrk hcont ih₀ ih₁ ih₂ ih₃
  | exits hr hdepth h₁ h₂ hlt ih₁ ih₂ => exact leads_exits hr hdepth h₁ h₂ hlt ih₁ ih₂
  | tryCatch h₁ hbind h₂ hr hh hstop hlt ih₁ ih₂ =>
    exact leads_tryCatch hL h₁ hbind h₂ hr hh hstop hlt ih₁ ih₂
  | tryFinally h₁ h₂ hr hf hlt ih₁ ih₂ => exact leads_tryFinally h₁ h₂ hr hf hlt ih₁ ih₂
  | tryBoth h₁ hbind h₂ h₃ hr hr' hh hf hlt ih₁ ih₂ ih₃ =>
    exact leads_tryBoth hL h₁ hbind h₂ h₃ hr hr' hh hf hlt ih₁ ih₂ ih₃

/-! ## Whole blocks -/

/-- Control that stands at a spot may go on at a point of the code. -/
def Lands (R H : Prop) (code : List Point) (s : Spot) : Prop := ∃ p ∈ code, s.Meets R H p.spot

theorem lands_coarse (R H : Prop) (code : List Point) : Coarse R H (Lands R H code) := by
  rintro s t hst ⟨p, hp, htp⟩
  exact ⟨p, hp, hst.trans htp⟩

/-- Pieces that are a block of their own. -/
def Node.isBlock : Node → Bool
  | .body _ | .unit _ => true
  | _ => false

/-- The code of a block ends with an instruction that leaves it. -/
theorem Lays.final (h : Lays Γ n o code notes) (hn : n.isBlock = true) : Final code := by
  cases h with
  | bodyValue => exact ⟨_, by simp; rfl, .inl rfl⟩
  | bodyNull => exact ⟨_, by simp; rfl, .inr (.inl rfl)⟩
  | bodyReturn _ _ hlast hop =>
    rcases hop with hop | hop
    · exact ⟨_, hlast, .inl hop⟩
    · exact ⟨_, hlast, .inr (.inl hop)⟩
  | unit => exact ⟨_, by simp; rfl, .inr (.inr rfl)⟩
  | _ => cases hn

/-- The first point of a block. -/
theorem Lays.block_starts (h : Lays .top n 0 code notes) (hn : n.isBlock = true) :
    ∃ p ∈ code, p.spot = ⟨0, [], 0, .nothing⟩ := by
  have hne : code ≠ [] := by
    rintro rfl
    rcases h.final hn with ⟨p, hp, -⟩
    cases hp
  exact h.starts.lands (L := fun s => ∃ p ∈ code, p.spot = s) hne fun p hp => ⟨p, hp, rfl⟩

/-- In a block whose pieces are sound, every way leads to a point of the block. -/
theorem Lays.flows_block (h : Lays .top n o code notes) (hn : n.isBlock = true)
    (hsound : Site.Sound R H .top n) : ∀ p ∈ code, p.Flows (Lands R H code) := by
  refine h.flows (lands_coarse R H code) Context.nested_top hsound ⟨?_, ?_, ?_, ?_, ?_⟩
  · exact fun p hp => ⟨p, hp, .refl R H _⟩
  · exact fun _ hfinal => (hfinal (h.final hn)).elim
  all_goals
    intro l hl
    cases hl

end

/-! ## Operands below an instruction -/

theorem Emitted.takes_le_row {tail : List Emitted} {k m base height o : Nat} {u : Setup} {rs : List Region}
    (h : Emitted.Enough tail k m) (hheight : height = base + k) :
    ∀ p ∈ rowFrom u rs o height tail, base + p.item.takes ≤ p.height := by
  induction tail generalizing u o k height with
  | nil => simp [rowFrom]
  | cons i is ih =>
    intro p hp
    rcases List.mem_cons.mp hp with rfl | hp
    · have htakes := h.1
      dsimp only
      omega
    · exact ih h.2 (by rw [hheight, Emitted.after_add h.1]) p hp

/-- The operands of an instruction are above what lies below its piece. -/
theorem Lays.takes_le {Γ : Context} {n : Node} {o : Nat} {code : List Point} {notes : List Note}
    (h : Lays Γ n o code notes) : ∀ p ∈ code, Γ.height + p.item.takes ≤ p.height := by
  have raise : ∀ {Γ : Context} {k : Nat} {c : List Point},
      (∀ p ∈ c, (Γ.up k).height + p.item.takes ≤ p.height) →
        ∀ p ∈ c, Γ.height + p.item.takes ≤ p.height := by
    intro Γ k c ih p hp
    have hle : Γ.height + k + p.item.takes ≤ p.height := ih p hp
    omega
  have point : ∀ {Γ : Context} {o k : Nat} {op : Opcode} {xs : List Nat} {span : Span},
      Emitted.takes ⟨op, xs, span⟩ ≤ k →
        Γ.height + (Γ.point o k op xs span).item.takes ≤ (Γ.point o k op xs span).height :=
    fun htakes => Nat.add_le_add_left htakes _
  induction h with
  | noOperands | noStmts | noOptStmt | noTest | noUpdate | noExits => simp
  | expr _ ih | stmt _ ih | alternative _ ih | optStmt _ ih | block _ ih | tryNone _ ih => exact ih
  | bodyReturn _ _ _ _ ih => exact ih
  | strict _ _ htail ih =>
    exact List.forall_mem_append.mpr ⟨ih, Emitted.takes_le_row htail.enough rfl⟩
  | bind _ htail ih => exact List.forall_mem_append.mpr ⟨ih, Emitted.takes_le_row htail.enough rfl⟩
  | classDecl htail => exact Emitted.takes_le_row htail.enough rfl
  | operand _ _ ih₁ ih₂ => exact List.forall_mem_append.mpr ⟨ih₁, raise ih₂⟩
  | value _ _ ih₁ ih₂ | stmts _ _ ih₁ ih₂ => exact List.forall_mem_append.mpr ⟨ih₁, ih₂⟩
  | index _ ih₂ => exact List.forall_mem_cons.mpr ⟨point (Nat.le_refl _), raise ih₂⟩
  | noAlternative => exact List.forall_mem_singleton.mpr (point (Nat.le_refl _))
  | noValue _ _ ih | exprStmt _ ih | throw _ ih | update _ ih | bodyNull _ _ ih | unit _ ih | test _ _ ih =>
    exact List.forall_mem_append.mpr ⟨ih, List.forall_mem_singleton.mpr (point (Nat.le_refl _))⟩
  | retNull _ ih | brk _ _ ih | cont _ _ _ _ _ ih | contWait _ _ _ ih =>
    exact List.forall_mem_append.mpr ⟨ih, List.forall_mem_singleton.mpr (Nat.le_refl _)⟩
  | bodyValue _ _ ih₁ ih₂ =>
    simp only [List.forall_mem_append, List.forall_mem_singleton]
    exact ⟨ih₁, ih₂, point (Nat.le_refl _)⟩
  | ret _ _ ih₁ ih₂ =>
    simp only [List.forall_mem_append, List.forall_mem_singleton]
    exact ⟨ih₁, raise ih₂, Nat.le_refl _⟩
  | exits _ _ _ _ _ ih₁ ih₂ =>
    simp only [List.forall_mem_append, List.forall_mem_cons]
    exact ⟨point (Nat.le_refl _), ih₁, ih₂⟩
  | and _ _ _ _ ih₁ ih₂ =>
    simp only [List.forall_mem_append, List.forall_mem_cons]
    exact ⟨ih₁, point (Nat.le_refl _), point (Nat.le_succ _), point (Nat.le_refl _), ih₂⟩
  | or _ _ _ _ ih₁ ih₂ =>
    simp only [List.forall_mem_append, List.forall_mem_cons]
    exact ⟨ih₁, point (Nat.le_refl _), point (Nat.le_succ _), point (Nat.zero_le _), point (Nat.le_refl _),
      ih₂⟩
  | ternary _ _ _ _ _ _ ih₁ ih₂ ih₃ | cond _ _ _ _ _ _ ih₁ ih₂ ih₃ =>
    simp only [List.forall_mem_append, List.forall_mem_cons]
    exact ⟨ih₁, point (Nat.le_refl _), ih₂, point (Nat.zero_le _), ih₃⟩
  | «while» _ _ _ _ ih₁ ih₂ =>
    simp only [List.forall_mem_append, List.forall_mem_cons]
    exact ⟨ih₁, point (Nat.le_refl _), ih₂, point (Nat.le_refl _), by simp⟩
  | «for» _ _ _ _ _ _ _ _ _ _ _ ih₀ ih₁ ih₂ ih₃ =>
    simp only [List.forall_mem_append, List.forall_mem_singleton]
    exact ⟨ih₀, ih₁, ih₂, ih₃, point (Nat.le_refl _)⟩
  | tryCatch _ hbind _ _ _ _ _ ih₁ ih₂ =>
    simp only [List.forall_mem_append, List.forall_mem_cons]
    exact ⟨point (Nat.le_refl _), ih₁, Nat.le_refl _, Emitted.takes_le_row hbind.enough rfl, ih₂,
      point (Nat.le_refl _), by simp⟩
  | tryFinally _ _ _ _ _ ih₁ ih₂ =>
    simp only [List.forall_mem_append, List.forall_mem_cons]
    exact ⟨point (Nat.le_refl _), ih₁, Nat.le_refl _, point (Nat.le_refl _), point (Nat.zero_le _),
      raise ih₂, point (Nat.le_refl _), by simp⟩
  | tryBoth _ hbind _ _ _ _ _ _ _ ih₁ ih₂ ih₃ =>
    simp only [List.forall_mem_append, List.forall_mem_cons]
    exact ⟨point (Nat.le_refl _), ih₁, Nat.le_refl _, Emitted.takes_le_row hbind.enough rfl,
      point (Nat.le_refl _), ih₂, Nat.le_refl _, point (Nat.le_refl _), point (Nat.zero_le _),
      raise ih₃, point (Nat.le_refl _), by simp⟩

end ScriptMachine
