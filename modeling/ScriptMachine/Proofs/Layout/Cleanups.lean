import ScriptMachine.Proofs.Layout.Quiet

/-!
# Copies of finally bodies

The code of a block has several copies of a finally body. One stands at the end of its `try` statement
and serves both ways on which its region is left without a jump: when the protected part is run
through, and when a value is thrown in it. Each early exit through the region has a copy of its own.

* `Region.Kept` — what the code has for a region that is open at some point.
* `Point.Completes`, `Point.Exits` — the two kinds of instructions that leave a region.
* `Lays.guards` — in a layout there are no others, and nothing is missing.
-/

namespace ScriptMachine

open Point

/-! ## Copies and ways out -/

/-- The code of a finally body stands between two offsets, in the given regions and over the given
height. -/
def Copy (code : List Point) (F : Block) (rs : List Region) (height start stop : Nat) : Prop :=
  ∃ Γ c notes, Lays Γ (.stmts F.statements) start c notes ∧ c ⊆ code ∧ stop = start + size c ∧
    Γ.regions = rs ∧ Γ.height = height

/-- The copy at the end of a `try` statement. Control gets there with a value and the mark that it is
pending, or with nothing: then it pushes a null and the mark that nothing is pending. -/
structure Region.Shares (code : List Point) (r : Region) (rs : List Region) (F : Block)
    (final stop : Nat) : Prop where
  target : r.finallyTarget = some final
  null : ∃ p ∈ code, p.offset + 2 = final ∧ p.item.opcode = .null ∧ p.regions = rs ∧ p.height = r.height
  mark : ∃ p ∈ code, p.offset + 1 = final ∧ p.item.opcode = .pushFalse ∧ p.regions = rs ∧
    p.height = r.height + 1
  copy : Copy code F rs (r.height + 2) final stop
  rethrow : ∃ p ∈ code, p.offset = stop ∧ p.item.opcode = .rethrow ∧ p.regions = rs ∧
    p.height = r.height + 2

/-- A point that enters a region. -/
structure Point.Enters (p : Point) (r : Region) (rs : List Region) : Prop extends p.Opens r where
  opcode : p.item.opcode = .tryEnter
  regions : p.regions = rs

/-- The code inside a region starts right behind the instruction that enters it. -/
def Region.Starts (code : List Point) (r : Region) (rs : List Region) : Prop :=
  ∃ q ∈ code, q.spot = ⟨r.enter + 5, r :: rs, r.height, .nothing⟩

/-- What happens to a value that is caught: it is bound, and a second region is entered that has the
same finally body and catches nothing. -/
structure Region.Recovers (code : List Point) (r : Region) (rs : List Region) (handle : Nat)
    (r' : Region) : Prop where
  catches : r'.catchTarget = none
  cleans : r'.finallyTarget = r.finallyTarget
  cleanup : r'.cleanup = r.cleanup
  height : r'.height = r.height
  binds : ∃ bind, Binding bind ∧ row rs handle (r.height + 1) bind ⊆ code ∧
    r'.enter = handle + size (row rs handle (r.height + 1) bind)
  enters : ∃ p ∈ code, p.Enters r' rs
  starts : r'.Starts code rs

/-- The last instruction inside a region stands right before the code that catches, or before the two instructions
that come before the shared copy. -/
structure Point.Closes (p : Point) (r : Region) (rs : List Region) : Prop where
  regions : p.regions = r :: rs
  catches : ∀ t ∈ r.catchTarget, p.offset + 3 = t
  cleans : r.catchTarget = none → r.finallyTarget = some (p.offset + 5)

/-- What the code has for a region that is open somewhere, with the regions `rs` around it. -/
structure Region.Kept (code : List Point) (r : Region) (rs : List Region) : Prop where
  enters : ∃ p ∈ code, p.Enters r rs
  starts : r.Starts code rs
  closes : ∃ p ∈ code, p.Closes r rs
  shares : ∀ F ∈ r.cleanup, ∃ final stop, r.Shares code rs F final stop
  recovers : r.cleanup.isSome → ∀ t ∈ r.catchTarget, ∃ r', r.Recovers code rs t r'

/-- At the end of the protected part of a statement with a finally body, control goes on just before
the copy that is shared. -/
def Point.Completes (p : Point) : Prop :=
  ∃ r rs, p.regions = r :: rs ∧ (r.cleanup.isSome → r.finallyTarget = some (p.item.operand 0 + 2))

/-- Regions are left one after the other, innermost first, and behind each exit stands a copy of the
finally body of the region. -/
inductive WayOut (code : List Point) (height : Nat) : List Region → Nat → List Region → Nat → Prop where
  | done {rs o} : WayOut code height rs o rs o
  | leave {p : Point} {r rs m rs' stop} : p ∈ code → p.item.opcode = .finallyEnd →
    p.item.operand 0 = p.offset + 3 → p.regions = r :: rs → p.height = height →
    (r.cleanup = none → m = p.offset + 3) →
    (∀ F ∈ r.cleanup, Copy code F rs height (p.offset + 3) m) →
    WayOut code height rs m rs' stop → WayOut code height (r :: rs) p.offset rs' stop

/-- A point on the way out of all regions that the statement `s` leaves; the way ends at the last
instruction of the statement. -/
structure Point.Exits (code : List Point) (p : Point) (s : Stmt) (last : Point) : Prop where
  statement : ∃ Γ o c notes, Lays Γ (.action s) o c notes ∧ c ⊆ code ∧ p ∈ c ∧ c.getLast? = some last
  isExit : (Node.action s).isExit = true
  way : WayOut code p.height p.regions p.offset last.regions last.offset
  height : last.height = p.height
  opcode : last.item.opcode = .returnValue ∨ last.item.opcode = .returnNull ∨ last.item.opcode = .jump

/-- A point that leaves a region for good. -/
def Point.Ends (code : List Point) (p : Point) : Prop := p.Completes ∨ ∃ s last, p.Exits code s last

/-! ## More code -/

section

variable {code code' c : List Point} {r : Region} {rs : List Region} {F : Block} {p : Point}

theorem Copy.mono {height start stop : Nat} (h : Copy c F rs height start stop) (hsub : c ⊆ code) :
    Copy code F rs height start stop := by
  obtain ⟨Γ, d, notes, hlays, hd, hrest⟩ := h
  exact ⟨Γ, d, notes, hlays, fun _ hp => hsub (hd hp), hrest⟩

theorem Region.Shares.mono {final stop : Nat} (h : r.Shares c rs F final stop) (hsub : c ⊆ code) :
    r.Shares code rs F final stop where
  target := h.target
  null := h.null.imp fun _ hp => ⟨hsub hp.1, hp.2⟩
  mark := h.mark.imp fun _ hp => ⟨hsub hp.1, hp.2⟩
  copy := h.copy.mono hsub
  rethrow := h.rethrow.imp fun _ hp => ⟨hsub hp.1, hp.2⟩

theorem Region.Recovers.mono {t : Nat} {r' : Region} (h : r.Recovers c rs t r') (hsub : c ⊆ code) :
    r.Recovers code rs t r' :=
  { h with
    binds := h.binds.imp fun _ hb => ⟨hb.1, fun _ hp => hsub (hb.2.1 hp), hb.2.2⟩
    enters := h.enters.imp fun _ hp => ⟨hsub hp.1, hp.2⟩
    starts := h.starts.imp fun _ hp => ⟨hsub hp.1, hp.2⟩ }

theorem Region.Kept.mono (h : r.Kept c rs) (hsub : c ⊆ code) : r.Kept code rs where
  enters := h.enters.imp fun _ hp => ⟨hsub hp.1, hp.2⟩
  starts := h.starts.imp fun _ hp => ⟨hsub hp.1, hp.2⟩
  closes := h.closes.imp fun _ hp => ⟨hsub hp.1, hp.2⟩
  shares F hF := (h.shares F hF).imp fun _ hs => hs.imp fun _ hs => hs.mono hsub
  recovers hF t ht := (h.recovers hF t ht).imp fun _ hr => hr.mono hsub

theorem WayOut.mono {height o stop : Nat} {rs' : List Region} (h : WayOut c height rs o rs' stop)
    (hsub : c ⊆ code) : WayOut code height rs o rs' stop := by
  induction h with
  | done => exact .done
  | leave hp hop hoperand hregions hheight hnone hcopy _ ih =>
    exact .leave (hsub hp) hop hoperand hregions hheight hnone (fun F hF => (hcopy F hF).mono hsub) ih

theorem Point.Exits.mono {s : Stmt} {last : Point} (h : p.Exits c s last) (hsub : c ⊆ code) :
    p.Exits code s last :=
  { h with
    statement := by
      obtain ⟨Γ, o, d, notes, hlays, hd, hmem, hlast⟩ := h.statement
      exact ⟨Γ, o, d, notes, hlays, fun _ hq => hsub (hd hq), hmem, hlast⟩
    way := h.way.mono hsub }

theorem Point.Ends.mono (h : p.Ends c) (hsub : c ⊆ code) : p.Ends code :=
  h.imp_right fun ⟨s, last, hexit⟩ => ⟨s, last, hexit.mono hsub⟩

end

/-! ## Layouts -/

section

variable {Γ Γ' : Context} {n k : Node} {o stop stop' : Nat} {code c : List Point} {notes : List Note}
  {p : Point} {r : Region}

theorem Point.of_mem_rowFrom {u : Setup} {rs : List Region} {height : Nat} {tail : List Emitted}
    (h : p ∈ rowFrom u rs o height tail) : p.regions = rs ∧ p.item ∈ tail := by
  induction tail generalizing u o height with
  | nil => cases h
  | cons i is ih =>
    rcases List.mem_cons.mp h with rfl | h
    · exact ⟨rfl, List.mem_cons_self⟩
    · exact ⟨(ih h).1, List.mem_cons_of_mem _ (ih h).2⟩

/-- What the code has for a point of a piece: for each region that is opened in the piece, and for an
instruction that leaves one. -/
structure Point.Guarded (Γ : Context) (n : Node) (stop : Nat) (code : List Point) (p : Point) :
    Prop where
  regions : ∀ r rs, r :: rs <:+ p.regions → r :: rs <:+ Γ.regions ∨ r.Kept code rs
  ends : p.item.opcode = .finallyEnd → p.Ends code ∨
    ∃ depth span, n = .exits depth span ∧ p.height = Γ.height ∧
      WayOut code Γ.height p.regions p.offset (Γ.exitTo depth).regions stop

/-- A point in the regions of the piece itself. -/
theorem Point.guarded_of_regions (h : p.regions <:+ Γ.regions) (hop : p.item.opcode ≠ .finallyEnd) :
    p.Guarded Γ n stop code :=
  ⟨fun _ _ hr => .inl (hr.trans h), fun hend => (hop hend).elim⟩

theorem Point.guarded_point {o' k : Nat} {op : Opcode} {xs : List Nat} {span : Span}
    (hop : op ≠ .finallyEnd) : (Γ.point o' k op xs span).Guarded Γ n stop code :=
  guarded_of_regions (List.suffix_refl _) hop

/-- The last instruction of a statement that leaves regions. -/
theorem Point.guarded_exitTo {depth : Nat} (h : p.regions = (Γ.exitTo depth).regions)
    (hop : p.item.opcode ≠ .finallyEnd) : p.Guarded Γ n stop code :=
  guarded_of_regions (h ▸ List.drop_suffix _ _) hop

theorem Point.guarded_row {u : Setup} {height : Nat} {tail : List Emitted}
    (hplain : ∀ i ∈ tail, i.opcode.isPlain = true) :
    ∀ p ∈ rowFrom u Γ.regions o height tail, p.Guarded Γ n stop code := by
  intro p hp
  obtain ⟨hregions, hitem⟩ := of_mem_rowFrom hp
  refine guarded_of_regions (hregions ▸ List.suffix_refl _) fun hend => ?_
  have hop := hplain _ hitem
  rw [hend] at hop
  cases hop

/-- A part of a piece. -/
theorem Point.Guarded.part (h : p.Guarded Γ' k stop' c) (hsub : c ⊆ code)
    (hk : ∀ depth span, k ≠ .exits depth span)
    (hΓ : ∀ r rs, r :: rs <:+ Γ'.regions → r :: rs <:+ Γ.regions ∨ r.Kept code rs) :
    p.Guarded Γ n stop code := by
  refine ⟨fun r rs hr => ?_, fun hop => .inl ?_⟩
  · rcases h.regions r rs hr with hr | hkept
    · exact hΓ r rs hr
    · exact .inr (hkept.mono hsub)
  · rcases h.ends hop with hend | ⟨depth, span, heq, -⟩
    · exact hend.mono hsub
    · exact (hk depth span heq).elim

/-- A part in no more regions. -/
theorem Point.Guarded.sub (h : ∀ p ∈ c, p.Guarded Γ' k stop' c) (hsub : c ⊆ code)
    (hΓ : Γ'.regions <:+ Γ.regions) (hk : ∀ depth span, k ≠ .exits depth span) :
    ∀ p ∈ c, p.Guarded Γ n stop code :=
  fun p hp => (h p hp).part hsub hk fun _ _ hr => .inl (hr.trans hΓ)

/-- A part inside one more region. -/
theorem Point.Guarded.enter (h : ∀ p ∈ c, p.Guarded (Γ.enter r) k stop' c) (hsub : c ⊆ code)
    (hkept : r.Kept code Γ.regions) (hk : ∀ depth span, k ≠ .exits depth span) :
    ∀ p ∈ c, p.Guarded Γ n stop code := by
  refine fun p hp => (h p hp).part hsub hk fun r' rs hr => ?_
  rcases List.suffix_cons_iff.mp hr with heq | hr
  · cases heq
    exact .inr hkept
  · exact .inl hr

/-- The way out that a statement takes. -/
theorem Point.Guarded.exits (last : Point) {s : Stmt} {depth : Nat} {span : Span}
    (h : ∀ p ∈ c, p.Guarded Γ' (.exits depth span) last.offset c)
    (hlays : Lays Γ (.action s) o code notes) (hexit : (Node.action s).isExit = true) (hsub : c ⊆ code)
    (hlast : code.getLast? = some last) (hΓ : Γ'.regions = Γ.regions)
    (hregions : last.regions = (Γ'.exitTo depth).regions) (hheight : last.height = Γ'.height)
    (hop : last.item.opcode = .returnValue ∨ last.item.opcode = .returnNull ∨ last.item.opcode = .jump) :
    ∀ p ∈ c, p.Guarded Γ (.action s) stop code := by
  intro p hp
  refine ⟨fun r rs hr => ?_, fun hend => .inl ?_⟩
  · rw [← hΓ]
    exact ((h p hp).regions r rs hr).imp_right fun hkept => hkept.mono hsub
  · rcases (h p hp).ends hend with hends | ⟨depth, span, heq, hheight', hway⟩
    · exact hends.mono hsub
    · cases heq
      refine .inr ⟨s, last, ⟨⟨Γ, o, code, notes, hlays, fun _ hq => hq, hsub hp, hlast⟩, hexit, ?_, ?_, hop⟩⟩
      · rw [hheight', hregions]
        exact hway.mono hsub
      · rw [hheight, hheight']

theorem Context.exitTo_leave {rs : List Region} {depth : Nat} (hr : Γ.regions = r :: rs)
    (hdepth : depth ≤ rs.length) : (Γ.exitTo depth).regions = ((Γ.leave rs).exitTo depth).regions := by
  simp only [Context.exitTo, Context.leave, hr, List.length_cons]
  rw [show rs.length + 1 - depth = (rs.length - depth) + 1 by omega, List.drop_succ_cons]

/-- The code of a way out. -/
theorem Lays.wayOut {depth : Nat} {span : Span} (h : Lays Γ (.exits depth span) o code notes) :
    WayOut code Γ.height Γ.regions o (Γ.exitTo depth).regions (o + size code) := by
  generalize hn : Node.exits depth span = n at h
  induction h with
  | @noExits Γ o depth' span' hle =>
    cases hn
    simp only [Context.exitTo, Nat.sub_eq_zero_of_le hle, List.drop_zero]
    exact .done
  | @exits Γ o depth' span' r rs c₁ c₂ n₁ n₂ hr hdepth h₁ _ hlt _ ih₂ =>
    cases hn
    have hto := Context.exitTo_leave hr hdepth
    have hrest := (ih₂ rfl).mono (show c₂ ⊆ Γ.point o 0 .finallyEnd [o + 3] span :: (c₁ ++ c₂) from
      fun q hq => by simp [hq])
    rw [hr, hto]
    refine .leave (p := Γ.point o 0 .finallyEnd [o + 3] span) (m := o + 3 + size c₁) List.mem_cons_self
      rfl (Emitted.operand_target rfl hlt) hr rfl (fun hnone => ?_) (fun F hF => ?_) ?_
    · have hnil : c₁ = [] := by
        rw [hnone] at h₁
        exact h₁.stmts_nil
      rw [hnil]
      rfl
    · rw [Option.mem_def.mp hF] at h₁
      exact ⟨_, c₁, n₁, h₁, fun q hq => by simp [hq], rfl, rfl, rfl⟩
    · rw [show o + size (Γ.point o 0 .finallyEnd [o + 3] span :: (c₁ ++ c₂)) =
        o + 3 + size c₁ + size c₂ by simp [Opcode.lengths]; omega]
      exact hrest
  | _ => cases hn

/-! ## Statements with protected regions -/

/-- A region is entered with the targets it has. -/
theorem Point.enters_tryEnter {r : Region} {x y : Nat} {span : Span} (hx : x ≤ Opcode.noTarget)
    (hy : y ≤ Opcode.noTarget)
    (hr : r = ⟨o, Handler.target? x, Handler.target? y, Γ.height, r.cleanup⟩) :
    (Γ.point o 0 .tryEnter [x, y] span).Enters r Γ.regions := by
  obtain ⟨h₀, h₁⟩ := target?_operand span hx hy
  rw [hr]
  exact ⟨⟨rfl, h₀.symm, h₁.symm, rfl⟩, rfl, rfl⟩

/-- The copy at the end of a statement with a finally body. -/
theorem Region.shares_of_lays {F : Block} {final : Nat} {span : Span} {notes' : List Note}
    (htarget : r.finallyTarget = some final) (hheight : r.height = Γ.height) (hfinal : 2 ≤ final)
    (h : Lays (Γ.up 2) (.stmts F.statements) final c notes')
    (hsub : Γ.point (final - 2) 0 .null [] span :: Γ.point (final - 1) 1 .pushFalse [] span
      :: (c ++ [Γ.point (final + size c) 2 .rethrow [] span]) ⊆ code) :
    r.Shares code Γ.regions F final (final + size c) where
  target := htarget
  null := ⟨_, hsub (by simp; left; rfl), by simp [Context.point]; omega, rfl, rfl, hheight.symm⟩
  mark := ⟨Γ.point (final - 1) 1 .pushFalse [] span, hsub (by simp), by simp [Context.point]; omega, rfl, rfl, by rw [hheight]; rfl⟩
  copy := ⟨Γ.up 2, c, notes', h, fun q hq => hsub (by simp [hq]), rfl, rfl, by rw [hheight]; rfl⟩
  rethrow := ⟨Γ.point (final + size c) 2 .rethrow [] span, hsub (by simp), rfl, rfl, rfl, by rw [hheight]; rfl⟩

theorem Point.completes_of_regions {rs : List Region} (hregions : p.regions = r :: rs)
    (h : r.cleanup.isSome → r.finallyTarget = some (p.item.operand 0 + 2)) : p.Completes :=
  ⟨r, rs, hregions, h⟩

/-- The last instruction of a protected part. -/
theorem Point.guarded_completes {k : Nat} {t : Nat} {span : Span} (ht : t < Opcode.noTarget)
    (hkept : r.Kept code Γ.regions) (h : r.cleanup.isSome → r.finallyTarget = some (t + 2)) :
    ((Γ.enter r).point o k .finallyEnd [t] span).Guarded Γ n stop code := by
  refine ⟨fun r' rs hr => ?_, fun _ => .inl (.inl ⟨r, Γ.regions, rfl, ?_⟩)⟩
  · rcases List.suffix_cons_iff.mp hr with heq | hr
    · cases heq
      exact .inr hkept
    · exact .inl hr
  · rw [Context.point_item, Emitted.operand_target rfl ht]
    exact h

/-- A way out. -/
theorem guards_exits {depth : Nat} {span : Span} {rs : List Region} {c₁ c₂ : List Point} {n₁ n₂ : List Note}
    (hr : Γ.regions = r :: rs) (hdepth : depth ≤ rs.length)
    (h₁ : Lays (Γ.leave rs) (.stmts (r.cleanup.elim [] Block.statements)) (o + 3) c₁ n₁)
    (h₂ : Lays (Γ.leave rs) (.exits depth span) (o + 3 + size c₁) c₂ n₂) (hlt : o + 3 < Opcode.noTarget)
    (ih₁ : ∀ p ∈ c₁, p.Guarded (Γ.leave rs) (.stmts (r.cleanup.elim [] Block.statements))
      (o + 3 + size c₁) c₁)
    (ih₂ : ∀ p ∈ c₂, p.Guarded (Γ.leave rs) (.exits depth span) (o + 3 + size c₁ + size c₂) c₂) :
    ∀ p ∈ Γ.point o 0 .finallyEnd [o + 3] span :: (c₁ ++ c₂), p.Guarded Γ (.exits depth span)
      (o + size (Γ.point o 0 .finallyEnd [o + 3] span :: (c₁ ++ c₂)))
      (Γ.point o 0 .finallyEnd [o + 3] span :: (c₁ ++ c₂)) := by
  have hway := (Lays.exits hr hdepth h₁ h₂ hlt).wayOut
  have hsuffix : rs <:+ Γ.regions := hr ▸ List.suffix_cons r rs
  have hstop : o + size (Γ.point o 0 .finallyEnd [o + 3] span :: (c₁ ++ c₂)) =
      o + 3 + size c₁ + size c₂ := by
    simp [Opcode.lengths]
    omega
  simp only [List.forall_mem_append, List.forall_mem_cons]
  refine ⟨⟨fun _ _ hrs => .inl hrs, fun _ => .inr ⟨depth, span, rfl, rfl, hway⟩⟩, ?_, ?_⟩
  · exact Guarded.sub ih₁ (fun q hq => by simp [hq]) hsuffix (by simp)
  · intro p hp
    have hsub : c₂ ⊆ Γ.point o 0 .finallyEnd [o + 3] span :: (c₁ ++ c₂) := fun q hq => by simp [hq]
    refine ⟨fun r' rs' hrs => ?_, fun hend => ?_⟩
    · exact ((ih₂ p hp).regions r' rs' hrs).imp (fun hrs => hrs.trans hsuffix) fun hkept => hkept.mono hsub
    · rcases (ih₂ p hp).ends hend with hends | ⟨depth', span', heq, hheight, hrest⟩
      · exact .inl (hends.mono hsub)
      · cases heq
        refine .inr ⟨depth, span, rfl, hheight, ?_⟩
        rw [Context.exitTo_leave hr hdepth, hstop]
        exact hrest.mono hsub

/-- Inside a region stands the code of its body, and at least the instruction that leaves it. -/
theorem Region.starts_of_lays {ss : List Stmt} {notes : List Note} (h : Lays (Γ.enter r) (.stmts ss) (o + 5) c notes) (henter : r.enter = o) (hheight : r.height = Γ.height)
    (hsub : c ⊆ code) (hend : ∃ q ∈ code, q.spot = (Γ.enter r).spot (o + 5 + size c) 0) :
    r.Starts code Γ.regions := by
  have hspot : (Γ.enter r).spot (o + 5) 0 = ⟨r.enter + 5, r :: Γ.regions, r.height, .nothing⟩ := by
    rw [henter, hheight]
    rfl
  rw [Region.Starts, ← hspot]
  rcases h.starts with ⟨rfl, -⟩ | ⟨p, rest, rfl, hp⟩
  · exact hend
  · exact ⟨p, hsub List.mem_cons_self, hp⟩

/-- A statement that catches, without a finally body. -/
theorem guards_tryCatch {body handler : List Stmt} {s s' span : Span} {param : Option Ident}
    {c₁ c₂ : List Point} {n₁ : List Note} {bind : List Emitted} {handle t : Nat}
    (h₁ : Lays (Γ.enter r) (.stmts body) (o + 5) c₁ n₁) (hbind : Binding bind)
    (hr : r = ⟨o, some handle, none, Γ.height, none⟩) (hh : handle = o + 5 + size c₁ + 3) (ht : handle ≤ t)
    (hlt : t < Opcode.noTarget)
    (ih₁ : ∀ p ∈ c₁, p.Guarded (Γ.enter r) (.stmts body) (o + 5 + size c₁) c₁)
    (ih₂ : ∀ p ∈ c₂, p.Guarded Γ (.stmts handler) stop' c₂)
    (hcode : code = Γ.point o 0 .tryEnter [handle, Opcode.noTarget] span
      :: (c₁ ++ (Γ.enter r).point (o + 5 + size c₁) 0 .finallyEnd [t] span
      :: (row Γ.regions handle (Γ.height + 1) bind ++ (c₂ ++ [Γ.point (t - 3) 0 .jump [t] span])))) :
    ∀ p ∈ code, p.Guarded Γ (.action (.tryCatch ⟨body, s⟩ (some ⟨param, ⟨handler, s'⟩⟩) none span)) stop
      code := by
  have hcleanup : r.cleanup = none := by rw [hr]
  have hkept : r.Kept code Γ.regions := by
    have henters : (Γ.point o 0 .tryEnter [handle, Opcode.noTarget] span).Enters r Γ.regions := by
      refine enters_tryEnter (by omega) (Nat.le_refl _) ?_
      rw [hr, Handler.target?_of_lt (by omega), Handler.target?_noTarget]
    have hstarts : r.Starts code Γ.regions :=
      Region.starts_of_lays h₁ (by rw [hr]) (by rw [hr]) (fun q hq => by simp [hcode, hq])
        ⟨(Γ.enter r).point (o + 5 + size c₁) 0 .finallyEnd [t] span, by simp [hcode], rfl⟩
    have hcloses : ((Γ.enter r).point (o + 5 + size c₁) 0 .finallyEnd [t] span).Closes r Γ.regions :=
      ⟨rfl, by rw [hr]; rintro _ ⟨⟩; exact hh.symm, by simp [hr]⟩
    exact ⟨⟨_, by simp [hcode], henters⟩, hstarts, ⟨_, by simp [hcode], hcloses⟩, by simp [hcleanup],
      by simp [hcleanup]⟩
  intro p hp
  rw [hcode, List.mem_cons, List.mem_append, List.mem_cons, List.mem_append, List.mem_append,
    List.mem_singleton] at hp
  rcases hp with rfl | hp | rfl | hp | hp | rfl
  · exact guarded_point (by simp)
  · exact Guarded.enter ih₁ (fun q hq => by simp [hcode, hq]) hkept (by simp) p hp
  · exact guarded_completes hlt hkept (by simp [hcleanup])
  · exact guarded_row hbind.plain p hp
  · exact Guarded.sub ih₂ (fun q hq => by simp [hcode, hq]) (List.suffix_refl _) (by simp) p hp
  · exact guarded_point (by simp)

/-- The shared copy and what leads to it. -/
def Context.ending (Γ : Context) (final : Nat) (c : List Point) (span : Span) : List Point :=
  Γ.point (final - 2) 0 .null [] span :: Γ.point (final - 1) 1 .pushFalse [] span
    :: (c ++ [Γ.point (final + size c) 2 .rethrow [] span])

theorem guards_ending {F : Block} {final : Nat} {span : Span}
    (ih : ∀ p ∈ c, p.Guarded (Γ.up 2) (.stmts F.statements) stop' c)
    (hsub : Γ.ending final c span ⊆ code) : ∀ p ∈ Γ.ending final c span, p.Guarded Γ n stop code := by
  intro p hp
  rw [Context.ending, List.mem_cons, List.mem_cons, List.mem_append, List.mem_singleton] at hp
  rcases hp with rfl | rfl | hp | rfl
  · exact guarded_point (by simp)
  · exact guarded_point (by simp)
  · have hc : c ⊆ code := fun q hq => hsub (by simp [Context.ending, hq])
    exact (ih p hp).part hc (by simp) fun _ _ hr => .inl hr
  · exact guarded_point (by simp)

/-- A statement with a finally body that does not catch. -/
theorem guards_tryFinally {body : List Stmt} {F : Block} {s span : Span} {c₁ c₂ : List Point}
    {n₁ n₂ : List Note} {final : Nat} (h₁ : Lays (Γ.enter r) (.stmts body) (o + 5) c₁ n₁) (h₂ : Lays (Γ.up 2) (.stmts F.statements) final c₂ n₂)
    (hr : r = ⟨o, none, some final, Γ.height, some F⟩) (hf : final = o + 5 + size c₁ + 3 + 2)
    (hlt : final < Opcode.noTarget)
    (ih₁ : ∀ p ∈ c₁, p.Guarded (Γ.enter r) (.stmts body) (o + 5 + size c₁) c₁)
    (ih₂ : ∀ p ∈ c₂, p.Guarded (Γ.up 2) (.stmts F.statements) stop' c₂)
    (hcode : code = Γ.point o 0 .tryEnter [Opcode.noTarget, final] span
      :: (c₁ ++ (Γ.enter r).point (o + 5 + size c₁) 0 .finallyEnd [final - 2] span
      :: Γ.ending final c₂ span)) :
    ∀ p ∈ code, p.Guarded Γ (.action (.tryCatch ⟨body, s⟩ none (some F) span)) stop code := by
  have hend : Γ.ending final c₂ span ⊆ code := fun q hq => by simp [hcode, hq]
  have hkept : r.Kept code Γ.regions := by
    have henters : (Γ.point o 0 .tryEnter [Opcode.noTarget, final] span).Enters r Γ.regions := by
      refine enters_tryEnter (Nat.le_refl _) (by omega) ?_
      rw [hr, Handler.target?_of_lt hlt, Handler.target?_noTarget]
    have hstarts : r.Starts code Γ.regions :=
      Region.starts_of_lays h₁ (by rw [hr]) (by rw [hr]) (fun q hq => by simp [hcode, hq])
        ⟨(Γ.enter r).point (o + 5 + size c₁) 0 .finallyEnd [final - 2] span, by simp [hcode], rfl⟩
    have hcloses : ((Γ.enter r).point (o + 5 + size c₁) 0 .finallyEnd [final - 2] span).Closes r Γ.regions :=
      ⟨rfl, by simp [hr], fun _ => by rw [hr]; exact congrArg some hf⟩
    refine ⟨⟨_, by simp [hcode], henters⟩, hstarts, ⟨_, by simp [hcode], hcloses⟩, ?_, by simp [hr]⟩
    rw [hr]
    rintro F ⟨⟩
    exact ⟨final, _, Region.shares_of_lays rfl rfl (by omega) h₂ hend⟩
  intro p hp
  rw [hcode, List.mem_cons, List.mem_append, List.mem_cons] at hp
  rcases hp with rfl | hp | rfl | hp
  · exact guarded_point (by simp)
  · exact Guarded.enter ih₁ (fun q hq => by simp [hcode, hq]) hkept (by simp) p hp
  · exact guarded_completes (by omega) hkept (by rw [hr]; intro _; simp; omega)
  · exact guards_ending ih₂ hend p hp

/-- A statement with a finally body that catches. -/
theorem guards_tryBoth {body handler : List Stmt} {F : Block} {s s' span : Span} {param : Option Ident}
    {c₁ c₂ c₃ : List Point} {n₁ n₂ n₃ : List Note} {bind : List Emitted} {r' : Region} {handle final : Nat}
    (h₁ : Lays (Γ.enter r) (.stmts body) (o + 5) c₁ n₁) (hbind : Binding bind)
    (h₂ : Lays (Γ.enter r') (.stmts handler) (r'.enter + 5) c₂ n₂) (h₃ : Lays (Γ.up 2) (.stmts F.statements) final c₃ n₃)
    (hr : r = ⟨o, some handle, some final, Γ.height, some F⟩)
    (hr' : r' = ⟨handle + size (row Γ.regions handle (Γ.height + 1) bind), none, some final, Γ.height,
      some F⟩)
    (hh : handle = o + 5 + size c₁ + 3) (hf : final = r'.enter + 5 + size c₂ + 3 + 2) (hle : handle ≤ final)
    (hlt : final < Opcode.noTarget)
    (ih₁ : ∀ p ∈ c₁, p.Guarded (Γ.enter r) (.stmts body) (o + 5 + size c₁) c₁)
    (ih₂ : ∀ p ∈ c₂, p.Guarded (Γ.enter r') (.stmts handler) (r'.enter + 5 + size c₂) c₂)
    (ih₃ : ∀ p ∈ c₃, p.Guarded (Γ.up 2) (.stmts F.statements) stop' c₃)
    (hcode : code = Γ.point o 0 .tryEnter [handle, final] span
      :: (c₁ ++ (Γ.enter r).point (o + 5 + size c₁) 0 .finallyEnd [final - 2] span
      :: (row Γ.regions handle (Γ.height + 1) bind
      ++ Γ.point r'.enter 0 .tryEnter [Opcode.noTarget, final] span
      :: (c₂ ++ (Γ.enter r').point (r'.enter + 5 + size c₂) 0 .finallyEnd [final - 2] span
      :: Γ.ending final c₃ span)))) :
    ∀ p ∈ code, p.Guarded Γ (.action (.tryCatch ⟨body, s⟩ (some ⟨param, ⟨handler, s'⟩⟩) (some F) span))
      stop code := by
  have hend : Γ.ending final c₃ span ⊆ code := fun q hq => by simp [hcode, hq]
  have hshares : ∀ q : Region, q.finallyTarget = some final → q.height = Γ.height →
      q.Shares code Γ.regions F final (final + size c₃) := fun q htarget hheight =>
    Region.shares_of_lays htarget hheight (by omega) h₃ hend
  have henters' : (Γ.point r'.enter 0 .tryEnter [Opcode.noTarget, final] span).Enters r' Γ.regions := by
    refine enters_tryEnter (Nat.le_refl _) (by omega) ?_
    rw [hr', Handler.target?_of_lt hlt, Handler.target?_noTarget]
  have hmem' : Γ.point r'.enter 0 .tryEnter [Opcode.noTarget, final] span ∈ code := by simp [hcode]
  have hstarts' : r'.Starts code Γ.regions :=
    Region.starts_of_lays h₂ rfl (by rw [hr']) (fun q hq => by simp [hcode, hq])
      ⟨(Γ.enter r').point (r'.enter + 5 + size c₂) 0 .finallyEnd [final - 2] span, by simp [hcode], rfl⟩
  have hkept' : r'.Kept code Γ.regions := by
    have hcloses : ((Γ.enter r').point (r'.enter + 5 + size c₂) 0 .finallyEnd [final - 2] span).Closes r'
        Γ.regions := ⟨rfl, by simp [hr'], fun _ => by rw [hr'] at hf ⊢; exact congrArg some hf⟩
    refine ⟨⟨_, hmem', henters'⟩, hstarts', ⟨_, by simp [hcode], hcloses⟩, ?_, by simp [hr']⟩
    intro G hG
    rw [hr'] at hG
    cases hG
    exact ⟨final, _, hshares r' (by rw [hr']) (by rw [hr'])⟩
  have hrow : row Γ.regions handle (Γ.height + 1) bind ⊆ code := fun q hq => by simp [hcode, hq]
  have hrecovers : r.Recovers code Γ.regions handle r' := by
    refine ⟨by rw [hr'], by rw [hr, hr'], by rw [hr, hr'], by rw [hr, hr'], ⟨bind, hbind, ?_, ?_⟩,
      ⟨_, hmem', henters'⟩, hstarts'⟩
    · rw [hr]
      exact hrow
    · rw [hr', hr]
  have hkept : r.Kept code Γ.regions := by
    have henters : (Γ.point o 0 .tryEnter [handle, final] span).Enters r Γ.regions := by
      refine enters_tryEnter (by omega) (by omega) ?_
      rw [hr, Handler.target?_of_lt hlt, Handler.target?_of_lt (by omega)]
    have hstarts : r.Starts code Γ.regions :=
      Region.starts_of_lays h₁ (by rw [hr]) (by rw [hr]) (fun q hq => by simp [hcode, hq])
        ⟨(Γ.enter r).point (o + 5 + size c₁) 0 .finallyEnd [final - 2] span, by simp [hcode], rfl⟩
    have hcloses : ((Γ.enter r).point (o + 5 + size c₁) 0 .finallyEnd [final - 2] span).Closes r Γ.regions :=
      ⟨rfl, by rw [hr]; rintro _ ⟨⟩; exact hh.symm, by simp [hr]⟩
    refine ⟨⟨_, by simp [hcode], henters⟩, hstarts, ⟨_, by simp [hcode], hcloses⟩, ?_, ?_⟩
    · intro G hG
      rw [hr] at hG
      cases hG
      exact ⟨final, _, hshares r (by rw [hr]) (by rw [hr])⟩
    · intro _ t ht
      rw [hr] at ht
      cases ht
      exact ⟨r', hrecovers⟩
  intro p hp
  rw [hcode, List.mem_cons, List.mem_append, List.mem_cons, List.mem_append, List.mem_cons,
    List.mem_append, List.mem_cons] at hp
  rcases hp with rfl | hp | rfl | hp | rfl | hp | rfl | hp
  · exact guarded_point (by simp)
  · exact Guarded.enter ih₁ (fun q hq => by simp [hcode, hq]) hkept (by simp) p hp
  · exact guarded_completes (by omega) hkept (by rw [hr]; intro _; simp; omega)
  · exact guarded_row hbind.plain p hp
  · exact guarded_point (by simp)
  · exact Guarded.enter ih₂ (fun q hq => by simp [hcode, hq]) hkept' (by simp) p hp
  · exact guarded_completes (by omega) hkept' (by rw [hr']; intro _; simp; omega)
  · exact guards_ending ih₃ hend p hp

/-! ## The induction -/

/-- What the code of a piece has for its points. -/
theorem Lays.guards (h : Lays Γ n o code notes) : ∀ p ∈ code, p.Guarded Γ n (o + size code) code := by
  have hself := h
  induction h with
  | noOperands | noStmts | noOptStmt | noTest | noUpdate | noExits => simp
  | expr h₁ ih | stmt h₁ ih | alternative h₁ ih | optStmt h₁ ih | block h₁ ih | tryNone h₁ ih =>
    exact Guarded.sub (ih h₁) (List.Subset.refl _) (List.suffix_refl _) (by simp)
  | bodyReturn _ h₁ _ _ ih => exact Guarded.sub (ih h₁) (List.Subset.refl _) (List.suffix_refl _) (by simp)
  | strict _ h₁ htail ih | bind h₁ htail ih =>
    exact List.forall_mem_append.mpr ⟨Guarded.sub (ih h₁) (by simp) (List.suffix_refl _) (by simp),
      guarded_row htail.plain⟩
  | classDecl htail => exact guarded_row htail.plain
  | operand h₁ h₂ ih₁ ih₂ | value h₁ h₂ ih₁ ih₂ | stmts h₁ h₂ ih₁ ih₂ =>
    exact List.forall_mem_append.mpr ⟨Guarded.sub (ih₁ h₁) (by simp) (List.suffix_refl _) (by simp),
      Guarded.sub (ih₂ h₂) (by simp) (List.suffix_refl _) (by simp)⟩
  | index h₂ ih₂ =>
    exact List.forall_mem_cons.mpr ⟨guarded_point (by simp),
      Guarded.sub (ih₂ h₂) (by simp) (List.suffix_refl _) (by simp)⟩
  | noAlternative => exact List.forall_mem_singleton.mpr (guarded_point (by simp))
  | noValue _ h₁ ih | exprStmt h₁ ih | throw h₁ ih | update h₁ ih | bodyNull _ h₁ ih | unit h₁ ih
  | test _ h₁ ih =>
    exact List.forall_mem_append.mpr ⟨Guarded.sub (ih h₁) (by simp) (List.suffix_refl _) (by simp),
      List.forall_mem_singleton.mpr (guarded_point (by simp))⟩
  | bodyValue h₁ h₂ ih₁ ih₂ =>
    simp only [List.forall_mem_append, List.forall_mem_singleton]
    exact ⟨Guarded.sub (ih₁ h₁) (by simp) (List.suffix_refl _) (by simp),
      Guarded.sub (ih₂ h₂) (by simp) (List.suffix_refl _) (by simp), guarded_point (by simp)⟩
  | and h₁ h₂ _ _ ih₁ ih₂ =>
    simp only [List.forall_mem_append, List.forall_mem_cons]
    exact ⟨Guarded.sub (ih₁ h₁) (by simp) (List.suffix_refl _) (by simp), guarded_point (by simp),
      guarded_point (by simp), guarded_point (by simp),
      Guarded.sub (ih₂ h₂) (fun q hq => by simp [hq]) (List.suffix_refl _) (by simp)⟩
  | or h₁ h₂ _ _ ih₁ ih₂ =>
    simp only [List.forall_mem_append, List.forall_mem_cons]
    exact ⟨Guarded.sub (ih₁ h₁) (by simp) (List.suffix_refl _) (by simp), guarded_point (by simp),
      guarded_point (by simp), guarded_point (by simp), guarded_point (by simp),
      Guarded.sub (ih₂ h₂) (fun q hq => by simp [hq]) (List.suffix_refl _) (by simp)⟩
  | «while» h₁ h₂ _ _ ih₁ ih₂ =>
    simp only [List.forall_mem_append, List.forall_mem_cons]
    exact ⟨Guarded.sub (ih₁ h₁) (by simp) (List.suffix_refl _) (by simp), guarded_point (by simp),
      Guarded.sub (ih₂ h₂) (fun q hq => by simp [hq]) (List.suffix_refl _) (by simp),
      guarded_point (by simp), by simp⟩
  | ternary h₁ h₂ h₃ _ _ _ ih₁ ih₂ ih₃ | cond h₁ h₂ h₃ _ _ _ ih₁ ih₂ ih₃ =>
    simp only [List.forall_mem_append, List.forall_mem_cons]
    exact ⟨Guarded.sub (ih₁ h₁) (by simp) (List.suffix_refl _) (by simp), guarded_point (by simp),
      Guarded.sub (ih₂ h₂) (fun q hq => by simp [hq]) (List.suffix_refl _) (by simp),
      guarded_point (by simp),
      Guarded.sub (ih₃ h₃) (fun q hq => by simp [hq]) (List.suffix_refl _) (by simp)⟩
  | «for» h₀ h₁ h₂ h₃ _ _ _ _ _ _ _ ih₀ ih₁ ih₂ ih₃ =>
    simp only [List.forall_mem_append, List.forall_mem_singleton]
    exact ⟨Guarded.sub (ih₀ h₀) (by simp) (List.suffix_refl _) (by simp),
      Guarded.sub (ih₁ h₁) (fun q hq => by simp [hq]) (List.suffix_refl _) (by simp),
      Guarded.sub (ih₂ h₂) (fun q hq => by simp [hq]) (List.suffix_refl _) (by simp),
      Guarded.sub (ih₃ h₃) (fun q hq => by simp [hq]) (List.suffix_refl _) (by simp),
      guarded_point (by simp)⟩
  | @retNull Γ o span code notes h₁ ih =>
    refine List.forall_mem_append.mpr ⟨?_, List.forall_mem_singleton.mpr (guarded_exitTo rfl (by simp))⟩
    exact Guarded.exits ((Γ.exitTo 0).point (o + size code) 0 .returnNull [] span) (ih h₁) hself
      rfl (by simp) (by simp) rfl rfl rfl (.inr (.inl rfl))
  | @ret Γ o e span c₁ c₂ n₁ n₂ h₁ h₂ ih₁ ih₂ =>
    simp only [List.forall_mem_append, List.forall_mem_singleton]
    refine ⟨Guarded.sub (ih₁ h₁) (by simp) (List.suffix_refl _) (by simp), ?_,
      guarded_exitTo rfl (by simp)⟩
    exact Guarded.exits ((Γ.exitTo 0).point (o + size c₁ + size c₂) 1 .returnValue [] span)
      (ih₂ h₂) hself rfl (fun q hq => by simp [hq]) (by simp) rfl rfl rfl (.inl rfl)
  | @brk Γ o span code notes l ls hloops h₁ ih =>
    refine List.forall_mem_append.mpr ⟨?_, List.forall_mem_singleton.mpr (guarded_exitTo rfl (by simp [Context.leap]))⟩
    exact Guarded.exits ((Γ.exitTo l.regions.length).leap (o + size code) .brk l.breakTo span)
      (ih h₁) hself rfl (by simp) (by simp) rfl rfl rfl (.inr (.inr rfl))
  | @cont Γ o span code notes l ls target hloops h₁ _ _ _ ih =>
    refine List.forall_mem_append.mpr ⟨?_, List.forall_mem_singleton.mpr (guarded_exitTo rfl (by simp))⟩
    exact Guarded.exits ((Γ.exitTo l.regions.length).point (o + size code) 0 .jump [target] span)
      (ih h₁) hself rfl (by simp) (by simp) rfl rfl rfl (.inr (.inr rfl))
  | @contWait Γ o span code notes l ls hloops h₁ _ ih =>
    refine List.forall_mem_append.mpr ⟨?_, List.forall_mem_singleton.mpr (guarded_exitTo rfl (by simp [Context.leap]))⟩
    exact Guarded.exits ((Γ.exitTo l.regions.length).leap (o + size code) .cont
      (l.continueTo.getD Opcode.noTarget) span) (ih h₁) hself rfl (by simp) (by simp) rfl rfl rfl
      (.inr (.inr rfl))
  | exits hr hdepth h₁ h₂ hlt ih₁ ih₂ => exact guards_exits hr hdepth h₁ h₂ hlt (ih₁ h₁) (ih₂ h₂)
  | tryCatch h₁ hbind h₂ hr hh hstop hlt ih₁ ih₂ =>
    exact guards_tryCatch h₁ hbind hr hh (by omega) hlt (ih₁ h₁) (ih₂ h₂) rfl
  | tryFinally h₁ h₂ hr hf hlt ih₁ ih₂ =>
    exact guards_tryFinally h₁ h₂ hr hf hlt (ih₁ h₁) (ih₂ h₂) rfl
  | tryBoth h₁ hbind h₂ h₃ hr hr' hh hf hlt ih₁ ih₂ ih₃ =>
    have henter := congrArg Region.enter hr'
    dsimp only at henter
    exact guards_tryBoth h₁ hbind h₂ h₃ hr hr' hh hf (by omega) hlt (ih₁ h₁) (ih₂ h₂) (ih₃ h₃) rfl

/-! ## Statements with a finally body -/

/-- A region that is opened in a piece has all it needs there. -/
theorem Lays.kept {rs : List Region} (h : Lays Γ n o code notes) (hp : p ∈ code) (hr : r :: rs <:+ p.regions)
    (hrs : Γ.regions <:+ rs) : r.Kept code rs := by
  rcases (h.guards p hp).regions r rs hr with hsuffix | hkept
  · have hlen := (hsuffix.trans hrs).length_le
    rw [List.length_cons] at hlen
    omega
  · exact hkept

/-- The region of a statement with a finally body, and the copy at its end. -/
theorem Lays.protects {body F : Block} {handler : Option CatchClause} {span : Span}
    (h : Lays Γ (.action (.tryCatch body handler (some F) span)) o code notes) :
    ∃ (r : Region) (final stop : Nat), r.enter = o ∧ r.cleanup = some F ∧ r.catchTarget.isSome = handler.isSome ∧
      r.Kept code Γ.regions ∧ r.Shares code Γ.regions F final stop ∧ stop + 1 = o + size code := by
  have hself := h
  cases h with
  | @tryFinally _ _ _ _ cleanup s' _ c₁ c₂ _ _ r final h₁ h₂ hr hf hlt =>
    refine ⟨r, final, final + size c₂, by rw [hr], by rw [hr], by rw [hr]; rfl, ?_, ?_, ?_⟩
    · exact hself.kept (p := (Γ.enter r).point (o + 5 + size c₁) 0 .finallyEnd [final - 2] span) (by simp)
        (List.suffix_refl _) (List.suffix_refl _)
    · exact Region.shares_of_lays (F := ⟨cleanup, s'⟩) (by rw [hr]) (by rw [hr]) (by omega) h₂
        fun _ hq => List.mem_cons_of_mem _ (List.mem_append_right _ (List.mem_cons_of_mem _ hq))
    · simp [Opcode.lengths]
      omega
  | @tryBoth _ _ _ _ _ _ _ cleanup s'' _ c₁ c₂ c₃ _ _ _ bind r r' handle final h₁ hbind h₂ h₃ hr hr' hh hf hlt =>
    refine ⟨r, final, final + size c₃, by rw [hr], by rw [hr], by rw [hr]; rfl, ?_, ?_, ?_⟩
    · exact hself.kept (p := (Γ.enter r).point (o + 5 + size c₁) 0 .finallyEnd [final - 2] span) (by simp)
        (List.suffix_refl _) (List.suffix_refl _)
    · exact Region.shares_of_lays (F := ⟨cleanup, s''⟩) (by rw [hr]) (by rw [hr]) (by omega) h₃
        fun _ hq => List.mem_cons_of_mem _ (List.mem_append_right _ (List.mem_cons_of_mem _
          (List.mem_append_right _ (List.mem_cons_of_mem _ (List.mem_append_right _
            (List.mem_cons_of_mem _ hq))))))
    · have henter := congrArg Region.enter hr'
      dsimp only at henter
      simp [Opcode.lengths]
      omega

end

end ScriptMachine
