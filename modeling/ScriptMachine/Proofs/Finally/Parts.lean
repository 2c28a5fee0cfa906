import ScriptMachine.Proofs.Finally.Tower

/-!
# Parts of the code of a frame

Two parts of the code of a frame are grounds of their own. While control is in the first it is inside a
region; the second is a copy of a finally body.

1. **Ends**: `Until`, what an execution goes through before something else begins.
2. **Inside a region**: the region is left by an instruction that closes it or by a throw to its handler.
3. **Copies**: control runs from the start of a copy to its end, unless a value is thrown out of it. It
   neither returns from there nor leaves a region around it, and what is below on the stack stays.
-/

namespace ScriptMachine

open Point

/-! ## Ends -/

/-- For as long as an execution goes on, or until what is left of it satisfies `Q`, it goes through machines
with `P`. -/
inductive Until (P : Machine → Prop) (Q : List Machine → Prop) : List Machine → Prop where
  | stops : Until P Q []
  | now {ms : List Machine} : Q ms → Until P Q ms
  | later {m : Machine} {ms : List Machine} : P m → Until P Q ms → Until P Q (m :: ms)

section

variable {P P' : Machine → Prop} {Q Q' : List Machine → Prop} {m m' : Machine} {ms : List Machine}
  {G : Ground}

theorem Until.imp (h : Until P Q ms) (hP : ∀ m, P m → P' m) (hQ : ∀ rest, rest <:+ ms → Q rest → Q' rest) :
    Until P' Q' ms := by
  induction h with
  | stops => exact .stops
  | now h => exact .now (hQ _ (List.suffix_refl _) h)
  | later hm _ ih => exact .later (hP _ hm) (ih fun rest hrest => hQ rest (hrest.trans (List.suffix_cons _ _)))

/-- One thing after the other. -/
theorem Until.join (h : Until P (Until P Q) ms) : Until P Q ms := by
  induction h with
  | stops => exact .stops
  | now h => exact h
  | later hm _ ih => exact .later hm ih

/-- The last machine of an execution above a ground. -/
structure Machine.Finishes (m : Machine) (G : Ground) (a : Array Value) (rest : List Machine) : Prop where
  inside : m.Inside G
  spares : G.frame.Spares G.floor a m.stack
  ends : m.AtEnd G ∨ ∃ m' rest', rest = m' :: rest' ∧ G.Leaves m m'

/-- An execution stays above a ground until control leaves it. -/
theorem Machine.Inside.until (h : m.Inside G) (hG : G.Sound) (hms : (m :: ms).IsChain Machine.Moves)
    {a : Array Value} (hspares : G.frame.Spares G.floor a m.stack) :
    Until (Machine.Inside · G) (fun rest => ∃ x rest', rest = x :: rest' ∧ x.Finishes G a rest') (m :: ms) := by
  induction ms generalizing m with
  | nil => exact .later h .stops
  | cons m' ms ih =>
    by_cases hend : m.AtEnd G
    · exact .now ⟨m, _, rfl, h, hspares, .inl hend⟩
    · rcases List.isChain_cons_cons.mp hms with ⟨hmove, hrest⟩
      rcases h.moves hG hmove hend with ⟨hinside, hspares'⟩ | hleaves
      · exact .later h (ih hinside hrest (hspares.trans hspares'))
      · exact .now ⟨m, _, rfl, h, hspares, .inr ⟨m', ms, rfl, hleaves⟩⟩

end

/-! ## Inside a region -/

/-- The code of the lowest frame inside some regions. -/
def Ground.inside (G : Ground) (rs : List Region) (hs : List Handler) : Ground :=
  { G with
    bottom := 0
    exact := False
    outer := rs
    handlers := hs
    points := fun p => p ∈ G.code ∧ rs <:+ p.regions
    out := fun s => ∃ r, rs = r :: s.regions }

section

variable {G : Ground} {rs : List Region} {hs : List Handler} {m m' : Machine} {p q : Point} {s : Spot}

/-- Next to a point inside a region control is inside as well, or the region was left. -/
theorem Point.Near.inside (h : p.Near s) (hp : rs <:+ p.regions) : rs <:+ s.regions ∨ ∃ r, rs = r :: s.regions := by
  rcases h with h | ⟨r, h⟩ | ⟨r, h⟩
  · exact .inl (h ▸ hp)
  · exact .inl (h ▸ hp.trans (List.suffix_cons r _))
  · rw [h] at hp
    rcases List.suffix_cons_iff.mp hp with heq | hp
    · exact .inr ⟨r, heq⟩
    · exact .inl hp

theorem Ground.Sound.inside (hG : G.Sound) (hhs : ∀ h ∈ hs, h.depth ≤ G.depth) : (G.inside rs hs).Sound where
  layout := hG.layout
  tidy := hG.tidy
  mem p hp := hp.1
  takes p hp := by
    show 0 + _ ≤ _
    rw [Nat.zero_add]
    exact hG.laid.takes_le hp.1
  flows p hp := by
    refine (hG.laid.flows hp.1).imp ?_
    rintro s ⟨q, hq, hmeets⟩ hnear
    rcases hnear.inside hp.2 with hinside | hleft
    · have hregions : s.regions = q.regions := hmeets.regions trivial
      exact .inl ⟨q, ⟨hq, hregions ▸ hinside⟩, hmeets⟩
    · exact .inr hleft
  enters p hp r rs' hr hout := by
    rcases (hG.laid.kept hp.1 hr).enters with ⟨q, hq, henters⟩
    exact ⟨q, ⟨hq, henters.regions.symm ▸ hout⟩, henters⟩
  out s hs := by
    rcases hs with ⟨r, rfl⟩
    exact List.suffix_cons r _
  locals := hG.locals
  handlers := hhs

/-- Control that is inside all regions stands at one of their points. -/
theorem Ground.Opened.inside_points {ks : List Handler} (h : (G.inside rs hs).Opened s.regions ks)
    (hs' : (G.inside rs hs).Leads s) : ∃ q ∈ G.code, rs <:+ q.regions ∧
      s.Meets True False q.spot := by
  have hsuffix : rs <:+ s.regions := h.suffix
  rcases hs' with ⟨q, hq, hmeets⟩ | ⟨r, hr⟩
  · exact ⟨q, hq.1, hq.2, hmeets⟩
  · -- the regions cannot be open still
    rw [hr] at hsuffix
    have hlen := hsuffix.length_le
    rw [List.length_cons] at hlen
    omega

/-- An execution does not come to an end there while the regions are open. -/
theorem Machine.not_atEnd_inside : ¬ m.AtEnd (G.inside rs hs) := by
  rintro ⟨-, f, s, -, -, ⟨r, hr⟩, hstands⟩
  have hsuffix : rs <:+ s.regions := hstands.opened.suffix
  rw [hr] at hsuffix
  have hlen := hsuffix.length_le
  rw [List.length_cons] at hlen
  omega

end

/-! ## Copies -/

/-- A copy of a finally body in the code of the lowest frame, over `bottom` operands that are left alone. -/
def Ground.copy (G : Ground) (base bottom : Nat) (rs : List Region) (hs : List Handler) (c : List Point)
    (stop : Nat) : Ground :=
  { G with
    base, bottom
    exact := True
    outer := rs
    handlers := hs
    points := fun p => p ∈ c
    out := fun s => s.offset = stop ∧ s.regions = rs ∧ s.height = bottom }

section

variable {G : Ground} {base : Nat} {rs : List Region} {hs : List Handler} {c : List Point} {start stop : Nat}
  {Γ : Context} {F : Block} {notes : List Note} {m m' : Machine}

/-- A copy does not depend on the loops around it, and its code stays in the regions around it. -/
theorem Lays.copy (h : Lays Γ (.stmts F.statements) start c notes) (hF : F.Quiet) :
    ∃ notes, Lays (Γ.within []) (.stmts F.statements) start c notes ∧ ∀ p ∈ c, p.Stays Γ.regions := by
  obtain ⟨notes', h'⟩ := h.unloops (hF.exits _) rfl [] (by simp)
  exact ⟨notes', h', h'.stays (hF.exits _) rfl⟩

theorem Ground.copy_coarse : Coarse True True (G.copy base Γ.height rs hs c stop).Leads := by
  rintro s t hst (⟨q, hq, hmeets⟩ | ⟨hoffset, hregions, hheight⟩)
  · exact .inl ⟨q, hq, hst.trans hmeets⟩
  · exact .inr ⟨hst.offset.trans hoffset, (hst.regions trivial).trans hregions,
      (hst.height trivial).trans hheight⟩

theorem Ground.Sound.copy (hG : G.Sound) (h : Lays Γ (.stmts F.statements) start c notes) (hF : F.Quiet)
    (hsub : c ⊆ G.code) (hhs : ∀ h ∈ hs, h.depth ≤ G.depth) (hbase : G.base ≤ base)
    (hstop : stop = start + size c) : (G.copy base Γ.height Γ.regions hs c stop).Sound := by
  rcases h.copy hF with ⟨notes', h', -⟩
  refine ⟨hG.layout, hG.tidy, fun p hp => hsub hp, fun p hp => h'.takes_le p hp, ?_, ?_, ?_, ?_, hhs⟩
  · -- there is no loop around the copy that control could leave
    refine h'.flows Ground.copy_coarse ⟨nofun, nofun⟩ ((hF.exits _).sound fun T e => hF.counted _ T e) ?_
    refine ⟨fun p hp => Ground.leads_point hp, fun _ _ => .inr ⟨hstop.symm, rfl, rfl⟩, ?_, ?_, ?_⟩
    all_goals
      intro l hl
      cases hl
  · intro p hp r rs' hr hout
    rcases (h'.guards p hp).regions r rs' hr with hle | hkept
    · have hlen := (hout.trans (List.suffix_cons r rs')).length_le
      have hlen' := (hle.trans hout).length_le
      rw [List.length_cons] at hlen'
      omega
    · exact hkept.enters
  · rintro s ⟨-, hregions, -⟩
    exact hregions ▸ List.suffix_refl _
  · exact Nat.le_trans hG.locals hbase

/-- Control leaves a copy only at its end or by a throw. -/
theorem Ground.Leaves.copy (hleaves : (G.copy base Γ.height Γ.regions hs c stop).Leaves m m')
    (hK : (G.copy base Γ.height Γ.regions hs c stop).Sound)
    (h : Lays Γ (.stmts F.statements) start c notes) (hF : F.Quiet) :
    ∃ f v, G.frame.Same f ∧ m.handlers = hs ∧ m.Throws G.below f (base + Γ.height) v m' := by
  rcases h.copy hF with ⟨-, -, hstays⟩
  cases hleaves with
  | @closes p f g r rs hp hop hregions houter =>
    -- the region is one of those around the copy
    have houter : Γ.regions = r :: rs := houter
    have hflows := hK.flows p hp
    unfold Point.Flows at hflows
    rw [hop] at hflows
    rcases hflows with ⟨-, r', rs', hregions', hleads⟩
    rw [hregions] at hregions'
    cases hregions'
    have hsuffix : Γ.regions <:+ rs := by
      rcases hleads with ⟨q, hq, hmeets⟩ | ⟨-, hout, -⟩
      · have hq := (hstays q hq).regions
        rwa [← show rs = q.regions from hmeets.regions trivial] at hq
      · exact (show rs = Γ.regions from hout) ▸ List.suffix_refl _
    have hlen := hsuffix.length_le
    rw [houter, List.length_cons] at hlen
    omega
  | @returns p _ _ _ hp hop =>
    have hreturn := (hstays p hp).not_return
    rcases hop with hop | hop
    · exact (hreturn.1 hop).elim
    · exact (hreturn.2 hop).elim
  | throws hsame hhandlers hthrows => exact ⟨_, _, hsame, hhandlers, hthrows⟩

end

end ScriptMachine
