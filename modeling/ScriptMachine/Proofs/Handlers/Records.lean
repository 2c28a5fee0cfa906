import ScriptMachine.Proofs.Frames.Run

/-!
# Handlers of frames

A machine has its handlers in one list, innermost first, for all of its frames. Where the regions of a layout count,
the handlers of each frame are just those of the regions around the place where the frame stands (`Shielded`). For the
start of a region pushes its record, and every way out of the region drops this record (`Machine.Handles`). So each
record in the list was pushed by the frame that has it, and both have been there ever since (`Machine.Accounts`).

1. **Records**: which instruction pushes the record of a region.
2. **States**: the handlers of frames at their places.
3. **Turns**: what a turn does with the handlers, and where records come from.
-/

namespace ScriptMachine

open Point

/-! ## Records -/

/-- The instruction enters a region, and in a frame of this depth it pushes the record. -/
structure Point.Pushes (q : Point) (depth : Nat) (h : Handler) : Prop where
  opcode : q.item.opcode = .tryEnter
  record : h = .ofOperands (q.item.operand 0) (q.item.operand 1) depth h.sp

/-- The record is the one that the region pushes in a frame of this depth, and no other region of the function pushes
it. -/
structure Handler.Marks (code : List Point) (depth : Nat) (h : Handler) (r : Region) : Prop where
  catchTarget : h.catchTarget = r.catchTarget
  finallyTarget : h.finallyTarget = r.finallyTarget
  pushed : ∃ q ∈ code, q.offset = r.enter ∧ q.Pushes depth h
  only : ∀ q ∈ code, q.Pushes depth h → q.offset = r.enter

section

variable {G : Grade} {f : Frame} {code : List Point} {p q : Point} {r r' : Region} {rs rs' : List Region}
  {hs : List Handler} {h : Handler} {depth : Nat}

/-- A region ends where its targets say, so two regions with the same targets are one. -/
theorem Region.Kept.eq_of_targets (hneat : Neat 0 code) (h : r.Kept code rs) (h' : r'.Kept code rs')
    (hcatch : r.catchTarget = r'.catchTarget) (hfinally : r.finallyTarget = r'.finallyTarget) : r = r' := by
  rcases h.closes with ⟨p, hp, hcloses⟩
  rcases h'.closes with ⟨p', hp', hcloses'⟩
  have hoffset : p.offset = p'.offset := by
    cases hr : r.catchTarget with
    | some t =>
      have hleft := hcloses.catches t hr
      have hright := hcloses'.catches t (hcatch ▸ hr)
      omega
    | none =>
      have hleft := hcloses.cleans hr
      have hright := hcloses'.cleans (hcatch ▸ hr)
      rw [hfinally, hright] at hleft
      have := Option.some.inj hleft
      omega
  have heq := hneat.eq_of_offset hp hp' hoffset
  have hregions := hcloses.regions
  rw [heq, hcloses'.regions] at hregions
  exact (List.cons.inj hregions).1.symm

/-- Where regions count, each instruction that enters a region enters one that the layout keeps. -/
theorem Function.Follows.opens {g : Function} (h : g.Follows G) (hG : G.regions) (hq : q ∈ G.layout g)
    (hop : q.item.opcode = .tryEnter) : ∃ r, q.Opens r ∧ r.Kept (G.layout g) q.regions := by
  have hflows := h.flows hq
  unfold Point.Flows at hflows
  rw [hop] at hflows
  rcases hflows with ⟨r, hopens, ⟨p, hp, hmeets⟩, -⟩
  rcases h.layout with ⟨n, notes, -, hlays, -⟩
  have hregions : r :: q.regions = p.regions := hmeets.regions hG
  exact ⟨r, hopens, hlays.kept hp (hregions ▸ List.suffix_refl _) (List.nil_suffix)⟩

/-- A record that is there for a region of the layout marks it. -/
theorem Handler.Serves.marks (hserves : h.Serves G f r rs) (hf : f.closure.function.Follows G) (hG : G.regions)
    (hkept : r.Kept (G.layout f.closure.function) rs) (hdepth : h.depth = depth) :
    h.Marks (G.layout f.closure.function) depth r := by
  refine ⟨hserves.catchTarget, hserves.finallyTarget, ?_, ?_⟩
  · rcases hkept.enters with ⟨q, hq, henters⟩
    refine ⟨q, hq, henters.enter.symm, henters.opcode, ?_⟩
    cases h
    simp only [Handler.ofOperands, Handler.mk.injEq]
    exact ⟨hserves.catchTarget.trans henters.catchTarget, hserves.finallyTarget.trans henters.finallyTarget, hdepth,
      trivial⟩
  · intro q hq hpushes
    rcases hf.opens hG hq hpushes.opcode with ⟨r', hopens, hkept'⟩
    have hcatch : h.catchTarget = r'.catchTarget := by
      rw [hpushes.record]
      exact hopens.catchTarget.symm
    have hfinally : h.finallyTarget = r'.finallyTarget := by
      rw [hpushes.record]
      exact hopens.finallyTarget.symm
    have heq := hkept.eq_of_targets hf.sound.neat hkept' (hserves.catchTarget.symm.trans hcatch)
      (hserves.finallyTarget.symm.trans hfinally)
    rw [heq]
    exact hopens.enter.symm

/-- The handlers of a frame mark the regions around its place, innermost first. -/
theorem Frame.Opened.marks (ho : f.Opened G depth rs hs) (hf : f.closure.function.Follows G) (hG : G.regions)
    (hp : p ∈ G.layout f.closure.function) (hrs : rs <:+ p.regions) :
    List.Forall₂ (Handler.Marks (G.layout f.closure.function) depth) hs rs := by
  induction ho with
  | none => exact .nil
  | more hdepth hserves _ ih =>
    rcases hf.layout with ⟨n, notes, -, hlays, -⟩
    have hkept := hlays.kept hp hrs List.nil_suffix
    exact .cons (hserves.marks hf hG hkept hdepth) (ih ((List.suffix_cons _ _).trans hrs))

end

/-! ## States -/

/-- The frame stands at a point of its layout. -/
structure Frame.At (L : Function → List Point) (f : Frame) (p : Point) : Prop where
  mem : p ∈ L f.closure.function
  offset : p.offset = f.ip

/-- The handlers of a frame, which is number `k` from below. -/
def Handler.ofFrame (hs : List Handler) (k : Nat) : List Handler := hs.filter fun h => h.depth == k + 1

/-- The handlers are innermost first, each one belongs to a frame, and those of a frame mark just the regions around
the place where it stands. -/
structure Shielded (L : Function → List Point) (fs : Array Frame) (hs : List Handler) : Prop where
  frames : ∀ k f, fs[k]? = some f → ∃ p, f.At L p ∧
    List.Forall₂ (Handler.Marks (L f.closure.function) (k + 1)) (Handler.ofFrame hs k) p.regions
  sorted : hs.Pairwise fun h k => k.depth ≤ h.depth
  depths : ∀ h ∈ hs, 0 < h.depth ∧ h.depth ≤ fs.size

/-- A thrown value goes to the innermost region that is open in any frame. No frame further up is in a region; those
are left, and the frame of the region goes on where the region catches, or else where it cleans up. -/
structure Machine.Delivers (L : Function → List Point) (m m' : Machine) (k : Nat) (f : Frame) (r : Region)
    (h : Handler) : Prop where
  frame : m.frames[k]? = some f
  region : ∃ p rs, f.At L p ∧ p.regions = r :: rs
  above : ∀ j g, k < j → m.frames[j]? = some g → ∃ p, g.At L p ∧ p.regions = []
  handlers : m.handlers = h :: m'.handlers
  marks : h.Marks (L f.closure.function) (k + 1) r
  resumes : ∃ g target, (r.catchTarget = some target ∨ r.catchTarget = none ∧ r.finallyTarget = some target) ∧
    f.Same g ∧ m'.frames = (m.frames.extract 0 k).push { g with ip := target }

section

variable {G : Grade} {L : Function → List Point} {fs : Array Frame} {f : Frame} {height : Nat} {hs : List Handler}
  {h : Handler} {m m' : Machine} {p : Point}

/-- Frames are left down to the one that is number `k` from below. -/
theorem Frame.Same.of_extract {fs' : Array Frame} {f' g' : Frame} {k : Nat} (hsame : f.Same f') (hk : k ≤ fs.size)
    (h : (fs.push f').extract 0 (k + 1) = fs'.push g') :
    ∃ g, (fs.push f)[k]? = some g ∧ g.Same g' ∧ fs' = (fs.push f).extract 0 k := by
  rw [Array.extract_push_of_le hk]
  rcases Nat.eq_or_lt_of_le hk with rfl | hlt
  · rcases Array.extract_whole rfl h with ⟨rfl, rfl⟩
    exact ⟨f, Array.getElem?_push_size, hsame, Array.extract_size.symm⟩
  · rw [Array.extract_push_of_le (Nat.succ_le_of_lt hlt), Array.extract_succ_right (Nat.succ_pos k) hlt] at h
    rcases Array.push_eq_push.mp h with ⟨rfl, rfl⟩
    refine ⟨fs[k], ?_, ⟨rfl, rfl, rfl⟩, rfl⟩
    rw [Array.getElem?_push, if_neg (Nat.ne_of_lt hlt), Array.getElem?_eq_getElem hlt]

theorem Handler.ofFrame_of_depth {own : List Handler} {k : Nat} (hown : ∀ h ∈ own, h.depth = k + 1) :
    Handler.ofFrame own k = own := by
  unfold Handler.ofFrame
  rw [List.filter_eq_self]
  intro h hh
  simp [hown h hh]

theorem Handler.ofFrame_eq_nil {k : Nat} (hhs : ∀ h ∈ hs, h.depth ≠ k + 1) : Handler.ofFrame hs k = [] := by
  unfold Handler.ofFrame
  rw [List.filter_eq_nil_iff]
  intro h hh
  simp [hhs h hh]

theorem Handler.ofFrame_append {own : List Handler} {k : Nat} :
    Handler.ofFrame (own ++ hs) k = Handler.ofFrame own k ++ Handler.ofFrame hs k :=
  List.filter_append _ _

/-- Frames that lie one above the other have the handlers of their places. -/
theorem Piled.shielded (hp : Piled G fs height hs) (hG : G.regions) : Shielded G.layout fs hs := by
  induction hp with
  | empty => exact ⟨fun k f hf => by simp at hf, .nil, List.forall_mem_nil _⟩
  | @frame fs f s height own hs hbelow hback hrests hopened ih =>
    have hdepth := hopened.depth_eq
    refine ⟨fun k g hg => ?_, ?_, ?_⟩
    · rw [Array.getElem?_push] at hg
      rw [Handler.ofFrame_append]
      split at hg
      · next htop =>
        cases hg
        subst htop
        have hnone : Handler.ofFrame hs fs.size = [] := Handler.ofFrame_eq_nil fun h hh => by
          have := hbelow.depth_le h hh
          omega
        rw [Handler.ofFrame_of_depth hdepth, hnone, List.append_nil]
        rcases hrests.leads with ⟨p, hp, hmeets⟩
        have hregions : s.regions = p.regions := hmeets.regions hG
        refine ⟨p, ⟨hp, hmeets.offset.symm.trans hrests.ip.symm⟩, ?_⟩
        rw [← hregions]
        exact hopened.marks hrests.follows hG hp (hregions ▸ List.suffix_refl _)
      · have hlt := (Array.getElem?_eq_some_iff.mp hg).1
        have hnone : Handler.ofFrame own k = [] := Handler.ofFrame_eq_nil fun h hh => by
          have := hdepth h hh
          omega
        rw [hnone, List.nil_append]
        exact ih.frames k g hg
    · refine List.pairwise_append.mpr ⟨?_, ih.sorted, fun h hh k hk => ?_⟩
      · exact List.pairwise_of_forall_mem_list fun h hh k hk => Nat.le_of_eq ((hdepth k hk).trans (hdepth h hh).symm)
      · rw [hdepth h hh]
        exact Nat.le_succ_of_le (hbelow.depth_le k hk)
    · intro h hh
      rw [Array.size_push]
      rcases List.mem_append.mp hh with hh | hh
      · rw [hdepth h hh]
        exact ⟨Nat.succ_pos _, Nat.le_refl _⟩
      · have := ih.depths h hh
        omega

/-- Where a frame is in a region, and no handler is of a frame further up, its innermost handler is the first one. -/
theorem Shielded.head (hc : Shielded L (fs.push f) hs) (hp : f.At L p) (hneat : Neat 0 (L f.closure.function))
    {r : Region} {rs : List Region} (hregions : p.regions = r :: rs) :
    ∃ h, hs.head? = some h ∧ h.Marks (L f.closure.function) (fs.size + 1) r := by
  rcases hc.frames fs.size f Array.getElem?_push_size with ⟨q, hq, hmarks⟩
  have heq := hneat.eq_of_offset hq.mem hp.mem (hq.offset.trans hp.offset.symm)
  rw [heq, hregions] at hmarks
  cases hs with
  | nil => cases hmarks
  | cons h hs =>
    refine ⟨h, rfl, ?_⟩
    -- some handler is of the frame on top, so the first one is
    have hdepth : h.depth = fs.size + 1 := by
      have hle := (hc.depths h List.mem_cons_self).2
      rw [Array.size_push] at hle
      cases hown : Handler.ofFrame (h :: hs) fs.size with
      | nil =>
        rw [hown] at hmarks
        cases hmarks
      | cons k ks =>
        have hk : k ∈ Handler.ofFrame (h :: hs) fs.size := by
          rw [hown]
          exact List.mem_cons_self
        unfold Handler.ofFrame at hk
        rcases List.mem_filter.mp hk with ⟨hmem, hkdepth⟩
        have hkdepth : k.depth = fs.size + 1 := eq_of_beq hkdepth
        rcases List.mem_cons.mp hmem with rfl | hmem
        · exact hkdepth
        · have := (List.pairwise_cons.mp hc.sorted).1 k hmem
          omega
    rw [Handler.ofFrame, List.filter_cons_of_pos (by simp [hdepth])] at hmarks
    cases hmarks with
    | cons hmarks _ => exact hmarks

/-- A thrown value goes to the innermost region of all frames. -/
theorem Shielded.delivers (hc : Shielded L m.frames m.handlers) {low : Nat} {v : Value} (hframes : m.frames = fs.push f)
    (ht : m.Throws fs f low v m') : ∃ k g r h, m.Delivers L m' k g r h := by
  rcases ht.handler with ⟨h, target, hhandlers, hreceives, -, -, f', g', fs', hsame, hextract, hframes'⟩
  have hmem : h ∈ m.handlers := by
    rw [hhandlers]
    exact List.mem_cons_self
  have hsorted := hc.sorted
  rw [hhandlers] at hsorted
  have hdepths := hc.depths h hmem
  obtain ⟨k, hk⟩ : ∃ k, h.depth = k + 1 := ⟨h.depth - 1, by omega⟩
  have hlt : k < m.frames.size := by omega
  have hsize : m.frames.size = fs.size + 1 := by rw [hframes, Array.size_push]
  rw [hk] at hextract
  rcases hsame.of_extract (by omega) hextract with ⟨g, hg, hsame', hfs⟩
  rw [← hframes] at hg hfs
  rcases hc.frames k g hg with ⟨p, hp, hmarks⟩
  have hown : Handler.ofFrame m.handlers k = h :: Handler.ofFrame m'.handlers k := by
    rw [hhandlers, Handler.ofFrame, List.filter_cons_of_pos (by simp [hk])]
    rfl
  rw [hown] at hmarks
  cases hregions : p.regions with
  | nil =>
    rw [hregions] at hmarks
    cases hmarks
  | cons r rs =>
    rw [hregions] at hmarks
    cases hmarks with
    | cons hmarks _ =>
      have hregion : ∃ p rs, g.At L p ∧ p.regions = r :: rs := ⟨p, rs, hp, hregions⟩
      refine ⟨k, g, r, h, hg, hregion, fun j g' hj hg' => ?_, hhandlers, hmarks, g', target, ?_, hsame', ?_⟩
      · rcases hc.frames j g' hg' with ⟨p', hp', hmarks'⟩
        have hnone : Handler.ofFrame m.handlers j = [] := Handler.ofFrame_eq_nil fun i hi => by
          rw [hhandlers] at hi
          rcases List.mem_cons.mp hi with rfl | hi
          · omega
          · have := (List.pairwise_cons.mp hsorted).1 i hi
            omega
        rw [hnone] at hmarks'
        cases hnil : p'.regions with
        | nil => exact ⟨p', hp', hnil⟩
        | cons r' rs' =>
          rw [hnil] at hmarks'
          cases hmarks'
      · cases hreceives with
        | catches htarget => exact .inl (hmarks.catchTarget ▸ htarget)
        | cleans hnone htarget => exact .inr ⟨hmarks.catchTarget ▸ hnone, hmarks.finallyTarget ▸ htarget⟩
      · rw [hframes', hfs]

end

/-! ## Turns -/

/-- What a turn does with the handlers. The start of a region pushes its record, the end of the region drops this record,
and a value that is thrown is delivered; any other turn leaves the handlers alone. -/
inductive Machine.Handles (L : Function → List Point) (m : Machine) (fs : Array Frame) (f : Frame) (m' : Machine) :
    Prop where
  | opens {p : Point} {h : Handler} : m.waiting = none → f.At L p → p.Pushes (fs.size + 1) h →
    m'.handlers = h :: m.handlers → Handles L m fs f m'
  | closes {p : Point} {r : Region} {rs : List Region} {h : Handler} : m.waiting = none → f.At L p →
    p.item.opcode = .finallyEnd → p.regions = r :: rs → m.handlers = h :: m'.handlers →
    h.Marks (L f.closure.function) (fs.size + 1) r → Handles L m fs f m'
  | throws {k : Nat} {g : Frame} {r : Region} {h : Handler} : m.Delivers L m' k g r h →
    (m.waiting = none → ∀ p, f.At L p → p.item.opcode.isSure = false) → Handles L m fs f m'
  | keeps : m'.handlers = m.handlers →
    (m.waiting = none → ∀ p, f.At L p → p.item.opcode ∉ [.tryEnter, .finallyEnd, .throw]) → Handles L m fs f m'

/-- The record was pushed for the frame, which is number `k` from below, when the other handlers were `hs`; the frame
stood at the point. -/
structure Machine.Records (L : Function → List Point) (m : Machine) (f : Frame) (k : Nat) (p : Point) (h : Handler)
    (hs : List Handler) : Prop where
  waiting : m.waiting = none
  frames : ∃ (fs : Array Frame) (g : Frame), m.frames = fs.push g ∧ fs.size = k ∧ g.Same f ∧ g.At L p
  pushes : p.Pushes (k + 1) h
  handlers : m.handlers = hs

/-- The frame is still there, and so is the record. -/
structure Machine.Retains (m : Machine) (f : Frame) (k : Nat) (h : Handler) (hs : List Handler) : Prop where
  frame : ∃ g, m.frames[k]? = some g ∧ g.Same f
  handlers : h :: hs <:+ m.handlers

/-- At some turn the record was pushed for the frame, and from then on both were there. -/
def Recorded (L : Function → List Point) (ms : List Machine) (f : Frame) (k : Nat) (p : Point) (h : Handler)
    (hs : List Handler) : Prop :=
  ∃ earlier m later, ms = earlier ++ m :: later ∧ m.Records L f k p h hs ∧ ∀ m' ∈ later, m'.Retains f k h hs

/-- All records of a machine were pushed for the frames that have them. -/
def Machine.Accounts (L : Function → List Point) (ms : List Machine) (m : Machine) : Prop :=
  ∀ h hs, h :: hs <:+ m.handlers →
    ∃ k f p, h.depth = k + 1 ∧ m.frames[k]? = some f ∧ Recorded L (ms ++ [m]) f k p h hs

section

variable {G : Grade} {L : Function → List Point} {fs : Array Frame} {f g : Frame} {hs own : List Handler} {h : Handler}
  {m m' : Machine} {ms : List Machine} {p : Point} {s : Spot} {k : Nat}

/-- A frame whose layout is known stands at one point only. -/
theorem Frame.At.eq {q : Point} (hp : f.At L p) (hq : f.At L q) (hneat : Neat 0 (L f.closure.function)) : q = p :=
  hneat.eq_of_offset hq.mem hp.mem (hq.offset.trans hp.offset.symm)

theorem Machine.Poised.at (hm : m.Poised G fs f p s own hs) : f.At G.layout p := ⟨hm.point, hm.offset_eq⟩

/-- Where a frame returns, it is in no region, so it has no handlers to discard. -/
theorem Machine.Poised.discard (hm : m.Poised G fs f p s own hs) (hG : G.regions) (hregions : p.regions = []) :
    Handler.discard m.handlers (fs.size + 1) = m.handlers := by
  have hnil : s.regions = [] := (hm.meets.regions hG).trans hregions
  have hopened := hm.opened
  rw [hnil] at hopened
  have hown : own = [] := by
    cases hopened
    rfl
  rw [hm.handlers, hm.toTop.discard, hown, List.nil_append]

theorem Machine.Turns.handles (ht : m.Turns fs f p.item m') (hm : m.Poised G fs f p s own hs) (hG : G.regions)
    (hw : m.waiting = none) (hc : Shielded G.layout m.frames m.handlers) : m.Handles G.layout fs f m' := by
  have hneat := hm.rests.follows.sound.neat
  have hflows := hm.rests.follows.flows hm.point
  -- the instruction at hand is the only one at this place
  have other {P : Point → Prop} (hP : P p) : m.waiting = none → ∀ q, f.At G.layout q → P q := fun _ q hq => by
    rw [hm.at.eq hq hneat]
    exact hP
  cases ht with
  | works hplain hworks =>
    refine .keeps hworks.handlers (other ?_)
    intro hmem
    simp only [List.mem_cons, List.not_mem_nil, or_false] at hmem
    rcases hmem with hop | hop | hop <;> rw [hop] at hplain <;> cases hplain
  | jumps hop hworks | branches hop _ hworks | resumes hop _ hworks =>
    refine .keeps hworks.handlers (other ?_)
    rw [hop]
    decide
  | opens hop hworks =>
    have hdepth : m.frames.size = fs.size + 1 := by rw [hm.frames, Array.size_push]
    have hhandlers := hworks.handlers
    dsimp only at hhandlers
    rw [hdepth] at hhandlers
    exact .opens hw hm.at ⟨hop, rfl⟩ hhandlers
  | closes hop hworks =>
    unfold Point.Flows at hflows
    rw [hop] at hflows
    rcases hflows with ⟨-, r, rs, hregions, -⟩
    rw [hm.frames] at hc
    rcases hc.head hm.at hneat hregions with ⟨h, hhead, hmarks⟩
    refine .closes hw hm.at hop hregions ?_ hmarks
    rw [hworks.handlers]
    exact List.eq_cons_of_mem_head? hhead
  | enters hcall henters =>
    refine .keeps henters.handlers (other ?_)
    intro hmem
    simp only [List.mem_cons, List.not_mem_nil, or_false] at hmem
    rcases hmem with hop | hop | hop <;> rw [hop] at hcall <;> cases hcall
  | returns hop hreturns =>
    have hregions : p.regions = [] := by
      unfold Point.Flows at hflows
      rcases hop with ⟨hop, -⟩ | ⟨hop, -⟩ <;> rw [hop] at hflows <;> exact hflows
    refine .keeps ?_ (other ?_)
    · rw [hreturns.handlers]
      exact hm.discard hG hregions
    · rcases hop with ⟨hop, -⟩ | ⟨hop, -⟩ <;> rw [hop] <;> decide
  | throws _ _ hsure hthrows =>
    rcases hc.delivers hm.frames hthrows with ⟨k, g, r, h, hdelivers⟩
    exact .throws hdelivers (other hsure)

theorem Frame.Same.getElem?_push {f' : Frame} (hsame : f.Same f') (hg : (fs.push f)[k]? = some g) :
    ∃ g', (fs.push f')[k]? = some g' ∧ g'.Same g := by
  rw [Array.getElem?_push] at hg ⊢
  split at hg
  · next hk =>
    cases hg
    exact ⟨f', if_pos hk, hsame.symm⟩
  · next hk => exact ⟨g, (if_neg hk).trans hg, ⟨rfl, rfl, rfl⟩⟩

/-- A frame that is left over after a turn was there before. -/
theorem Machine.Shifts.same_at (h : m.Shifts fs f m') (hframes : m.frames = fs.push f) (hk : k < m'.frames.size)
    (hg : m.frames[k]? = some g) : ∃ g', m'.frames[k]? = some g' ∧ g'.Same g := by
  rw [hframes] at hg
  cases h with
  | stays hframes' hsame =>
    rw [hframes']
    exact hsame.getElem?_push hg
  | enters hframes' hsame =>
    rcases hsame.getElem?_push hg with ⟨g', hg', hsame'⟩
    have hlt := (Array.getElem?_eq_some_iff.mp hg').1
    refine ⟨g', ?_, hsame'⟩
    rw [hframes', Array.getElem?_push, if_neg (Nat.ne_of_lt hlt)]
    exact hg'
  | returns hframes' =>
    rw [hframes'] at hk ⊢
    rw [Array.getElem?_push, if_neg (Nat.ne_of_lt hk)] at hg
    exact ⟨g, hg, ⟨rfl, rfl, rfl⟩⟩
  | throws _ hsame hextract hsame' hframes' =>
    rcases hsame.getElem?_push hg with ⟨g₁, hg₁, hsame₁⟩
    rw [hframes', Array.size_push] at hk
    have hsize := congrArg Array.size hextract
    rw [Array.size_extract, Array.size_push, Array.size_push] at hsize
    have hleft := congrArg (·[k]?) hextract
    simp only [Array.getElem?_extract, Nat.zero_add, Nat.sub_zero, Array.size_push] at hleft
    rw [if_pos (by omega), hg₁] at hleft
    rcases hsame'.getElem?_push hleft.symm with ⟨g₂, hg₂, hsame₂⟩
    rw [hframes']
    exact ⟨g₂, hg₂, hsame₂.trans hsame₁⟩

theorem Machine.Records.same (h' : m.Records L f k p h hs) (hsame : f.Same g) : m.Records L g k p h hs := by
  rcases h'.frames with ⟨fs, f', hframes, hsize, hsame', hp⟩
  exact ⟨h'.waiting, ⟨fs, f', hframes, hsize, hsame'.trans hsame, hp⟩, h'.pushes, h'.handlers⟩

theorem Machine.Retains.same (h' : m.Retains f k h hs) (hsame : f.Same g) : m.Retains g k h hs := by
  rcases h'.frame with ⟨f', hf', hsame'⟩
  exact ⟨⟨f', hf', hsame'.trans hsame⟩, h'.handlers⟩

/-- Turn after turn all records are accounted for. -/
theorem Machine.Accounts.turn (ha : m.Accounts L ms) (ht : m.Handles L fs f m') (hshifts : m.Shifts fs f m')
    (hframes : m.frames = fs.push f) (hc : Shielded L m'.frames m'.handlers) : m'.Accounts L (ms ++ [m]) := by
  intro h hs hsuffix
  have hdepths := hc.depths h (hsuffix.subset List.mem_cons_self)
  -- a record that was there before stays, with its frame
  have old (hold : h :: hs <:+ m.handlers) :
      ∃ k f p, h.depth = k + 1 ∧ m'.frames[k]? = some f ∧ Recorded L (ms ++ [m] ++ [m']) f k p h hs := by
    rcases ha h hs hold with ⟨k, g, p, hdepth, hg, earlier, x, later, hms, hrecords, hretains⟩
    rcases hshifts.same_at hframes (by omega) hg with ⟨g', hg', hsame⟩
    refine ⟨k, g', p, hdepth, hg', earlier, x, later ++ [m'], ?_, hrecords.same hsame.symm, ?_⟩
    · rw [hms, List.append_assoc, List.cons_append]
    · intro z hz
      rcases List.mem_append.mp hz with hz | hz
      · exact (hretains z hz).same hsame.symm
      · rcases List.mem_singleton.mp hz with rfl
        exact ⟨⟨g', hg', ⟨rfl, rfl, rfl⟩⟩, hsuffix⟩
  cases ht with
  | @opens p k hw hp hpushes hhandlers =>
    rw [hhandlers] at hsuffix
    rcases List.suffix_cons_iff.mp hsuffix with heq | hold
    · rcases List.cons.inj heq with ⟨rfl, rfl⟩
      have hdepth : h.depth = fs.size + 1 := by
        rw [hpushes.record]
        rfl
      have htop : m.frames[fs.size]? = some f := by
        rw [hframes]
        exact Array.getElem?_push_size
      rcases hshifts.same_at hframes (by omega) htop with ⟨g, hg, hsame⟩
      have hrecords : m.Records L g fs.size p h m.handlers :=
        ⟨hw, ⟨fs, f, hframes, rfl, hsame.symm, hp⟩, hpushes, rfl⟩
      refine ⟨fs.size, g, p, hdepth, hg, ms, m, [m'], by simp, hrecords, ?_⟩
      intro z hz
      rcases List.mem_singleton.mp hz with rfl
      exact ⟨⟨g, hg, ⟨rfl, rfl, rfl⟩⟩, hhandlers ▸ List.suffix_refl _⟩
    · exact old hold
  | closes _ _ _ _ hhandlers =>
    exact old (hsuffix.trans (hhandlers ▸ List.suffix_cons _ _))
  | throws hdelivers =>
    exact old (hsuffix.trans (hdelivers.handlers ▸ List.suffix_cons _ _))
  | keeps hhandlers => exact old (hhandlers ▸ hsuffix)

end

end ScriptMachine
