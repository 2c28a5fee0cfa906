import ScriptMachine.Proofs.Frames.Program
import ScriptMachine.Proofs.Handlers.Records

/-!
# Handlers of programs

An early exit compiles the finally bodies of the regions that it leaves once more. If no jump in such a copy is for a
loop inside a region that was left (`Orderly`), the handlers of a run are those of the regions around the places of its
frames: the end of a region drops the record that the start of this region has pushed, and a thrown value goes to the
innermost region that is open in any frame (`Compiler.Built.handlers_of_regions`).
-/

namespace ScriptMachine

open Point

section

variable {G : Grade} {H : Function → Prop} {s t u : State} {ss before rest : List State}

/-- A turn of a run does with the handlers what it should. -/
theorem State.Next.handles (h : s.Next H t) (hm : s.machine.Piles G) (hG : G.regions) :
    ∃ fs f, s.machine.frames = fs.push f ∧ s.machine.Handles G.layout fs f t.machine ∧
      s.machine.Shifts fs f t.machine := by
  obtain ⟨fs, f, hframes⟩ := Array.eq_push_of_size_ne_zero (mt Array.eq_empty_of_size_eq_zero h.1)
  have hc := hm.frames.shielded hG
  refine ⟨fs, f, hframes, ?_⟩
  cases hw : s.machine.waiting with
  | none =>
    rcases hm.poised hframes hw with ⟨p, v, own, hs, hpoised⟩
    have hturns := (h.turns_at hpoised hw).1
    exact ⟨hturns.handles hpoised hG hw hc, hturns.shifts⟩
  | some wait =>
    have hnot {P : Prop} (hnone : s.machine.waiting = none) : P := by
      rw [hw] at hnone
      cases hnone
    rcases (h.waits hframes hw).1 with hworks | ⟨v, hthrows⟩
    · exact ⟨.keeps hworks.handlers fun hnone => hnot hnone, hworks.shifts⟩
    · rcases hc.delivers hframes hthrows with ⟨k, g, r, h, hdelivers⟩
      exact ⟨.throws hdelivers fun hnone => hnot hnone, hthrows.shifts⟩

/-- All records of a run are accounted for. -/
theorem State.Launches.accounts (h : s.Launches H) (hH : ∀ f, H f → f.Follows G) (hG : G.regions)
    (hss : (s :: ss).IsChain (State.Next H)) (hsplit : s :: ss = before ++ t :: rest) :
    t.machine.Accounts G.layout (before.map State.machine) := by
  induction before using List.reverseRecOn generalizing t rest with
  | nil =>
    rcases List.cons.inj hsplit with ⟨rfl, -⟩
    intro k hs hsuffix
    have hnil : s.machine.handlers = [] := by
      rcases h.begins.starts.2 with hidle | hfresh
      · exact hidle.handlers
      · exact hfresh.handlers
    rw [hnil] at hsuffix
    exact absurd (List.suffix_nil.mp hsuffix) (List.cons_ne_nil _ _)
  | append_singleton before x ih =>
    rw [List.append_assoc] at hsplit
    have hx := ih hsplit
    have hsuffix : x :: t :: rest <:+ s :: ss := ⟨before, hsplit.symm⟩
    rcases List.isChain_cons_cons.mp (hss.suffix hsuffix) with ⟨hnext, -⟩
    have hpiles := h.all_piles hH hss
    have hmem := hpiles x (hsuffix.subset List.mem_cons_self)
    have hmem' := hpiles t (hsuffix.subset (List.mem_cons_of_mem _ List.mem_cons_self))
    rcases hnext.handles hmem hG with ⟨fs, f, hframes, hhandles, hshifts⟩
    rw [List.map_append]
    exact hx.turn hhandles hshifts hframes (hmem'.frames.shielded hG)

end

/-- What becomes of the handlers in a turn after others. -/
structure Machine.Settles (L : Function → List Point) (ms : List Machine) (m m' : Machine) (fs : Array Frame)
    (f : Frame) : Prop where
  handles : m.Handles L fs f m'
  /-- The end of a region drops the record that the start of this region has pushed for this frame. -/
  closes : m.waiting = none → ∀ p, f.At L p → p.item.opcode = .finallyEnd → ∃ r rs h q, p.regions = r :: rs ∧
    m.handlers = h :: m'.handlers ∧ q.offset = r.enter ∧ Recorded L (ms ++ [m]) f fs.size q h m'.handlers
  throws : m.waiting = none → ∀ p, f.At L p → p.item.opcode = .throw → ∃ k g r h, m.Delivers L m' k g r h

theorem Machine.Handles.accounted {L : Function → List Point} {ms : List Machine} {m m' : Machine} {fs : Array Frame}
    {f : Frame} (h : m.Handles L fs f m') (ha : m.Accounts L ms) (hframes : m.frames = fs.push f)
    (hneat : Neat 0 (L f.closure.function)) : m.Settles L ms m' fs f := by
  refine ⟨h, fun hw p hp hop => ?_, fun hw p hp hop => ?_⟩
  · cases h with
    | opens _ hp' hpushes =>
      have hother := hpushes.opcode
      rw [hp.eq hp' hneat, hop] at hother
      cases hother
    | @closes p' r rs k _ hp' _ hregions hhandlers hmarks =>
      rw [hp.eq hp' hneat] at hregions
      rcases hmarks.pushed with ⟨q', -, -, hpushes'⟩
      have hdepth : k.depth = fs.size + 1 := by
        rw [hpushes'.record]
        rfl
      rcases ha k m'.handlers (hhandlers ▸ List.suffix_refl _) with ⟨j, g, q, hdepth', hg, hrecorded⟩
      have hj : j = fs.size := by omega
      subst hj
      rw [hframes, Array.getElem?_push_size] at hg
      cases hg
      refine ⟨r, rs, k, q, hregions, hhandlers, ?_, hrecorded⟩
      rcases hrecorded with ⟨_, x, _, -, hrecords, -⟩
      rcases hrecords.frames with ⟨gs, g, -, -, hsame, hq⟩
      refine hmarks.only q ?_ hrecords.pushes
      rw [hsame.closure]
      exact hq.mem
    | throws _ hsure =>
      have hnot := hsure hw p hp
      rw [hop] at hnot
      cases hnot
    | keeps _ hnot => exact absurd (by simp [hop]) (hnot hw p hp)
  · cases h with
    | opens _ hp' hpushes =>
      have hother := hpushes.opcode
      rw [hp.eq hp' hneat, hop] at hother
      cases hother
    | closes _ hp' hother =>
      rw [hp.eq hp' hneat, hop] at hother
      cases hother
    | throws hdelivers => exact ⟨_, _, _, _, hdelivers⟩
    | keeps _ hnot => exact absurd (by simp [hop]) (hnot hw p hp)

section

variable {us : List (List Stmt)} {c c' : Compiler} {p : Program} {unit : UnitCode}

/-- In every state of a run the handlers are those of the regions around the places of the frames. The end of a region
drops the record that the start of this region has pushed, and a thrown value goes to the innermost region that is
open. -/
theorem Compiler.Built.handlers_of_regions (h : Built us c) (hp : Orderly True False (c.statements p) us)
    (hcompile : c.compile p = .ok (unit, c')) : ∃ L : Function → List Point,
    (∀ f, unit.Runs c' f → ∃ n notes, f.Renders (c.statements p) us n (L f) notes) ∧
    ∀ (s : State) (ss : List State), s.Launches (unit.Runs c') → (s :: ss).IsChain (State.Next (unit.Runs c')) →
      (∀ t ∈ s :: ss, Shielded L t.machine.frames t.machine.handlers) ∧
      ∀ (before : List State) (t u : State) (rest : List State), s :: ss = before ++ t :: u :: rest →
        ∃ fs f, t.machine.frames = fs.push f ∧ t.machine.Settles L (before.map State.machine) u.machine fs f := by
  rcases h.exists_layouts hp hcompile with ⟨L, hL⟩
  let G : Grade := ⟨L, True, False⟩
  have hH : ∀ f, unit.Runs c' f → f.Follows G := fun f hf => (hL f hf).2
  refine ⟨L, fun f hf => (hL f hf).1, fun s ss hs hss => ⟨fun t ht => ?_, fun before t u rest hsplit => ?_⟩⟩
  · exact (hs.all_piles hH hss t ht).frames.shielded (G := G) trivial
  · have hsuffix : t :: u :: rest <:+ s :: ss := ⟨before, hsplit.symm⟩
    rcases List.isChain_cons_cons.mp (hss.suffix hsuffix) with ⟨hnext, -⟩
    have hpiles := hs.all_piles hH hss t (hsuffix.subset List.mem_cons_self)
    rcases hnext.handles hpiles trivial with ⟨fs, f, hframes, hhandles, -⟩
    have haccounts := hs.accounts hH (G := G) trivial hss hsplit
    have hover := hs.begins.confined hss t (hsuffix.subset List.mem_cons_self)
    have hfollows := hH _ (hover.frames f (by simp [hframes])).closure
    exact ⟨fs, f, hframes, hhandles.accounted haccounts hframes hfollows.sound.neat⟩

end

theorem cleanedThrow_launches (H : Function → Prop) (hmain : H cleanedThrow.frame.closure.function) :
    (cleanedThrow.after 0).Launches H := by
  have hnew := Machine.null_new #[] cleanedThrow.frame.closure .empty { stackSize := 4 }
  exact .block (over_cleanedThrow H) hnew.1 hnew.2 hmain rfl

/-- The value is thrown in the third turn of the run. -/
theorem cleanedThrow_handlers_of_regions : ∃ c' L,
    (Compiler.new .empty #[] false).compile ⟨[cleanedThrow]⟩ = .ok (cleanedThrow.unit, c') ∧
    (cleanedThrow.after 0).Launches (cleanedThrow.unit.Runs c') ∧
    ((List.range 6).map cleanedThrow.after).IsChain (State.Next (cleanedThrow.unit.Runs c')) ∧
    (∀ t ∈ (List.range 6).map cleanedThrow.after, Shielded L t.machine.frames t.machine.handlers) ∧
    ∃ fs f, (cleanedThrow.after 2).machine.frames = fs.push f ∧
      (cleanedThrow.after 2).machine.Settles L (([0, 1].map cleanedThrow.after).map State.machine)
        (cleanedThrow.after 3).machine fs f := by
  rcases compile_cleanedThrow with ⟨c', hcompile⟩
  have hlaunches := cleanedThrow_launches (cleanedThrow.unit.Runs c') (.inl rfl)
  have hchain := isChain_cleanedThrow (cleanedThrow.unit.Runs c')
  have horderly : Orderly True False [cleanedThrow] [] := regular_cleanedThrow.orderly (List.forall_mem_nil _)
  rcases Compiler.Built.handlers_of_regions (.new .empty 0 false) horderly hcompile with ⟨L, -, hruns⟩
  rcases hruns _ _ hlaunches hchain with ⟨hshielded, hkeeps⟩
  exact ⟨c', L, hcompile, hlaunches, hchain, hshielded, hkeeps [cleanedThrow.after 0, cleanedThrow.after 1] _ _ _ rfl⟩

end ScriptMachine
