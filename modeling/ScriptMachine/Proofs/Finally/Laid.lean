import ScriptMachine.Proofs.Layout.Cleanups
import ScriptMachine.Proofs.Machine.Over
import ScriptMachine.Proofs.Machine.Turn

/-!
# Functions that keep to the rules

A function is tidy if it has the layout of a tidy block. What the machine does when it runs such a
function can be read off the points of its layout: the instruction at which a frame stands is the item
of the point with the same offset (`Function.Laid.turns`), and every way from there leads to another
point of the layout (`Function.Laid.flows`).

`Machine.Moves` is a turn of a machine of which only tidy functions are in reach. Between two turns
other tasks may do to the world whatever keeps it so.
-/

namespace ScriptMachine

open Point

/-! ## Layouts of functions -/

/-- A spot right after a point: inside the same regions, in one more or in one less. -/
def Point.Near (p : Point) (s : Spot) : Prop :=
  s.regions = p.regions ∨ (∃ r, s.regions = r :: p.regions) ∨ ∃ r, p.regions = r :: s.regions

/-- Every way from a point leads to a spot that satisfies more. -/
theorem Point.Flows.imp {L L' : Spot → Prop} {p : Point} (h : p.Flows L)
    (hL : ∀ s, L s → p.Near s → L' s) : p.Flows L' := by
  have same : ∀ {o k : Nat} {u : Setup}, L ⟨o, p.regions, k, u⟩ → L' ⟨o, p.regions, k, u⟩ :=
    fun hs => hL _ hs (.inl rfl)
  cases hplain : p.item.opcode.isPlain with
  | true => exact (flows_plain hplain).mpr (same ((flows_plain hplain).mp h))
  | false =>
    unfold Point.Flows at h ⊢
    cases hop : p.item.opcode
    case jump =>
      rw [hop] at h
      exact ⟨h.1, same h.2⟩
    case jumpIfFalse =>
      rw [hop] at h
      exact ⟨h.1, same h.2.1, same h.2.2⟩
    case finallyEnd =>
      rw [hop] at h
      obtain ⟨hne, r, outer, hregions, hspot⟩ := h
      exact ⟨hne, r, outer, hregions, hL _ hspot (.inr (.inr ⟨r, hregions⟩))⟩
    case tryEnter =>
      rw [hop] at h
      obtain ⟨r, hopens, hbody, hres⟩ := h
      exact ⟨r, hopens, hL _ hbody (.inr (.inl ⟨r, rfl⟩)), fun t ht => same (hres.catches t ht),
        fun t ht => same (hres.cleans t ht), hres.some⟩
    case rethrow =>
      rw [hop] at h
      exact same h
    case returnValue | returnNull | halt =>
      rw [hop] at h
      exact h
    case throw => trivial
    all_goals
      rw [hop] at hplain
      cases hplain

theorem Point.Flows.mono {L L' : Spot → Prop} {p : Point} (h : p.Flows L) (hL : ∀ s, L s → L' s) :
    p.Flows L' := h.imp fun s hs _ => hL s hs

/-- The function has the code of a tidy block. -/
structure Function.Laid (f : Function) (code : List Point) : Prop where
  layout : ∃ n notes, n.isBlock = true ∧ Lays .top n 0 code notes ∧ Site.Tidy .top n
  holds : f.Holds code
  slots : ∀ p ∈ code, ∀ k, p.item.slot? = some k → k < f.locals

namespace Function.Laid

variable {f : Function} {code : List Point} {p q : Point}

theorem neat (h : f.Laid code) : Neat 0 code := by
  obtain ⟨n, notes, -, hlays, -⟩ := h.layout
  exact hlays.neat

theorem sized (h : f.Laid code) (hp : p ∈ code) : p.item.Sized :=
  (h.neat.split hp).choose_spec.choose_spec.2.2.2

theorem flows (h : f.Laid code) (hp : p ∈ code) : p.Flows (Lands True False code) := by
  obtain ⟨n, notes, hn, hlays, htidy⟩ := h.layout
  exact hlays.flows_block hn htidy.sound p hp

theorem takes_le (h : f.Laid code) (hp : p ∈ code) : p.item.takes ≤ p.height := by
  obtain ⟨n, notes, -, hlays, -⟩ := h.layout
  simpa [Context.top] using hlays.takes_le p hp

theorem kept (h : f.Laid code) (hp : p ∈ code) {r : Region} {rs : List Region}
    (hr : r :: rs <:+ p.regions) : r.Kept code rs := by
  obtain ⟨n, notes, hn, hlays, -⟩ := h.layout
  rcases (hlays.guards p hp).regions r rs hr with htop | hkept
  · simp [Context.top] at htop
  · exact hkept

theorem ends (h : f.Laid code) (hp : p ∈ code) (hop : p.item.opcode = .finallyEnd) : p.Ends code := by
  obtain ⟨n, notes, hn, hlays, -⟩ := h.layout
  rcases (hlays.guards p hp).ends hop with hends | ⟨depth, span, rfl, -⟩
  · exact hends
  · cases hn

theorem quiet (h : f.Laid code) (hp : p ∈ code) {r : Region} (hr : r ∈ p.regions) {F : Block}
    (hF : r.cleanup = some F) : F.Quiet := by
  obtain ⟨n, notes, hn, hlays, htidy⟩ := h.layout
  exact hlays.clean (Q := Block.Quiet) htidy.cleanups (by simp [Context.top, Region.Clean]) p hp r hr F hF

/-- The first point of a layout. -/
theorem starts (h : f.Laid code) : ∃ p ∈ code, p.spot = ⟨0, [], 0, .nothing⟩ := by
  obtain ⟨n, notes, hn, hlays, -⟩ := h.layout
  exact hlays.block_starts hn

/-- Different points have different offsets. -/
theorem eq_of_offset (h : f.Laid code) (hp : p ∈ code) (hq : q ∈ code) (heq : p.offset = q.offset) : p = q :=
  h.neat.eq_of_offset hp hq heq

/-! ## Turns -/

section

variable {s t : State} {fs : Array Frame} {g : Frame} {signal : Signal}

/-- What a turn of a machine does that does not wait. -/
theorem turns (h : g.closure.function.Laid code) (hp : p ∈ code) (hip : g.ip = p.offset)
    (hframes : s.machine.frames = fs.push g) (hw : s.machine.waiting = none)
    (hrun : Exec.advanceCatching.run s = .ok signal t) (hsignal : signal ≠ .halt) :
    s.machine.Turns fs g p.item t.machine := by
  have hcode : g.code[g.ip]? = some p.item.opcode.toByte := by
    rw [hip]
    exact getElem?_of_holds h.holds h.neat hp
  have hreads : readOperands? p.item.opcode g.code (g.ip + 1) = some p.item.read := by
    rw [hip]
    exact readOperands?_of_holds h.holds h.neat hp
  have hyields := Exec.yields_advanceCatching hframes hw hcode hreads (h.sized hp) (h.slots p hp)
  exact (hyields.ok hrun).resolve_left hsignal

end

end Function.Laid

/-! ## Machines that run tidy functions -/

/-- The function has a layout. -/
def Function.Tidy (f : Function) : Prop := ∃ code, f.Laid code

open Classical in
/-- The layout of a tidy function. -/
noncomputable def Function.layout (f : Function) : List Point :=
  if h : f.Tidy then h.choose else []

theorem Function.Tidy.laid {f : Function} (h : f.Tidy) : f.Laid f.layout := by
  unfold Function.layout
  rw [dif_pos h]
  exact h.choose_spec

/-- One turn of a run, in a world that other tasks may have changed. No functions get into reach but those
with `H`. -/
def State.Next (H : Function → Prop) (s t : State) : Prop :=
  s.machine.frames ≠ #[] ∧ ∃ w signal, w.Over H ∧ Exec.advanceCatching.run ⟨w, s.machine⟩ = .ok signal t ∧
    signal ≠ .halt

theorem State.Next.mono {H H' : Function → Prop} {s t : State} (h : s.Next H t) (hH : ∀ f, H f → H' f) :
    s.Next H' t := by
  obtain ⟨hframes, w, signal, hw, hrun⟩ := h
  exact ⟨hframes, w, signal, hw.mono hH, hrun⟩

theorem State.Next.confined {H : Function → Prop} {s t : State} (h : s.Next H t) (hs : s.machine.Over H) :
    t.machine.Over H := by
  obtain ⟨-, w, signal, hw, hrun, -⟩ := h
  exact (Exec.confines_advanceCatching.ok (s := ⟨w, s.machine⟩) ⟨hw, hs⟩ hrun).1.machine

/-- What a turn does to a machine. -/
structure Machine.Moves (m m' : Machine) : Prop where
  confined : m'.Over Function.Tidy
  turns : ∀ fs f code, m.frames = fs.push f → m.waiting = none → f.closure.function.Laid code →
    ∀ p ∈ code, f.ip = p.offset → m.Turns fs f p.item m'
  waits : ∀ fs f, m.frames = fs.push f → m.waiting.isSome = true →
    m.Works fs f m.sp f.ip (m.sp + 1) m' ∨ ∃ v, m.Throws fs f m.sp v m'

theorem State.Next.moves {s t : State} (h : s.Next Function.Tidy t) (hs : s.machine.Over Function.Tidy) :
    s.machine.Moves t.machine := by
  have hover := h.confined hs
  obtain ⟨-, w, signal, hw, hrun, hsignal⟩ := h
  refine ⟨hover, ?_, ?_⟩
  · intro fs f code hframes hwaiting hlaid p hp hip
    exact hlaid.turns (s := ⟨w, s.machine⟩) hp hip hframes hwaiting hrun hsignal
  · intro fs f hframes hwaiting
    obtain ⟨wait, hwait⟩ := Option.isSome_iff_exists.mp hwaiting
    exact (Exec.yields_advanceCatching_waiting (s := ⟨w, s.machine⟩) hframes hwait).ok hrun

end ScriptMachine
