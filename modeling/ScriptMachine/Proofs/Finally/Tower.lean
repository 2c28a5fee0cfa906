import ScriptMachine.Proofs.Finally.Laid

/-!
# Frames above a frame

While control stays in a part of the code of a frame, calls from there put other frames on top of it,
and handlers and operands of all these frames come on top of what was there before. A `Ground` says
what lies below: the frame with the points of its code that count as inside, the slot from which on it
may use the stack, and the handlers that belong to others. `Tower` is the invariant of the frames, the
handlers and the height of the stack above a ground.

`Machine.Inside.moves` says what a turn does: the tower stands as before, or control leaves it in one
of four ways (`Ground.Leaves`). Nothing below the ground is written, apart from locals of the frame.
-/

namespace ScriptMachine

open Point

/-- Height of the stack of a machine. A machine that waits owes one value. -/
def Machine.height (m : Machine) : Nat := m.sp + if m.waiting.isSome then 1 else 0

theorem Machine.height_of_none {m : Machine} (h : m.waiting = none) : m.height = m.sp := by
  simp [height, h]

/-! ## Grounds -/

/-- What lies below a tower of frames. -/
structure Ground where
  /-- The lowest frame of the tower. -/
  frame : Frame
  /-- The frames below it. -/
  below : Array Frame
  /-- The layouts of tidy functions. -/
  layout : Function → List Point
  /-- The slot of its lowest operand. -/
  base : Nat
  /-- Number of operands that are left alone. -/
  bottom : Nat
  /-- Whether the heights in its code are exact. -/
  exact : Prop
  /-- Regions that stay open all the time. -/
  outer : List Region
  /-- The handlers below. -/
  handlers : List Handler
  /-- The points of its code that count as inside. -/
  points : Point → Prop
  /-- The spots where control may leave them. -/
  out : Spot → Prop

namespace Ground

def depth (G : Ground) : Nat := G.below.size + 1

def floor (G : Ground) : Nat := G.base + G.bottom

/-- The code of the lowest frame. -/
def code (G : Ground) : List Point := G.layout G.frame.closure.function

/-- Control that stands at a spot may go on inside, or leaves there. -/
def Leads (G : Ground) (s : Spot) : Prop := (∃ q, G.points q ∧ s.Meets True G.exact q.spot) ∨ G.out s

/-- A handler of the lowest frame for a region. -/
structure Fits (G : Ground) (h : Handler) (r : Region) : Prop where
  catchTarget : h.catchTarget = r.catchTarget
  finallyTarget : h.finallyTarget = r.finallyTarget
  depth : h.depth = G.depth
  enough : G.base + r.height ≤ h.sp
  exact : G.exact → h.sp = G.base + r.height

/-- The regions around the place of the lowest frame, and the handlers for them. -/
inductive Opened (G : Ground) : List Region → List Handler → Prop where
  | none : Opened G G.outer G.handlers
  | more {r rs h hs} : G.Fits h r → Opened G rs hs → Opened G (r :: rs) (h :: hs)

/-- What has to be known of a ground. -/
structure Sound (G : Ground) : Prop where
  layout : ∀ f : Function, f.Tidy → f.Laid (G.layout f)
  tidy : G.frame.closure.function.Tidy
  mem : ∀ p, G.points p → p ∈ G.code
  takes : ∀ p, G.points p → G.bottom + p.item.takes ≤ p.height
  flows : ∀ p, G.points p → p.Flows G.Leads
  enters : ∀ p, G.points p → ∀ r rs, r :: rs <:+ p.regions → G.outer <:+ rs →
    ∃ q, G.points q ∧ q.Enters r rs
  out : ∀ s, G.out s → s.regions <:+ G.outer
  locals : G.frame.base + G.frame.closure.function.locals ≤ G.base
  handlers : ∀ h ∈ G.handlers, h.depth ≤ G.depth

variable {G : Ground} {r : Region} {rs : List Region} {hs : List Handler}

theorem Sound.laid (hG : G.Sound) : G.frame.closure.function.Laid G.code := hG.layout _ hG.tidy

theorem Opened.split (h : G.Opened rs hs) : (rs = G.outer ∧ hs = G.handlers) ∨
    ∃ r rs' k hs', rs = r :: rs' ∧ hs = k :: hs' ∧ G.Fits k r ∧ G.Opened rs' hs' := by
  cases h with
  | none => exact .inl ⟨rfl, rfl⟩
  | more hfits hopen => exact .inr ⟨_, _, _, _, rfl, rfl, hfits, hopen⟩

theorem Opened.suffix (h : G.Opened rs hs) : G.outer <:+ rs := by
  induction h with
  | none => exact List.suffix_refl _
  | more _ _ ih => exact ih.trans (List.suffix_cons _ _)

theorem Opened.depth_le (h : G.Opened rs hs) (hG : ∀ k ∈ G.handlers, k.depth ≤ G.depth) :
    ∀ k ∈ hs, k.depth ≤ G.depth := by
  induction h with
  | none => exact hG
  | more hfits _ ih => exact List.forall_mem_cons.mpr ⟨Nat.le_of_eq hfits.depth, ih⟩

end Ground

/-- A frame stands at a spot, over the ground of its own tower. -/
structure Frame.Stands (f : Frame) (G : Ground) (s : Spot) (height : Nat) (hs : List Handler) :
    Prop where
  ip : f.ip = s.offset
  enough : G.base + s.height ≤ height
  exact : G.exact → height = G.base + s.height
  opened : G.Opened s.regions hs

section

variable {G : Ground} {f g : Frame} {fs : Array Frame} {p : Point} {s : Spot} {L : Spot → Prop}
  {m m' : Machine} {hs : List Handler} {height low : Nat}

theorem Frame.Stands.meets (h : f.Stands G s height hs) (hmeets : s.Meets True G.exact p.spot) :
    f.Stands G p.spot height hs where
  ip := h.ip.trans hmeets.offset
  enough := Nat.le_trans (Nat.add_le_add_left hmeets.enough _) h.enough
  exact hexact := by rw [h.exact hexact, hmeets.height hexact]
  opened := by rw [← hmeets.regions trivial]; exact h.opened

/-! ## Turns of the running frame -/

/-- How a turn ends for the running frame. Nothing below `low` is written. -/
inductive Machine.Steps (m : Machine) (fs : Array Frame) (f : Frame) (G : Ground) (low : Nat)
    (m' : Machine) : Prop where
  | goes {s : Spot} {g : Frame} : G.Leads s → m'.frames = fs.push g → f.Same g →
    g.Stands G s m'.height m'.handlers → (m'.waiting.isSome = true → low ≤ m'.sp) →
    f.Spares low m.stack m'.stack → Steps m fs f G low m'
  | closes {p : Point} {g : Frame} {r : Region} {rs : List Region} : G.points p →
    f.Stands G p.spot m.sp m.handlers → p.item.opcode = .finallyEnd → p.regions = r :: rs →
    G.outer = r :: rs → m.handlers = G.handlers → m.waiting = none →
    G.Leads ⟨p.item.operand 0, rs, p.height, .nothing⟩ → m'.frames = fs.push g → f.Same g →
    g.ip = p.item.operand 0 → m'.handlers = G.handlers.tail → m'.sp = m.sp → m'.waiting = none →
    f.Spares m.sp m.stack m'.stack → Steps m fs f G low m'
  | enters {s : Spot} {g k : Frame} : G.Leads s → m'.frames = (fs.push g).push k → f.Same g →
    g.Stands G s (k.resultSlot + 1) m'.handlers → k.ip = 0 → k.resultSlot = low →
    m'.sp = k.base + k.closure.function.locals → m'.waiting = none → f.Spares low m.stack m'.stack →
    Steps m fs f G low m'
  | returns {p : Point} {v : Value} : G.points p →
    p.item.opcode = .returnValue ∨ p.item.opcode = .returnNull → p.regions = [] →
    m.Returns fs f low v m' → G.Opened p.regions m.handlers → Steps m fs f G low m'
  | throws {v : Value} : m.Throws fs f low v m' → Steps m fs f G low m'

/-- The machine has worked in the frame, which stands at `s` then. -/
theorem Machine.Works.goes {ip sp : Nat} (h : m.Works fs f low ip sp m') (hL : G.Leads s) (hip : ip = s.offset)
    (henough : G.base + s.height ≤ sp) (hexact : G.exact → sp = G.base + s.height)
    (hopen : G.Opened s.regions m.handlers) : m.Steps fs f G low m' := by
  obtain ⟨g, hframes, hsame, hg⟩ := h.frames
  have hheight : m'.height = sp := h.sp
  refine .goes hL hframes hsame ⟨hg.trans hip, ?_, fun he => ?_, ?_⟩ h.owes h.stack
  · rw [hheight]
    exact henough
  · rw [hheight]
    exact hexact he
  · rw [h.handlers]
    exact hopen

/-- A turn of a machine that does not wait. -/
theorem Machine.Turns.steps (h : m.Turns fs f p.item m') (hG : G.Sound) (hp : G.points p)
    (hs : f.Stands G p.spot m.sp m.handlers) (hw : m.waiting = none) (hdepth : m.frames.size = G.depth) :
    m.Steps fs f G (m.sp - p.item.takes) m' := by
  have hL := hG.flows p hp
  have htakes := hG.takes p hp
  have hip : f.ip = p.offset := hs.ip
  have henough : G.base + p.height ≤ m.sp := hs.enough
  have hexact : G.exact → m.sp = G.base + p.height := hs.exact
  have hopen : G.Opened p.regions m.handlers := hs.opened
  cases h with
  | works hplain hworks =>
    rw [flows_plain hplain] at hL
    refine hworks.goes hL (by rw [hip]) ?_ (fun he => ?_) hopen
    · show _ + (p.height - p.item.takes + p.item.leaves) ≤ _
      omega
    · show _ = _ + (p.height - p.item.takes + p.item.leaves)
      have := hexact he
      omega
  | jumps hop hworks =>
    have hzero : p.item.takes = 0 := by simp [Emitted.takes, hop]
    unfold Point.Flows at hL
    rw [hop] at hL
    rw [hzero]
    exact hworks.goes hL.2 rfl henough hexact hopen
  | branches hop hto hworks =>
    have hone : p.item.takes = 1 := by simp [Emitted.takes, hop]
    rw [hone] at htakes ⊢
    unfold Point.Flows at hL
    rw [hop] at hL
    have hlow : G.base + (p.height - 1) ≤ m.sp - 1 := by omega
    have heq : G.exact → m.sp - 1 = G.base + (p.height - 1) := fun he => by
      have := hexact he
      omega
    rcases hto with rfl | rfl
    · exact hworks.goes hL.2.1 rfl hlow heq hopen
    · exact hworks.goes hL.2.2 (by rw [hip]) hlow heq hopen
  | opens hop hworks =>
    have hzero : p.item.takes = 0 := by simp [Emitted.takes, hop]
    unfold Point.Flows at hL
    rw [hop] at hL
    obtain ⟨r, hopens, hbody, -⟩ := hL
    have hfits : G.Fits (.ofOperands (p.item.operand 0) (p.item.operand 1) m.frames.size m.sp) r := by
      refine ⟨hopens.catchTarget.symm, hopens.finallyTarget.symm, hdepth, ?_, fun he => ?_⟩
      · rw [hopens.height]
        exact henough
      · rw [hopens.height]
        exact hexact he
    rw [hzero]
    obtain ⟨g, hframes, hsame, hg⟩ := hworks.frames
    have hheight : m'.height = m.sp := hworks.sp
    refine .goes hbody hframes hsame ⟨by rw [hg, hip], ?_, fun he => ?_, ?_⟩ hworks.owes hworks.stack
    · rw [hheight]
      exact henough
    · rw [hheight]
      exact hexact he
    · rw [hworks.handlers]
      exact .more hfits hopen
  | closes hop hworks hwaiting =>
    have hzero : p.item.takes = 0 := by simp [Emitted.takes, hop]
    unfold Point.Flows at hL
    rw [hop] at hL
    obtain ⟨-, r, rs, hregions, hL⟩ := hL
    rw [hzero]
    obtain ⟨g, hframes, hsame, hg⟩ := hworks.frames
    have hheight : m'.height = m.sp := hworks.sp
    rcases hopen.split with ⟨houter, hhandlers⟩ | ⟨r', rs', k, hs', hregions', hhandlers, -, hopen⟩
    · rw [hregions] at houter
      refine .closes hp hs hop hregions houter.symm hhandlers hw hL hframes hsame hg ?_ ?_ hwaiting
        hworks.stack
      · rw [hworks.handlers, hhandlers]
      · rw [← hheight, Machine.height_of_none hwaiting]
    · refine .goes hL hframes hsame ⟨hg, ?_, fun he => ?_, ?_⟩ hworks.owes hworks.stack
      · rw [hheight]
        exact henough
      · rw [hheight]
        exact hexact he
      · rw [hregions] at hregions'
        cases hregions'
        rw [hworks.handlers, hhandlers]
        exact hopen
  | resumes hop _ hworks _ =>
    have htwo : p.item.takes = 2 := by simp [Emitted.takes, hop]
    rw [htwo] at htakes ⊢
    unfold Point.Flows at hL
    rw [hop] at hL
    refine hworks.goes hL (by rw [hip]) ?_ (fun he => ?_) hopen
    · show _ + (p.height - 2) ≤ _
      omega
    · show _ = _ + (p.height - 2)
      have := hexact he
      omega
  | enters hcall henters =>
    have hop : p.item.opcode.isPlain = true ∧ p.item.leaves = 1 := by
      unfold Emitted.leaves
      revert hcall
      cases p.item.opcode <;> simp [Opcode.isCall, Opcode.isPlain]
    rw [flows_plain hop.1] at hL
    obtain ⟨g, k, hframes, hsame, hg, hk, hslot, hsp⟩ := henters.frames
    refine .enters hL hframes hsame ⟨by rw [hg, hip], ?_, fun he => ?_, ?_⟩ hk hslot hsp henters.waiting
      henters.stack
    · show _ + (p.height - p.item.takes + p.item.leaves) ≤ _
      rw [hop.2, hslot]
      omega
    · show _ = _ + (p.height - p.item.takes + p.item.leaves)
      have := hexact he
      rw [hop.2, hslot]
      omega
    · rw [henters.handlers]
      exact hopen
  | returns hop hreturns =>
    refine .returns hp (hop.imp And.left And.left) ?_ hreturns hopen
    unfold Point.Flows at hL
    rcases hop with ⟨hop, -⟩ | ⟨hop, -⟩ <;> rwa [hop] at hL
  | throws _ _ _ hthrows => exact .throws hthrows

/-! ## Throws -/

/-- A region that is entered at some point goes on where that point says. -/
theorem Point.Enters.resumes {q : Point} {r : Region} {rs : List Region} (h : q.Enters r rs)
    (hq : q.Flows L) : r.Resumes L rs := by
  unfold Point.Flows at hq
  rw [h.opcode] at hq
  obtain ⟨r', hopens, -, hres⟩ := hq
  have hcatch : r'.catchTarget = r.catchTarget := hopens.catchTarget.trans h.catchTarget.symm
  have hfinally : r'.finallyTarget = r.finallyTarget := hopens.finallyTarget.trans h.finallyTarget.symm
  have hheight : r'.height = r.height := hopens.height.trans h.height.symm
  rw [h.regions] at hres
  refine ⟨fun t ht => ?_, fun t ht => ?_, ?_⟩
  · rw [← hheight]
    exact hres.catches t (by rwa [hcatch])
  · rw [← hheight]
    exact hres.cleans t (by rwa [hfinally])
  · rw [← hcatch, ← hfinally]
    exact hres.some

/-- A handler of the lowest frame receives a value. -/
theorem Ground.Fits.receives {h : Handler} {r : Region} {rs : List Region} {v : Value} {target : Nat}
    (hfits : G.Fits h r) (hopen : G.Opened rs m'.handlers) (hres : r.Resumes L rs)
    (hreceives : h.Receives v m' target) (hw : m'.waiting = none) (hg : g.ip = target) :
    ∃ s, L s ∧ g.Stands G s m'.height m'.handlers := by
  have henough := hfits.enough
  rw [Machine.height_of_none hw]
  cases hreceives with
  | catches ht hsp =>
    refine ⟨_, hres.catches target (by rw [← hfits.catchTarget]; exact ht), hg, ?_, fun he => ?_, hopen⟩
    · show _ + (r.height + 1) ≤ _
      omega
    · show _ = _ + (r.height + 1)
      have := hfits.exact he
      omega
  | cleans _ ht hsp =>
    refine ⟨_, hres.cleans target (by rw [← hfits.finallyTarget]; exact ht), hg, ?_, fun he => ?_, hopen⟩
    · show _ + (r.height + 2) ≤ _
      omega
    · show _ = _ + (r.height + 2)
      have := hfits.exact he
      omega

end

/-! ## Towers -/

/-- The ground of a frame that was entered by a call: all of its code counts. -/
def Frame.ground (f : Frame) (layout : Function → List Point) (fs : Array Frame) (hs : List Handler) : Ground where
  frame := f
  below := fs
  layout
  base := f.base + f.closure.function.locals
  bottom := 0
  exact := False
  outer := []
  handlers := hs
  points p := p ∈ layout f.closure.function
  out _ := False

/-- The frames of a machine, the height of its stack and its handlers, from a ground on. -/
inductive Tower (G : Ground) : Array Frame → Nat → List Handler → Prop where
  | ground {f : Frame} {s : Spot} {height : Nat} {hs : List Handler} : G.frame.Same f → G.Leads s →
    f.Stands G s height hs → Tower G (G.below.push f) height hs
  | call {fs : Array Frame} {f₀ f : Frame} {p : Point} {height : Nat} {hs hs' : List Handler} :
    Tower G fs (f.resultSlot + 1) hs' → f₀.closure.function.Tidy → f₀.Same f →
    p ∈ G.layout f₀.closure.function → G.floor ≤ f.resultSlot →
    f.Stands (f₀.ground G.layout fs hs') p.spot height hs → Tower G (fs.push f) height hs

/-- Control of a machine is above a ground. -/
structure Machine.Inside (m : Machine) (G : Ground) : Prop where
  tower : Tower G m.frames m.height m.handlers
  owes : m.waiting.isSome = true → G.floor ≤ m.sp

/-- Control of a machine is at a spot where it may leave the points of a ground. -/
structure Machine.AtEnd (m : Machine) (G : Ground) : Prop where
  waiting : m.waiting = none
  stands : ∃ f s, m.frames = G.below.push f ∧ G.frame.Same f ∧ G.out s ∧ f.Stands G s m.sp m.handlers

/-- How control leaves the points of a ground elsewhere. -/
inductive Ground.Leaves (G : Ground) (m m' : Machine) : Prop where
  /-- The innermost region of those that are open all the time is left. -/
  | closes {p : Point} {f g : Frame} {r : Region} {rs : List Region} : G.points p →
    p.item.opcode = .finallyEnd → p.regions = r :: rs → G.outer = r :: rs →
    m.frames = G.below.push f → G.frame.Same f → f.Stands G p.spot m.sp m.handlers → m.waiting = none →
    m.handlers = G.handlers → G.Leads ⟨p.item.operand 0, rs, p.height, .nothing⟩ →
    m'.frames = G.below.push g → G.frame.Same g → g.ip = p.item.operand 0 →
    m'.handlers = G.handlers.tail → m'.sp = m.sp → m'.waiting = none →
    G.frame.Spares m.sp m.stack m'.stack → Leaves G m m'
  /-- The lowest frame is left. -/
  | returns {p : Point} {f : Frame} {low : Nat} {v : Value} : G.points p →
    p.item.opcode = .returnValue ∨ p.item.opcode = .returnNull → G.outer = [] → p.regions = [] →
    m.frames = G.below.push f → G.frame.Same f → m.handlers = G.handlers →
    m.Returns G.below f low v m' → Leaves G m m'
  /-- A value is thrown out of the tower. -/
  | throws {v : Value} {f : Frame} : G.frame.Same f → m.handlers = G.handlers →
    m.Throws G.below f G.floor v m' → Leaves G m m'

section

variable {G : Ground} {f g : Frame} {fs fs' : Array Frame} {p : Point} {s : Spot} {m m' : Machine}
  {hs : List Handler} {h : Handler} {height low target : Nat} {v : Value}

theorem Frame.resultSlot_le (f : Frame) : f.resultSlot ≤ f.base := by
  unfold Frame.resultSlot
  split <;> omega

theorem Ground.leads_point (hp : G.points p) : G.Leads p.spot := .inl ⟨p, hp, .refl True G.exact p.spot⟩

/-- All of the code of a tidy function is a sound ground. -/
theorem Frame.sound_ground {layout : Function → List Point} (hlayout : ∀ f : Function, f.Tidy → f.Laid (layout f))
    (hf : f.closure.function.Tidy) (hhs : ∀ h ∈ hs, h.depth ≤ fs.size) : (f.ground layout fs hs).Sound where
  layout := hlayout
  tidy := hf
  mem _ hp := hp
  takes p hp := by
    show 0 + _ ≤ _
    rw [Nat.zero_add]
    exact (hlayout _ hf).takes_le hp
  flows p hp := Point.Flows.mono ((hlayout _ hf).flows hp) fun _ hspot => .inl hspot
  enters p hp r rs hr _ := by
    obtain ⟨q, hq, henters⟩ := ((hlayout _ hf).kept hp hr).enters
    exact ⟨q, hq, henters⟩
  out _ hs := hs.elim
  locals := Nat.le_refl _
  handlers h hh := Nat.le_succ_of_le (hhs h hh)

theorem Tower.depth_le (ht : Tower G fs height hs) (hG : G.Sound) : ∀ h ∈ hs, h.depth ≤ fs.size := by
  induction ht with
  | ground _ _ hstands =>
    rw [Array.size_push]
    exact hstands.opened.depth_le hG.handlers
  | call _ _ _ _ _ hstands ih =>
    rw [Array.size_push]
    exact hstands.opened.depth_le fun k hk => Nat.le_succ_of_le (ih k hk)

/-- The frames below and the lowest frame are there. -/
theorem Tower.lowest (ht : Tower G fs height hs) : ∃ f, G.frame.Same f ∧ G.depth ≤ fs.size ∧
    ∀ d ≤ G.depth, fs.extract 0 d = (G.below.push f).extract 0 d := by
  induction ht with
  | @ground f _ _ _ hsame => exact ⟨f, hsame, by simp [Ground.depth], fun _ _ => rfl⟩
  | @call fs _ g _ _ _ _ _ _ _ _ _ _ ih =>
    obtain ⟨f, hsame, hle, hextract⟩ := ih
    refine ⟨f, hsame, by rw [Array.size_push]; omega, fun d hd => ?_⟩
    rw [Array.extract_push_of_le (Nat.le_trans hd hle)]
    exact hextract d hd

/-! ## Throws -/

/-- The lowest frame of a ground, or another one for which the same holds, receives a value: in one of its own
regions, or below. -/
theorem Ground.Sound.receives (hG : G.Sound) (hs : G.Leads s) (hopen : G.Opened s.regions (h :: m'.handlers))
    (hreceives : h.Receives v m' target) (hw : m'.waiting = none) (hg : g.ip = target) :
    G.handlers = h :: m'.handlers ∨ h.depth = G.depth ∧ G.floor ≤ h.sp ∧
      ∃ s', G.Leads s' ∧ g.Stands G s' m'.height m'.handlers := by
  rcases hopen.split with ⟨-, hhandlers⟩ | ⟨r, rs, k, hs', hregions, hhandlers, hfits, hopen'⟩
  · exact .inl hhandlers.symm
  · cases hhandlers
    have hsuffix := hopen'.suffix
    -- a spot where control may leave has no regions of its own
    obtain ⟨q, hq, hmeets⟩ : ∃ q, G.points q ∧ s.Meets True G.exact q.spot := by
      refine hs.resolve_right fun hout => ?_
      have hlen := (hG.out s hout).length_le
      have := hsuffix.length_le
      rw [hregions, List.length_cons] at hlen
      omega
    have hq' : q.regions = r :: rs := (hmeets.regions trivial).symm.trans hregions
    obtain ⟨e, he, henters⟩ := hG.enters q hq r rs (hq'.symm ▸ List.suffix_refl _) hsuffix
    have hres := henters.resumes (hG.flows e he)
    refine .inr ⟨hfits.depth, ?_, hfits.receives hopen' hres hreceives hw hg⟩
    have hbottom := hG.takes e he
    have hheight := henters.height
    have henough := hfits.enough
    unfold Ground.floor
    omega

/-- All frames are taken where the lowest of those that count is the one on top. -/
theorem Array.extract_whole {fs fs' : Array Frame} {f g : Frame} {d : Nat} (hd : d = fs.size + 1)
    (h : (fs.push f).extract 0 d = fs'.push g) : fs' = fs ∧ g = f := by
  rw [hd, show fs.size + 1 = (fs.push f).size by simp, Array.extract_size] at h
  have heq := Array.push_eq_push.mp h
  exact ⟨heq.2.symm, heq.1.symm⟩

/-- A value is thrown to a handler of a tower: the tower stands again, or the handler is not one of its
own. -/
theorem Tower.catches (ht : Tower G fs height hs) (hG : G.Sound) (hhs : hs = h :: m'.handlers)
    (hreceives : h.Receives v m' target) (hw : m'.waiting = none)
    (hextract : fs.extract 0 h.depth = fs'.push g) (hframes : m'.frames = fs'.push { g with ip := target }) :
    G.handlers = h :: m'.handlers ∨ G.floor ≤ h.sp ∧ m'.Inside G := by
  have howes : m'.waiting.isSome = true → G.floor ≤ m'.sp := by simp [hw]
  induction ht with
  | @ground f s _ _ hsame hleads hstands =>
    rcases hG.receives (g := { g with ip := target }) hleads (hhs ▸ hstands.opened) hreceives hw rfl with
      houter | ⟨hdepth, hfloor, s', hleads', hstands'⟩
    · exact .inl houter
    · obtain ⟨rfl, rfl⟩ := Array.extract_whole hdepth hextract
      refine .inr ⟨hfloor, ?_, howes⟩
      rw [hframes]
      exact .ground ⟨hsame.closure, hsame.base, hsame.kind⟩ hleads' hstands'
  | @call fs f₀ f p _ _ hs' ht htidy hsame hp hfloor hstands ih =>
    have hsound := Frame.sound_ground hG.layout htidy (ht.depth_le hG)
    rcases hsound.receives (g := { g with ip := target }) (Ground.leads_point hp) (hhs ▸ hstands.opened) hreceives hw
      rfl with houter | ⟨hdepth, hfloor', s', hleads', hstands'⟩
    · have hle := ht.depth_le hG h (by rw [show hs' = _ from houter]; exact List.mem_cons_self)
      rw [Array.extract_push_of_le hle] at hextract
      exact ih houter hextract
    · obtain ⟨rfl, rfl⟩ := Array.extract_whole hdepth hextract
      obtain ⟨q, hq, hmeets⟩ := hleads'.resolve_right id
      refine .inr ⟨?_, ?_, howes⟩
      · have hslot := g.resultSlot_le
        have hbase : f₀.base + f₀.closure.function.locals + 0 ≤ h.sp := hfloor'
        have := hsame.base
        omega
      · rw [hframes]
        exact .call ht htidy ⟨hsame.closure, hsame.base, hsame.kind⟩ hq hfloor (hstands'.meets hmeets)

/-! ## Turns -/

/-- The running frame of a tower calls. -/
theorem Tower.enters {k : Frame} (ht : Tower G fs (k.resultSlot + 1) m'.handlers) (hG : G.Sound)
    (hm : m'.Over Function.Tidy) (hframes : m'.frames = fs.push k) (hip : k.ip = 0)
    (hfloor : G.floor ≤ k.resultSlot) (hsp : m'.sp = k.base + k.closure.function.locals)
    (hw : m'.waiting = none) : m'.Inside G := by
  have htidy : k.closure.function.Tidy := (hm.frames k (by rw [hframes]; exact Array.mem_push_self)).closure
  obtain ⟨p, hp, hspot⟩ := (hG.layout _ htidy).starts
  refine ⟨?_, by simp [hw]⟩
  rw [hframes]
  refine .call ht htidy ⟨rfl, rfl, rfl⟩ hp hfloor ?_
  rw [hspot, Machine.height_of_none hw, hsp]
  exact ⟨hip, Nat.le_refl _, False.elim, .none⟩

/-- A turn of a machine whose running frame stands over a ground, unless it is where it may leave. -/
theorem Machine.Moves.steps (h : m.Moves m') (hframes : m.frames = fs.push f) (hG : G.Sound)
    (hsame : G.frame.Same f) (hleads : G.Leads s) (hs : f.Stands G s m.height m.handlers)
    (hdepth : fs.size + 1 = G.depth) (hend : m.waiting = none → ¬ G.out s) :
    ∃ low, (m.waiting = none ∧ G.floor ≤ low ∨ m.waiting.isSome = true ∧ low = m.sp) ∧
      m.Steps fs f G low m' := by
  cases hw : m.waiting with
  | none =>
    rw [Machine.height_of_none hw] at hs
    obtain ⟨p, hp, hmeets⟩ := hleads.resolve_right (hend hw)
    have hstands := hs.meets hmeets
    have hlaid := hG.laid
    have hmem := hG.mem p hp
    rw [← hsame.closure] at hlaid
    have hturns := h.turns fs f _ hframes hw hlaid p hmem hstands.ip
    refine ⟨_, .inl ⟨rfl, ?_⟩, hturns.steps hG hp hstands hw ?_⟩
    · have henough : G.base + p.height ≤ m.sp := hstands.enough
      have htakes := hG.takes p hp
      unfold Ground.floor
      omega
    · rw [hframes, Array.size_push, hdepth]
  | some w =>
    have hsome : m.waiting.isSome = true := by rw [hw]; rfl
    have hheight : m.height = m.sp + 1 := by simp [Machine.height, hw]
    refine ⟨m.sp, .inr ⟨rfl, rfl⟩, ?_⟩
    rcases h.waits fs f hframes hsome with hworks | ⟨v, hthrows⟩
    · rw [hheight] at hs
      exact hworks.goes hleads hs.ip hs.enough hs.exact hs.opened
    · exact .throws hthrows

theorem Frame.Same.resultSlot (h : f.Same g) : g.resultSlot = f.resultSlot := by
  unfold Frame.resultSlot
  rw [h.kind, h.base]

theorem Machine.Throws.mono {low' : Nat} (h : m.Throws fs f low v m') (hle : low' ≤ low) :
    m.Throws fs f low' v m' := by
  obtain ⟨k, target, hcons, hreceives, hv, hspares, hrest⟩ := h.handler
  exact ⟨⟨k, target, hcons, hreceives, hv, hspares.mono (by omega), hrest⟩, h.waiting⟩

/-- What a frame further up writes is above the floor. -/
theorem Frame.Spares.above {a b : Array Value} {n : Nat} (h : f.Spares low a b) (hslot : n ≤ f.resultSlot)
    (hlow : n ≤ low) : g.Spares n a b := by
  intro i hi _
  have := f.resultSlot_le
  exact h i (by omega) (.inl (by omega))

theorem Handler.discard_of_depth {depth : Nat} (h : ∀ k ∈ hs, k.depth < depth) : discard hs depth = hs := by
  cases hs with
  | nil => rfl
  | cons k hs =>
    have hk := h k List.mem_cons_self
    simp [discard, Nat.not_le.mpr hk]

/-- A value is thrown by the lowest frame. -/
theorem Machine.Throws.ground (h : m.Throws G.below f low v m') (hG : G.Sound) (hsame : G.frame.Same f)
    (hleads : G.Leads s) (hopen : G.Opened s.regions m.handlers) (hfloor : G.floor ≤ low) :
    m'.Inside G ∧ G.frame.Spares G.floor m.stack m'.stack ∨ G.Leaves m m' := by
  obtain ⟨k, target, hcons, hreceives, hv, hspares, f', g, fs', hsame', hextract, hframes'⟩ := h.handler
  rcases hG.receives (g := { g with ip := target }) hleads (hcons ▸ hopen) hreceives h.waiting rfl with
    houter | ⟨hdepth, hfloor', s', hleads', hstands'⟩
  · exact .inr (.throws hsame (hcons.trans houter.symm) (h.mono hfloor))
  · obtain ⟨rfl, rfl⟩ := Array.extract_whole hdepth hextract
    refine .inl ⟨⟨?_, by simp [h.waiting]⟩, (hspares.mono (by omega)).same hsame⟩
    have hsame'' := hsame.trans hsame'
    rw [hframes']
    exact .ground ⟨hsame''.closure, hsame''.base, hsame''.kind⟩ hleads' hstands'

/-- A value is thrown by a frame further up. -/
theorem Machine.Throws.call {f₀ : Frame} {hs' : List Handler} (h : m.Throws fs f low v m') (hG : G.Sound)
    (ht : Tower G fs (f.resultSlot + 1) hs') (htidy : f₀.closure.function.Tidy) (hsame : f₀.Same f)
    (hp : p ∈ G.layout f₀.closure.function) (hslot : G.floor ≤ f.resultSlot)
    (hopen : (f₀.ground G.layout fs hs').Opened p.regions m.handlers) (hfloor : G.floor ≤ low) :
    m'.Inside G ∧ G.frame.Spares G.floor m.stack m'.stack ∨ G.Leaves m m' := by
  obtain ⟨k, target, hcons, hreceives, hv, hspares, f', g, fs', hsame', hextract, hframes'⟩ := h.handler
  have hsound := Frame.sound_ground hG.layout htidy (ht.depth_le hG)
  rcases hsound.receives (g := { g with ip := target }) (Ground.leads_point hp) (hcons ▸ hopen) hreceives
    h.waiting rfl with houter | ⟨hdepth, hfloor', s', hleads', hstands'⟩
  · -- the handler belongs to a frame below
    have hle := ht.depth_le hG k (by rw [show hs' = _ from houter]; exact List.mem_cons_self)
    rw [Array.extract_push_of_le hle] at hextract
    rcases ht.catches hG houter hreceives h.waiting hextract hframes' with hbelow | ⟨hk, hinside⟩
    · obtain ⟨l, hsamel, -, hlowest⟩ := ht.lowest
      have hdepth := hG.handlers k (by rw [hbelow]; exact List.mem_cons_self)
      rw [hlowest _ hdepth] at hextract
      refine .inr (.throws hsamel (hcons.trans hbelow.symm) ⟨⟨k, target, hcons, hreceives, hv, ?_, l, g, fs',
        ⟨rfl, rfl, rfl⟩, hextract, hframes'⟩, h.waiting⟩)
      exact hspares.above (by omega) (by omega)
    · exact .inl ⟨hinside, hspares.above hslot (by omega)⟩
  · obtain ⟨rfl, rfl⟩ := Array.extract_whole hdepth hextract
    obtain ⟨q, hq, hmeets⟩ := hleads'.resolve_right id
    have hbase : f₀.base + f₀.closure.function.locals + 0 ≤ k.sp := hfloor'
    have hle := f.resultSlot_le
    have heq := hsame.base
    refine .inl ⟨⟨?_, by simp [h.waiting]⟩, hspares.above hslot (by omega)⟩
    have hsame'' := hsame.trans hsame'
    have hresult := hsame'.resultSlot
    rw [hframes']
    rw [← hresult] at ht hslot
    exact .call (f := { g with ip := target }) ht htidy ⟨hsame''.closure, hsame''.base, hsame''.kind⟩ hq hslot
      (hstands'.meets hmeets)

/-- What a turn does to a tower. -/
theorem Machine.Inside.moves (h : m.Inside G) (hG : G.Sound) (hm : m.Moves m') (hend : ¬ m.AtEnd G) :
    m'.Inside G ∧ G.frame.Spares G.floor m.stack m'.stack ∨ G.Leaves m m' := by
  have ht := h.tower
  have howes := h.owes
  generalize hframes : m.frames = frames, hheight : m.height = height, hhandlers : m.handlers = hs at ht
  cases ht with
  | @ground f s _ _ hsame hleads hstands =>
    rw [← hheight, ← hhandlers] at hstands
    have hend' : m.waiting = none → ¬ G.out s := by
      intro hw hout
      refine hend ⟨hw, f, s, hframes, hsame, hout, ?_⟩
      rwa [← Machine.height_of_none hw]
    obtain ⟨low, hlow, hsteps⟩ := hm.steps hframes hG hsame hleads hstands rfl hend'
    have hfloor : G.floor ≤ low := by
      rcases hlow with ⟨-, hlow⟩ | ⟨hw, rfl⟩
      · exact hlow
      · exact howes hw
    cases hsteps with
    | goes hleads' hframes' hsame' hstands' howes' hspares =>
      refine .inl ⟨⟨?_, fun hw => Nat.le_trans hfloor (howes' hw)⟩, (hspares.mono hfloor).same hsame⟩
      rw [hframes']
      exact .ground (hsame.trans hsame') hleads' hstands'
    | closes hp hstands hop hregions houter hbelow hw hleads' hframes' hsame' hip hhandlers' hsp hw' hspares =>
      exact .inr (.closes hp hop hregions houter hframes hsame hstands hw hbelow hleads' hframes'
        (hsame.trans hsame') hip hhandlers' hsp hw' (hspares.same hsame))
    | enters hleads' hframes' hsame' hstands' hip hslot hsp hw' hspares =>
      refine .inl ⟨?_, (hspares.mono hfloor).same hsame⟩
      have ht' := Tower.ground (hsame.trans hsame') hleads' hstands'
      exact ht'.enters hG hm.confined hframes' hip (hslot ▸ hfloor) hsp hw'
    | returns hp hop hregions hreturns hopen =>
      rw [hregions] at hopen
      rcases hopen.split with ⟨houter, hbelow⟩ | ⟨_, _, _, _, hcons, -⟩
      · exact .inr (.returns hp hop houter.symm hregions hframes hsame hbelow hreturns)
      · cases hcons
    | throws hthrows => exact hthrows.ground hG hsame hleads hstands.opened hfloor
  | @call fs f₀ f p _ _ hs' ht htidy hsame hp hslot hstands =>
    rw [← hheight, ← hhandlers] at hstands
    have hsound := Frame.sound_ground hG.layout htidy (ht.depth_le hG)
    obtain ⟨low, hlow, hsteps⟩ := hm.steps hframes hsound hsame (Ground.leads_point hp) hstands rfl
      fun _ => id
    have hfloor : G.floor ≤ low := by
      rcases hlow with ⟨-, hlow⟩ | ⟨hw, rfl⟩
      · have hbase : f₀.base + f₀.closure.function.locals + 0 ≤ low := hlow
        have hle := f.resultSlot_le
        have heq := hsame.base
        omega
      · exact howes hw
    cases hsteps with
    | goes hleads' hframes' hsame' hstands' howes' hspares =>
      obtain ⟨q, hq, hmeets⟩ := hleads'.resolve_right id
      refine .inl ⟨⟨?_, fun hw => Nat.le_trans hfloor (howes' hw)⟩, hspares.above hslot hfloor⟩
      rw [← hsame'.resultSlot] at ht hslot
      rw [hframes']
      exact .call ht htidy (hsame.trans hsame') hq hslot (hstands'.meets hmeets)
    | closes _ _ _ _ houter => cases houter
    | enters hleads' hframes' hsame' hstands' hip hk hsp hw' hspares =>
      obtain ⟨q, hq, hmeets⟩ := hleads'.resolve_right id
      refine .inl ⟨?_, hspares.above hslot hfloor⟩
      rw [← hsame'.resultSlot] at ht hslot
      have ht' := Tower.call ht htidy (hsame.trans hsame') hq hslot (hstands'.meets hmeets)
      exact ht'.enters hG hm.confined hframes' hip (hk ▸ hfloor) hsp hw'
    | returns hp hop hregions hreturns hopen =>
      rw [hregions] at hopen
      rcases hopen.split with ⟨-, hbelow⟩ | ⟨_, _, _, _, hcons, -⟩
      · have hbelow : m.handlers = hs' := hbelow
        have hdepth : ∀ k ∈ hs', k.depth < fs.size + 1 := fun k hk => Nat.lt_succ_of_le (ht.depth_le hG k hk)
        refine .inl ⟨⟨?_, by simp [hreturns.waiting]⟩, fun i hi _ => ?_⟩
        · rw [hreturns.frames, hreturns.handlers, hbelow, Handler.discard_of_depth hdepth,
            Machine.height_of_none hreturns.waiting, hreturns.sp]
          exact ht
        · exact hreturns.stack i (Nat.lt_of_lt_of_le hi hfloor) (Nat.lt_of_lt_of_le hi hslot)
      · cases hcons
    | throws hthrows => exact hthrows.call hG ht htidy hsame hp hslot hstands.opened hfloor

end

end ScriptMachine
