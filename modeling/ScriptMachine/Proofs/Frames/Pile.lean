import ScriptMachine.Proofs.Finally.Run
import ScriptMachine.Proofs.Targets

/-!
# How frames lie on the stack

A frame has the slots of its locals, and its operands are above them. A call takes its callee and its arguments
off the operands of the caller, and they are where the new frame begins: so the frames of a machine lie one above
the other (`Piled`). Each frame stands at a spot of its layout, and its handlers are there for the regions of that
spot, innermost first (`Frame.Opened`).

How much of this is known is a matter of the rules that the source keeps to. A `Grade` says so: whether the regions of
a spot are those of the layout, and whether its height is just that of the layout. Where regions do not count, those of
a spot are whatever the handlers are for; where heights do not count, there may be more operands than the layout has.
For the lowest grade, nothing is asked of the source except that no jump is stranded (`Function.Sound`).

1. **Functions**: their layouts, and the grades.
2. **Piles**: the invariant, and what can be read off it.
3. **Turns**: a turn leaves the frames piled up (`Machine.Turns.piles`).
-/

namespace ScriptMachine

open Point

/-! ## Functions -/

/-- The function has the code of a block in which no jump is stranded. -/
structure Function.Sound (f : Function) (code : List Point) : Prop where
  layout : ∃ n notes, n.isBlock = true ∧ Lays .top n 0 code notes ∧ ¬ Site.Strands .top n
  holds : f.Holds code
  locals : ∀ p ∈ code, ∀ k, p.item.local? = some k → k < f.locals

namespace Function.Sound

variable {f : Function} {code : List Point} {p : Point}

theorem neat (h : f.Sound code) : Neat 0 code := by
  rcases h.layout with ⟨n, notes, -, hlays, -⟩
  exact hlays.neat

theorem sized (h : f.Sound code) (hp : p ∈ code) : p.item.Sized := (h.neat.split hp).choose_spec.choose_spec.2.2.2

theorem takes_le (h : f.Sound code) (hp : p ∈ code) : p.item.takes ≤ p.height := by
  rcases h.layout with ⟨n, notes, -, hlays, -⟩
  simpa [Context.top] using hlays.takes_le p hp

theorem slots (h : f.Sound code) (hp : p ∈ code) : ∀ k, p.item.slot? = some k → k < f.locals :=
  fun k hk => h.locals p hp k (Emitted.local?_of_slot? hk)

end Function.Sound

/-- The function has a layout in which no jump is stranded. -/
def Function.IsSound (f : Function) : Prop := ∃ code, f.Sound code

/-- Which layout a function has, and what of it counts. -/
structure Grade where
  layout : Function → List Point
  /-- Whether a frame is in the regions of its place. -/
  regions : Prop
  /-- Whether a frame has just the operands of its place. -/
  heights : Prop

/-- The function has its layout, and the pieces of its block do not break the rules that count. -/
structure Function.Follows (G : Grade) (f : Function) : Prop where
  layout : ∃ n notes, n.isBlock = true ∧ Lays .top n 0 (G.layout f) notes ∧ Site.Sound G.regions G.heights .top n
  holds : f.Holds (G.layout f)
  locals : ∀ p ∈ G.layout f, ∀ k, p.item.local? = some k → k < f.locals

/-- Control of the function may stand at a spot. -/
def Function.Leads (G : Grade) (f : Function) (s : Spot) : Prop := Lands G.regions G.heights (G.layout f) s

theorem LoopShape.Allows.mono {R R' H H' : Prop} {l : LoopShape} {leap : Leap} {height : Nat}
    (h : l.Allows R H leap height) (hR : R' → R) (hH : H' → H) : l.Allows R' H' leap height :=
  ⟨h.target, fun h' => h.regions (hR h'), fun h' => h.heights (hH h')⟩

theorem Site.Sound.mono {R R' H H' : Prop} {S : Site} {n : Node} (h : Sound R H S n) (hR : R' → R) (hH : H' → H) :
    Sound R' H' S n := by
  rintro ⟨T, k⟩ hwithin
  have hfine := h _ hwithin
  unfold Fine
  split
  · next heq =>
    cases heq
    exact fun l hl => (hfine l hl).mono hR hH
  · next heq =>
    cases heq
    exact fun l hl => (hfine l hl).mono hR hH
  · next heq =>
    cases heq
    exact fun h' => hfine (hH h')
  · trivial

section

variable {G : Grade} {f : Function} {p : Point}

namespace Function.Follows

theorem sound (h : f.Follows G) : f.Sound (G.layout f) := by
  rcases h.layout with ⟨n, notes, hn, hlays, hsound⟩
  exact ⟨⟨n, notes, hn, hlays, Site.sound_iff_not_strands.mp (hsound.mono False.elim False.elim)⟩, h.holds, h.locals⟩

theorem flows (h : f.Follows G) (hp : p ∈ G.layout f) : p.Flows (f.Leads G) := by
  rcases h.layout with ⟨n, notes, hn, hlays, hsound⟩
  exact hlays.flows_block hn hsound p hp

theorem starts (h : f.Follows G) : f.Leads G ⟨0, [], 0, .nothing⟩ := by
  rcases h.layout with ⟨n, notes, hn, hlays, -⟩
  rcases hlays.block_starts hn with ⟨p, hp, hspot⟩
  exact ⟨p, hp, hspot ▸ .refl _ _ _⟩

end Function.Follows

theorem Function.coarse_leads (G : Grade) (f : Function) : Coarse G.regions G.heights (f.Leads G) :=
  lands_coarse _ _ _

end

open Classical in
/-- The lowest grade: only layouts matter. -/
noncomputable def Grade.basic : Grade where
  layout f := if h : f.IsSound then h.choose else []
  regions := False
  heights := False

theorem Function.IsSound.follows {f : Function} (h : f.IsSound) : f.Follows .basic := by
  have hlayout : Grade.basic.layout f = h.choose := dif_pos h
  have hsound := h.choose_spec
  rw [← hlayout] at hsound
  rcases hsound.layout with ⟨n, notes, hn, hlays, hstrands⟩
  exact ⟨⟨n, notes, hn, hlays, Site.sound_iff_not_strands.mpr hstrands⟩, hsound.holds, hsound.locals⟩

/-! ## Piles -/

/-- The slot above the locals of a frame. -/
def Frame.floor (f : Frame) : Nat := f.base + f.closure.function.locals

/-- A frame stands at a spot of its layout, below the slot `top`. -/
structure Frame.Rests (G : Grade) (f : Frame) (s : Spot) (top : Nat) : Prop where
  follows : f.closure.function.Follows G
  ip : f.ip = s.offset
  height : top = f.floor + s.height
  leads : f.closure.function.Leads G s

/-- A handler is there for a region of a frame, inside the regions `rs`: the frame goes on where it says. -/
structure Handler.Serves (G : Grade) (h : Handler) (f : Frame) (r : Region) (rs : List Region) : Prop where
  catchTarget : h.catchTarget = r.catchTarget
  finallyTarget : h.finallyTarget = r.finallyTarget
  enough : f.floor + r.height ≤ h.sp
  exact : G.heights → h.sp = f.floor + r.height
  resumes : r.Resumes (f.closure.function.Leads G) rs

/-- The regions around the place of a frame, and its handlers. -/
inductive Frame.Opened (G : Grade) (f : Frame) (depth : Nat) : List Region → List Handler → Prop where
  | none : Opened G f depth [] []
  | more {r : Region} {rs : List Region} {h : Handler} {hs : List Handler} : h.depth = depth → h.Serves G f r rs →
    Opened G f depth rs hs → Opened G f depth (r :: rs) (h :: hs)

/-- Frames lie one above the other, up to the slot `height`, each with its handlers. -/
inductive Piled (G : Grade) : Array Frame → Nat → List Handler → Prop where
  | empty {height : Nat} : Piled G #[] height []
  | frame {fs : Array Frame} {f : Frame} {s : Spot} {height : Nat} {own hs : List Handler} :
    Piled G fs (f.resultSlot + 1) hs → (∀ g ∈ fs.back?, g.floor ≤ f.resultSlot) → f.Rests G s height →
    f.Opened G (fs.size + 1) s.regions own → Piled G (fs.push f) height (own ++ hs)

/-- What lies below the frame on top, and where that frame stands. -/
structure Piled.Top (G : Grade) (fs : Array Frame) (f : Frame) (height : Nat) (s : Spot) (own hs : List Handler) :
    Prop where
  below : Piled G fs (f.resultSlot + 1) hs
  back : ∀ g ∈ fs.back?, g.floor ≤ f.resultSlot
  rests : f.Rests G s height
  opened : f.Opened G (fs.size + 1) s.regions own

section

variable {G : Grade} {fs fs' : Array Frame} {f f' g : Frame} {height height' n target depth : Nat} {h : Handler}
  {hs own : List Handler} {s : Spot} {r : Region} {rs : List Region}

theorem Frame.Same.floor (hsame : f.Same g) : g.floor = f.floor := by
  unfold Frame.floor
  rw [hsame.base, hsame.closure]

theorem Handler.Serves.same (hserves : h.Serves G f r rs) (hsame : f.Same g) : h.Serves G g r rs := by
  refine ⟨hserves.catchTarget, hserves.finallyTarget, ?_, ?_, ?_⟩
  · rw [hsame.floor]
    exact hserves.enough
  · rw [hsame.floor]
    exact hserves.exact
  · rw [hsame.closure]
    exact hserves.resumes

theorem Handler.Serves.floor_le (hserves : h.Serves G f r rs) : f.floor ≤ h.sp :=
  Nat.le_trans (Nat.le_add_right _ _) hserves.enough

namespace Frame.Opened

theorem same (h : f.Opened G depth rs hs) (hsame : f.Same g) : g.Opened G depth rs hs := by
  induction h with
  | none => exact .none
  | more hdepth hserves _ ih => exact .more hdepth (hserves.same hsame) ih

theorem depth_eq (ho : f.Opened G depth rs hs) : ∀ h ∈ hs, h.depth = depth := by
  induction ho with
  | none => exact List.forall_mem_nil _
  | more hdepth _ _ ih => exact List.forall_mem_cons.mpr ⟨hdepth, ih⟩

theorem floor_le (ho : f.Opened G depth rs hs) : ∀ h ∈ hs, f.floor ≤ h.sp := by
  induction ho with
  | none => exact List.forall_mem_nil _
  | more _ hserves _ ih => exact List.forall_mem_cons.mpr ⟨hserves.floor_le, ih⟩

/-- The innermost region was left, with its handler. -/
theorem tail (h : f.Opened G depth rs hs) : f.Opened G depth rs.tail hs.tail := by
  cases h with
  | none => exact .none
  | more _ _ hopened => exact hopened

theorem eq_nil (h : f.Opened G depth rs []) : rs = [] := by
  cases h with
  | none => rfl

theorem cons (ho : f.Opened G depth rs (h :: hs)) :
    ∃ r rs', rs = r :: rs' ∧ h.depth = depth ∧ h.Serves G f r rs' ∧ f.Opened G depth rs' hs := by
  cases ho with
  | more hdepth hserves hopened => exact ⟨_, _, rfl, hdepth, hserves, hopened⟩

end Frame.Opened

/-- What lies below the frame on top. -/
theorem Piled.top (hp : Piled G (fs.push f) height hs) :
    ∃ s own hs', hs = own ++ hs' ∧ Piled.Top G fs f height s own hs' := by
  generalize hframes : fs.push f = frames at hp
  cases hp with
  | empty => exact absurd (congrArg Array.size hframes) (by simp)
  | frame hbelow hback hrests hopened =>
    rcases Array.push_eq_push.mp hframes with ⟨rfl, rfl⟩
    exact ⟨_, _, _, rfl, hbelow, hback, hrests, hopened⟩

theorem Piled.Top.piled (ht : Piled.Top G fs f height s own hs) : Piled G (fs.push f) height (own ++ hs) :=
  .frame ht.below ht.back ht.rests ht.opened

/-- The frame on top goes on elsewhere, perhaps with other handlers. -/
theorem Piled.Top.moves {t : Spot} {own' : List Handler} (ht : Piled.Top G fs f height s own hs) (hsame : f.Same g)
    (hrests : g.Rests G t height') (hopened : f.Opened G (fs.size + 1) t.regions own') :
    Piled.Top G fs g height' t own' hs := by
  refine ⟨?_, ?_, hrests, hopened.same hsame⟩
  · rw [hsame.resultSlot]
    exact ht.below
  · rw [hsame.resultSlot]
    exact ht.back

theorem Piled.depth_le (hp : Piled G fs height hs) : ∀ h ∈ hs, h.depth ≤ fs.size := by
  induction hp with
  | empty => simp
  | frame _ _ _ hopened ih =>
    intro h hh
    rw [Array.size_push]
    rcases List.mem_append.mp hh with hh | hh
    · exact Nat.le_of_eq (hopened.depth_eq h hh)
    · exact Nat.le_succ_of_le (ih h hh)

/-- Where regions do not count, the innermost handler may be gone, whichever frame it served. -/
theorem Piled.tail (hp : Piled G fs height hs) (hG : ¬ G.regions) : Piled G fs height hs.tail := by
  induction hp with
  | empty => exact .empty
  | @frame fs f s height own hs hbelow hback hrests hopened ih =>
    cases own with
    | nil => exact @Piled.frame _ _ _ _ _ [] _ ih hback hrests hopened
    | cons h own =>
      have hleads : f.closure.function.Leads G { s with regions := s.regions.tail } :=
        Function.coarse_leads G _ (p := s) ⟨rfl, fun hR => (hG hR).elim, Nat.le_refl _, fun _ => rfl, .inr rfl⟩
          hrests.leads
      exact .frame hbelow hback (s := { s with regions := s.regions.tail }) ⟨hrests.follows, hrests.ip, hrests.height, hleads⟩
        hopened.tail

/-- Frames further up are above the locals of those further down. -/
theorem Piled.floor_le (hp : Piled G fs height hs) {j k : Nat} (hjk : j < k) (hf : fs[j]? = some f)
    (hg : fs[k]? = some g) : f.floor ≤ g.resultSlot := by
  induction hp generalizing k g with
  | empty => cases hg
  | @frame fs t s height own hs hbelow hback hrests hopened ih =>
    rw [Array.getElem?_push] at hf hg
    have hk : k ≤ fs.size := by
      split at hg
      · omega
      · exact Nat.le_of_lt (Array.getElem?_eq_some_iff.mp hg).1
    rw [if_neg (by omega)] at hf
    split at hg
    · next htop =>
      cases hg
      -- the frame just below `t` is not further down than `f`
      have hj := (Array.getElem?_eq_some_iff.mp hf).1
      have hlast : fs.back? = fs[fs.size - 1]? := Array.back?_eq_getElem?
      rcases Nat.eq_or_lt_of_le (Nat.le_sub_one_of_lt hj) with rfl | hlt
      · exact hback f (hlast.trans hf)
      · obtain ⟨b, hb⟩ : ∃ b, fs[fs.size - 1]? = some b := ⟨_, Array.getElem?_eq_getElem (by omega)⟩
        have hle := ih hlt hf hb
        have hbase := b.resultSlot_le
        have hfloor := hback b (hlast.trans hb)
        unfold Frame.floor at hfloor
        omega
    · exact ih hjk hf hg

/-- Each handler leaves the locals of its frame alone. -/
theorem Piled.serves (hp : Piled G fs height hs) (hh : h ∈ hs) : ∃ k f, h.depth = k + 1 ∧ fs[k]? = some f ∧
    f.floor ≤ h.sp := by
  induction hp with
  | empty => cases hh
  | @frame fs t s height own hs hbelow hback hrests hopened ih =>
    rcases List.mem_append.mp hh with hh | hh
    · exact ⟨fs.size, t, hopened.depth_eq h hh, Array.getElem?_push_size, hopened.floor_le h hh⟩
    · rcases ih hh with ⟨k, f, hdepth, hf, hfloor⟩
      refine ⟨k, f, hdepth, ?_, hfloor⟩
      have hk := (Array.getElem?_eq_some_iff.mp hf).1
      rw [Array.getElem?_push, if_neg (Nat.ne_of_lt hk)]
      exact hf

/-! ## Turns -/

/-- Where a handler goes on, and with how many values above its own height. -/
def Handler.Target (h : Handler) (target n : Nat) : Prop :=
  h.catchTarget = some target ∧ n = 1 ∨ h.finallyTarget = some target ∧ n = 2

/-- The frame of a handler goes on with a value. -/
theorem Handler.Serves.rests (hserves : h.Serves G f r rs) (hf : f.Rests G s height) (htarget : h.Target target n)
    (hsame : f.Same g) :
    ({ g with ip := target } : Frame).Rests G ⟨target, rs, h.sp + n - f.floor, .nothing⟩ (h.sp + n) := by
  have hfloor : ({ g with ip := target } : Frame).floor = f.floor := hsame.floor
  have hle := hserves.enough
  have hcoarse := Function.coarse_leads G f.closure.function
  have resume {k : Nat} (hk : n = k) (hleads : f.closure.function.Leads G ⟨target, rs, r.height + k, .nothing⟩) :
      f.closure.function.Leads G ⟨target, rs, h.sp + n - f.floor, .nothing⟩ := by
    refine hcoarse.spot hleads (fun _ => rfl) (by omega) fun hexact => ?_
    have := hserves.exact hexact
    omega
  refine ⟨?_, rfl, ?_, ?_⟩
  · show g.closure.function.Follows G
    rw [hsame.closure]
    exact hf.follows
  · show h.sp + n = _ + (h.sp + n - f.floor)
    rw [hfloor]
    omega
  · show g.closure.function.Leads G _
    rw [hsame.closure]
    rcases htarget with ⟨ht, hn⟩ | ⟨ht, hn⟩
    · exact resume hn (hserves.resumes.catches target (hserves.catchTarget ▸ ht))
    · exact resume hn (hserves.resumes.cleans target (hserves.finallyTarget ▸ ht))

/-- The frame on top catches a value. -/
theorem Piled.Top.catches (ht : Piled.Top G fs f height s (h :: own) hs) (htarget : h.Target target n)
    (hsame : f.Same g) :
    Piled G (fs.push { g with ip := target }) (h.sp + n) (own ++ hs) ∧ g.floor ≤ h.sp := by
  rcases ht.opened.cons with ⟨r, rs, -, -, hserves, hopened⟩
  have hsame' : f.Same { g with ip := target } := ⟨hsame.closure, hsame.base, hsame.kind⟩
  have htop := ht.moves hsame' (hserves.rests ht.rests htarget hsame) hopened
  exact ⟨htop.piled, hsame.floor ▸ hserves.floor_le⟩

/-- A value is thrown: the frame of the innermost handler goes on with it. -/
theorem Piled.unwinds (hp : Piled G fs height (h :: hs)) (hextract : fs.extract 0 h.depth = fs'.push g)
    (htarget : h.Target target n) : Piled G (fs'.push { g with ip := target }) (h.sp + n) hs ∧ g.floor ≤ h.sp := by
  generalize hks : h :: hs = ks at hp
  induction hp with
  | empty => cases hks
  | @frame fs f s height own hs' hbelow hback hrests hopened ih =>
    cases own with
    | nil =>
      have hks : h :: hs = hs' := hks
      have hle := hbelow.depth_le h (hks ▸ List.mem_cons_self)
      rw [Array.extract_push_of_le hle] at hextract
      exact ih hextract hks
    | cons k own =>
      rcases List.cons.inj hks with ⟨rfl, rfl⟩
      rcases Array.extract_whole (hopened.depth_eq h List.mem_cons_self) hextract with ⟨rfl, rfl⟩
      exact Piled.Top.catches ⟨hbelow, hback, hrests, hopened⟩ htarget ⟨rfl, rfl, rfl⟩

/-- The frame on top throws a value. -/
theorem Piled.throws (hp : Piled G (fs.push f) height (h :: hs)) (hsame : f.Same f')
    (hextract : (fs.push f').extract 0 h.depth = fs'.push g) (htarget : h.Target target n) :
    Piled G (fs'.push { g with ip := target }) (h.sp + n) hs ∧ g.floor ≤ h.sp := by
  rcases hp.top with ⟨s, own, hs', hks, htop⟩
  cases own with
  | nil =>
    have hks : h :: hs = hs' := hks
    subst hks
    rw [Array.extract_push_of_le (htop.below.depth_le h List.mem_cons_self)] at hextract
    exact htop.below.unwinds hextract htarget
  | cons k own =>
    rcases List.cons.inj hks with ⟨rfl, rfl⟩
    rcases Array.extract_whole (htop.opened.depth_eq h List.mem_cons_self) hextract with ⟨rfl, rfl⟩
    exact htop.catches htarget hsame

end

/-- The frames of a machine are piled up, below its stack pointer. -/
structure Machine.Piles (G : Grade) (m : Machine) : Prop where
  frames : Piled G m.frames m.height m.handlers
  floor : ∀ f ∈ m.frames.back?, f.floor ≤ m.sp

/-- The frames of a machine are piled up, as far as their layouts matter. -/
abbrev Machine.Stacked (m : Machine) : Prop := m.Piles .basic

/-- A frame begins without operands. -/
theorem Function.Follows.rests {G : Grade} {f : Frame} (h : f.closure.function.Follows G) (hip : f.ip = 0) :
    f.Rests G ⟨0, [], 0, .nothing⟩ f.floor := ⟨h, hip, rfl, h.starts⟩

section

variable {G : Grade} {m m' : Machine} {fs : Array Frame} {f g : Frame} {p : Point} {low ip sp height n : Nat} {v : Value}
  {s : Spot} {rs : List Region} {u : Setup} {own own' hs : List Handler}

/-- Work in the frame on top leads to another spot of its code. -/
theorem Machine.Works.piles {k : Machine} (h : k.Works fs f low ip sp m')
    (htop : Piled.Top G fs f height s own hs) (hhandlers : k.handlers = own' ++ hs)
    (hopened : f.Opened G (fs.size + 1) rs own') (hfloor : f.floor ≤ low) (hsp : sp = f.floor + n)
    (hleads : f.closure.function.Leads G ⟨ip, rs, n, u⟩) : m'.Piles G := by
  rcases h.frames with ⟨g, hframes, hsame, hip⟩
  have hheight : m'.height = sp := h.sp
  have hrests : g.Rests G ⟨ip, rs, n, u⟩ m'.height := by
    refine ⟨?_, hip, ?_, ?_⟩
    · rw [hsame.closure]
      exact htop.rests.follows
    · rw [hheight, hsame.floor]
      exact hsp
    · rw [hsame.closure]
      exact hleads
  refine ⟨?_, ?_⟩
  · rw [hframes, h.handlers, hhandlers]
    exact (htop.moves hsame hrests hopened).piled
  · rw [hframes, Array.back?_push]
    rintro _ ⟨⟩
    rw [hsame.floor]
    cases hw : m'.waiting with
    | none =>
      rw [Machine.height_of_none hw] at hheight
      omega
    | some w =>
      have := h.owes (by rw [hw]; rfl)
      omega

/-- A value is thrown. -/
theorem Machine.Throws.piles (h : m.Throws fs f low v m') (hpile : Piled G (fs.push f) height m.handlers) :
    m'.Piles G := by
  rcases h.handler with ⟨k, target, hcons, hreceives, -, -, f', g, fs', hsame, hextract, hframes⟩
  obtain ⟨n, htarget, hsp⟩ : ∃ n, k.Target target n ∧ m'.sp = k.sp + n := by
    cases hreceives with
    | catches ht hsp => exact ⟨1, .inl ⟨ht, rfl⟩, hsp⟩
    | cleans _ ht hsp => exact ⟨2, .inr ⟨ht, rfl⟩, hsp⟩
  rw [hcons] at hpile
  rcases hpile.throws hsame hextract htarget with ⟨hpile', hfloor⟩
  refine ⟨?_, ?_⟩
  · rw [hframes, Machine.height_of_none h.waiting, hsp]
    exact hpile'
  · rw [hframes, Array.back?_push, hsp]
    rintro _ ⟨⟩
    exact Nat.le_add_right_of_le hfloor

/-- The handlers of the frame on top are discarded. -/
theorem Piled.Top.discard (ht : Piled.Top G fs f height s own hs) : Handler.discard (own ++ hs) (fs.size + 1) = hs := by
  have hkeep : Handler.discard hs (fs.size + 1) = hs :=
    Handler.discard_of_depth fun k hk => Nat.lt_succ_of_le (ht.below.depth_le k hk)
  unfold Handler.discard at hkeep ⊢
  rw [List.dropWhile_append_of_pos, hkeep]
  intro k hk
  simp [ht.opened.depth_eq k hk]

/-- A frame is entered: the caller waits for a result in the slot of the callee. -/
theorem Machine.Enters.piles (h : m.Enters fs f low ip m') (htop : Piled.Top G fs f height s own hs)
    (hhandlers : m.handlers = own ++ hs) (hfloor : f.floor ≤ low) (hsp : low + 1 = f.floor + n)
    (hleads : f.closure.function.Leads G ⟨ip, s.regions, n, u⟩)
    (hover : ∀ k ∈ m'.frames, k.closure.function.Follows G) : m'.Piles G := by
  rcases h.frames with ⟨caller, callee, hframes, hsame, hcaller, hcallee, hslot, hheight⟩
  have hcaller' : caller.floor ≤ callee.resultSlot := by
    rw [hsame.floor, hslot]
    exact hfloor
  have hbelow : Piled G (fs.push caller) (callee.resultSlot + 1) m'.handlers := by
    have hrests : caller.Rests G ⟨ip, s.regions, n, u⟩ (low + 1) := by
      refine ⟨?_, hcaller, ?_, ?_⟩
      · rw [hsame.closure]
        exact htop.rests.follows
      · rw [hsame.floor]
        exact hsp
      · rw [hsame.closure]
        exact hleads
    rw [h.handlers, hhandlers, hslot]
    exact (htop.moves hsame hrests htop.opened).piled
  have hrests : callee.Rests G ⟨0, [], 0, .nothing⟩ m'.height := by
    have hmem : callee ∈ m'.frames := by
      rw [hframes]
      exact Array.mem_push_self
    rw [Machine.height_of_none h.waiting, hheight]
    exact (hover callee hmem).rests hcallee
  constructor
  · rw [hframes]
    refine @Piled.frame _ _ _ _ _ [] _ hbelow ?_ hrests .none
    rw [Array.back?_push]
    rintro _ ⟨⟩
    exact hcaller'
  · rw [hframes, Array.back?_push, hheight]
    rintro _ ⟨⟩
    exact Nat.le_refl _

/-- A frame is left: the caller goes on with its result. -/
theorem Machine.Returns.piles (h : m.Returns fs f low v m') (htop : Piled.Top G fs f height s own hs)
    (hhandlers : m.handlers = own ++ hs) : m'.Piles G := by
  constructor
  · rw [h.frames, h.handlers, Machine.height_of_none h.waiting, h.sp, hhandlers, htop.discard]
    exact htop.below
  · rw [h.frames, h.sp]
    exact fun g hg => Nat.le_succ_of_le (htop.back g hg)

/-- The running frame of a machine that does not wait, and the point at which it stands. -/
structure Machine.Poised (G : Grade) (m : Machine) (fs : Array Frame) (f : Frame) (p : Point) (s : Spot)
    (own hs : List Handler) : Prop extends Piled.Top G fs f m.sp s own hs where
  frames : m.frames = fs.push f
  handlers : m.handlers = own ++ hs
  point : p ∈ G.layout f.closure.function
  meets : s.Meets G.regions G.heights p.spot

theorem Machine.Piles.poised (h : m.Piles G) (hframes : m.frames = fs.push f) (hw : m.waiting = none) :
    ∃ p s own hs, m.Poised G fs f p s own hs := by
  have hpile := h.frames
  rw [hframes, Machine.height_of_none hw] at hpile
  rcases hpile.top with ⟨s, own, hs, hhandlers, htop⟩
  rcases htop.rests.leads with ⟨p, hp, hmeets⟩
  exact ⟨p, s, own, hs, htop, hframes, hhandlers, hp, hmeets⟩

namespace Machine.Poised

variable (h : m.Poised G fs f p s own hs)

include h

theorem offset_eq : p.offset = f.ip := h.meets.offset.symm.trans h.rests.ip.symm

theorem height_le : f.floor + p.height ≤ m.sp := by
  have hle : p.height ≤ s.height := h.meets.enough
  have hsp := h.rests.height
  omega

end Machine.Poised

/-- A turn at a point leaves the frames piled up. -/
theorem Machine.Turns.piles (h : m.Turns fs f p.item m') (hm : m.Poised G fs f p s own hs)
    (hover : ∀ k ∈ m'.frames, k.closure.function.Follows G) : m'.Piles G := by
  have htop := hm.toTop
  have hfollows := hm.rests.follows
  have hflows := hfollows.flows hm.point
  have htakes := hfollows.sound.takes_le hm.point
  have hip := hm.offset_eq
  have hsp : m.sp = f.floor + s.height := hm.rests.height
  have hle : p.height ≤ s.height := hm.meets.enough
  have heq : G.heights → s.height = p.height := hm.meets.height
  have hregions : G.regions → s.regions = p.regions := hm.meets.regions
  have hpile : Piled G (fs.push f) m.sp m.handlers := by
    rw [hm.handlers]
    exact htop.piled
  -- a way of the layout, from the spot where the frame stands
  have way {o j k : Nat} {rs rs' : List Region} {u : Setup} (hs : f.closure.function.Leads G ⟨o, rs, j, u⟩)
      (hr : G.regions → rs' = rs) (hj : j ≤ k) (hk : G.heights → k = j) :
      f.closure.function.Leads G ⟨o, rs', k, u⟩ :=
    Function.coarse_leads G _ (p := ⟨o, rs, j, u⟩) ⟨rfl, hr, hj, hk, .inr rfl⟩ hs
  cases h with
  | works hplain hworks =>
    rw [flows_plain hplain, hip] at hflows
    unfold Emitted.after at hflows
    refine hworks.piles htop hm.handlers htop.opened (by omega) (n := s.height - p.item.takes + p.item.leaves) ?_
      (way hflows hregions (by omega) fun hH => by rw [heq hH])
    omega
  | jumps hop hworks =>
    unfold Point.Flows at hflows
    rw [hop] at hflows
    exact hworks.piles htop hm.handlers htop.opened (by omega) hsp (way hflows.2 hregions hle heq)
  | branches hop hto hworks =>
    have hone : p.item.takes = 1 := by simp [Emitted.takes, hop]
    unfold Point.Flows at hflows
    rw [hop, hip] at hflows
    refine hworks.piles htop hm.handlers htop.opened (by omega) (n := s.height - 1) (u := .nothing) (by omega) ?_
    have branch {o : Nat} (hleads : f.closure.function.Leads G ⟨o, p.regions, p.height - 1, .nothing⟩) :
        f.closure.function.Leads G ⟨o, s.regions, s.height - 1, .nothing⟩ :=
      way hleads hregions (by omega) fun hH => by rw [heq hH]
    rcases hto with rfl | rfl
    · exact branch hflows.2.1
    · exact branch hflows.2.2
  | opens hop hworks =>
    unfold Point.Flows at hflows
    rw [hop, hip] at hflows
    rcases hflows with ⟨r, hopens, hbody, hres⟩
    have hheight := hopens.height
    have hserves : Handler.Serves G (.ofOperands (p.item.operand 0) (p.item.operand 1) m.frames.size m.sp) f r
        s.regions := by
      refine ⟨hopens.catchTarget.symm, hopens.finallyTarget.symm, ?_, fun hH => ?_, ?_⟩
      · show _ ≤ m.sp
        omega
      · show m.sp = _
        have := heq hH
        omega
      · exact ⟨fun t ht => way (hres.catches t ht) hregions (Nat.le_refl _) fun _ => rfl,
          fun t ht => way (hres.cleans t ht) hregions (Nat.le_refl _) fun _ => rfl, hres.some⟩
    have hdepth : m.frames.size = fs.size + 1 := by rw [hm.frames, Array.size_push]
    exact hworks.piles htop (congrArg (_ :: ·) hm.handlers) (.more hdepth hserves htop.opened) (by omega) hsp
      (way hbody (fun hR => by rw [hregions hR]) hle heq)
  | closes hop hworks =>
    unfold Point.Flows at hflows
    rw [hop] at hflows
    rcases hflows with ⟨-, r, rs, hrs, hland⟩
    have hleads : f.closure.function.Leads G ⟨p.item.operand 0, s.regions.tail, s.height, .nothing⟩ :=
      way hland (fun hR => by rw [hregions hR, hrs]; rfl) hle heq
    have hopened := htop.opened.tail
    cases hown : own with
    | cons h own' =>
      refine hworks.piles htop ?_ hopened (by omega) hsp hleads
      rw [hm.handlers, hown]
      rfl
    | nil =>
      -- the frame has no handler, so regions do not count
      have hnil : s.regions = [] := by
        have hnone := htop.opened
        rw [hown] at hnone
        exact hnone.eq_nil
      have hG : ¬ G.regions := fun hR => by
        rw [← hregions hR, hnil] at hrs
        cases hrs
      have htop' : Piled.Top G fs f m.sp s own hs.tail := { htop with below := htop.below.tail hG }
      refine hworks.piles htop' ?_ hopened (by omega) hsp hleads
      rw [hm.handlers, hown]
      rfl
  | resumes hop _ hworks =>
    have htwo : p.item.takes = 2 := by simp [Emitted.takes, hop]
    unfold Point.Flows at hflows
    rw [hop, hip] at hflows
    refine hworks.piles htop hm.handlers htop.opened (by omega) (n := s.height - 2) (by omega)
      (way hflows hregions (by omega) fun hH => by rw [heq hH])
  | enters hcall henters =>
    have hop : p.item.opcode.isPlain = true ∧ p.item.leaves = 1 := by
      unfold Emitted.leaves
      revert hcall
      cases p.item.opcode <;> simp [Opcode.isCall, Opcode.isPlain]
    rw [flows_plain hop.1, hip] at hflows
    unfold Emitted.after at hflows
    refine henters.piles htop hm.handlers (by omega) (n := s.height - p.item.takes + p.item.leaves) (by omega)
      (way hflows hregions (by omega) fun hH => by rw [heq hH]) hover
  | returns _ hreturns => exact hreturns.piles htop hm.handlers
  | throws _ _ _ hthrows => exact hthrows.piles hpile

end

end ScriptMachine
