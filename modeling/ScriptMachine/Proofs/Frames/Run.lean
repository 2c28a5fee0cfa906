import ScriptMachine.Proofs.Finally.Parts
import ScriptMachine.Proofs.Frames.Pile
import ScriptMachine.Proofs.Frames.Watch

/-!
# The frames of a run

Turn after turn the frames of a machine lie one above the other, and the slots from the stack pointer on hold null.
A frame that is entered begins with what was handed over to it, and with null for its other locals. While it is
there nothing below it is written, and when it is left by a return its result is all that the caller finds in place
of the callee and the arguments.

1. **Turns**: what a turn does to the frames (`Machine.Shifts`) and to the slots.
2. **Begins**: the first frame of a run.
3. **Lives of frames**: from the turn that enters a frame to the one that leaves it.
-/

namespace ScriptMachine

open Point

/-! ## Turns -/

/-- What a turn does to the frames of a machine with the running frame `f`. -/
inductive Machine.Shifts (m : Machine) (fs : Array Frame) (f : Frame) (m' : Machine) : Prop where
  | stays {g : Frame} : m'.frames = fs.push g → f.Same g → Shifts m fs f m'
  | enters {g k : Frame} : m'.frames = (fs.push g).push k → f.Same g → k.ip = 0 → m'.sp = k.floor → Shifts m fs f m'
  | returns : m'.frames = fs → m'.sp = f.resultSlot + 1 → m'.handlers = Handler.discard m.handlers (fs.size + 1) →
    Shifts m fs f m'
  | throws {h : Handler} {f' g g' : Frame} {fs' : Array Frame} : m.handlers = h :: m'.handlers → f.Same f' →
    (fs.push f').extract 0 h.depth = fs'.push g → g.Same g' → m'.frames = fs'.push g' → Shifts m fs f m'

/-- The frame is about to set a local. -/
def Frame.Sets (f : Frame) (n : Nat) : Prop :=
  f.code[f.ip]? = some (Opcode.toByte .setLocal) ∧ operandAt? f.code (f.ip + 1) 1 = some n

section

variable {s t : State} {fs : Array Frame} {f : Frame} {m m' : Machine}

theorem Machine.Throws.shifts {low : Nat} {v : Value} (h : m.Throws fs f low v m') : m.Shifts fs f m' := by
  rcases h.handler with ⟨k, target, hcons, -, -, -, f', g, fs', hsame, hextract, hframes⟩
  exact .throws hcons hsame hextract (show g.Same { g with ip := target } from ⟨rfl, rfl, rfl⟩) hframes

theorem Machine.Works.shifts {k : Machine} {low ip sp : Nat} (h : k.Works fs f low ip sp m') : m.Shifts fs f m' := by
  rcases h.frames with ⟨g, hframes, hsame, -⟩
  exact .stays hframes hsame

/-- Only an instruction that returns leaves the running frame. -/
theorem Machine.Turns.shifts {i : Emitted} (h : m.Turns fs f i m') : m.Shifts fs f m' := by
  cases h with
  | works _ hworks | jumps _ hworks | branches _ _ hworks | opens _ hworks | closes _ hworks
  | resumes _ _ hworks => exact hworks.shifts
  | enters _ henters =>
    rcases henters.frames with ⟨g, k, hframes, hsame, -, hk, -, hsp⟩
    exact .enters hframes hsame hk hsp
  | returns _ hreturns => exact .returns hreturns.frames hreturns.sp hreturns.handlers
  | throws _ _ _ hthrows => exact hthrows.shifts

theorem Machine.Turns.frames_of_return {i : Emitted} (h : m.Turns fs f i m')
    (hop : i.opcode = .returnValue ∨ i.opcode = .returnNull) : m'.frames = fs := by
  cases h with
  | returns _ hreturns => exact hreturns.frames
  | works hplain => rcases hop with hop | hop <;> rw [hop] at hplain <;> cases hplain
  | enters hcall => rcases hop with hop | hop <;> rw [hop] at hcall <;> cases hcall
  | throws _ _ hsure => rcases hop with hop | hop <;> rw [hop] at hsure <;> cases hsure
  | jumps h | branches h | opens h | closes h | resumes h => rcases hop with hop | hop <;> rw [hop] at h <;> cases h

theorem Machine.Works.size_frames {k : Machine} {low ip sp : Nat} (h : k.Works fs f low ip sp m') :
    m'.frames.size = fs.size + 1 := by
  rcases h.frames with ⟨g, hframes, -⟩
  rw [hframes, Array.size_push]

theorem Machine.Throws.size_frames_le {low : Nat} {v : Value} (h : m.Throws fs f low v m') :
    m'.frames.size ≤ fs.size + 1 := by
  rcases h.handler with ⟨k, target, -, -, -, -, f', g, fs', -, hextract, hframes⟩
  have hsize := congrArg Array.size hextract
  simp only [Array.size_extract, Array.size_push] at hsize
  rw [hframes, Array.size_push]
  omega

/-- Only a call makes more frames. -/
theorem Machine.Turns.enters_of_size {i : Emitted} (h : m.Turns fs f i m') (hsize : fs.size + 1 < m'.frames.size) :
    i.opcode.isCall = true ∧ m.Enters fs f (m.sp - i.takes) (f.ip + i.opcode.length) m' := by
  cases h with
  | enters hcall henters => exact ⟨hcall, henters⟩
  | works _ hworks | jumps _ hworks | branches _ _ hworks | opens _ hworks | closes _ hworks
  | resumes _ _ hworks => exact absurd hworks.size_frames (Nat.ne_of_gt hsize)
  | returns _ hreturns =>
    rw [hreturns.frames] at hsize
    omega
  | throws _ _ _ hthrows => exact absurd hthrows.size_frames_le (Nat.not_le.mpr hsize)

/-- A frame was entered just now. There is room for its locals, and they hold null apart from what was handed over. -/
structure Machine.Entered (m : Machine) (fs : Array Frame) (f : Frame) : Prop where
  frames : m.frames = fs.push f
  ip : f.ip = 0
  sp : m.sp = f.floor
  room : f.floor ≤ m.stack.size
  null : NullFrom m.stack (f.base + f.given)

theorem Machine.Entered.local_null {n : Nat} (h : m.Entered fs f) (hgiven : f.given ≤ n)
    (hn : n < f.closure.function.locals) : m.stack[f.base + n]? = some .null := by
  have hlt : f.base + n < m.stack.size := Nat.lt_of_lt_of_le (Nat.add_lt_add_left hn _) h.room
  have hslot := Array.getElem?_eq_getElem hlt
  rw [hslot, h.null _ _ (Nat.add_le_add_left hgiven _) hslot]

/-- A turn of a machine that does not wait executes the instruction of the point at which the running frame stands. -/
theorem State.Next.turns_at {H : Function → Prop} {G : Grade} {p : Point} {u : Spot} {own hs : List Handler}
    (h : s.Next H t) (hm : s.machine.Poised G fs f p u own hs) (hw : s.machine.waiting = none) :
    s.machine.Turns fs f p.item t.machine ∧
      ∀ W : Watch, W.Holds s.machine → W.Fits s.machine f p.item → W.After t.machine := by
  rcases h with ⟨-, w, signal, -, hrun, hsignal⟩
  have hsound := hm.rests.follows.sound
  have hcode : f.code[f.ip]? = some p.item.opcode.toByte :=
    hm.offset_eq ▸ getElem?_of_holds hsound.holds hsound.neat hm.point
  have hreads : readOperands? p.item.opcode f.code (f.ip + 1) = some p.item.read :=
    hm.offset_eq ▸ readOperands?_of_holds hsound.holds hsound.neat hm.point
  have hsized := hsound.sized hm.point
  constructor
  · have hyields := Exec.yields_advanceCatching (s := ⟨w, s.machine⟩) hm.frames hw hcode hreads hsized
      (hsound.slots hm.point)
    exact (hyields.ok hrun).resolve_left hsignal
  · intro W hW hfits
    exact (Exec.minds_turn (s := ⟨w, s.machine⟩) hm.frames hw hcode hreads hsized hW hfits).ok hrun

/-- A turn of a machine that waits. -/
theorem State.Next.waits {H : Function → Prop} (h : s.Next H t) (hframes : s.machine.frames = fs.push f) {wait : Wait}
    (hw : s.machine.waiting = some wait) :
    (s.machine.Works fs f s.machine.sp f.ip (s.machine.sp + 1) t.machine ∨
      ∃ v, s.machine.Throws fs f s.machine.sp v t.machine) ∧
      ∀ W : Watch, W.Holds s.machine → W.floor ≤ s.machine.sp → W.After t.machine := by
  rcases h with ⟨-, w, signal, -, hrun, -⟩
  refine ⟨(Exec.yields_advanceCatching_waiting (s := ⟨w, s.machine⟩) hframes hw).ok hrun, fun W hW hfloor => ?_⟩
  exact (Exec.minds_turn_waiting (s := ⟨w, s.machine⟩) hw hW hfloor).ok hrun

/-- The frames stay piled up. -/
theorem State.Next.piles {H : Function → Prop} {G : Grade} (h : s.Next H t) (hH : ∀ f, H f → f.Follows G)
    (hm : s.machine.Piles G) (hover : s.machine.Over H) : t.machine.Piles G := by
  have hover' := h.confined hover
  obtain ⟨fs, f, hframes⟩ := Array.eq_push_of_size_ne_zero (mt Array.eq_empty_of_size_eq_zero h.1)
  cases hw : s.machine.waiting with
  | none =>
    rcases hm.poised hframes hw with ⟨p, u, own, hs, hpoised⟩
    exact (h.turns_at hpoised hw).1.piles hpoised fun k hk => hH _ (hover'.frames k hk).closure
  | some wait =>
    have hpile := hm.frames
    have hheight : s.machine.height = s.machine.sp + 1 := by simp [Machine.height, hw]
    rw [hframes, hheight] at hpile
    have hfloor : f.floor ≤ s.machine.sp := hm.floor f (by rw [hframes, Array.back?_push]; rfl)
    rcases (h.waits hframes hw).1 with hworks | ⟨v, hthrows⟩
    · rcases hpile.top with ⟨u, own, hs, hhandlers, htop⟩
      refine hworks.piles (u := u.setup) htop hhandlers htop.opened hfloor htop.rests.height ?_
      rw [htop.rests.ip]
      exact htop.rests.leads
    · exact hthrows.piles hpile

namespace State.Next

variable (h : s.Next Function.IsSound t) (hm : s.machine.Stacked)

include h hm

/-- A turn of a machine that does not wait executes the instruction of a point. -/
theorem turns (hframes : s.machine.frames = fs.push f) (hw : s.machine.waiting = none) :
    ∃ code p, f.closure.function.Sound code ∧ p ∈ code ∧ p.offset = f.ip ∧ f.floor + p.height ≤ s.machine.sp ∧
      s.machine.Turns fs f p.item t.machine ∧
      ∀ W : Watch, W.Holds s.machine → W.Fits s.machine f p.item → W.After t.machine := by
  rcases hm.poised hframes hw with ⟨p, u, own, hs, hpoised⟩
  rcases h.turns_at hpoised hw with ⟨hturns, hminds⟩
  exact ⟨_, p, hpoised.rests.follows.sound, hpoised.point, hpoised.offset_eq, hpoised.height_le, hturns, hminds⟩

theorem shifts (hframes : s.machine.frames = fs.push f) : s.machine.Shifts fs f t.machine := by
  cases hw : s.machine.waiting with
  | none =>
    rcases h.turns hm hframes hw with ⟨_, _, _, _, _, _, hturns, -⟩
    exact hturns.shifts
  | some wait =>
    rcases (h.waits hframes hw).1 with hworks | ⟨v, hthrows⟩
    · exact hworks.shifts
    · exact hthrows.shifts

/-- What is watched below the operands of the running frame is left alone. -/
theorem minds (hframes : s.machine.frames = fs.push f) {W : Watch} (hW : W.Holds s.machine) (hfloor : W.floor ≤ f.floor)
    (hwrites : ∀ n, s.machine.waiting = none → f.Sets n → ¬ W.keep (f.base + n))
    (hleaves : t.machine.frames = fs → W.floor ≤ f.resultSlot) : W.After t.machine := by
  have hsp : f.floor ≤ s.machine.sp := hm.floor f (by rw [hframes, Array.back?_push]; rfl)
  cases hw : s.machine.waiting with
  | some wait => exact (h.waits hframes hw).2 W hW (Nat.le_trans hfloor hsp)
  | none =>
    rcases h.turns hm hframes hw with ⟨code, p, hsound, hp, hip, hheight, hturns, hminds⟩
    have htakes := hsound.takes_le hp
    refine hminds W hW ⟨by omega, fun hop => ?_, fun hop => hleaves (hturns.frames_of_return hop)⟩
    have hlocal := hsound.locals p hp (p.item.operand 0) (by unfold Emitted.local?; rw [hop])
    have hcode : f.code[f.ip]? = some p.item.opcode.toByte := hip ▸ getElem?_of_holds hsound.holds hsound.neat hp
    have hreads : readOperands? p.item.opcode f.code (f.ip + 1) = some p.item.read :=
      hip ▸ readOperands?_of_holds hsound.holds hsound.neat hp
    refine ⟨?_, hwrites _ hw ⟨hop ▸ hcode, Exec.operandAt?_one hreads (hsound.sized hp) (by rw [hop]; rfl)⟩⟩
    unfold Frame.floor at hsp
    omega

/-- A turn that makes one more frame has entered it, and nothing was written below the slot of the callee. -/
theorem enters {gs : Array Frame} {g : Frame} (hnull : NullFrom s.machine.stack s.machine.sp)
    (hframes : t.machine.frames = gs.push g) (hsize : s.machine.frames.size ≤ gs.size) :
    t.machine.Entered gs g ∧ ∀ i < g.resultSlot, t.machine.stack[i]? = s.machine.stack[i]? := by
  obtain ⟨fs, f, hframes'⟩ := Array.eq_push_of_size_ne_zero (mt Array.eq_empty_of_size_eq_zero h.1)
  have hmore : fs.size + 1 < t.machine.frames.size := by
    rw [hframes', Array.size_push] at hsize
    rw [hframes, Array.size_push]
    omega
  cases hw : s.machine.waiting with
  | some wait =>
    rcases (h.waits hframes' hw).1 with hworks | ⟨v, hthrows⟩
    · exact absurd hworks.size_frames (Nat.ne_of_gt hmore)
    · exact absurd hthrows.size_frames_le (Nat.not_le.mpr hmore)
  | none =>
    rcases h.turns hm hframes' hw with ⟨code, p, hsound, hp, -, hheight, hturns, hminds⟩
    rcases hturns.enters_of_size hmore with ⟨hcall, henters⟩
    rcases henters.frames with ⟨caller, callee, hcallee, -, -, hip, hslot, hsp⟩
    rcases Array.push_eq_push.mp (hframes.symm.trans hcallee) with ⟨rfl, rfl⟩
    have htakes := hsound.takes_le hp
    let W : Watch := ⟨(· < g.resultSlot), s.machine.stack, g.resultSlot, s.machine.frames.size, s.machine.handlers,
      fun _ hi => hi⟩
    have hW : W.Holds s.machine := ⟨hnull, fun _ _ => rfl, Nat.le_refl _, rfl⟩
    have hfits : W.Fits s.machine f p.item := by
      refine ⟨?_, fun hop => ?_, fun hop => ?_⟩
      · show g.resultSlot + _ ≤ _
        omega
      · rw [hop] at hcall
        cases hcall
      · rcases hop with hop | hop <;> rw [hop] at hcall <;> cases hcall
    have hafter := hminds W hW hfits
    have hdepth : W.depth < t.machine.frames.size := by
      show s.machine.frames.size < _
      rw [hframes', Array.size_push]
      exact hmore
    rcases hafter.entered hdepth with ⟨k, hk, hgiven, hroom⟩
    rw [hframes, Array.back?_push] at hk
    cases hk
    refine ⟨⟨hframes, hip, hsp, hroom, hgiven⟩, ?_⟩
    rcases hafter.kept with hkept | ⟨k, hk, -⟩
    · exact hkept
    · -- a call does not take a handler away
      have hlength := congrArg List.length (show s.machine.handlers = k :: t.machine.handlers from hk)
      rw [henters.handlers] at hlength
      simp at hlength

end State.Next

/-! ## Layouts of frames -/

/-- The frames of a machine are apart from each other, and so are their locals from what is above. -/
structure Machine.Apart (m : Machine) : Prop where
  frames : ∀ k f g, m.frames[k]? = some f → m.frames[k + 1]? = some g → f.base + f.closure.function.locals ≤ g.base
  top : ∀ f, m.frames.back? = some f → f.base + f.closure.function.locals ≤ m.sp
  null : ∀ i v, m.sp ≤ i → m.stack[i]? = some v → v = .null
  /-- The next instruction does not name a local that the running frame does not have. -/
  locals : ∀ f op n, m.frames.back? = some f → f.code[f.ip]? = some (Opcode.toByte op) →
    op = .getLocal ∨ op = .setLocal ∨ op = .captureLocal → operandAt? f.code (f.ip + 1) 1 = some n →
    n < f.closure.function.locals

/-- Where a frame rests, the instruction names a local that it has. -/
theorem Frame.Rests.local_lt {G : Grade} {f : Frame} {u : Spot} {top n : Nat} {op : Opcode} (h : f.Rests G u top)
    (hop : f.code[f.ip]? = some op.toByte) (hlocal : op = .getLocal ∨ op = .setLocal ∨ op = .captureLocal)
    (hn : operandAt? f.code (f.ip + 1) 1 = some n) : n < f.closure.function.locals := by
  rcases h.leads with ⟨p, hp, hmeets⟩
  have hsound := h.follows.sound
  have hip : p.offset = f.ip := hmeets.offset.symm.trans h.ip.symm
  have hcode : f.code[f.ip]? = some p.item.opcode.toByte := hip ▸ getElem?_of_holds hsound.holds hsound.neat hp
  rw [hop] at hcode
  have hop := Opcode.toByte_inj (Option.some.inj hcode)
  have hreads : readOperands? p.item.opcode f.code (f.ip + 1) = some p.item.read :=
    hip ▸ readOperands?_of_holds hsound.holds hsound.neat hp
  have hone := Exec.operandAt?_one (w := 1) hreads (hsound.sized hp)
    (by rw [← hop]; rcases hlocal with rfl | rfl | rfl <;> rfl)
  have heq := Option.some.inj (hn.symm.trans hone)
  rw [heq]
  refine hsound.locals p hp _ ?_
  unfold Emitted.local?
  rw [← hop]
  rcases hlocal with rfl | rfl | rfl <;> rfl

theorem Machine.Stacked.apart (h : m.Stacked) (hnull : NullFrom m.stack m.sp) : m.Apart := by
  refine ⟨?_, fun f hf => h.floor f hf, hnull, ?_⟩
  · intro k f g hf hg
    have hle := h.frames.floor_le (Nat.lt_succ_self k) hf hg
    exact Nat.le_trans hle g.resultSlot_le
  · intro f op n hf hop hlocal hn
    rcases Array.back?_eq_some_iff.mp hf with ⟨fs, hframes⟩
    have hpile := h.frames
    rw [hframes] at hpile
    rcases hpile.top with ⟨u, own, hs, -, htop⟩
    exact htop.rests.local_lt hop hlocal hn

end

/-! ## Begins -/

/-- Nothing is watched. -/
def Watch.nothing : Watch := ⟨fun _ => False, #[], 0, 0, [], nofun⟩

theorem Machine.Idle.watched {m : Machine} (h : m.Idle) (hnull : NullFrom m.stack m.sp) : Watch.nothing.Holds m :=
  ⟨hnull, fun _ hkeep => False.elim hkeep, by simp [h.frames], h.handlers⟩

theorem Exec.minds_pushAll {W : Watch} {k : Nat} (vs : List Value) : Minds W k (k + vs.length) (pushAll vs) := by
  induction vs generalizing k with
  | nil => exact minds_pure _
  | cons v vs ih =>
    have hrest := (minds_push (W := W) (k := k) v).bind fun _ => ih (k := k + 1)
    rwa [show k + 1 + vs.length = k + (v :: vs).length by simp; omega] at hrest

/-- A run begins in a machine at rest, whose slots from the stack pointer on hold null. -/
inductive State.Launches (H : Function → Prop) : State → Prop where
  | block {s t : State} {run : Run} : s.Over H → s.machine.Idle → NullFrom s.machine.stack s.machine.sp →
    H s.machine.main.function → Run.startBlock s = (.running run, t) → Launches H t
  | call {s t : State} {run : Run} {callee : Value} {args : List Value} : s.Over H → s.machine.Idle →
    NullFrom s.machine.stack s.machine.sp → callee.Over (Closure.Of H) → (∀ v ∈ args, v.Over (Closure.Of H)) →
    Run.startCall callee args s = (.running run, t) → Launches H t

/-- The stack of a new machine is empty. -/
theorem Machine.null_new (constants : Array Value) (main : Closure) (registry : Registry) (settings : Settings) :
    (Machine.new constants main registry settings).Idle ∧
      NullFrom (Machine.new constants main registry settings).stack 0 := by
  refine ⟨⟨rfl, rfl, rfl⟩, fun i v _ hv => ?_⟩
  exact (Array.mem_replicate.mp (Array.mem_of_getElem? hv)).2

section

variable {H H' : Function → Prop} {s : State} {f : Frame}

theorem State.Launches.begins (h : s.Launches H) : s.Begins H := by
  cases h with
  | block hs hidle _ hmain hstart => exact .block hs hidle hmain hstart
  | call hs hidle _ hcallee hargs hstart => exact .call hs hidle hcallee hargs hstart

theorem State.Launches.after (h : s.Launches H) : Watch.nothing.After s.machine := by
  cases h with
  | @block s t run _ hidle hnull _ hstart =>
    unfold Run.startBlock at hstart
    dsimp only at hstart
    split at hstart
    · next hrun =>
      cases hstart
      have hbegin : Exec.MindsEnd Watch.nothing (do
          Exec.reset
          Exec.pushFrame (← Exec.getMachine).main 0 .function) s := by
        rw [Exec.MindsEnd, Exec.reset, bind_assoc, Exec.yields_bind, Exec.yields_modifyMachine, Exec.yields_bind,
          Exec.yields_setSp]
        intro _
        rw [Exec.yields_bind, Exec.yields_getMachine]
        refine Exec.minds_pushFrame (W := .nothing) (s := ⟨_, _⟩) ?_ _ (Nat.zero_le _) (Nat.zero_le _)
        exact ⟨hnull.setSp, fun _ hkeep => False.elim hkeep, Nat.zero_le _, rfl⟩
      exact hbegin.ok hrun
    · cases hstart
  | @call s t run callee args _ hidle hnull _ _ hstart =>
    unfold Run.startCall at hstart
    dsimp only at hstart
    split at hstart
    · next hrun =>
      cases hstart
      have hbegin : Exec.MindsEnd Watch.nothing (Exec.beginCall callee args) s := by
        refine (Exec.minds_push (k := 0) callee).then (hidle.watched hnull) (Nat.zero_le _) fun _ t ht hsp => ?_
        refine (Exec.minds_pushAll (k := 1) args).then ht hsp fun _ u hu hsp => Exec.minds_callValue hu ?_
        rwa [Nat.add_comm args.length]
      exact hbegin.ok hrun
    · exact (Run.ended_endCall hstart).elim

/-- A run begins with one frame, or it is over already. -/
theorem State.Launches.piles {G : Grade} (h : s.Launches H) (hH : ∀ f, H f → f.Follows G) : s.machine.Piles G := by
  rcases h.begins.starts with ⟨hover, hidle | hfresh⟩
  · refine ⟨?_, by simp [hidle.frames]⟩
    rw [hidle.frames, hidle.handlers]
    exact .empty
  · rcases hfresh.frames with ⟨f, hframes, hip, hsp⟩
    have hframes : s.machine.frames = #[].push f := hframes
    have hmem : f ∈ s.machine.frames := by simp [hframes]
    have hrests : f.Rests G ⟨0, [], 0, .nothing⟩ f.floor := (hH _ (hover.frames f hmem).closure).rests hip
    refine ⟨?_, ?_⟩
    · rw [hframes, hfresh.handlers, Machine.height_of_none hfresh.waiting, hsp]
      exact @Piled.frame _ _ _ _ _ [] _ .empty (by simp) hrests .none
    · rw [hframes, hsp, Array.back?_push]
      rintro _ ⟨⟩
      exact Nat.le_refl _

/-- In all states of a run the frames are piled up. -/
theorem State.Launches.all_piles (h : s.Launches H) (hH : ∀ f, H f → f.Follows G)
    (hss : (s :: ss).IsChain (State.Next H)) : ∀ t ∈ s :: ss, t.machine.Piles G := by
  have hover := h.begins.confined hss
  have hsteps := hss.imp_of_mem_imp fun t u ht _ hnext => And.intro hnext (hover t ht)
  exact hsteps.induction _ _ (fun _ _ hstep hpiles => hstep.1.piles hH hpiles hstep.2) fun _ => h.piles hH

/-- The first frame of a run. -/
theorem State.Launches.entered (h : s.Launches H) {fs : Array Frame} (hframes : s.machine.frames = fs.push f) :
    fs = #[] ∧ s.machine.Entered #[] f := by
  rcases h.begins.starts.2 with hidle | hfresh
  · rw [hidle.frames] at hframes
    exact absurd (congrArg Array.size hframes) (by simp)
  · rcases hfresh.frames with ⟨g, hframes', hip, hsp⟩
    rcases Array.push_eq_push.mp (hframes.symm.trans (show _ = #[].push g from hframes')) with ⟨rfl, rfl⟩
    rcases h.after.entered (by simp [hframes, Watch.nothing]) with ⟨k, hk, hgiven, hroom⟩
    rw [hframes, Array.back?_push] at hk
    cases hk
    exact ⟨rfl, hframes, hip, hsp, hroom, hgiven⟩

end

end ScriptMachine
