import ScriptMachine.Proofs.Frames.Run

/-!
# The life of a frame

A frame is there from the turn that enters it to the one that leaves it: it returns, or a value is thrown to a frame
further down (`Machine.Leaves`). In the meantime the frames and the slots below it are as they were, whatever the
frames above it do, and a local that was null at the beginning stays so until the frame sets it.

1. **Places of frames**: a frame is one of the frames of a machine, over certain others.
2. **Turns**: what a turn does to a frame that is there and to the slots below its operands.
3. **Lives**: the same from the first turn of a frame to its last.
-/

namespace ScriptMachine

open Point

/-! ## Places of frames -/

/-- A frame is one of the frames `ks`, over the frames `fs`. -/
structure Frame.On (f : Frame) (fs ks : Array Frame) : Prop where
  below : ∀ i < fs.size, ks[i]? = fs[i]?
  frame : ∃ g, ks[fs.size]? = some g ∧ f.Same g

section

variable {m m' : Machine} {fs gs ks : Array Frame} {f g t t' : Frame} {a : Array Value} {i n : Nat}

namespace Frame.On

theorem size_lt (h : f.On fs ks) : fs.size < ks.size := by
  rcases h.frame with ⟨g, hg, -⟩
  exact (Array.getElem?_eq_some_iff.mp hg).1

theorem top (h : f.Same t) : f.On fs (fs.push t) := by
  refine ⟨fun i hi => ?_, t, Array.getElem?_push_size, h⟩
  rw [Array.getElem?_push, if_neg (Nat.ne_of_lt hi)]

/-- The frames from that of `f` on are the same. -/
theorem of_prefix (h : f.On fs ks) (hgs : ∀ i ≤ fs.size, gs[i]? = ks[i]?) : f.On fs gs := by
  rcases h with ⟨hbelow, g, hg, hsame⟩
  exact ⟨fun i hi => (hgs i (Nat.le_of_lt hi)).trans (hbelow i hi), g, (hgs _ (Nat.le_refl _)).trans hg, hsame⟩

theorem push (h : f.On fs ks) (t : Frame) : f.On fs (ks.push t) := by
  refine h.of_prefix fun i hi => ?_
  rw [Array.getElem?_push, if_neg (Nat.ne_of_lt (Nat.lt_of_le_of_lt hi h.size_lt))]

theorem extract {d : Nat} (h : f.On fs ks) (hd : fs.size < d) : f.On fs (ks.extract 0 d) := by
  refine h.of_prefix fun i hi => ?_
  have hlt := h.size_lt
  rw [Array.getElem?_extract, if_pos (by omega), Nat.zero_add]

/-- The frame on top is the frame itself, or the frame is further down. -/
theorem of_push (h : f.On fs (ks.push t)) : ks = fs ∧ f.Same t ∨ f.On fs ks := by
  rcases h with ⟨hbelow, g, hg, hsame⟩
  rw [Array.getElem?_push] at hg
  split at hg
  · next hsize =>
    cases hg
    refine .inl ⟨Array.ext_getElem? fun i => ?_, hsame⟩
    rcases Nat.lt_or_ge i fs.size with hi | hi
    · rw [← hbelow i hi, Array.getElem?_push, if_neg (by omega)]
    · rw [Array.getElem?_eq_none (by omega), Array.getElem?_eq_none hi]
  · have hsize := (Array.getElem?_eq_some_iff.mp hg).1
    refine .inr ⟨fun i hi => ?_, g, hg, hsame⟩
    rw [← hbelow i hi, Array.getElem?_push, if_neg (by omega)]

theorem push_same (h : f.On fs (ks.push t)) (hsame : t.Same t') : f.On fs (ks.push t') := by
  rcases h.of_push with ⟨rfl, hf⟩ | hf
  · exact top (hf.trans hsame)
  · exact hf.push t'

end Frame.On

/-! ## Turns -/

/-- A turn of a machine that runs on. -/
structure Machine.Advances (m m' : Machine) : Prop where
  running : m.frames ≠ #[]
  stacked : m.Stacked
  null : NullFrom m.stack m.sp
  shifts : ∀ fs f, m.frames = fs.push f → m.Shifts fs f m'
  minds : ∀ fs f (W : Watch), m.frames = fs.push f → W.Holds m → W.floor ≤ f.floor →
    (∀ n, m.waiting = none → f.Sets n → ¬ W.keep (f.base + n)) → (m'.frames = fs → W.floor ≤ f.resultSlot) → W.After m'

/-- A turn leaves the frame `f`. It returns: then its result is on top of the stack in place of the callee, and what is
below is as it was in `a`. Or a value is thrown to a frame further down. -/
inductive Machine.Leaves (m : Machine) (fs : Array Frame) (f : Frame) (a : Array Value) (m' : Machine) : Prop where
  | returns : m'.frames = fs → m'.sp = f.resultSlot + 1 → (∀ i < f.resultSlot, m'.stack[i]? = a[i]?) →
    Leaves m fs f a m'
  | unwinds {h : Handler} : m.handlers = h :: m'.handlers → m'.frames.size = h.depth → h.depth ≤ fs.size →
    Leaves m fs f a m'

/-- The running frame is `f`, and it is about to set a local. -/
def Machine.Sets (m : Machine) (fs : Array Frame) (f : Frame) (n : Nat) : Prop :=
  ∃ g, m.frames = fs.push g ∧ f.Same g ∧ m.waiting = none ∧ g.Sets n

namespace Machine.Advances

variable (h : m.Advances m') (hf : f.On fs m.frames)

include h hf

/-- A frame that does not return stays, or a value is thrown past it. -/
theorem passes : f.On fs m'.frames ∨
    (m'.frames = fs ∧ m'.sp = f.resultSlot + 1 ∧ m'.handlers = Handler.discard m.handlers (fs.size + 1)) ∨
    ∃ k, m.handlers = k :: m'.handlers ∧ m'.frames.size = k.depth ∧ k.depth ≤ fs.size := by
  obtain ⟨ks, t, hframes⟩ := Array.eq_push_of_size_ne_zero (mt Array.eq_empty_of_size_eq_zero h.running)
  rw [hframes] at hf
  cases h.shifts ks t hframes with
  | stays hframes' hsame =>
    rw [hframes']
    exact .inl (hf.push_same hsame)
  | enters hframes' hsame =>
    rw [hframes']
    exact .inl ((hf.push_same hsame).push _)
  | returns hframes' hsp hhandlers =>
    rcases hf.of_push with ⟨rfl, hsame⟩ | hon
    · exact .inr (.inl ⟨hframes', by rw [hsp, hsame.resultSlot], hhandlers⟩)
    · rw [hframes']
      exact .inl hon
  | @throws k t' g g' gs hcons hsame hextract hsame' hframes' =>
    have hpile := h.stacked.frames
    rw [hframes, hcons] at hpile
    have hdepth := hpile.depth_le k List.mem_cons_self
    have hsize : k.depth = gs.size + 1 := by
      have hsize := congrArg Array.size hextract
      simp only [Array.size_extract, Array.size_push] at hsize hdepth
      omega
    rcases Nat.lt_or_ge fs.size k.depth with hlt | hge
    · have hon := (hf.push_same hsame).extract hlt
      rw [hextract] at hon
      rw [hframes']
      exact .inl (hon.push_same hsame')
    · refine .inr (.inr ⟨k, hcons, ?_, hge⟩)
      rw [hframes', Array.size_push, hsize]

/-- Slots below the operands of a frame that is still there, or that returns, are left alone unless the frame itself
writes to them. -/
theorem kept {K : Nat → Prop} {b : Nat} (hK : ∀ i, K i → i < b) (hb : b ≤ f.floor)
    (hsets : ∀ n, m.Sets fs f n → ¬ K (f.base + n)) (hreturns : m'.frames = fs → b ≤ f.resultSlot)
    (hcatches : ∀ k, m.handlers = k :: m'.handlers → m'.frames.size ≤ k.depth → fs.size < k.depth) :
    ∀ i, K i → m'.stack[i]? = m.stack[i]? := by
  obtain ⟨ks, t, hframes⟩ := Array.eq_push_of_size_ne_zero (mt Array.eq_empty_of_size_eq_zero h.running)
  let W : Watch := ⟨K, m.stack, b, m.frames.size, m.handlers, hK⟩
  have hW : W.Holds m := ⟨h.null, fun _ _ => rfl, Nat.le_refl _, rfl⟩
  -- frames further up are above the locals of `f`
  have above {j : Nat} {g : Frame} (hj : fs.size < j) (hg : m.frames[j]? = some g) : b ≤ g.resultSlot := by
    rcases hf.frame with ⟨f', hf', hsame⟩
    have hle := h.stacked.frames.floor_le hj hf' hg
    rw [hsame.floor] at hle
    exact Nat.le_trans hb hle
  have hon := hf
  rw [hframes] at hon
  have hafter : W.After m' := by
    rcases hon.of_push with ⟨rfl, hsame⟩ | hfar
    · refine h.minds ks t W hframes hW ?_ ?_ ?_
      · rw [hsame.floor]
        exact hb
      · intro n hw hset
        rw [hsame.base]
        exact hsets n ⟨t, hframes, hsame, hw, hset⟩
      · rw [hsame.resultSlot]
        exact hreturns
    · have hslot : b ≤ t.resultSlot := above hfar.size_lt (by rw [hframes, Array.getElem?_push_size])
      have hbase := t.resultSlot_le
      refine h.minds ks t W hframes hW ?_ ?_ fun _ => hslot
      · show b ≤ t.base + _
        omega
      · intro n _ _ hkeep
        have := hK _ hkeep
        omega
  rcases hafter.kept with hkept | ⟨k, hcons, hdepth, hkept⟩
  · exact hkept
  · intro i hi
    have hcons : m.handlers = k :: m'.handlers := hcons
    have hlt := hcatches k hcons hdepth
    rcases h.stacked.frames.serves (h := k) (by simp [hcons]) with ⟨j, g, hj, hg, hfloor⟩
    refine hkept i hi (Nat.lt_of_lt_of_le (hK i hi) (Nat.le_trans ?_ hfloor))
    rcases Nat.eq_or_lt_of_le (show fs.size ≤ j by omega) with rfl | hlt
    · rcases hf.frame with ⟨f', hf', hsame⟩
      cases hf'.symm.trans hg
      rw [hsame.floor]
      exact hb
    · exact Nat.le_trans (above hlt hg) (Nat.le_trans g.resultSlot_le (Nat.le_add_right _ _))

/-- A turn leaves the frame, or the frame is still there and nothing below it was written. -/
theorem stays_or_leaves :
    f.On fs m'.frames ∧ (∀ i < f.resultSlot, m'.stack[i]? = m.stack[i]?) ∨ m.Leaves fs f m.stack m' := by
  have hle : f.resultSlot ≤ f.floor := Nat.le_trans f.resultSlot_le (Nat.le_add_right _ _)
  have hsets : ∀ n, m.Sets fs f n → ¬ f.base + n < f.resultSlot := fun n _ hlt =>
    absurd f.resultSlot_le (by omega)
  have kept := h.kept hf (K := (· < f.resultSlot)) (fun _ hi => hi) hle hsets fun _ => Nat.le_refl _
  rcases h.passes hf with hon | ⟨hframes, hsp, hhandlers⟩ | ⟨k, hcons, hsize, hdepth⟩
  · exact .inl ⟨hon, kept fun _ _ hdepth => Nat.lt_of_lt_of_le hon.size_lt hdepth⟩
  · refine .inr (.returns hframes hsp (kept fun k hcons _ => ?_))
    -- a handler that was discarded belongs to the frame that returns
    by_contra hdepth
    rw [hcons, Handler.discard, List.dropWhile_cons_of_neg (by simpa [Nat.lt_succ_iff] using hdepth)] at hhandlers
    exact absurd (congrArg List.length hhandlers) (by simp)
  · exact .inr (.unwinds hcons hsize hdepth)

/-- A local is as it was, unless the frame sets it or is left. -/
theorem local_kept (hn : n < f.closure.function.locals) (hsets : ¬ m.Sets fs f n) (hon : f.On fs m'.frames) :
    m'.stack[f.base + n]? = m.stack[f.base + n]? := by
  refine h.kept hf (K := (· = f.base + n)) (b := f.base + n + 1) ?_ ?_ ?_ ?_ ?_ _ rfl
  · rintro _ rfl
    exact Nat.lt_succ_self _
  · unfold Frame.floor
    omega
  · intro k hk heq
    obtain rfl : k = n := by omega
    exact hsets hk
  · intro hframes
    exact absurd hon.size_lt (by simp [hframes])
  · exact fun _ _ hdepth => Nat.lt_of_lt_of_le hon.size_lt hdepth

end Machine.Advances

/-! ## Lives -/

/-- A step at a time: an execution goes through machines with `P`, until a step is taken that may end this. -/
theorem Until.of_steps {P : Machine → Prop} {R S : Machine → Machine → Prop} {Q : List Machine → Prop}
    {ms : List Machine} (hms : (m :: ms).IsChain S) (hm : P m) (hstep : ∀ x y, S x y → P x → P y ∨ R x y)
    (hQ : ∀ x y rest, R x y → Q (x :: y :: rest)) : Until P Q (m :: ms) := by
  induction ms generalizing m with
  | nil => exact .later hm .stops
  | cons y ms ih =>
    rcases List.isChain_cons_cons.mp hms with ⟨hy, hrest⟩
    rcases hstep m y hy hm with hp | hr
    · exact .later hm (ih hrest hp)
    · exact .now (hQ m y ms hr)

/-- The frame `f` is left in the next turn. -/
def Frame.Ends (f : Frame) (fs : Array Frame) (a : Array Value) : List Machine → Prop
  | m :: m' :: _ => m.Leaves fs f a m'
  | _ => False

/-- A frame is there, and the slots below it are as they were in `a`. -/
structure Machine.Hosts (m : Machine) (fs : Array Frame) (f : Frame) (a : Array Value) : Prop where
  frames : f.On fs m.frames
  below : ∀ i < f.resultSlot, m.stack[i]? = a[i]?

theorem Machine.Advances.hosts_or_leaves (h : m.Advances m') (hf : m.Hosts fs f a) :
    m'.Hosts fs f a ∨ m.Leaves fs f a m' := by
  rcases h.stays_or_leaves hf.frames with ⟨hon, hkept⟩ | hleaves
  · exact .inl ⟨hon, fun i hi => (hkept i hi).trans (hf.below i hi)⟩
  · refine .inr ?_
    cases hleaves with
    | returns hframes hsp hkept => exact .returns hframes hsp fun i hi => (hkept i hi).trans (hf.below i hi)
    | unwinds hcons hsize hdepth => exact .unwinds hcons hsize hdepth

/-- While a frame is there, nothing below it is written. -/
theorem Machine.Hosts.lives {ms : List Machine} (h : m.Hosts fs f a) (hms : (m :: ms).IsChain Advances) :
    Until (Machine.Hosts · fs f a) (f.Ends fs a) (m :: ms) :=
  .of_steps hms h (fun _ _ hstep hx => hstep.hosts_or_leaves hx) fun _ _ _ hleaves => hleaves

/-- While a frame is there, a local that holds null does so until the frame sets it. -/
theorem Machine.Hosts.local_null {ms : List Machine} (h : m.Hosts fs f a) (hms : (m :: ms).IsChain Advances)
    (hn : n < f.closure.function.locals) (hnull : m.stack[f.base + n]? = some .null) :
    Until (fun x => x.Hosts fs f a ∧ x.stack[f.base + n]? = some .null)
      (fun rest => f.Ends fs a rest ∨ ∃ x rest', rest = x :: rest' ∧ x.Sets fs f n) (m :: ms) := by
  refine .of_steps (R := fun x y => x.Leaves fs f a y ∨ x.Sets fs f n) hms ⟨h, hnull⟩ ?_ ?_
  · rintro x y hstep ⟨hx, hslot⟩
    by_cases hsets : x.Sets fs f n
    · exact .inr (.inr hsets)
    · rcases hstep.hosts_or_leaves hx with hy | hleaves
      · exact .inl ⟨hy, (hstep.local_kept hx.frames hn hsets hy.frames).trans hslot⟩
      · exact .inr (.inl hleaves)
  · rintro x y rest (hleaves | hsets)
    · exact .inl hleaves
    · exact .inr ⟨x, y :: rest, rfl, hsets⟩

/-- A frame was entered just now, over slots that are as they were in `a`. -/
structure Frame.Lives (f : Frame) (fs : Array Frame) (a : Array Value) (m : Machine) (ms : List Machine) : Prop where
  entered : m.Entered fs f
  /-- Nothing below the frame is written while it is there, and if it returns nothing has been. -/
  hosts : Until (Machine.Hosts · fs f a) (f.Ends fs a) (m :: ms)
  /-- Locals to which nothing was handed over hold null until they are set. -/
  locals : ∀ n, f.given ≤ n → n < f.closure.function.locals →
    Until (fun x => x.Hosts fs f a ∧ x.stack[f.base + n]? = some .null)
      (fun rest => f.Ends fs a rest ∨ ∃ x rest', rest = x :: rest' ∧ x.Sets fs f n) (m :: ms)

theorem Machine.Entered.lives {ms : List Machine} (h : m.Entered fs f)
    (hbelow : ∀ i < f.resultSlot, m.stack[i]? = a[i]?) (hms : (m :: ms).IsChain Advances) : f.Lives fs a m ms := by
  have hhosts : m.Hosts fs f a := by
    refine ⟨?_, hbelow⟩
    rw [h.frames]
    exact .top ⟨rfl, rfl, rfl⟩
  exact ⟨h, hhosts.lives hms, fun n hgiven hn => hhosts.local_null hms hn (h.local_null hgiven hn)⟩

end

/-! ## Runs -/

section

variable {s t u : State} {ss us : List State} {fs : Array Frame} {f : Frame}

/-- The frames of a machine are piled up, and the slots from the stack pointer on hold null. -/
structure State.Neat (s : State) : Prop where
  confined : s.machine.Over Function.IsSound
  stacked : s.machine.Stacked
  null : NullFrom s.machine.stack s.machine.sp

theorem State.Launches.neat (h : s.Launches Function.IsSound) : s.Neat :=
  ⟨h.begins.starts.1, h.piles fun _ hf => hf.follows, h.after.clear⟩

theorem State.Next.advances (h : s.Next Function.IsSound t) (hs : s.Neat) : s.machine.Advances t.machine where
  running := h.1
  stacked := hs.stacked
  null := hs.null
  shifts _ _ hframes := h.shifts hs.stacked hframes
  minds _ _ _ hframes hW hfloor hwrites hleaves := h.minds hs.stacked hframes hW hfloor hwrites hleaves

theorem State.Next.neat (h : s.Next Function.IsSound t) (hs : s.Neat) : t.Neat := by
  refine ⟨h.confined hs.confined, h.piles (fun _ hf => hf.follows) hs.stacked hs.confined, ?_⟩
  obtain ⟨fs, f, hframes⟩ := Array.eq_push_of_size_ne_zero (mt Array.eq_empty_of_size_eq_zero h.1)
  let W : Watch := ⟨fun _ => False, #[], 0, s.machine.frames.size, s.machine.handlers,
    fun _ hkeep => False.elim hkeep⟩
  have hW : W.Holds s.machine := ⟨hs.null, fun _ hkeep => False.elim hkeep, Nat.le_refl _, rfl⟩
  exact (h.minds hs.stacked hframes hW (Nat.zero_le _) (fun _ _ _ => id) fun _ => Nat.zero_le _).clear

/-- All states of a run are neat. -/
theorem State.Launches.all_neat (h : s.Launches Function.IsSound) (hss : (s :: ss).IsChain (Next Function.IsSound)) :
    ∀ t ∈ s :: ss, t.Neat :=
  hss.induction _ _ (fun _ _ hnext ht => hnext.neat ht) fun _ => h.neat

theorem State.Launches.advances (h : s.Launches Function.IsSound) (hss : (s :: ss).IsChain (Next Function.IsSound)) :
    ((s :: ss).map State.machine).IsChain Machine.Advances := by
  rw [List.isChain_map]
  exact hss.imp_of_mem_imp fun t u ht _ hnext => hnext.advances (h.all_neat hss t ht)

/-- The first frame of a run. -/
theorem State.Launches.lives (h : s.Launches Function.IsSound) (hss : (s :: ss).IsChain (Next Function.IsSound))
    (hframes : s.machine.frames = fs.push f) :
    fs = #[] ∧ f.Lives fs s.machine.stack s.machine (ss.map State.machine) := by
  rcases h.entered hframes with ⟨rfl, hentered⟩
  exact ⟨rfl, hentered.lives (fun _ _ => rfl) (h.advances hss)⟩

/-- A frame that a call enters in the course of a run. -/
theorem State.Launches.lives_of_call (h : s.Launches Function.IsSound)
    (hss : (s :: ss).IsChain (Next Function.IsSound)) (hus : t :: u :: us <:+ s :: ss)
    (hframes : u.machine.frames = fs.push f) (hsize : t.machine.frames.size ≤ fs.size) :
    f.Lives fs t.machine.stack u.machine (us.map State.machine) := by
  have ht := h.all_neat hss t (hus.subset List.mem_cons_self)
  have hnext := hss.suffix hus
  rcases List.isChain_cons_cons.mp hnext with ⟨hcall, -⟩
  rcases hcall.enters ht.stacked ht.null hframes hsize with ⟨hentered, hbelow⟩
  refine hentered.lives hbelow ?_
  have hchain := (h.advances hss).suffix (hus.map State.machine)
  exact (List.isChain_cons_cons.mp hchain).2

end

end ScriptMachine
