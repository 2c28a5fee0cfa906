import Mathlib.Data.List.Chain
import ScriptMachine.Proofs.Finally.Parts

/-!
# Finally bodies are run one after the other

When control leaves protected regions, what comes next is a chain of copies of their finally bodies, with
single instructions between them. `Unwinds` describes what is left of an execution then: the bodies of a
list are run in order, each of them once, and after them comes something else.

1. **Places**: `Machine.At` and `Machine.In`, where control is in the code of a frame.
2. **Description**: `RunsOnce` for one body and `Unwinds` for a list of them.
3. **Single instructions**: what a turn at a known instruction does.
4. **Copies and ways out**: a copy is run once (`Copy.runsOnce`), and so are all bodies on the way out of
   regions (`WayOut.unwinds`).
-/

namespace ScriptMachine

open Point

/-! ## Places -/

/-- Control is at an offset of the code of a frame, while the given handlers are in force. -/
structure Machine.At (m : Machine) (fs : Array Frame) (f : Frame) (o : Nat) (hs : List Handler) : Prop where
  frames : ∃ g, m.frames = fs.push g ∧ f.Same g ∧ g.ip = o
  waiting : m.waiting = none
  handlers : m.handlers = hs

/-- Control is in a part of the code of a frame, or in what was called from there. -/
def Machine.In (m : Machine) (fs : Array Frame) (f : Frame) (part : Nat → Prop) : Prop :=
  ∃ g above, m.frames = fs.push g ++ above ∧ f.Same g ∧ part g.ip

/-! ## Description -/

section

variable (code : List Point) (fs : Array Frame) (f : Frame)

/-- While the given handlers are in force, none of which was set in the part of the code that control is
in, a value is thrown. -/
def Escapes (hs : List Handler) (part : Nat → Prop) (ms : List Machine) : Prop :=
  ∃ m m' rest g low v, ms = m :: m' :: rest ∧ m.In fs f part ∧ m.handlers = hs ∧ f.Same g ∧
    m.Throws fs g low v m'

/-- The finally body `F` is run once: control goes through a copy of it from its start to its end, where `Q`
begins. The other way out of the copy is an error that escapes the body. -/
def RunsOnce (F : Block) (Q : List Machine → Prop) (ms : List Machine) : Prop :=
  ∃ rs height start stop hs, Copy code F rs height start stop ∧ (∀ m ∈ ms.head?, m.At fs f start hs) ∧
    Until (Machine.In · fs f fun o => start ≤ o ∧ o ≤ stop)
      (fun rest => (∃ m ∈ rest.head?, m.At fs f stop hs) ∧ Q rest ∨
        Escapes fs f hs (fun o => start ≤ o ∧ o ≤ stop) rest) ms

/-- Instructions that stand between the copies of finally bodies: one of them takes a handler away, the other
two say that nothing is pending. -/
def Opcode.isBetween : Opcode → Bool
  | .finallyEnd | .null | .pushFalse => true
  | _ => false

/-- Control is at an instruction between the copies of finally bodies. -/
def Machine.Between (m : Machine) : Prop :=
  ∃ p ∈ code, p.item.opcode.isBetween = true ∧ ∃ hs, m.At fs f p.offset hs

/-- The finally bodies of a list are run in order, each of them once, and then `Q` begins. -/
def Unwinds (Q : List Machine → Prop) : List Block → List Machine → Prop
  | [] => Until (Machine.Between code fs f) Q
  | F :: Fs => Until (Machine.Between code fs f) (RunsOnce code fs f F (Unwinds Q Fs))

end

section

variable {code : List Point} {fs : Array Frame} {f g : Frame} {i : Emitted} {m m' : Machine} {o : Nat}
  {hs : List Handler} {p : Point}

/-- What comes before the first body. -/
theorem Unwinds.cons {Q : List Machine → Prop} {Fs : List Block} {ms : List Machine} (hm : m.Between code fs f)
    (h : Unwinds code fs f Q Fs ms) : Unwinds code fs f Q Fs (m :: ms) := by
  cases Fs with
  | nil => exact .later hm h
  | cons F Fs => exact .later hm h

/-! ## Single instructions -/

namespace Machine.Turns

variable (h : m.Turns fs g i m')

include h

theorem of_finallyEnd (hop : i.opcode = .finallyEnd) :
    Machine.Works { m with handlers := m.handlers.tail } fs g m.sp (i.operand 0) m.sp m' ∧
      m'.waiting = none := by
  cases h <;> simp_all [Opcode.isPlain, Opcode.isCall, Opcode.isSure]

theorem of_tryEnter (hop : i.opcode = .tryEnter) :
    Machine.Works { m with
      handlers := .ofOperands (i.operand 0) (i.operand 1) m.frames.size m.sp :: m.handlers }
      fs g m.sp (g.ip + 5) m.sp m' ∧ m'.waiting = none := by
  cases h <;> simp_all [Opcode.isPlain, Opcode.isCall, Opcode.isSure]

theorem of_jump (hop : i.opcode = .jump) : m.Works fs g m.sp (i.operand 0) m.sp m' ∧ m'.waiting = none := by
  cases h <;> simp_all [Opcode.isPlain, Opcode.isCall, Opcode.isSure]

theorem of_returnValue (hop : i.opcode = .returnValue) :
    ∃ v, m.stack[m.sp - 1]? = some v ∧ m.Returns fs g (m.sp - 1) v m' := by
  cases h with
  | @returns v hv hreturns =>
    have hone : i.takes = 1 := by simp [Emitted.takes, hop]
    rw [hone] at hreturns
    rcases hv with ⟨-, hv⟩ | ⟨hop', -⟩
    · exact ⟨v, hv, hreturns⟩
    · rw [hop] at hop'
      cases hop'
  | _ => simp_all [Opcode.isPlain, Opcode.isCall, Opcode.isSure]

theorem of_returnNull (hop : i.opcode = .returnNull) : m.Returns fs g m.sp .null m' := by
  cases h with
  | @returns v hv hreturns =>
    have hzero : i.takes = 0 := by simp [Emitted.takes, hop]
    rw [hzero] at hreturns
    rcases hv with ⟨hop', -⟩ | ⟨-, rfl⟩
    · rw [hop] at hop'
      cases hop'
    · exact hreturns
  | _ => simp_all [Opcode.isPlain, Opcode.isCall, Opcode.isSure]

theorem of_rethrow (hop : i.opcode = .rethrow) :
    ((∀ b, m.stack[m.sp - 1]? = some (.bool b) → b = false) ∧
      m.Works fs g (m.sp - 2) (g.ip + 1) (m.sp - 2) m' ∧ m'.waiting = none) ∨
    ((∀ b, m.stack[m.sp - 1]? = some (.bool b) → b = true) ∧
      ∃ v, m.stack[m.sp - 2]? = some v ∧ m.Throws fs g (m.sp - 2) v m') := by
  have htwo : i.takes = 2 := by simp [Emitted.takes, hop]
  cases h with
  | resumes _ hmark hworks hw => exact .inl ⟨hmark, hworks, hw⟩
  | @throws v _ hv _ hthrows =>
    rw [htwo] at hthrows
    exact .inr ⟨(hv hop).2, v, (hv hop).1, hthrows⟩
  | _ => simp_all [Opcode.isPlain, Opcode.isCall]

/-- An instruction that neither goes elsewhere nor comes to a fault. -/
theorem of_sure (hplain : i.opcode.isPlain = true) (hsure : i.opcode.isSure = true) :
    m.Works fs g (m.sp - i.takes) (g.ip + i.opcode.length) (m.sp - i.takes + i.leaves) m' ∧
      m'.waiting = none ∧ ∀ v, i.opcode.pushes? = some v → m'.stack[m.sp]? = some v := by
  cases h with
  | works _ hworks hrest => exact ⟨hworks, hrest hsure⟩
  | enters hcall =>
    revert hcall hsure
    cases i.opcode <;> simp [Opcode.isCall, Opcode.isSure]
  | throws _ _ hnot =>
    rw [hsure] at hnot
    cases hnot
  | returns hop =>
    rcases hop with ⟨hop, -⟩ | ⟨hop, -⟩ <;> rw [hop] at hplain <;> cases hplain
  | jumps hop | branches hop | opens hop | closes hop | resumes hop =>
    rw [hop] at hplain
    cases hplain

end Machine.Turns

/-- Where control is after work in the running frame. -/
theorem Machine.Works.at {low ip sp : Nat} (h : m.Works fs g low ip sp m') (hw : m'.waiting = none)
    (hsame : f.Same g) : m'.At fs f ip m.handlers ∧ m'.sp = sp ∧ f.Spares low m.stack m'.stack := by
  rcases h.frames with ⟨k, hframes, hsame', hip⟩
  have hsp : m'.height = sp := h.sp
  refine ⟨⟨⟨k, hframes, hsame.trans hsame', hip⟩, hw, h.handlers⟩, ?_, h.stack.same hsame⟩
  rw [← hsp, Machine.height_of_none hw]

/-- What a turn does at a point of a layout. -/
theorem Machine.Moves.at (h : m.Moves m') (hm : m.At fs f p.offset hs) (hlaid : f.closure.function.Laid code)
    (hp : p ∈ code) : ∃ g, f.Same g ∧ g.ip = p.offset ∧ m.frames = fs.push g ∧ m.Turns fs g p.item m' := by
  rcases hm.frames with ⟨g, hframes, hsame, hip⟩
  rw [← hsame.closure] at hlaid
  exact ⟨g, hsame, hip, hframes, h.turns fs g code hframes hm.waiting hlaid p hp hip⟩

/-- A region is left. -/
theorem Machine.Moves.closes (h : m.Moves m') (hm : m.At fs f p.offset hs)
    (hlaid : f.closure.function.Laid code) (hp : p ∈ code) (hop : p.item.opcode = .finallyEnd) :
    m'.At fs f (p.item.operand 0) hs.tail ∧ m'.sp = m.sp ∧ f.Spares m.sp m.stack m'.stack := by
  rcases h.at hm hlaid hp with ⟨g, hsame, -, -, hturns⟩
  rcases hturns.of_finallyEnd hop with ⟨hworks, hw⟩
  have hat := hworks.at hw hsame
  rwa [show ({ m with handlers := m.handlers.tail } : Machine).handlers = hs.tail from
    congrArg List.tail hm.handlers] at hat

/-- An instruction that neither goes elsewhere nor comes to a fault. -/
theorem Machine.Moves.goes_on (h : m.Moves m') (hm : m.At fs f p.offset hs)
    (hlaid : f.closure.function.Laid code) (hp : p ∈ code) (hplain : p.item.opcode.isPlain = true)
    (hsure : p.item.opcode.isSure = true) :
    m'.At fs f (p.offset + p.item.opcode.length) hs ∧ m'.sp = m.sp - p.item.takes + p.item.leaves ∧
      f.Spares (m.sp - p.item.takes) m.stack m'.stack ∧
      ∀ v, p.item.opcode.pushes? = some v → m'.stack[m.sp]? = some v := by
  rcases h.at hm hlaid hp with ⟨g, hsame, hip, -, hturns⟩
  rcases hturns.of_sure hplain hsure with ⟨hworks, hw, hpushes⟩
  rcases hworks.at hw hsame with ⟨hat, hsp, hspares⟩
  rw [hip, hm.handlers] at hat
  exact ⟨hat, hsp, hspares, hpushes⟩

end

/-! ## Copies and ways out -/

section

variable {G : Ground} {hs : List Handler} {m : Machine} {ms : List Machine} {F : Block}
  {Q : List Machine → Prop} {rs rs' : List Region} {height start stop o : Nat}

/-- Where only the outer regions are open, the handlers are those below. -/
theorem Ground.Opened.at_outer (h : G.Opened G.outer hs) : hs = G.handlers := by
  rcases h.split with ⟨-, hhandlers⟩ | ⟨r, rs, k, hs', hcons, -, -, hopen⟩
  · exact hhandlers
  · have hlen := hopen.suffix.length_le
    rw [hcons, List.length_cons] at hlen
    omega

/-- The lowest frame of a tower. -/
theorem Tower.bottom {frames : Array Frame} (ht : Tower G frames height hs) :
    ∃ g above s height' hs', frames = G.below.push g ++ above ∧ G.frame.Same g ∧ G.Leads s ∧
      g.Stands G s height' hs' := by
  induction ht with
  | ground hsame hleads hstands => exact ⟨_, #[], _, _, _, by simp, hsame, hleads, hstands⟩
  | @call _ _ f _ _ _ _ _ _ _ _ _ _ ih =>
    rcases ih with ⟨g, above, s, height', hs', rfl, hrest⟩
    exact ⟨g, above.push f, s, height', hs', by simp, hrest⟩

theorem Machine.Inside.in (h : m.Inside G) {part : Nat → Prop}
    (hpart : ∀ s hs, G.Leads s → G.Opened s.regions hs → part s.offset) : m.In G.below G.frame part := by
  rcases h.tower.bottom with ⟨g, above, s, height, hs, hframes, hsame, hleads, hstands⟩
  exact ⟨g, above, hframes, hsame, hstands.ip ▸ hpart s hs hleads hstands.opened⟩

/-- Control that is at the start of a copy goes through it to its end, unless an error escapes. -/
theorem Copy.runsOnce (h : Copy G.code F rs height start stop) (hF : F.Quiet) (hG : G.Sound)
    (hhs : ∀ h ∈ hs, h.depth ≤ G.depth)
    (hm : m.At G.below G.frame start hs) (hsp : G.base + height ≤ m.sp) (hms : (m :: ms).IsChain Machine.Moves)
    (hQ : ∀ x rest, x :: rest <:+ m :: ms → x.At G.below G.frame stop hs → x.sp = m.sp →
      G.frame.Spares m.sp m.stack x.stack → Q (x :: rest)) :
    RunsOnce G.code G.below G.frame F Q (m :: ms) := by
  refine ⟨rs, height, start, stop, hs, h, by simpa using hm, ?_⟩
  rcases h with ⟨Γ, c, notes, hlays, hsub, hstop, rfl, rfl⟩
  have hbase : m.sp - Γ.height + Γ.height = m.sp := by omega
  have hK : (G.copy (m.sp - Γ.height) Γ.height Γ.regions hs c stop).Sound :=
    hG.copy hlays hF hsub hhs (by omega) hstop
  have hpart : ∀ x : Machine, x.Inside (G.copy (m.sp - Γ.height) Γ.height Γ.regions hs c stop) →
      x.In G.below G.frame fun o => start ≤ o ∧ o ≤ stop := by
    intro x hx
    refine hx.in ?_
    rintro s hs' (⟨q, hq, hmeets⟩ | ⟨hoffset, -, -⟩) -
    · have hbounds := hlays.neat.bounds hq
      have hoffset : s.offset = q.offset := hmeets.offset
      omega
    · omega
  -- control stands at the first instruction of the copy, or at its end if it has none
  have hinside : m.Inside (G.copy (m.sp - Γ.height) Γ.height Γ.regions hs c stop) := by
    rcases hm.frames with ⟨g, hframes, hsame, hip⟩
    refine ⟨?_, by simp [hm.waiting]⟩
    rw [hframes, hm.handlers, Machine.height_of_none hm.waiting]
    refine .ground (s := Γ.spot start 0) hsame ?_ ⟨hip, Nat.le_of_eq hbase,
      fun _ => hbase.symm, .none⟩
    rcases hlays.starts with ⟨rfl, -⟩ | ⟨p, rest, rfl, hspot⟩
    · exact .inr ⟨hstop.symm, rfl, rfl⟩
    · rw [← hspot]
      exact Ground.leads_point List.mem_cons_self
  refine (hinside.until hK hms (.refl _ _ m.stack)).imp hpart ?_
  rintro _ hsuffix ⟨x, rest, rfl, hx, hspares, hends⟩
  have hspares : G.frame.Spares m.sp m.stack x.stack := hbase ▸ hspares
  rcases hends with ⟨hw, g, s, hframes, hsame, ⟨hoffset, hregions, hheight⟩, hstands⟩ | ⟨y, rest', rfl, hleaves⟩
  · have hsp' : x.sp = m.sp := by
      have hexact : x.sp = m.sp - Γ.height + s.height := hstands.exact trivial
      omega
    have hhandlers : x.handlers = hs := by
      have hopen := hstands.opened
      rw [hregions] at hopen
      exact hopen.at_outer
    have hat : x.At G.below G.frame stop hs := ⟨⟨g, hframes, hsame, hstands.ip.trans hoffset⟩, hw, hhandlers⟩
    exact .inl ⟨⟨x, rfl, hat⟩, hQ x rest hsuffix hat hsp' hspares⟩
  · rcases hleaves.copy hK hlays hF with ⟨g, v, hsame, hhandlers, hthrows⟩
    exact .inr ⟨x, y, rest', g, _, v, rfl, hpart x hx, hhandlers, hsame, hthrows⟩

theorem Unwinds.nil {code : List Point} {fs : Array Frame} {f : Frame} (Fs : List Block) : Unwinds code fs f Q Fs [] := by
  cases Fs with
  | nil => exact .stops
  | cons F Fs => exact .stops

/-- On the way out of regions their finally bodies are run, innermost first. What lies on the stack stays
there, and the handlers of the regions are gone at the end. -/
theorem WayOut.unwinds (h : WayOut G.code height rs o rs' stop) (hG : G.Sound)
    (hquiet : ∀ r ∈ rs, ∀ F ∈ r.cleanup, F.Quiet) :
    ∃ left, rs = left ++ rs' ∧ (left = [] → o = stop) ∧ ∀ {hs m ms Q}, (∀ h ∈ hs, h.depth ≤ G.depth) → m.At G.below G.frame o hs →
      G.base + height ≤ m.sp → (m :: ms).IsChain Machine.Moves →
      (∀ x rest, x :: rest <:+ m :: ms → x.At G.below G.frame stop (hs.drop left.length) → x.sp = m.sp →
        G.frame.Spares m.sp m.stack x.stack → Q (x :: rest)) →
      Unwinds G.code G.below G.frame Q (left.filterMap Region.cleanup) (m :: ms) := by
  induction h with
  | done =>
    refine ⟨[], rfl, fun _ => rfl, ?_⟩
    intro hs m ms Q _ hm _ _ hQ
    exact .now (hQ m ms (List.suffix_refl _) hm rfl (.refl _ _ _))
  | @leave p r rs o' rs' stop hp hop hoperand hregions hheight hnone hcopy _ ih =>
    rcases ih fun r' hr' => hquiet r' (List.mem_cons_of_mem _ hr') with ⟨left, rfl, -, hrun⟩
    refine ⟨r :: left, rfl, nofun, ?_⟩
    intro hs m ms Q hhs hm hsp hms hQ
    have hbetween : m.Between G.code G.below G.frame := ⟨p, hp, by rw [hop]; rfl, hs, hm⟩
    cases ms with
    | nil => exact .cons hbetween (.nil _)
    | cons m' ms =>
      rcases List.isChain_cons_cons.mp hms with ⟨hmove, hms'⟩
      rcases hmove.closes hm hG.laid hp hop with ⟨hm', hsp', hspares⟩
      have hhs' : ∀ h ∈ hs.tail, h.depth ≤ G.depth := fun h hh => hhs h (List.mem_of_mem_tail hh)
      have hafter : ∀ x rest, x :: rest <:+ m' :: ms →
          x.At G.below G.frame stop (hs.tail.drop left.length) → x.sp = m'.sp →
          G.frame.Spares m'.sp m'.stack x.stack → Q (x :: rest) := by
        intro x rest hsuffix hx hspx hsparesx
        rw [hsp'] at hspx hsparesx
        refine hQ x rest (hsuffix.trans (List.suffix_cons _ _)) ?_ hspx (hspares.trans hsparesx)
        simpa [List.drop_tail] using hx
      rw [hoperand] at hm'
      cases hr : r.cleanup with
      | none =>
        rw [← hnone hr] at hm'
        rw [List.filterMap_cons_none hr]
        exact .cons hbetween (hrun hhs' hm' (by omega) hms' hafter)
      | some F =>
        rw [List.filterMap_cons_some hr]
        refine .later hbetween (.now ((hcopy F hr).runsOnce (hquiet r List.mem_cons_self F hr) hG hhs' hm'
          (by omega) hms' ?_))
        intro x rest hsuffix hx hspx hsparesx
        have hmsx := hms'.suffix hsuffix
        refine hrun hhs' hx (by omega) hmsx ?_
        intro y rest' hsuffix' hy hspy hsparesy
        rw [hspx] at hspy hsparesy
        exact hafter y rest' (hsuffix'.trans hsuffix) hy hspy (hsparesx.trans hsparesy)

end

end ScriptMachine
