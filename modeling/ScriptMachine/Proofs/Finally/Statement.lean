import ScriptMachine.Proofs.Finally.Unwind
import ScriptMachine.Proofs.Machine.Equations

/-!
# Statements with a finally body

Control enters the protected part of a statement with a finally body `F`, and at some time it leaves
the part: it runs through the end, a value is thrown out of it, or a statement in it leaves it. In each
case `F` is run once, then the finally bodies of the regions around that are left as well, and then
what was pending takes effect (`Departs`).

1. **Completions**: what may be pending, and what its effect is.
2. **The shared copy**: it serves the normal end and a thrown value.
3. **Early exits**: a way out ends with the last instruction of its statement.
4. **Regions and statements**: `Region.Kept.departs` follows control through a region, and `Lays.departs`
   through a statement.
-/

namespace ScriptMachine

open Point

/-! ## Completions -/

/-- What control was about to do when it left the protected part of a statement. -/
inductive Completion where
  /-- To go on behind the statement. -/
  | normal
  | thrown (v : Value)
  | returned (v : Value)
  | jumped (target : Nat)

/-- The value on top of the stack. -/
def Machine.top (m : Machine) : Value := m.stack[m.sp - 1]?.getD .null

/-- A statement in the context `Δ` is about to leave all regions but `depth` of them. The value that it
returns is on the stack already. -/
inductive Machine.Pending (m : Machine) (Δ : Context) : Stmt → Nat → Completion → Prop where
  | returnNull {span} : Pending m Δ (.ret none span) 0 (.returned .null)
  | returnValue {e span} : Pending m Δ (.ret (some e) span) 0 (.returned m.top)
  | breakLoop {l ls span} : Δ.loops = l :: ls →
    Pending m Δ (.breakLoop span) l.regions.length (.jumped l.breakTo)
  | continueLoop {l ls span t} : Δ.loops = l :: ls → l.continueTo = some t →
    Pending m Δ (.continueLoop span) l.regions.length (.jumped t)

/-- The run ends in the next turn, because nobody catches a value. -/
def Machine.Fails (m : Machine) (v : Value) : Prop :=
  ∀ w, ∃ fault t, Exec.advanceCatching.run ⟨w, m⟩ = .error (.fault fault) t ∧ fault.cause = .uncaught v

/-- The next turn does what was pending, while the given handlers are in force. The statement ends at
`stop`. -/
def Completion.Takes (fs : Array Frame) (f : Frame) (stop : Nat) (hs : List Handler) (κ : Completion) :
    List Machine → Prop
  | [] => True
  | m :: rest => m.handlers = hs ∧
    match κ with
    | .normal => ∀ m' ∈ rest.head?, m'.At fs f stop hs
    | .thrown v => (hs = [] → m.Fails v) ∧ ∀ m' ∈ rest.head?, ∃ g low, f.Same g ∧ m.Throws fs g low v m'
    | .returned v => ∀ m' ∈ rest.head?, ∃ g low, f.Same g ∧ m.Returns fs g low v m'
    | .jumped target => ∀ m' ∈ rest.head?, m'.At fs f target hs

/-! ## The shared copy -/

section

variable {code : List Point} {fs : Array Frame} {f g : Frame} {m m' : Machine} {ms : List Machine} {p : Point}
  {hs : List Handler} {v : Value} {G : Ground} {r : Region} {rs : List Region} {F : Block}
  {final stop : Nat}

/-- At the end of a copy, without a pending value. -/
theorem Machine.Moves.resumes (h : m.Moves m') (hm : m.At fs f p.offset hs) (hlaid : f.closure.function.Laid code)
    (hp : p ∈ code) (hop : p.item.opcode = .rethrow) (hmark : m.stack[m.sp - 1]? = some (.bool false)) :
    m'.At fs f (p.offset + 1) hs := by
  rcases h.at hm hlaid hp with ⟨g, hsame, hip, -, hturns⟩
  rcases hturns.of_rethrow hop with ⟨-, hworks, hw⟩ | ⟨htrue, -⟩
  · have hat := (hworks.at hw hsame).1
    rwa [hip, hm.handlers] at hat
  · cases htrue false hmark

/-- At the end of a copy, with a pending value. -/
theorem Machine.Moves.rethrows (h : m.Moves m') (hm : m.At fs f p.offset hs)
    (hlaid : f.closure.function.Laid code) (hp : p ∈ code) (hop : p.item.opcode = .rethrow)
    (hv : m.stack[m.sp - 2]? = some v) (hmark : m.stack[m.sp - 1]? = some (.bool true)) :
    ∃ g low, f.Same g ∧ m.Throws fs g low v m' := by
  rcases h.at hm hlaid hp with ⟨g, hsame, -, -, hturns⟩
  rcases hturns.of_rethrow hop with ⟨hfalse, -⟩ | ⟨-, w, hw, hthrows⟩
  · cases hfalse true hmark
  · rw [hv] at hw
    cases hw
    exact ⟨g, _, hsame, hthrows⟩

/-- Nobody catches a value. -/
theorem Exec.throwValue_eq {s : State} (h : s.machine.handlers = []) (v : Value) :
    throwValue v s = .error (.fault (Cause.placed (.uncaught v) s.machine.span)) s := by
  refine (bind_eq (getMachine_eq s)).trans ?_
  rw [h]
  rfl

theorem Exec.bind_error_eq {α β : Type} {x : Exec α} {k : α → Exec β} {s t : State} {e : Abort}
    (h : x s = .error e t) : (x >>= k) s = .error e t := by
  simp only [bind, EStateM.bind, h]

theorem Exec.rethrow_eq {s : State} (h : s.machine.handlers = []) (hsp : 2 ≤ s.machine.sp)
    (hv : s.machine.stack[s.machine.sp - 2]? = some v)
    (hmark : s.machine.stack[s.machine.sp - 1]? = some (.bool true)) :
    ∃ t, rethrow s = .error (.fault (Cause.placed (.uncaught v) t.machine.span)) t := by
  have hfirst := pop_eq (v := .bool true) (by omega) hmark
  have hsecond := pop_eq (s := ⟨s.world, { s.machine with
    stack := s.machine.stack.setIfInBounds (s.machine.sp - 1) .null, sp := s.machine.sp - 1 }⟩) (v := v)
    (by dsimp only; omega) (by
      dsimp only
      rw [Array.getElem?_setIfInBounds_ne (by omega), Nat.sub_sub]
      exact hv)
  exact ⟨_, (bind_eq hfirst).trans ((bind_eq hsecond).trans (throwValue_eq (by exact h) v))⟩

/-- A pending value that nobody catches ends the run. -/
theorem Machine.At.fails (hm : m.At fs f p.offset []) (hlaid : f.closure.function.Laid code) (hp : p ∈ code)
    (hop : p.item.opcode = .rethrow) (hsp : 2 ≤ m.sp) (hv : m.stack[m.sp - 2]? = some v)
    (hmark : m.stack[m.sp - 1]? = some (.bool true)) : m.Fails v := by
  intro w
  rcases hm.frames with ⟨g, hframes, hsame, hip⟩
  have hbyte : g.code[g.ip]? = some (Opcode.toByte .rethrow) := by
    rw [hip, ← hop]
    show g.closure.function.code[p.offset]? = _
    rw [hsame.closure]
    exact getElem?_of_holds hlaid.holds hlaid.neat hp
  have hadvance := Exec.advance_eq (s := ⟨w, m⟩) hframes hm.waiting hbyte
  rcases Exec.rethrow_eq (s := ⟨w, { m with frames := fs.push { g with ip := g.ip + 1 }, opOffset := g.ip }⟩)
    hm.handlers hsp hv hmark with ⟨t, hrethrow⟩
  refine ⟨Cause.placed (.uncaught v) t.machine.span, t, ?_, rfl⟩
  show tryCatch Exec.advance _ _ = _
  rw [Exec.tryCatch_apply, hadvance, show Exec.perform .rethrow _ = _ from Exec.bind_error_eq hrethrow]
  refine (Exec.bind_eq (Exec.getMachine_eq _)).trans ?_
  simp [Cause.isCatchable]
  rfl

/-- What lies above the locals of a frame is spared. -/
theorem Ground.Sound.spared {low i : Nat} {a b : Array Value} (hG : G.Sound) (h : G.frame.Spares low a b)
    (hbase : G.base ≤ i) (hi : i < low) : b[i]? = a[i]? := h i hi (.inr (Nat.le_trans hG.locals hbase))

/-- The shared copy is run once, and the value below the mark is thrown again if the mark says so. -/
theorem Region.Shares.runsOnce {b : Bool} (h : r.Shares G.code rs F final stop) (hF : F.Quiet) (hG : G.Sound)
    (hhs : ∀ h ∈ hs, h.depth ≤ G.depth) (hm : m.At G.below G.frame final hs)
    (hsp : G.base + r.height + 2 ≤ m.sp) (hms : (m :: ms).IsChain Machine.Moves)
    (hv : m.stack[m.sp - 2]? = some v) (hmark : m.stack[m.sp - 1]? = some (.bool b)) :
    RunsOnce G.code G.below G.frame F (Unwinds G.code G.below G.frame
      (Completion.Takes G.below G.frame (stop + 1) hs (if b then .thrown v else .normal)) []) (m :: ms) := by
  rcases h.rethrow with ⟨p, hp, rfl, hop, -, -⟩
  refine h.copy.runsOnce hF hG hhs hm (by omega) hms ?_
  intro x rest hsuffix hx hspx hspares
  have hchain := hms.suffix hsuffix
  have hv' : x.stack[x.sp - 2]? = some v := by
    rw [hspx, hG.spared hspares (by omega) (by omega)]
    exact hv
  have hmark' : x.stack[x.sp - 1]? = some (.bool b) := by
    rw [hspx, hG.spared hspares (by omega) (by omega)]
    exact hmark
  refine .now ⟨hx.handlers, ?_⟩
  cases b with
  | false =>
    intro m' hm'
    cases rest with
    | nil => cases hm'
    | cons y rest =>
      cases hm'
      exact (List.isChain_cons_cons.mp hchain).1.resumes hx hG.laid hp hop hmark'
  | true =>
    constructor
    · intro hnil
      subst hnil
      exact hx.fails hG.laid hp hop (by omega) hv' hmark'
    · intro m' hm'
      cases rest with
      | nil => cases hm'
      | cons y rest =>
        cases hm'
        exact (List.isChain_cons_cons.mp hchain).1.rethrows hx hG.laid hp hop hv' hmark'

/-- An instruction that pushes a value of its own. -/
theorem Machine.Moves.pushes (h : m.Moves m') (hm : m.At fs f p.offset hs) (hlaid : f.closure.function.Laid code)
    (hp : p ∈ code) (hop : p.item.opcode.pushes? = some v) :
    m'.At fs f (p.offset + 1) hs ∧ m'.sp = m.sp + 1 ∧ f.Spares m.sp m.stack m'.stack ∧
      m'.stack[m.sp]? = some v := by
  have hshape : p.item.opcode.isPlain = true ∧ p.item.opcode.isSure = true ∧ p.item.opcode.length = 1 ∧
      p.item.takes = 0 ∧ p.item.leaves = 1 := by
    unfold Emitted.takes Emitted.leaves
    revert hop
    cases p.item.opcode <;> simp [Opcode.pushes?] <;> exact fun _ => by decide
  rcases hshape with ⟨hplain, hsure, hlength, htakes, hleaves⟩
  rcases h.goes_on hm hlaid hp hplain hsure with ⟨hat, hsp, hspares, hpushed⟩
  rw [hlength] at hat
  rw [htakes, hleaves] at hsp
  rw [htakes] at hspares
  exact ⟨hat, hsp, hspares, hpushed v hop⟩

/-- At the end of the protected part control goes on to the shared copy, with the mark that nothing is
pending. -/
theorem Region.Shares.completes {k : Handler} (h : r.Shares G.code rs F final stop) (hF : F.Quiet) (hG : G.Sound)
    (hhs : ∀ h ∈ hs, h.depth ≤ G.depth) (hp : p ∈ G.code) (hop : p.item.opcode = .finallyEnd)
    (htarget : p.item.operand 0 + 2 = final) (hm : m.At G.below G.frame p.offset (k :: hs))
    (hsp : G.base + r.height ≤ m.sp) (hms : (m :: ms).IsChain Machine.Moves) :
    Unwinds G.code G.below G.frame (Completion.Takes G.below G.frame (stop + 1) hs .normal) [F] (m :: ms) := by
  rcases h.null with ⟨p₁, hp₁, hoffset₁, hop₁, -, -⟩
  rcases h.mark with ⟨p₂, hp₂, hoffset₂, hop₂, -, -⟩
  refine .cons ⟨p, hp, by rw [hop]; rfl, _, hm⟩ ?_
  cases ms with
  | nil => exact .nil _
  | cons m₁ ms =>
  rcases List.isChain_cons_cons.mp hms with ⟨hmove, hms₁⟩
  rcases hmove.closes hm hG.laid hp hop with ⟨hm₁, hsp₁, -⟩
  rw [show p.item.operand 0 = p₁.offset by omega] at hm₁
  refine .cons ⟨p₁, hp₁, by rw [hop₁]; rfl, _, hm₁⟩ ?_
  cases ms with
  | nil => exact .nil _
  | cons m₂ ms =>
  rcases List.isChain_cons_cons.mp hms₁ with ⟨hmove₁, hms₂⟩
  rcases hmove₁.pushes hm₁ hG.laid hp₁ (by rw [hop₁]; rfl) with ⟨hm₂, hsp₂, -, hnull⟩
  rw [show p₁.offset + 1 = p₂.offset by omega] at hm₂
  refine .cons ⟨p₂, hp₂, by rw [hop₂]; rfl, _, hm₂⟩ ?_
  cases ms with
  | nil => exact .nil _
  | cons m₃ ms =>
  rcases List.isChain_cons_cons.mp hms₂ with ⟨hmove₂, hms₃⟩
  rcases hmove₂.pushes hm₂ hG.laid hp₂ (by rw [hop₂]; rfl) with ⟨hm₃, hsp₃, hspares₃, hfalse⟩
  rw [show p₂.offset + 1 = final by omega] at hm₃
  have hnull₃ : m₃.stack[m₃.sp - 2]? = some .null := by
    rw [show m₃.sp - 2 = m₁.sp by omega, hG.spared hspares₃ (by omega) (by omega)]
    exact hnull
  have hfalse₃ : m₃.stack[m₃.sp - 1]? = some (.bool false) := by
    rw [show m₃.sp - 1 = m₂.sp by omega]
    exact hfalse
  exact .now (h.runsOnce hF hG hhs hm₃ (by omega) hms₃ hnull₃ hfalse₃)

end

/-! ## Early exits -/

section

variable {Δ : Context} {s : Stmt} {o : Nat} {c : List Point} {notes : List Note} {p last : Point} {m x : Machine}
  {ms rest : List Machine} {hs : List Handler} {G : Ground}

/-- The last instruction of a statement that leaves regions does what the statement says. -/
theorem Lays.pending (h : Lays Δ (.action s) o c notes) (hexit : (Node.action s).isExit = true)
    (hlast : c.getLast? = some last) (hjumps : last.item.opcode = .jump → last.item.Jumps) (m : Machine) :
    ∃ depth κ, m.Pending Δ s depth κ ∧ last.regions = (Δ.exitTo depth).regions ∧
      (last.item.opcode = .returnNull ∧ κ = .returned .null ∨
        last.item.opcode = .returnValue ∧ κ = .returned m.top ∨
        last.item.opcode = .jump ∧ κ = .jumped (last.item.operand 0)) := by
  cases h with
  | retNull =>
    simp at hlast
    subst hlast
    exact ⟨_, _, .returnNull, rfl, .inl ⟨rfl, rfl⟩⟩
  | ret =>
    simp at hlast
    subst hlast
    exact ⟨_, _, .returnValue, rfl, .inr (.inl ⟨rfl, rfl⟩)⟩
  | brk hloops =>
    simp at hlast
    subst hlast
    have htarget := (List.cons.inj (hjumps rfl).operands).1
    exact ⟨_, _, .breakLoop hloops, rfl, .inr (.inr ⟨rfl, congrArg Completion.jumped htarget⟩)⟩
  | cont hloops _ _ hknown =>
    simp at hlast
    subst hlast
    have htarget := (List.cons.inj (hjumps rfl).operands).1
    exact ⟨_, _, .continueLoop hloops hknown, rfl, .inr (.inr ⟨rfl, congrArg Completion.jumped htarget⟩)⟩
  | @contWait _ _ _ _ _ l ls hloops =>
    simp at hlast
    subst hlast
    have htarget := (List.cons.inj (hjumps rfl).operands).1
    have hne := (hjumps rfl).target
    rw [← htarget] at hne
    have hto : ∃ t, l.continueTo = some t := by
      refine Option.ne_none_iff_exists'.mp fun hnone => hne ?_
      rw [hnone, Option.getD_none]
    rcases hto with ⟨t, hto⟩
    have hknown : l.continueTo.getD Opcode.noTarget = t := by rw [hto, Option.getD_some]
    exact ⟨_, _, .continueLoop hloops hto, rfl,
      .inr (.inr ⟨rfl, congrArg Completion.jumped (hknown.symm.trans htarget)⟩)⟩
  | _ => cases hexit

/-- The last turn of a statement that leaves regions. -/
theorem Machine.At.takes {κ : Completion} {stop : Nat} (hx : x.At G.below G.frame last.offset hs) (hG : G.Sound)
    (hp : last ∈ G.code) (hms : (x :: rest).IsChain Machine.Moves)
    (hκ : last.item.opcode = .returnNull ∧ κ = .returned .null ∨
      last.item.opcode = .returnValue ∧ κ = .returned x.top ∨
      last.item.opcode = .jump ∧ κ = .jumped (last.item.operand 0)) :
    κ.Takes G.below G.frame stop hs (x :: rest) := by
  refine ⟨hx.handlers, ?_⟩
  cases rest with
  | nil =>
    rcases hκ with ⟨-, rfl⟩ | ⟨-, rfl⟩ | ⟨-, rfl⟩
    all_goals
      intro y hy
      cases hy
  | cons y rest =>
    rcases (List.isChain_cons_cons.mp hms).1.at hx hG.laid hp with ⟨g, hsame, -, -, hturns⟩
    rcases hκ with ⟨hop, rfl⟩ | ⟨hop, rfl⟩ | ⟨hop, rfl⟩
    · rintro _ ⟨⟩
      exact ⟨g, _, hsame, hturns.of_returnNull hop⟩
    · rcases hturns.of_returnValue hop with ⟨v, hv, hreturns⟩
      rintro _ ⟨⟩
      have htop : x.top = v := by simp [Machine.top, hv]
      exact ⟨g, _, hsame, htop ▸ hreturns⟩
    · rcases hturns.of_jump hop with ⟨hworks, hw⟩
      rintro _ ⟨⟩
      have hat := (hworks.at hw hsame).1
      rwa [hx.handlers] at hat

/-- A statement that leaves regions runs their finally bodies, innermost first, and then does what it was
about to do. -/
theorem Point.Exits.unwinds (h : p.Exits G.code s last) (hop : p.item.opcode = .finallyEnd) (hG : G.Sound)
    (hhs : ∀ h ∈ hs, h.depth ≤ G.depth) (hm : m.At G.below G.frame p.offset hs)
    (hsp : G.base + p.height ≤ m.sp) (hms : (m :: ms).IsChain Machine.Moves) (stop : Nat) :
    ∃ Δ o c notes depth left κ, Lays Δ (.action s) o c notes ∧ c ⊆ G.code ∧ p ∈ c ∧ m.Pending Δ s depth κ ∧
      p.regions = left ++ (Δ.exitTo depth).regions ∧ left ≠ [] ∧
      Unwinds G.code G.below G.frame (κ.Takes G.below G.frame stop (hs.drop left.length))
        (left.filterMap Region.cleanup) (m :: ms) := by
  rcases h.statement with ⟨Δ, o, c, notes, hlays, hsub, hpc, hlast⟩
  have hmem : last ∈ G.code := hsub (List.mem_of_getLast? hlast)
  have hjumps : last.item.opcode = .jump → last.item.Jumps := by
    intro hop
    have hflows := hG.laid.flows hmem
    unfold Point.Flows at hflows
    rw [hop] at hflows
    exact hflows.1
  rcases hlays.pending h.isExit hlast hjumps m with ⟨depth, κ, hpending, hregions, hκ⟩
  rcases h.way.unwinds hG fun r hr F hF => hG.laid.quiet (hsub hpc) hr hF with
    ⟨left, hleft, hnil, hunwinds⟩
  have hne : left ≠ [] := by
    intro hleft
    have heq := hG.laid.eq_of_offset (hsub hpc) hmem (hnil hleft)
    rw [← heq, hop] at hκ
    rcases hκ with ⟨hop', -⟩ | ⟨hop', -⟩ | ⟨hop', -⟩ <;> cases hop'
  refine ⟨Δ, o, c, notes, depth, left, κ, hlays, hsub, hpc, hpending, hregions ▸ hleft, hne, ?_⟩
  refine hunwinds hhs hm hsp hms fun x rest hsuffix hx hspx hspares => ?_
  refine hx.takes hG hmem (hms.suffix hsuffix) ?_
  rcases hκ with hκ | ⟨hop, hκ⟩ | hκ
  · exact .inl hκ
  · -- the value to be returned has stayed where it was
    refine .inr (.inl ⟨hop, ?_⟩)
    have htakes := hG.laid.takes_le hmem
    rw [h.height, show last.item.takes = 1 by simp [Emitted.takes, hop]] at htakes
    have hslot := hG.spared hspares (i := m.sp - 1) (by omega) (by omega)
    rw [hκ, Machine.top, Machine.top, hspx, hslot]
  · exact .inr (.inr hκ)

end

/-! ## Regions -/

/-- The code that a region with a finally body protects: all inside the region, and if values are caught there,
what binds them and all that is protected by the region of the catch clause. Copies of the finally body do not
belong to it. -/
inductive Region.Part (code : List Point) (rs : List Region) : Region → Nat → Prop where
  | enter {r} : Part code rs r r.enter
  | body {r q} : q ∈ code → r :: rs <:+ q.regions → Part code rs r q.offset
  | binds {r r' t o} : r.catchTarget = some t → r.Recovers code rs t r' → t ≤ o → o < r'.enter → Part code rs r o
  | handler {r r' t o} : r.catchTarget = some t → r.Recovers code rs t r' → Part code rs r' o → Part code rs r o

/-- Control leaves a protected part with the finally body `F` inside the regions `rs`. `F` is run once, then the
finally bodies of the regions around that are left, too, and then what was pending takes effect. -/
inductive Departs (code : List Point) (fs : Array Frame) (f : Frame) (part : Nat → Prop) (rs : List Region)
    (F : Block) (stop : Nat) (hs : List Handler) : List Machine → Prop where
  /-- The end of the part is reached. -/
  | completes {m ms} : m.In fs f part → Unwinds code fs f (Completion.normal.Takes fs f stop hs) [F] (m :: ms) →
    Departs code fs f part rs F stop hs (m :: ms)
  /-- A value is thrown in the part, by the frame itself or by a frame above it. -/
  | throws {m m' ms g low v} : m.In fs f part → f.Same g → m.Throws fs g low v m' →
    Unwinds code fs f (Completion.Takes fs f stop hs (.thrown v)) [F] (m' :: ms) →
    Departs code fs f part rs F stop hs (m :: m' :: ms)
  /-- A statement in the part leaves it. -/
  | exits {m ms p Δ s o c notes depth left κ} : m.In fs f part → Lays Δ (.action s) o c notes → c ⊆ code → p ∈ c →
    m.At fs f p.offset m.handlers → m.Pending Δ s depth κ → rs = left ++ (Δ.exitTo depth).regions →
    Unwinds code fs f (κ.Takes fs f stop (hs.drop left.length)) (F :: left.filterMap Region.cleanup) (m :: ms) →
    Departs code fs f part rs F stop hs (m :: ms)

section

variable {G : Ground} {r r' : Region} {rs : List Region} {k : Handler} {hs : List Handler} {F : Block}
  {final stop t : Nat} {p : Point} {f : Frame} {low : Nat} {v : Value} {m m' : Machine} {ms : List Machine}
  {part part' : Nat → Prop}

theorem Machine.In.mono {fs : Array Frame} (h : m.In fs f part) (hpart : ∀ o, part o → part' o) :
    m.In fs f part' := by
  rcases h with ⟨g, above, hframes, hsame, hip⟩
  exact ⟨g, above, hframes, hsame, hpart _ hip⟩

theorem Departs.mono {code : List Point} {fs : Array Frame} (h : Departs code fs f part rs F stop hs ms)
    (hpart : ∀ o, part o → part' o) : Departs code fs f part' rs F stop hs ms := by
  cases h with
  | completes hin hrest => exact .completes (hin.mono hpart) hrest
  | throws hin hsame hthrows hrest => exact .throws (hin.mono hpart) hsame hthrows hrest
  | exits hin hlays hsub hp hat hpending hrs hrest =>
    exact .exits (hin.mono hpart) hlays hsub hp hat hpending hrs hrest

/-- Where a value goes that is thrown to a handler of the lowest frame. -/
theorem Machine.Throws.received (h : m.Throws G.below f low v m') (hsame : G.frame.Same f)
    (hk : m.handlers = k :: hs) (hfits : G.Fits k r) :
    (∃ t, r.catchTarget = some t ∧ m'.At G.below G.frame t hs ∧ m'.sp = k.sp + 1) ∨
    ∃ t, r.finallyTarget = some t ∧ m'.At G.below G.frame t hs ∧ m'.sp = k.sp + 2 ∧
      m'.stack[k.sp]? = some v ∧ m'.stack[k.sp + 1]? = some (.bool true) := by
  rcases h.handler with ⟨k', target, hcons, hreceives, hv, -, f', g, fs', hsame', hextract, hframes⟩
  rw [hk] at hcons
  cases hcons
  rcases Array.extract_whole hfits.depth hextract with ⟨rfl, rfl⟩
  have hgoes := hsame.trans hsame'
  have hat : m'.At G.below G.frame target m'.handlers :=
    ⟨⟨_, hframes, ⟨hgoes.closure, hgoes.base, hgoes.kind⟩, rfl⟩, h.waiting, rfl⟩
  cases hreceives with
  | catches ht hsp => exact .inl ⟨target, hfits.catchTarget ▸ ht, hat, hsp⟩
  | cleans _ ht hsp hmark => exact .inr ⟨target, hfits.finallyTarget ▸ ht, hat, hsp, hv, hmark⟩

/-- A region is entered: control is inside, with a handler for it. -/
theorem Machine.Moves.opens (h : m.Moves m') (hG : G.Sound) (hexact : ¬ G.exact) (hp : p ∈ G.code)
    (henters : p.Enters r rs) (hstarts : r.Starts G.code rs) (hm : m.At G.below G.frame r.enter hs)
    (hsp : G.base + r.height ≤ m.sp) :
    ∃ k, G.Fits k r ∧ m'.Inside (G.inside (r :: rs) (k :: hs)) := by
  rw [henters.enter] at hm
  rcases h.at hm hG.laid hp with ⟨g, hsame, hip, hframes, hturns⟩
  rcases hturns.of_tryEnter henters.opcode with ⟨hworks, hw⟩
  rcases hworks.at hw hsame with ⟨hat, hsp', -⟩
  rcases hstarts with ⟨q, hq, hspot⟩
  refine ⟨.ofOperands (p.item.operand 0) (p.item.operand 1) m.frames.size m.sp, ?_, ?_, by simp [hw]⟩
  · refine ⟨henters.catchTarget.symm, henters.finallyTarget.symm, ?_, hsp, fun h => (hexact h).elim⟩
    rw [Handler.ofOperands, hframes, Array.size_push]
    rfl
  · rcases hat.frames with ⟨g', hframes', hsame', hip'⟩
    have hhandlers : m'.handlers =
        .ofOperands (p.item.operand 0) (p.item.operand 1) m.frames.size m.sp :: hs := by
      rw [hat.handlers]
      exact congrArg _ hm.handlers
    rw [hframes', Machine.height_of_none hw, hhandlers]
    have hregions : q.regions = r :: rs := congrArg Spot.regions hspot
    refine .ground (s := q.spot) hsame' (Ground.leads_point ⟨hq, hregions ▸ List.suffix_refl _⟩)
      ⟨?_, ?_, False.elim, ?_⟩
    · rw [hip', hspot, hip, henters.enter]
    · rw [hspot, hsp']
      exact hsp
    · rw [show q.spot.regions = r :: rs from hregions]
      exact .none

/-- Inside a region that is left through its end the stack is not lower than where the region was entered. -/
theorem Region.Shares.height_le (h : r.Shares G.code rs F final stop) (hG : G.Sound) (hp : p ∈ G.code)
    (hop : p.item.opcode = .finallyEnd) (htarget : p.item.operand 0 + 2 = final) : r.height ≤ p.height := by
  have hflows := hG.laid.flows hp
  unfold Point.Flows at hflows
  rw [hop] at hflows
  rcases hflows with ⟨-, r', outer, -, q, hq, hmeets⟩
  rcases h.null with ⟨p₁, hp₁, hoffset, -, -, hheight⟩
  have hoffset' : p.item.operand 0 = q.offset := hmeets.offset
  rw [hG.laid.eq_of_offset hq hp₁ (by omega)] at hmeets
  have henough : p₁.height ≤ p.height := hmeets.enough
  omega

/-- Control stays inside a region with a finally body until it departs, or until the value is caught that is
thrown there. -/
theorem Machine.Inside.departs (h : m.Inside (G.inside (r :: rs) (k :: hs))) (hG : G.Sound)
    (hhs : ∀ h ∈ hs, h.depth ≤ G.depth) (hfits : G.Fits k r) (hF : F.Quiet) (hclean : r.cleanup = some F)
    (hshares : r.Shares G.code rs F final stop) (hms : (m :: ms).IsChain Machine.Moves) :
    Until (Machine.In · G.below G.frame (Region.Part G.code rs r))
      (fun rest => Departs G.code G.below G.frame (Region.Part G.code rs r) rs F (stop + 1) hs rest ∨
        ∃ x y rest' t, rest = x :: y :: rest' ∧ x.In G.below G.frame (Region.Part G.code rs r) ∧
          r.catchTarget = some t ∧ y.At G.below G.frame t hs ∧ y.sp = k.sp + 1) (m :: ms) := by
  have hpart : ∀ x : Machine, x.Inside (G.inside (r :: rs) (k :: hs)) →
      x.In G.below G.frame (Region.Part G.code rs r) := by
    intro x hx
    refine hx.in fun s hs' hleads hopened => ?_
    rcases hopened.inside_points hleads with ⟨q, hq, hsuffix, hmeets⟩
    rw [show s.offset = q.offset from hmeets.offset]
    exact .body hq hsuffix
  have hsound : (G.inside (r :: rs) (k :: hs)).Sound := by
    refine hG.inside fun h hh => ?_
    rcases List.mem_cons.mp hh with rfl | hh
    · exact Nat.le_of_eq hfits.depth
    · exact hhs h hh
  refine (h.until hsound hms (.refl _ _ m.stack)).imp hpart ?_
  rintro _ hsuffix ⟨x, rest, rfl, hx, -, hends⟩
  have hchain := hms.suffix hsuffix
  rcases hends with hend | ⟨y, rest', rfl, hleaves⟩
  · exact (Machine.not_atEnd_inside hend).elim
  · cases hleaves with
    | @closes p f _ _ _ hp hop hregions houter hframes hsame hstands hw hhandlers =>
      rw [← show r :: rs = _ from houter] at hregions
      have hat : x.At G.below G.frame p.offset (k :: hs) := ⟨⟨f, hframes, hsame, hstands.ip⟩, hw, hhandlers⟩
      have henough : G.base + p.height ≤ x.sp := hstands.enough
      rcases hG.laid.ends hp.1 hop with ⟨r', rs', hregions', htarget⟩ | ⟨s, last, hexit⟩
      · rw [hregions] at hregions'
        cases hregions'
        have hfinal := htarget (by rw [hclean]; rfl)
        rw [hshares.target] at hfinal
        cases hfinal
        have hle := hshares.height_le hG hp.1 hop rfl
        exact .inl (.completes (hpart x hx) (hshares.completes hF hG hhs hp.1 hop rfl hat (by omega) hchain))
      · rcases hexit.unwinds hop hG hsound.handlers hat henough hchain (stop + 1) with
          ⟨Δ, o, c, notes, depth, left, κ, hlays, hsub, hpc, hpending, hleft, hne, hunwinds⟩
        cases left with
        | nil => exact (hne rfl).elim
        | cons r' left =>
          rw [hregions, List.cons_append] at hleft
          cases hleft
          rw [List.filterMap_cons_some hclean] at hunwinds
          exact .inl (.exits (hpart x hx) hlays hsub hpc (hhandlers ▸ hat) hpending rfl hunwinds)
    | returns _ _ houter => cases houter
    | throws hsame hhandlers hthrows =>
      rcases Machine.Throws.received (G := G) hthrows hsame hhandlers hfits with
        ⟨t, hcatch, hat, hsp⟩ | ⟨t, ht, hat, hsp, hv, hmark⟩
      · exact .inr ⟨x, y, rest', t, rfl, hpart x hx, hcatch, hat, hsp⟩
      · rw [hshares.target] at ht
        cases ht
        have henough := hfits.enough
        refine .inl (.throws (hpart x hx) hsame hthrows (.now ?_))
        refine hshares.runsOnce hF hG hhs hat (by omega) (List.isChain_cons_cons.mp hchain).2 ?_ ?_ (b := true)
        · rw [show y.sp - 2 = k.sp by omega]
          exact hv
        · rw [show y.sp - 1 = k.sp + 1 by omega]
          exact hmark

/-- A region with a finally body is entered. -/
theorem Region.departs_or_catches (hG : G.Sound) (hexact : ¬ G.exact) (hhs : ∀ h ∈ hs, h.depth ≤ G.depth)
    (henters : ∃ p ∈ G.code, p.Enters r rs) (hstarts : r.Starts G.code rs) (hclean : r.cleanup = some F)
    (hshares : r.Shares G.code rs F final stop) (hm : m.At G.below G.frame r.enter hs)
    (hsp : G.base + r.height ≤ m.sp) (hms : (m :: ms).IsChain Machine.Moves) :
    Until (Machine.In · G.below G.frame (Region.Part G.code rs r))
      (fun rest => Departs G.code G.below G.frame (Region.Part G.code rs r) rs F (stop + 1) hs rest ∨
        ∃ x y rest' t, rest = x :: y :: rest' ∧ x.In G.below G.frame (Region.Part G.code rs r) ∧
          r.catchTarget = some t ∧ y.At G.below G.frame t hs ∧ G.base + r.height + 1 ≤ y.sp) (m :: ms) := by
  have hin : m.In G.below G.frame (Region.Part G.code rs r) := by
    rcases hm.frames with ⟨g, hframes, hsame, hip⟩
    exact ⟨g, #[], by simp [hframes], hsame, hip ▸ .enter⟩
  refine .later hin ?_
  cases ms with
  | nil => exact .stops
  | cons m' ms =>
    rcases List.isChain_cons_cons.mp hms with ⟨hmove, hms'⟩
    rcases henters with ⟨p, hp, henters⟩
    rcases hmove.opens hG hexact hp henters hstarts hm hsp with ⟨k, hfits, hinside⟩
    have hF : F.Quiet := by
      rcases hstarts with ⟨q, hq, hspot⟩
      have hregions : q.regions = r :: rs := congrArg Spot.regions hspot
      exact hG.laid.quiet hq (hregions ▸ List.mem_cons_self) hclean
    refine (hinside.departs hG hhs hfits hF hclean hshares hms').imp (fun _ hx => hx) ?_
    rintro rest - (hdeparts | ⟨x, y, rest', t, rfl, hx, hcatch, hy, hsp'⟩)
    · exact .inl hdeparts
    · have henough := hfits.enough
      exact .inr ⟨x, y, rest', t, rfl, hx, hcatch, hy, by omega⟩

/-- Control runs through instructions in a row. -/
theorem Machine.At.runs_row {is : List Emitted} {u : Setup} {height b n o : Nat} (hG : G.Sound)
    (hrow : rowFrom u rs o height is ⊆ G.code) (hsure : ∀ i ∈ is, i.opcode.isPlain = true ∧ i.opcode.isSure = true)
    (hbalance : Emitted.Balance is n 0) (hm : m.At G.below G.frame o hs) (hsp : b + n ≤ m.sp)
    (hms : (m :: ms).IsChain Machine.Moves) :
    Until (Machine.In · G.below G.frame fun x => o ≤ x ∧ x < o + size (rowFrom u rs o height is))
      (fun rest => ∃ x rest', rest = x :: rest' ∧
        x.At G.below G.frame (o + size (rowFrom u rs o height is)) hs ∧ b ≤ x.sp) (m :: ms) := by
  induction is generalizing u o height n m ms with
  | nil => exact .now ⟨m, ms, rfl, hm, by omega⟩
  | cons i is ih =>
    rw [rowFrom, List.cons_subset] at hrow
    have hpos := i.opcode.length_pos
    have hsize : size (rowFrom u rs o height (i :: is)) =
        i.opcode.length + size (rowFrom (u.after i) rs (o + i.opcode.length) (i.after height) is) := rfl
    have hin : m.In G.below G.frame fun x => o ≤ x ∧ x < o + size (rowFrom u rs o height (i :: is)) := by
      rcases hm.frames with ⟨g, hframes, hsame, hip⟩
      exact ⟨g, #[], by simp [hframes], hsame, by omega⟩
    refine .later hin ?_
    cases ms with
    | nil => exact .stops
    | cons m' ms =>
      rcases List.isChain_cons_cons.mp hms with ⟨hmove, hms'⟩
      rcases hsure i List.mem_cons_self with ⟨hplain, hsafe⟩
      rcases hmove.goes_on hm hG.laid hrow.1 hplain hsafe with ⟨hm', hsp', -, -⟩
      have htakes : i.takes ≤ n := hbalance.1
      have hsp'' : b + i.after n ≤ m'.sp := by
        rw [Emitted.after]
        dsimp only at hsp'
        omega
      have hrest := ih hrow.2 (fun j hj => hsure j (List.mem_cons_of_mem _ hj)) hbalance.2 hm' hsp'' hms'
      refine hrest.imp (fun x hx => hx.mono fun o' ho' => by omega) ?_
      rintro _ - ⟨x, rest', rfl, hx, hspx⟩
      refine ⟨x, rest', rfl, ?_, hspx⟩
      rwa [hsize, ← Nat.add_assoc]

/-- Control enters a region with a finally body, and stays in what the region protects until it departs. -/
theorem Region.Kept.departs (h : r.Kept G.code rs) (hG : G.Sound) (hexact : ¬ G.exact)
    (hhs : ∀ h ∈ hs, h.depth ≤ G.depth) (hclean : r.cleanup = some F)
    (hshares : r.Shares G.code rs F final stop) (hm : m.At G.below G.frame r.enter hs)
    (hsp : G.base + r.height ≤ m.sp) (hms : (m :: ms).IsChain Machine.Moves) :
    Until (Machine.In · G.below G.frame (Region.Part G.code rs r))
      (Departs G.code G.below G.frame (Region.Part G.code rs r) rs F (stop + 1) hs) (m :: ms) := by
  have hfirst := Region.departs_or_catches hG hexact hhs h.enters h.starts hclean hshares hm hsp hms
  refine (hfirst.imp (fun _ hx => hx) ?_).join
  rintro rest hsuffix (hdeparts | ⟨x, y, rest', t, rfl, hx, hcatch, hy, hspy⟩)
  · exact .now hdeparts
  -- the value is bound, and then the region of the catch clause is entered
  rcases h.recovers (by rw [hclean]; rfl) t hcatch with ⟨r', hrecovers⟩
  rcases hrecovers.binds with ⟨bind, hbind, hrow, henter⟩
  have hchain := (List.isChain_cons_cons.mp (hms.suffix hsuffix)).2
  have hbinds := hy.runs_row hG hrow (fun i hi => ⟨hbind.plain i hi, hbind.sure i hi⟩) (hbind.balance trivial)
    (by omega) hchain (b := G.base + r.height)
  refine .later hx (hbinds.imp ?_ ?_).join
  · rintro z hz
    refine hz.mono fun o ho => .binds hcatch hrecovers ho.1 ?_
    rw [henter]
    exact ho.2
  · rintro _ hsuffix' ⟨z, rest'', rfl, hz, hspz⟩
    rw [← henter] at hz
    have hshares' : r'.Shares G.code rs F final stop := by
      refine ⟨hrecovers.cleans ▸ hshares.target, ?_, ?_, ?_, ?_⟩
      all_goals
        rw [hrecovers.height]
      · exact hshares.null
      · exact hshares.mark
      · exact hshares.copy
      · exact hshares.rethrow
    have hsecond := Region.departs_or_catches hG hexact hhs hrecovers.enters hrecovers.starts
      (hrecovers.cleanup.trans hclean) hshares' hz (by rw [hrecovers.height]; exact hspz) (hchain.suffix hsuffix')
    refine hsecond.imp (fun u hu => hu.mono fun o ho => .handler hcatch hrecovers ho) ?_
    rintro _ - (hdeparts | ⟨u, w, rest₃, t', rfl, -, hcatch', -⟩)
    · exact hdeparts.mono fun o ho => .handler hcatch hrecovers ho
    · rw [hrecovers.catches] at hcatch'
      cases hcatch'

/-- Control enters a statement with a finally body. It stays in what the statement protects until it departs. -/
theorem Lays.departs {Γ : Context} {body : Block} {handler : Option CatchClause} {span : Span} {o : Nat}
    {c : List Point} {notes : List Note} (h : Lays Γ (.action (.tryCatch body handler (some F) span)) o c notes)
    (hsub : c ⊆ G.code) (hG : G.Sound) (hexact : ¬ G.exact) (hhs : ∀ h ∈ hs, h.depth ≤ G.depth)
    (hm : m.At G.below G.frame o hs) (hsp : ∀ p ∈ G.code, p.offset = o → G.base + p.height ≤ m.sp)
    (hms : (m :: ms).IsChain Machine.Moves) :
    ∃ r : Region, r.enter = o ∧ r.cleanup = some F ∧ r.catchTarget.isSome = handler.isSome ∧
      Until (Machine.In · G.below G.frame (Region.Part G.code Γ.regions r))
        (Departs G.code G.below G.frame (Region.Part G.code Γ.regions r) Γ.regions F (o + size c) hs)
        (m :: ms) := by
  rcases h.protects with ⟨r, final, stop, rfl, hclean, hcatch, hkept, hshares, hstop⟩
  refine ⟨r, rfl, hclean, hcatch, ?_⟩
  rw [← hstop]
  rcases hkept.enters with ⟨p, hp, henters⟩
  have hheight := hsp p (hsub hp) henters.enter.symm
  rw [← henters.height] at hheight
  exact (hkept.mono hsub).departs hG hexact hhs hclean (hshares.mono hsub) hm hheight hms

end

end ScriptMachine
