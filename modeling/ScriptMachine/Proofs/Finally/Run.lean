import ScriptMachine.Proofs.Finally.Statement

/-!
# Runs of tidy functions

A run begins with a single frame, so every frame of it stands on a ground, and what is proved of a
statement holds whenever a frame of the run enters it (`State.Begins.departs`).

1. **Begins**: a machine that was idle runs its block or calls a value.
2. **Runs**: turn after turn, while other tasks change the world.
-/

namespace ScriptMachine

open Point

/-! ## Begins -/

/-- Nothing is running. -/
structure Machine.Idle (m : Machine) : Prop where
  frames : m.frames = #[]
  handlers : m.handlers = []
  waiting : m.waiting = none

/-- A frame was entered, and nothing else is running. -/
structure Machine.Fresh (m : Machine) : Prop where
  frames : ∃ f, m.frames = #[f] ∧ f.ip = 0 ∧ m.sp = f.base + f.closure.function.locals
  handlers : m.handlers = []
  waiting : m.waiting = none

namespace Exec

section

variable {s : State} {P : Unit → State → Prop}

/-- What is left of the begin of a run enters a frame, or the run is over already. -/
def Starts (x : Exec Unit) (s : State) : Prop :=
  Yields True x s (fun _ t => t.machine.Idle ∨ t.machine.Fresh) fun _ => True

theorem starts_push (h : s.machine.Idle) (v : Value) : Starts (push v) s := by
  rw [Starts, yields_push]
  exact fun _ => .inl ⟨h.frames, h.handlers, h.waiting⟩

theorem starts_pushFrame (h : s.machine.Idle) (closure : Closure) (base : Nat) (kind : FrameKind) :
    Starts (pushFrame closure base kind) s := by
  unfold pushFrame Starts
  simp only [yields_bind, yields_getMachine, yields_ite, yields_raise]
  refine ⟨by simp, fun _ => ⟨by simp, fun _ => ?_⟩⟩
  simp only [yields_setSp, yields_modifyMachine]
  intro _
  refine .inr ⟨⟨.enter closure base kind, ?_, rfl, rfl⟩, h.handlers, h.waiting⟩
  dsimp only
  rw [h.frames]
  rfl

theorem starts_deliverNative (h : s.machine.Idle) (v : Value) : Starts (deliverNative v) s := by
  have throws : ∀ w, Starts (throwValue w) s := by
    intro w
    unfold throwValue Starts
    simp [h.handlers]
  unfold deliverNative Starts
  split
  · split
    · simp only [yields_bind, yields_pure]
      exact throws _
    · simp only [yields_bind, yields_pure, yields_getMachine]
      exact throws _
  · exact starts_push h v

theorem starts_setSp {x : Exec Unit} (h : s.machine.Idle) (sp : Nat)
    (hx : ∀ t : State, t.machine.Idle → Starts x t) : Starts (setSp sp >>= fun _ => x) s := by
  rw [Starts, yields_bind, yields_setSp]
  intro _
  exact hx _ ⟨h.frames, h.handlers, h.waiting⟩

theorem starts_callNative (h : s.machine.Idle) (id slot : Nat) : Starts (callNative id slot) s := by
  unfold callNative Starts
  simp only [yields_bind, yields_slotsFrom, yields_modifyGet]
  intro _ _
  split
  · exact yields_crash _
  · refine starts_setSp ?_ slot fun t ht => starts_deliverNative ht _
    split <;> exact h

theorem starts_pushNulls {x : Exec Unit} (count : Nat) (h : s.machine.Idle)
    (hx : ∀ t : State, t.machine.Idle → Starts x t) : Starts (pushNulls count >>= fun _ => x) s := by
  induction count generalizing s with
  | zero => exact hx s h
  | succ count ih =>
    rw [Starts, pushNulls, bind_assoc, yields_bind, yields_push]
    intro _
    exact ih ⟨h.frames, h.handlers, h.waiting⟩

theorem starts_construct (h : s.machine.Idle) (c : Class) (slot argc : Nat) :
    Starts (construct c slot argc) s := by
  unfold construct Starts
  simp only [yields_bind, yields_slotsFrom, yields_allocate]
  intro _ _
  split
  · refine starts_setSp ?_ slot fun t ht => starts_push ht _
    exact h
  · next constructor _ =>
    simp only [yields_bind, yields_setSlot]
    intro _
    have enters : ∀ (object : Value) (t : State), t.machine.Idle →
        Starts (pushFrame constructor slot (.constructor object)) t :=
      fun _ _ ht => starts_pushFrame ht constructor slot _
    split
    · rw [yields_bind, yields_getMachine]
      refine starts_setSp ?_ _ (enters _)
      exact ⟨h.frames, h.handlers, h.waiting⟩
    · refine starts_pushNulls _ ?_ (enters _)
      exact ⟨h.frames, h.handlers, h.waiting⟩

theorem starts_callValue (h : s.machine.Idle) (argc : Nat) : Starts (callValue argc) s := by
  unfold callValue Starts
  simp only [yields_bind, yields_calleeSlot, yields_getSlot]
  refine ⟨fun _ => trivial, fun _ _ => ?_⟩
  split
  · simp only [checkArity, yields_bind, yields_ite, yields_raise]
    exact ⟨fun _ => ⟨fun _ => trivial, fun _ => trivial⟩, fun _ => starts_pushFrame h _ _ _⟩
  · exact starts_callNative h _ _
  · exact starts_construct h _ _ _
  · exact (yields_raise _).mpr ⟨fun _ => trivial, fun _ => trivial⟩

theorem starts_pushAll {x : Exec Unit} (vs : List Value) (h : s.machine.Idle)
    (hx : ∀ t : State, t.machine.Idle → Starts x t) : Starts (pushAll vs >>= fun _ => x) s := by
  induction vs generalizing s with
  | nil => exact hx s h
  | cons v vs ih =>
    rw [Starts, pushAll, bind_assoc, yields_bind, yields_push]
    intro _
    exact ih ⟨h.frames, h.handlers, h.waiting⟩

theorem starts_beginCall (h : s.machine.Idle) (callee : Value) (args : List Value) :
    Starts (beginCall callee args) s := by
  unfold beginCall
  rw [Starts, yields_bind, yields_push]
  intro _
  exact starts_pushAll args ⟨h.frames, h.handlers, h.waiting⟩ fun t ht => starts_callValue ht _

end

end Exec

theorem Run.ended_endCall {stop sp : Nat} {result : Except Abort Unit} {s t : State} {run : Run} :
    endCall stop sp result s ≠ (.running run, t) := by
  unfold endCall
  extract_lets attempt
  split
  · nofun
  · split <;> nofun

section

variable {H : Function → Prop} {s t : State} {run : Run}

/-- The block of an idle machine is entered. -/
theorem Run.starts_block (hs : s.Over H) (hidle : s.machine.Idle) (hmain : H s.machine.main.function)
    (h : startBlock s = (.running run, t)) : t.machine.Over H ∧ (t.machine.Idle ∨ t.machine.Fresh) := by
  unfold startBlock at h
  dsimp only at h
  split at h
  · next hrun =>
    cases h
    have hyields : Exec.Yields True (do
        Exec.reset
        Exec.pushFrame (← Exec.getMachine).main 0 .function) s
        (fun _ t => t.machine.Over H ∧ (t.machine.Idle ∨ t.machine.Fresh)) fun _ => True := by
      simp only [Exec.reset, Exec.yields_bind, Exec.yields_modifyMachine, Exec.yields_setSp, Exec.yields_getMachine]
      intro _
      have hover : State.Over H ⟨s.world, { s.machine with
          frames := #[], handlers := [], captures := #[], sp := 0
          stack := Exec.clearSlots s.machine.stack 0 (s.machine.sp - 0) }⟩ :=
        ⟨hs.world, Exec.over_clearSlots hs.machine.stack _ _, by simp, hs.machine.constants, hs.machine.waiting⟩
      have hkind : ∀ object, FrameKind.function = .constructor object → object.Over (Closure.Of H) :=
        fun _ hkind => FrameKind.noConfusion hkind
      have hconfines := (@Exec.confines_pushFrame H _ hmain 0 .function hkind).yields hover
      refine (hconfines.and (Exec.starts_pushFrame ?_ _ _ _)).mono ?_ fun _ _ => trivial
      · exact ⟨rfl, rfl, hidle.waiting⟩
      · exact fun _ _ ht => ⟨ht.1.1.machine, ht.2⟩
    exact hyields.ok hrun
  · cases h

/-- A call to an idle machine enters a frame, or it is over at once. -/
theorem Run.starts_call {callee : Value} {args : List Value} (hs : s.Over H) (hidle : s.machine.Idle)
    (hcallee : callee.Over (Closure.Of H)) (hargs : ∀ v ∈ args, v.Over (Closure.Of H))
    (h : startCall callee args s = (.running run, t)) :
    t.machine.Over H ∧ (t.machine.Idle ∨ t.machine.Fresh) := by
  unfold startCall at h
  dsimp only at h
  split at h
  · next hrun =>
    cases h
    have hover := ((Exec.confines_beginCall hcallee hargs).ok hs hrun).1
    exact ⟨hover.machine, (Exec.starts_beginCall hidle callee args).ok hrun⟩
  · exact (ended_endCall h).elim

end

/-- A run begins: an idle machine runs its block, or it calls a value. All functions within reach satisfy `H`. -/
inductive State.Begins (H : Function → Prop) : State → Prop where
  | block {s t : State} {run : Run} : s.Over H → s.machine.Idle → H s.machine.main.function →
    Run.startBlock s = (.running run, t) → Begins H t
  | call {s t : State} {run : Run} {callee : Value} {args : List Value} : s.Over H → s.machine.Idle →
    callee.Over (Closure.Of H) → (∀ v ∈ args, v.Over (Closure.Of H)) →
    Run.startCall callee args s = (.running run, t) → Begins H t

/-- A run has entered a frame, or it is over already. -/
theorem State.Begins.starts {H : Function → Prop} {s : State} (h : s.Begins H) :
    s.machine.Over H ∧ (s.machine.Idle ∨ s.machine.Fresh) := by
  cases h with
  | block hs hidle hmain hstart => exact Run.starts_block hs hidle hmain hstart
  | call hs hidle hcallee hargs hstart => exact Run.starts_call hs hidle hcallee hargs hstart

/-! ## Runs -/

section

variable {L : Function → List Point} {m m' : Machine} {f g : Frame} {fs : Array Frame} {s u : State} {ss us : List State}

/-- Nothing is running any more, or all frames stand on the one with which the run began. -/
def Machine.Grounded (m : Machine) (L : Function → List Point) : Prop :=
  m.frames = #[] ∨ ∃ f : Frame, f.closure.function.Tidy ∧ m.Inside (f.ground L #[] [])

/-- The first frame of a run is its ground. -/
theorem Machine.Fresh.grounded (h : m.Fresh) (hm : m.Over Function.Tidy)
    (hL : ∀ f : Function, f.Tidy → f.Laid (L f)) : m.Grounded L := by
  rcases h.frames with ⟨f, hframes, hip, hsp⟩
  have htidy : f.closure.function.Tidy := (hm.frames f (by simp [hframes])).closure
  rcases (hL _ htidy).starts with ⟨p, hp, hspot⟩
  have hstands : f.Stands (f.ground L #[] []) p.spot m.height m.handlers := by
    rw [hspot, h.handlers, Machine.height_of_none h.waiting]
    exact ⟨hip, Nat.le_of_eq hsp.symm, False.elim, .none⟩
  refine .inr ⟨f, htidy, ?_, by simp [h.waiting]⟩
  rw [hframes]
  exact .ground ⟨rfl, rfl, rfl⟩ (Ground.leads_point hp) hstands

/-- A turn leaves the run on its ground, or it was the last one. -/
theorem Machine.Grounded.moves (h : m.Grounded L) (hL : ∀ f : Function, f.Tidy → f.Laid (L f))
    (hmove : m.Moves m') (hframes : m.frames ≠ #[]) : m'.Grounded L := by
  rcases h.resolve_left hframes with ⟨f, htidy, hinside⟩
  have hsound : (f.ground L #[] []).Sound := Frame.sound_ground hL htidy nofun
  have hend : ¬ m.AtEnd (f.ground L #[] []) := by
    intro hend
    rcases hend.stands with ⟨g, s, -, -, hout, -⟩
    exact hout
  rcases hinside.moves hsound hmove hend with ⟨hinside', -⟩ | hleaves
  · exact .inr ⟨f, htidy, hinside'⟩
  · cases hleaves with
    | closes _ _ _ houter => cases houter
    | returns _ _ _ _ _ _ _ hreturns => exact .inl hreturns.frames
    | throws _ hhandlers hthrows =>
      -- a value that nobody catches ends the run
      rcases hthrows.handler with ⟨k, target, hcons, -⟩
      rw [show m.handlers = [] from hhandlers] at hcons
      cases hcons

/-- Where the running frame stands. -/
theorem Machine.Grounded.top (h : m.Grounded L) (hL : ∀ f : Function, f.Tidy → f.Laid (L f))
    (hframes : m.frames = fs.push g) (hw : m.waiting = none) :
    g.closure.function.Tidy ∧ (∀ h ∈ m.handlers, h.depth ≤ fs.size + 1) ∧
      ∃ p ∈ L g.closure.function, p.offset = g.ip ∧ g.base + g.closure.function.locals + p.height ≤ m.sp := by
  have hne : m.frames ≠ #[] := by simp [hframes]
  rcases h.resolve_left hne with ⟨f, htidy, hinside⟩
  have ht := hinside.tower
  rw [hframes, Machine.height_of_none hw] at ht
  have hdepth := ht.depth_le (Frame.sound_ground hL htidy nofun)
  rw [Array.size_push] at hdepth
  generalize hfs : fs.push g = frames at ht
  cases ht with
  | ground hsame hleads hstands =>
    rcases Array.push_eq_push.mp hfs with ⟨rfl, -⟩
    rcases hleads.resolve_right id with ⟨p, hp, hmeets⟩
    have hstands' := hstands.meets hmeets
    rw [hsame.closure, hsame.base]
    exact ⟨htidy, hdepth, p, hp, hstands'.ip.symm, hstands'.enough⟩
  | @call fs' f₀ k p _ _ hs' ht htidy' hsame hp hslot hstands =>
    rcases Array.push_eq_push.mp hfs with ⟨rfl, -⟩
    rw [hsame.closure, hsame.base]
    exact ⟨htidy', hdepth, p, hp, hstands.ip.symm, hstands.enough⟩

/-- Nothing else gets into reach in the course of a run. -/
theorem State.Begins.confined {H : Function → Prop} (h : s.Begins H) (hss : (s :: ss).IsChain (State.Next H)) :
    ∀ t ∈ s :: ss, t.machine.Over H :=
  hss.induction _ _ (fun _ _ hnext hover => hnext.confined hover) fun _ => h.starts.1

/-- Each machine of a run is on its ground, and makes a move to the next one. -/
theorem State.Begins.grounded (h : s.Begins Function.Tidy) (hL : ∀ f : Function, f.Tidy → f.Laid (L f))
    (hss : (s :: ss).IsChain (State.Next Function.Tidy)) :
    (∀ t ∈ s :: ss, t.machine.Grounded L) ∧ ((s :: ss).map State.machine).IsChain Machine.Moves := by
  rcases h.starts with ⟨hover, hstarts⟩
  have hground : s.machine.Grounded L := by
    rcases hstarts with hidle | hfresh
    · exact .inl hidle.frames
    · exact hfresh.grounded hover hL
  have hmoves := hss.imp_of_mem_imp fun t u ht _ hnext => And.intro hnext.1 (hnext.moves (h.confined hss t ht))
  constructor
  · refine hmoves.induction _ _ ?_ fun _ => hground
    exact fun t u hmove ht => ht.moves hL hmove.2 hmove.1
  · rw [List.isChain_map]
    exact hmoves.imp fun _ _ hmove => hmove.2

end

open Classical in
/-- Any layout of a tidy function may be the one that counts. -/
theorem Function.Laid.exists_layout {f : Function} {code : List Point} (h : f.Laid code) :
    ∃ L : Function → List Point, L f = code ∧ ∀ g : Function, g.Tidy → g.Laid (L g) := by
  refine ⟨fun g => if g = f then code else g.layout, if_pos rfl, ?_⟩
  intro g hg
  dsimp only
  split
  · next heq => exact heq ▸ h
  · exact hg.laid

/-- Whenever a frame of a run enters a statement with a finally body, control stays in what the statement
protects until it departs. -/
theorem State.Begins.departs {s u : State} {ss us : List State} {fs : Array Frame} {f : Frame} {code c : List Point}
    {Γ : Context} {body F : Block} {handler : Option CatchClause} {span : Span} {notes : List Note}
    (h : s.Begins Function.Tidy) (hss : (s :: ss).IsChain (State.Next Function.Tidy)) (hus : u :: us <:+ s :: ss)
    (hframes : u.machine.frames = fs.push f) (hw : u.machine.waiting = none)
    (hlaid : f.closure.function.Laid code)
    (hlays : Lays Γ (.action (.tryCatch body handler (some F) span)) f.ip c notes) (hsub : c ⊆ code) :
    ∃ r : Region, r.enter = f.ip ∧ r.cleanup = some F ∧ r.catchTarget.isSome = handler.isSome ∧
      Until (Machine.In · fs f (Region.Part code Γ.regions r))
        (Departs code fs f (Region.Part code Γ.regions r) Γ.regions F (f.ip + size c) u.machine.handlers)
        ((u :: us).map State.machine) := by
  rcases hlaid.exists_layout with ⟨L, rfl, hL⟩
  rcases h.grounded hL hss with ⟨hground, hchain⟩
  have hmem : u ∈ s :: ss := hus.subset List.mem_cons_self
  rcases (hground u hmem).top hL hframes hw with ⟨htidy, hdepth, p, hp, hoffset, henough⟩
  have hsound : (f.ground L fs []).Sound := Frame.sound_ground hL htidy nofun
  have hat : u.machine.At fs f f.ip u.machine.handlers := ⟨⟨f, hframes, ⟨rfl, rfl, rfl⟩, rfl⟩, hw, rfl⟩
  refine hlays.departs (G := f.ground L fs []) hsub hsound id hdepth hat ?_ (hchain.suffix (hus.map _))
  intro q hq hqoffset
  rw [hlaid.eq_of_offset hq hp (hqoffset.trans hoffset.symm)]
  exact henough

end ScriptMachine
