import ScriptMachine.Proofs.Frames.Life
import ScriptMachine.Proofs.Lifting.Moves

/-!
# Runs of lifted machines

Step by step a lifted machine does what the other one does (`Exec.followsAt_advanceCatching`), and so it goes with a
whole execution (`Exec.execute_lifted`). Both need that the instructions name locals which the running frame has. This
is so as long as the functions within reach are sound and the frames are piled up (`State.Ordered`).
-/

namespace ScriptMachine

/-! ## Steps -/

/-- The instruction at which a machine stands names no local that the running frame does not have. -/
def Machine.NamesOwn (m : Machine) : Prop :=
  ∀ f op n, m.frames.back? = some f → f.code[f.ip]? = some (Opcode.toByte op) →
    op = .getLocal ∨ op = .setLocal ∨ op = .captureLocal → operandAt? f.code (f.ip + 1) 1 = some n →
    n < f.closure.function.locals

namespace Exec

section

variable {outer : Array Frame} {s s' : State}

theorem followsAt_step (hs : s.Covers outer s') (hnames : s.machine.NamesOwn) :
    FollowsAt outer (fun _ => State.Lifted outer) step step s s' := by
  refine (followsAt_currentFrame hs).bind ?_
  rintro f t t' ⟨rfl, rfl, hback⟩
  rcases Array.back?_eq_some_iff.mp hback with ⟨fs, hframes⟩
  dsimp only
  cases hbyte : f.code[f.ip]? with
  | none => exact followsAt_pure _ hs.toLifted
  | some byte =>
    dsimp only
    generalize hop : Opcode.dispatch byte = op?
    have hmove : Mirrors outer (modifyFrame fun g => { g with ip := f.ip + 1 }) :=
      mirrors_modifyFrame fun _ => ⟨rfl, rfl⟩
    have hmoved := (hmove t t' hs).also
      (fun _ u => u.machine.frames.back? = some { f with ip := f.ip + 1 }) (fun _ _ => True)
      (by
        intro a u hu
        rw [modifyFrame_eq hframes] at hu
        cases hu
        exact Array.back?_push ..)
      (fun _ _ _ => trivial)
    refine hmoved.bind ?_
    rintro _ u u' ⟨hu, hback', -⟩
    refine FollowsAt.bind (S := fun _ v v' => v.Covers outer v' ∧
      v.machine.frames.back? = some { f with ip := f.ip + 1 }) (followsAt_modifyMachine ?_) ?_
    · exact ⟨hu.withMachine { hu.machine with opOffset := rfl } hu.live, hback'⟩
    · rintro _ v v' ⟨hv, hback''⟩
      cases op? with
      | none => exact follows_raise _ v v' hv
      | some op =>
        rw [Opcode.dispatch_eq_ofByte?] at hop
        have hcode : f.code[f.ip]? = some op.toByte := by rw [hbyte, Opcode.toByte_of_ofByte? hop]
        refine followsAt_perform hv op fun hlocal g n hg hn => ?_
        rw [hback''] at hg
        cases hg
        exact hnames f op n hback hcode hlocal hn

theorem followsAt_advance (hs : s.Covers outer s') (hnames : s.machine.NamesOwn) :
    FollowsAt outer (fun _ => State.Lifted outer) advance advance s s' := by
  apply followsAt_withMachine
  rw [hs.machine.waiting]
  cases s.machine.waiting with
  | some w => exact (mirrors_poll w).toEnd s s' hs
  | none => exact followsAt_step hs hnames

theorem not_isCatchable_of_excused {f : Fault} (h : (Abort.fault f).Excused) : f.cause.isCatchable = false := by
  rcases h with h | ⟨limit, h⟩
  · rw [h]
    rfl
  · rw [h]
    rfl

/-- A fault that is thrown as a value is thrown on both machines. -/
theorem followsAt_advanceCatching (hs : s.Covers outer s') (hnames : s.machine.NamesOwn) :
    FollowsAt outer (fun _ => State.Lifted outer) advanceCatching advanceCatching s s' := by
  refine (followsAt_advance hs hnames).tryCatch ?_ ?_
  · intro e t he
    cases e with
    | crash message => rfl
    | fault f =>
      have hpass : (f.cause.isCatchable && !t.machine.handlers.isEmpty) = false := by
        rw [not_isCatchable_of_excused he, Bool.false_and]
      refine (bind_eq (getMachine_eq t)).trans ?_
      rw [hpass]
      rfl
  · intro e
    cases e with
    | crash message => exact follows_throw _
    | fault f =>
      refine follows_withMachine fun t t' ht => ?_
      rw [ht.machine.handlers, List.isEmpty_map]
      split
      · have hcatch : Mirrors outer (do
            throwValue (f.toValue (← getHeap))
            return Signal.next) :=
          mirrors_getHeap.bind fun _ => (mirrors_throwValue _).bind fun _ => mirrors_pure _
        exact hcatch.toEnd t t' ht
      · exact follows_throw _ t t' ht

end

end Exec

/-! ## Executions -/

/-- All functions within reach are sound, and the frames are piled up. -/
structure State.Ordered (s : State) : Prop where
  world : s.world.Over Function.IsSound
  neat : s.Neat

theorem State.Ordered.namesOwn {s : State} (h : s.Ordered) : s.machine.NamesOwn :=
  (h.neat.stacked.apart h.neat.null).locals

/-- A step that does not halt leaves the order. -/
theorem State.Ordered.step {s t : State} {signal : Signal} (h : s.Ordered) (hframes : s.machine.frames ≠ #[])
    (hrun : Exec.advanceCatching.run s = .ok signal t) (hsignal : signal ≠ .halt) : t.Ordered := by
  have hnext : s.Next Function.IsSound t := ⟨hframes, s.world, signal, h.world, hrun, hsignal⟩
  have hover := (Exec.confines_advanceCatching.ok (s := s) ⟨h.world, h.neat.confined⟩ hrun).1
  exact ⟨hover.world, hnext.neat h.neat⟩

/-- The machine has run out of room, or it has crashed. -/
def Pause.Excused : Pause → Prop
  | .finished (.error e) => e.Excused
  | _ => False

/-- The execution goes on when it gets more steps. -/
def Pause.GoesOn : Pause → Prop
  | .finished _ => False
  | _ => True

/-- An execution on a lifted machine stops where the frames of the other one are left. -/
theorem Exec.execute_lifted {outer : Array Frame} (stop fuel : Nat) {s s' t : State} {pause : Pause}
    (hs : s.Lifted outer s') (hordered : s.Ordered) (hrun : execute stop fuel s = (pause, t))
    (hpause : ¬ pause.Excused) :
    ∃ t', execute (stop + outer.size) fuel s' = (pause, t') ∧ t.Lifted outer t' ∧ (pause.GoesOn → t.Ordered) := by
  induction fuel generalizing s s' with
  | zero =>
    cases hrun
    exact ⟨s', rfl, hs, fun _ => hordered⟩
  | succ fuel ih =>
    have hsize : s'.machine.frames.size ≤ stop + outer.size ↔ s.machine.frames.size ≤ stop := by
      rw [hs.machine.frames, Array.size_append]
      omega
    unfold execute at hrun ⊢
    by_cases hstop : s.machine.frames.size ≤ stop
    · rw [if_pos hstop] at hrun
      rw [if_pos (hsize.mpr hstop)]
      cases hrun
      exact ⟨s', rfl, hs, False.elim⟩
    · rw [if_neg hstop] at hrun
      rw [if_neg (mt hsize.mp hstop)]
      have hframes : s.machine.frames ≠ #[] := by
        rintro hempty
        rw [hempty] at hstop
        exact hstop (Nat.zero_le _)
      have hcovers : s.Covers outer s' := { hs with live := fun hempty => absurd hempty hframes }
      have hstep := followsAt_advanceCatching hcovers hordered.namesOwn
      unfold FollowsAt at hstep
      cases hadvance : advanceCatching s with
      | ok signal u =>
        rw [hadvance] at hstep
        rw [EStateM.run, hadvance] at hrun
        rcases hstep with ⟨u', hadvance', hu⟩
        rw [EStateM.run, hadvance']
        cases signal with
        | next => exact ih hu (hordered.step hframes hadvance (by decide)) hrun
        | halt =>
          cases hrun
          exact ⟨u', rfl, hu, False.elim⟩
        | blocked =>
          cases hrun
          exact ⟨u', rfl, hu, fun _ => hordered.step hframes hadvance (by decide)⟩
      | error e u =>
        rw [hadvance] at hstep
        rw [EStateM.run, hadvance] at hrun
        cases hrun
        rcases hstep.resolve_left hpause with ⟨u', hadvance', hu⟩
        rw [EStateM.run, hadvance']
        exact ⟨u', rfl, hu.toLifted, False.elim⟩

end ScriptMachine
