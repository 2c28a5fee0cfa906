import Mathlib.Data.Set.Finite.Basic
import ScriptMachine.Proofs.Joining.Basic
import ScriptMachine.Proofs.Machine.Kit
import ScriptMachine.Task.Scheduler

/-!
# Rounds as steps of tasks

Tasks of a system have their turns one after the other, and the machine that executes a spawn puts the new task on the
list of those to be taken over. So each turn is a run of steps of one task of the set: it starts some tasks, puts their
handles on the list, and finishes if its call is over and the outcome delivered. Waiting for all tasks of a system, when
none is left, is a run in which the waiting call returns (`TaskSystem.join_returns`).
-/

namespace ScriptMachine

namespace TaskSet

/-- Any number of steps. -/
abbrev Steps {ι : Type} [DecidableEq ι] (ends : TaskSet ι → ι → Prop) (s s' : TaskSet ι) : Prop :=
  Relation.ReflTransGen (Step ends) s s'

/-- The tasks that are not finished are `ids`, and nobody has started a task whose handle is not on the list yet. -/
structure Runs (s : TaskSet Nat) (ids : List Nat) : Prop where
  nodup : ids.Nodup
  mem : ∀ id, id ∈ ids ↔ id ∈ s.started ∧ id ∉ s.finished
  owes : ∀ p, s.owes p = none
  finished : ∀ id ∈ s.finished, id ∈ s.started
  handles : ∀ id ∈ s.handles, id ∈ s.started

section

variable (ends : TaskSet Nat → Nat → Prop) {s : TaskSet Nat} {ids before behind : List Nat} {i : Nat}

/-- A task that is not finished starts another one and puts its handle on the list. -/
theorem Runs.start (h : s.Runs ids) (hi : i ∈ ids) {id : Nat} (hnew : id ∉ s.started) :
    Steps ends s ((s.start (.task i) id).enter (.task i) id) ∧
      ((s.start (.task i) id).enter (.task i) id).Runs (ids ++ [id]) := by
  have hmay : s.MayStart (.task i) := (h.mem i).mp hi
  have howes : (s.start (.task i) id).owes (.task i) = some id := by rw [owes_start, if_pos rfl]
  have hsteps : Steps ends s (s.start (.task i) id) := .single (.start s _ id hmay (h.owes _) hnew)
  refine ⟨hsteps.tail (.enter _ _ id howes), ?_⟩
  have hfresh : id ∉ ids := fun hid => hnew ((h.mem id).mp hid).1
  constructor
  case nodup =>
    rw [List.nodup_append]
    refine ⟨h.nodup, List.nodup_singleton id, ?_⟩
    intro j hj k hk heq
    rw [List.mem_singleton.mp hk] at heq
    exact hfresh (heq ▸ hj)
  case mem =>
    intro j
    show j ∈ ids ++ [id] ↔ j ∈ id :: s.started ∧ j ∉ s.finished
    rw [List.mem_append, List.mem_singleton, List.mem_cons, h.mem j]
    constructor
    · rintro (⟨hstarted, hruns⟩ | rfl)
      · exact ⟨.inr hstarted, hruns⟩
      · exact ⟨.inl rfl, fun hdone => hnew (h.finished _ hdone)⟩
    · rintro ⟨rfl | hstarted, hruns⟩
      · exact .inr rfl
      · exact .inl ⟨hstarted, hruns⟩
  case owes =>
    intro p
    rw [owes_enter]
    split
    · rfl
    · next hne => rw [owes_start, if_neg hne, h.owes p]
  case finished => exact fun j hj => List.mem_cons_of_mem _ (h.finished j hj)
  case handles =>
    intro j hj
    rcases List.mem_append.mp hj with hj | hj
    · exact List.mem_cons_of_mem _ (h.handles j hj)
    · rw [List.mem_singleton.mp hj]
      exact List.mem_cons_self

/-- A task that is not finished starts any number of others. -/
theorem Runs.starts (h : s.Runs ids) (hi : i ∈ ids) (n : Nat) :
    ∃ s' new, new.length = n ∧ Steps ends s s' ∧ s'.Runs (ids ++ new) ∧ s'.joiner = s.joiner := by
  induction n with
  | zero => exact ⟨s, [], rfl, .refl, by rwa [List.append_nil], rfl⟩
  | succ n ih =>
    rcases ih with ⟨s', new, hlength, hsteps, hruns, hjoiner⟩
    rcases Infinite.exists_notMem_finset s'.started.toFinset with ⟨id, hid⟩
    rw [List.mem_toFinset] at hid
    rcases hruns.start ends (List.mem_append_left new hi) hid with ⟨hmore, hruns⟩
    refine ⟨_, new ++ [id], ?_, hsteps.trans hmore, ?_, hjoiner⟩
    · rw [List.length_append, hlength, List.length_singleton]
    · rwa [List.append_assoc] at hruns

/-- A task that is not finished finishes. -/
theorem Runs.finish (h : s.Runs (before ++ i :: behind)) :
    Step ends s (s.finish i) ∧ (s.finish i).Runs (before ++ behind) := by
  have hmay : s.MayStart (.task i) := (h.mem i).mp (by simp)
  have hnodup := h.nodup
  rw [List.nodup_middle, List.nodup_cons] at hnodup
  refine ⟨.finish s i hmay (h.owes _), hnodup.2, ?_, h.owes, ?_, h.handles⟩
  · intro j
    have hj := h.mem j
    show j ∈ before ++ behind ↔ j ∈ s.started ∧ j ∉ i :: s.finished
    rw [List.mem_append, List.mem_cons] at hj
    rw [List.mem_append, List.mem_cons]
    have hne : j = i → ¬(j ∈ before ∨ j ∈ behind) := by
      rintro rfl
      rw [← List.mem_append]
      exact hnodup.1
    tauto
  · intro j hj
    rcases List.mem_cons.mp hj with rfl | hj
    · exact hmay.1
    · exact h.finished j hj

/-- With every task finished, the call that is about to take the list waits for what is on it, and returns. -/
theorem Runs.returns (hends : ∀ s id, id ∈ s.finished → ends s id) (h : s.Runs []) (hlooking : s.joiner = .looking) :
    ∃ s', Steps ends s s' ∧ s'.joiner = .returned := by
  have hdone : ∀ id ∈ s.handles, id ∈ s.finished := by
    intro id hid
    by_contra hruns
    exact List.not_mem_nil ((h.mem id).mpr ⟨h.handles id hid, hruns⟩)
  have hbatch : ∀ batch, (∀ id ∈ batch, id ∈ s.finished) →
      ∃ s', Steps ends { s with handles := [], joiner := .awaiting batch } s' ∧ s'.joiner = .returned := by
    intro batch
    induction batch with
    | nil =>
      intro _
      refine ⟨_, .tail (.single (.again _ rfl)) (.take _ rfl), rfl⟩
    | cons id batch ih =>
      intro hall
      rcases ih fun j hj => hall j (List.mem_cons_of_mem _ hj) with ⟨s', hsteps, hreturned⟩
      exact ⟨s', .head (.await _ id batch rfl (hends _ _ (hall id List.mem_cons_self))) hsteps, hreturned⟩
  have htake : Step ends s s.take := .take s hlooking
  cases hhandles : s.handles with
  | nil =>
    refine ⟨s.take, .single htake, ?_⟩
    rw [take, hhandles]
    rfl
  | cons id rest =>
    have heq : s.take = { s with handles := [], joiner := .awaiting s.handles } := by
      rw [take, hhandles]
      rfl
    rcases hbatch s.handles hdone with ⟨s', hsteps, hreturned⟩
    rw [heq] at htake
    exact ⟨s', .head htake hsteps, hreturned⟩

end

end TaskSet

/-! ## Turns and rounds -/

namespace TaskSystem

/-- No task that was started is lost. -/
instance (n : Nat) : State.Steady fun s => n ≤ s.world.spawned.size where
  machine hs _ := hs
  world := by
    intro s w hs hspawned
    rw [hspawned]
    exact hs
  spawn := by
    intro s t hs _
    rw [Array.size_push]
    exact Nat.le_succ_of_le hs

/-- The set has one task that is not finished for each task at work in the system, and for each that was started and has
not been taken over yet. -/
def Matches (sys : TaskSystem) (s : TaskSet Nat) : Prop :=
  ∃ ids new : List Nat, s.Runs (ids ++ new) ∧ ids.length = sys.tasks.size ∧ new.length = sys.world.spawned.size

section

variable (ends : TaskSet Nat → Nat → Prop) {s : TaskSet Nat} {sys : TaskSystem}

theorem Matches.adopt (h : sys.Matches s) : sys.adopt.Matches s := by
  rcases h with ⟨ids, new, hruns, hids, hnew⟩
  unfold TaskSystem.adopt
  split
  · exact ⟨ids, new, hruns, hids, hnew⟩
  · refine ⟨ids ++ new, [], by rwa [List.append_nil], ?_, rfl⟩
    simp [hids, hnew]

/-- One turn after the other: tasks that keep their places, and tasks that are dropped because they are done. -/
theorem turns_steps (w : World) (ts : List Task) (kept : Array Task) {before behind new : List Nat}
    (h : s.Runs (before ++ behind ++ new)) (hbefore : before.length = kept.size) (hbehind : behind.length = ts.length)
    (hnew : new.length = w.spawned.size) (tracked : Nat) :
    ∃ s', TaskSet.Steps ends s s' ∧ s'.joiner = s.joiner ∧
      TaskSystem.Matches ⟨(turns w ts kept).2, (turns w ts kept).1, tracked⟩ s' := by
  induction ts generalizing w kept before behind new s with
  | nil =>
    cases behind with
    | nil => exact ⟨s, .refl, rfl, before, new, by rwa [List.append_nil] at h, hbefore, hnew⟩
    | cons i behind => cases hbehind
  | cons t ts ih =>
    cases behind with
    | nil => cases hbehind
    | cons i behind =>
      have hbehind := Nat.succ.inj hbehind
      unfold turns
      split
      · -- the task of the place `i` starts those tasks that its turn has added
        have hgrown : w.spawned.size ≤ (t.turn quantum w).2.spawned.size :=
          Task.turn_given (I := fun s => w.spawned.size ≤ s.world.spawned.size) quantum (Nat.le_refl _)
        rcases h.starts ends (show i ∈ _ by simp)
          ((t.turn quantum w).2.spawned.size - w.spawned.size) with ⟨u, more, hmore, hsteps, hruns, hjoiner⟩
        have hnew' : (new ++ more).length = (t.turn quantum w).2.spawned.size := by
          rw [List.length_append, hnew, hmore]
          omega
        rw [List.append_assoc] at hruns
        dsimp only
        by_cases hdone : (t.turn quantum w).1.isDone
        · rw [if_pos hdone]
          have hsplit : before ++ i :: behind ++ (new ++ more) = before ++ i :: (behind ++ (new ++ more)) := by simp
          rw [hsplit] at hruns
          rcases hruns.finish ends with ⟨hfinish, hruns⟩
          rw [← List.append_assoc] at hruns
          rcases ih _ kept hruns hbefore hbehind hnew' with ⟨v, hrest, hjoiner', hmatches⟩
          exact ⟨v, (hsteps.tail hfinish).trans hrest, hjoiner'.trans hjoiner, hmatches⟩
        · rw [if_neg hdone]
          have hsplit : before ++ i :: behind ++ (new ++ more) = (before ++ [i]) ++ behind ++ (new ++ more) := by simp
          rw [hsplit] at hruns
          rcases ih _ (kept.push (t.turn quantum w).1) hruns (by simp [hbefore]) hbehind hnew' with ⟨v, hrest, hjoiner', hmatches⟩
          exact ⟨v, hsteps.trans hrest, hjoiner'.trans hjoiner, hmatches⟩
      · have hsplit : before ++ i :: behind ++ new = (before ++ [i]) ++ behind ++ new := by simp
        rw [hsplit] at h
        exact ih w (kept.push t) h (by simp [hbefore]) hbehind hnew

theorem Matches.round (h : sys.Matches s) :
    ∃ s', TaskSet.Steps ends s s' ∧ s'.joiner = s.joiner ∧ sys.round.Matches s' := by
  rcases h.adopt with ⟨ids, new, hruns, hids, hnew⟩
  have hruns : s.Runs ([] ++ ids ++ new) := hruns
  rcases turns_steps ends sys.adopt.world sys.adopt.tasks.toList #[] hruns rfl
    (by simpa using hids) hnew sys.adopt.tracked with ⟨s', hsteps, hjoiner, hmatches⟩
  exact ⟨s', hsteps, hjoiner, hmatches.adopt⟩

theorem Matches.drain (h : sys.Matches s) (fuel : Nat) :
    ∃ s', TaskSet.Steps ends s s' ∧ s'.joiner = s.joiner ∧ (sys.drain fuel).Matches s' := by
  induction fuel generalizing sys s with
  | zero => exact ⟨s, .refl, rfl, h⟩
  | succ fuel ih =>
    unfold TaskSystem.drain
    dsimp only
    split
    · rcases h.adopt.round ends with ⟨u, hround, hjoiner, hmatches⟩
      rcases ih hmatches with ⟨v, hdrain, hjoiner', hmatches⟩
      exact ⟨v, hround.trans hdrain, hjoiner'.trans hjoiner, hmatches⟩
    · exact ⟨s, .refl, rfl, h.adopt⟩

/-- Waiting for all tasks of a system until none is left is a run of the call that waits for all tasks, from its beginning
to its return. -/
theorem join_returns (hends : ∀ s id, id ∈ s.finished → ends s id) (h : sys.Matches s) (haway : s.joiner = .away)
    (fuel : Nat) (htasks : (sys.join fuel).tasks = #[]) (hspawned : (sys.join fuel).world.spawned = #[]) :
    ∃ s', TaskSet.Steps ends s s' ∧ s'.joiner = .returned := by
  have hcall : TaskSet.Step ends s { s with joiner := .looking } := by
    rcases h with ⟨ids, new, hruns, -, -⟩
    exact .join s haway fun k => hruns.owes (.host k)
  have hlooking : sys.Matches { s with joiner := .looking } := by
    rcases h with ⟨ids, new, ⟨hnodup, hmem, howes, hfinished, hhandles⟩, hids, hnew⟩
    exact ⟨ids, new, ⟨hnodup, hmem, howes, hfinished, hhandles⟩, hids, hnew⟩
  rcases hlooking.drain ends fuel with ⟨u, hdrain, hjoiner, ids, new, hruns, hids, hnew⟩
  have hids : ids = [] := List.length_eq_zero_iff.mp (hids.trans (congrArg Array.size htasks))
  have hnew : new = [] := List.length_eq_zero_iff.mp (hnew.trans (congrArg Array.size hspawned))
  rw [hids, hnew] at hruns
  rcases hruns.returns ends hends hjoiner with ⟨v, hrest, hreturned⟩
  exact ⟨v, .head hcall (hdrain.trans hrest), hreturned⟩

end

end TaskSystem

end ScriptMachine
