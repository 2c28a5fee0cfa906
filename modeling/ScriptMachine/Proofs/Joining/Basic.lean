import Mathlib.Data.List.Basic
import Mathlib.Logic.Function.Basic
import Mathlib.Logic.Relation

/-!
# Waiting for a set of tasks

Tasks may start further tasks of their set at any time, while a call waits for all of them. Nobody stops meanwhile:

* to start a task takes two steps, for the task runs before its handle is put on the list of the set;
* the waiting call takes the whole list and waits for the tasks on it, one after the other, while the handles of their
  children go on a new list. It returns when it takes an empty list.

A list that is empty once might be filled by a task that still runs. What excludes this (`TaskSet.Covered`) is that a task
which is not finished has its handle on the list, is waited for, or has been started by somebody who has yet to put its
handle there, and who therefore is not finished either and has been started before. So if nothing is on the list and
nothing is waited for, the first task that is not finished has nobody who could have started it
(`TaskSet.Reached.join_waits`).
-/

namespace ScriptMachine

variable {ι : Type} [DecidableEq ι]

/-- Who starts tasks: a task of the set, or a thread of the host. -/
inductive Starter (ι : Type) where
  | task (id : ι)
  | host (thread : Nat)
deriving DecidableEq

/-- Where the call is that waits for all tasks. -/
inductive Joiner (ι : Type) where
  /-- There is no call. -/
  | away
  /-- It is about to take the list. -/
  | looking
  /-- It waits for the tasks that were on the list, for the first of them now. -/
  | awaiting (batch : List ι)
  | returned

/-- A set of tasks. -/
structure TaskSet (ι : Type) where
  /-- The tasks that were ever started, latest first. -/
  started : List ι
  finished : List ι
  /-- The list of handles. -/
  handles : List ι
  /-- The task that somebody has started without having put its handle on the list yet. -/
  owes : Starter ι → Option ι
  joiner : Joiner ι

/-- The tasks that a call still has to wait for. -/
def Joiner.batch : Joiner ι → List ι
  | .awaiting batch => batch
  | _ => []

namespace TaskSet

/-! ## Steps -/

def empty : TaskSet ι := ⟨[], [], [], fun _ => none, .away⟩

/-- The task `id` begins to run. -/
def start (s : TaskSet ι) (p : Starter ι) (id : ι) : TaskSet ι :=
  { s with started := id :: s.started, owes := Function.update s.owes p (some id) }

/-- Its handle is put on the list. -/
def enter (s : TaskSet ι) (p : Starter ι) (id : ι) : TaskSet ι :=
  { s with handles := s.handles ++ [id], owes := Function.update s.owes p none }

def finish (s : TaskSet ι) (id : ι) : TaskSet ι := { s with finished := id :: s.finished }

/-- The waiting call takes the list, and returns if nothing is on it. -/
def take (s : TaskSet ι) : TaskSet ι :=
  { s with handles := [], joiner := if s.handles.isEmpty then .returned else .awaiting s.handles }

/-- Somebody can start a task: a task while it runs, the host while nobody waits for all tasks. -/
def MayStart (s : TaskSet ι) : Starter ι → Prop
  | .task id => id ∈ s.started ∧ id ∉ s.finished
  | .host _ => s.joiner = .away

/-- Tasks that are on the list and not finished. -/
def pending (s : TaskSet ι) : Nat := (s.handles.filter fun id => id ∉ s.finished).length

/-- A step of a task, of the host, or of the waiting call. Waiting for one task is an operation of the platform:
`ends s id` says when it can return in the state `s`. -/
inductive Step (ends : TaskSet ι → ι → Prop) : TaskSet ι → TaskSet ι → Prop where
  | start (s : TaskSet ι) (p : Starter ι) (id : ι) : s.MayStart p → s.owes p = none → id ∉ s.started →
    Step ends s (s.start p id)
  | enter (s : TaskSet ι) (p : Starter ι) (id : ι) : s.owes p = some id → Step ends s (s.enter p id)
  | finish (s : TaskSet ι) (id : ι) : s.MayStart (.task id) → s.owes (.task id) = none → Step ends s (s.finish id)
  /-- The host, which is not starting a task, begins to wait for all tasks. -/
  | join (s : TaskSet ι) : s.joiner = .away → (∀ k, s.owes (.host k) = none) →
    Step ends s { s with joiner := .looking }
  | take (s : TaskSet ι) : s.joiner = .looking → Step ends s s.take
  | await (s : TaskSet ι) (id : ι) (batch : List ι) : s.joiner = .awaiting (id :: batch) → ends s id →
    Step ends s { s with joiner := .awaiting batch }
  | again (s : TaskSet ι) : s.joiner = .awaiting [] → Step ends s { s with joiner := .looking }
  /-- The host goes on after the call. -/
  | leave (s : TaskSet ι) : s.joiner = .returned → Step ends s { s with joiner := .away }

/-- The set can arise from an empty one. -/
def Reached (ends : TaskSet ι → ι → Prop) (s : TaskSet ι) : Prop := Relation.ReflTransGen (Step ends) empty s

/-! ## The invariant -/

/-- The call that waits for all tasks will come to the task, or whoever started it will put it on the list, and this is
the host or one of the older tasks. -/
def Expected (s : TaskSet ι) (id : ι) (older : List ι) : Prop :=
  id ∈ s.handles ∨ id ∈ s.joiner.batch ∨ ∃ p, s.owes p = some id ∧ ∀ i, p = .task i → i ∈ older

/-- Every task is finished or expected. -/
structure Covered (s : TaskSet ι) : Prop where
  expected : ∀ newer id older, s.started = newer ++ id :: older → id ∈ s.finished ∨ s.Expected id older
  /-- A task that has to put a handle on the list still runs. -/
  debtor : ∀ i, s.owes (.task i) ≠ none → i ∈ s.started ∧ i ∉ s.finished
  /-- The host starts no tasks while it waits. -/
  waits : s.joiner ≠ .away → ∀ k, s.owes (.host k) = none
  returned : s.joiner = .returned → s.handles = [] ∧ ∀ id ∈ s.started, id ∈ s.finished

section

variable {ends : TaskSet ι → ι → Prop} {s s' : TaskSet ι} {p : Starter ι} {id : ι}

omit [DecidableEq ι] in
theorem covered_empty : (empty : TaskSet ι).Covered where
  expected := by
    intro newer id older h
    cases newer <;> cases h
  debtor := by
    intro i h
    exact absurd rfl h
  waits := by
    intro h
    exact absurd rfl h
  returned := by
    intro h
    cases h

omit [DecidableEq ι] in
/-- With nothing on the list and nothing to wait for, every task is finished: whoever had still to put its handle on the
list would have been started before. -/
theorem Covered.all_finished (h : s.Covered) (hjoiner : s.joiner ≠ .away) (hhandles : s.handles = [])
    (hbatch : s.joiner.batch = []) : ∀ id ∈ s.started, id ∈ s.finished := by
  have hsuffix : ∀ older newer, s.started = newer ++ older → ∀ id ∈ older, id ∈ s.finished := by
    intro older
    induction older with
    | nil =>
      intro newer _ id hid
      cases hid
    | cons j older ih =>
      intro newer hsplit
      have holder := ih (newer ++ [j]) (by rw [hsplit, List.append_assoc, List.singleton_append])
      intro id hid
      rcases List.mem_cons.mp hid with rfl | hid
      · rcases h.expected newer id older hsplit with hdone | hlist | hawaited | ⟨p, howes, hp⟩
        · exact hdone
        · rw [hhandles] at hlist
          cases hlist
        · rw [hbatch] at hawaited
          cases hawaited
        · cases p with
          | host k =>
            rw [h.waits hjoiner k] at howes
            cases howes
          | task i =>
            have hruns := h.debtor i (by rw [howes]; exact Option.some_ne_none id)
            exact absurd (holder i (hp i rfl)) hruns.2
      · exact holder id hid
  exact hsuffix s.started [] rfl

/-! ### What single steps do to it -/

theorem owes_start (q : Starter ι) : (s.start p id).owes q = if q = p then some id else s.owes q :=
  Function.update_apply ..

theorem owes_enter (q : Starter ι) : (s.enter p id).owes q = if q = p then none else s.owes q :=
  Function.update_apply ..

theorem Covered.start (h : s.Covered) (hmay : s.MayStart p) (hfree : s.owes p = none) : (s.start p id).Covered where
  expected := by
    intro newer j older hsplit
    cases newer with
    | nil =>
      -- the new task: its starter is the host, or one of the tasks that were there
      cases hsplit
      refine .inr (.inr (.inr ⟨p, by rw [owes_start, if_pos rfl], ?_⟩))
      intro i hi
      subst hi
      exact hmay.1
    | cons k newer =>
      have hsplit : s.started = newer ++ j :: older := (List.cons.inj hsplit).2
      rcases h.expected newer j older hsplit with hdone | hlist | hawaited | ⟨q, howes, hq⟩
      · exact .inl hdone
      · exact .inr (.inl hlist)
      · exact .inr (.inr (.inl hawaited))
      · have hne : q ≠ p := by
          intro heq
          rw [heq, hfree] at howes
          cases howes
        exact .inr (.inr (.inr ⟨q, by rw [owes_start, if_neg hne, howes], hq⟩))
  debtor := by
    intro i hi
    rw [owes_start] at hi
    split at hi
    · next heq =>
      subst heq
      exact ⟨List.mem_cons_of_mem _ hmay.1, hmay.2⟩
    · rcases h.debtor i hi with ⟨hstarted, hruns⟩
      exact ⟨List.mem_cons_of_mem _ hstarted, hruns⟩
  waits := by
    intro hjoiner k
    have hne : Starter.host k ≠ p := by
      intro heq
      subst heq
      exact hjoiner hmay
    rw [owes_start, if_neg hne]
    exact h.waits hjoiner k
  returned := by
    intro hreturned
    cases p with
    | task i => exact absurd ((h.returned hreturned).2 i hmay.1) hmay.2
    | host k => cases Eq.trans hmay.symm hreturned

theorem Covered.enter (h : s.Covered) (howes : s.owes p = some id) : (s.enter p id).Covered where
  expected := by
    intro newer j older hsplit
    rcases h.expected newer j older hsplit with hdone | hlist | hawaited | ⟨q, hq, hbefore⟩
    · exact .inl hdone
    · exact .inr (.inl (List.mem_append_left _ hlist))
    · exact .inr (.inr (.inl hawaited))
    · by_cases heq : q = p
      · rw [heq, howes] at hq
        cases hq
        exact .inr (.inl (List.mem_append_right _ List.mem_cons_self))
      · exact .inr (.inr (.inr ⟨q, by rw [owes_enter, if_neg heq, hq], hbefore⟩))
  debtor := by
    intro i hi
    rw [owes_enter] at hi
    split at hi
    · exact absurd rfl hi
    · exact h.debtor i hi
  waits := by
    intro hjoiner k
    rw [owes_enter]
    split
    · rfl
    · exact h.waits hjoiner k
  returned := by
    -- nobody owes anything once the call has returned
    intro hreturned
    have howes' : s.owes p ≠ none := by
      rw [howes]
      exact Option.some_ne_none id
    cases p with
    | host k =>
      have hjoiner : s.joiner ≠ .away := by
        intro haway
        cases haway.symm.trans hreturned
      exact absurd (h.waits hjoiner k) howes'
    | task i =>
      rcases h.debtor i howes' with ⟨hstarted, hruns⟩
      exact absurd ((h.returned hreturned).2 i hstarted) hruns

omit [DecidableEq ι] in
theorem Covered.finish (h : s.Covered) (howes : s.owes (.task id) = none) : (s.finish id).Covered where
  expected := by
    intro newer j older hsplit
    rcases h.expected newer j older hsplit with hdone | hexpected
    · exact .inl (List.mem_cons_of_mem _ hdone)
    · exact .inr hexpected
  debtor := by
    intro i hi
    rcases h.debtor i hi with ⟨hstarted, hruns⟩
    refine ⟨hstarted, ?_⟩
    intro hdone
    rcases List.mem_cons.mp hdone with rfl | hdone
    · exact hi howes
    · exact hruns hdone
  waits := h.waits
  returned := by
    intro hreturned
    rcases h.returned hreturned with ⟨hhandles, hall⟩
    exact ⟨hhandles, fun j hj => List.mem_cons_of_mem _ (hall j hj)⟩

omit [DecidableEq ι] in
/-- What was on the list is waited for; if nothing was on it, every task is finished. -/
theorem Covered.take (h : s.Covered) (hlooking : s.joiner = .looking) : s.take.Covered := by
  have hjoiner : s.joiner ≠ .away := by
    rw [hlooking]
    intro haway
    cases haway
  have hbatch : s.joiner.batch = [] := by
    rw [hlooking]
    rfl
  cases hhandles : s.handles with
  | nil =>
    have hall := h.all_finished hjoiner hhandles hbatch
    exact {
      expected := by
        intro newer j older hsplit
        exact .inl (hall j (by rw [show s.started = _ from hsplit]; simp))
      debtor := h.debtor
      waits := fun _ => h.waits hjoiner
      returned := fun _ => ⟨rfl, hall⟩ }
  | cons j rest =>
    have htake : s.take.joiner = .awaiting s.handles := by
      rw [TaskSet.take, hhandles]
      rfl
    exact {
      expected := by
        intro newer j older hsplit
        rcases h.expected newer j older hsplit with hdone | hlist | hawaited | howed
        · exact .inl hdone
        · refine .inr (.inr (.inl ?_))
          rw [htake]
          exact hlist
        · rw [hbatch] at hawaited
          cases hawaited
        · exact .inr (.inr (.inr howed))
      debtor := h.debtor
      waits := fun _ => h.waits hjoiner
      returned := by
        intro hreturned
        rw [htake] at hreturned
        cases hreturned }

omit [DecidableEq ι] in
/-- The call moves on, and every task that it is no longer going to come to is finished. -/
theorem Covered.move {j : Joiner ι} (h : s.Covered) (hbatch : ∀ id ∈ s.joiner.batch, id ∈ s.finished ∨ id ∈ j.batch)
    (hhost : j ≠ .away → ∀ k, s.owes (.host k) = none) (hreturned : j ≠ .returned) :
    ({ s with joiner := j } : TaskSet ι).Covered where
  expected := by
    intro newer id older hsplit
    rcases h.expected newer id older hsplit with hdone | hlist | hawaited | howed
    · exact .inl hdone
    · exact .inr (.inl hlist)
    · rcases hbatch id hawaited with hdone | hawaited
      · exact .inl hdone
      · exact .inr (.inr (.inl hawaited))
    · exact .inr (.inr (.inr howed))
  debtor := h.debtor
  waits := hhost
  returned := fun heq => absurd heq hreturned

/-- Every step keeps it, if waiting for a task ends only after the task. -/
theorem Step.covered (hends : ∀ s id, ends s id → id ∈ s.finished) (h : Step ends s s') (hs : s.Covered) :
    s'.Covered := by
  cases h with
  | start p id hmay hfree hnew => exact hs.start hmay hfree
  | enter p id howes => exact hs.enter howes
  | finish id hmay howes => exact hs.finish howes
  | join haway hhost =>
    apply hs.move
    · rw [haway]
      simp [Joiner.batch]
    · exact fun _ => hhost
    · intro hreturned
      cases hreturned
  | take hlooking => exact hs.take hlooking
  | await id batch hawaiting hdone =>
    have hdone := hends s id hdone
    apply hs.move
    · rw [hawaiting]
      intro j hj
      rcases List.mem_cons.mp hj with rfl | hj
      · exact .inl hdone
      · exact .inr hj
    · intro _
      apply hs.waits
      rw [hawaiting]
      intro haway
      cases haway
    · intro hreturned
      cases hreturned
  | again hawaiting =>
    apply hs.move
    · rw [hawaiting]
      simp [Joiner.batch]
    · intro _
      apply hs.waits
      rw [hawaiting]
      intro haway
      cases haway
    · intro hreturned
      cases hreturned
  | leave hreturned =>
    apply hs.move
    · rw [hreturned]
      simp [Joiner.batch]
    · exact fun hne => absurd rfl hne
    · intro hreturned
      cases hreturned

theorem Reached.covered (hends : ∀ s id, ends s id → id ∈ s.finished) (h : Reached ends s) : s.Covered := by
  induction h with
  | refl => exact covered_empty
  | tail _ hstep ih => exact hstep.covered hends ih

/-! ## The call returns after all tasks -/

/-- When the call returns that waits for all tasks, every task that was ever started is finished, and the set tracks
none, provided that waiting for one task ends only after this task. -/
theorem Reached.join_waits (hends : ∀ s id, ends s id → id ∈ s.finished) (h : Reached ends s)
    (hreturned : s.joiner = .returned) :
    (∀ id ∈ s.started, id ∈ s.finished) ∧ s.handles = [] ∧ s.pending = 0 := by
  rcases (h.covered hends).returned hreturned with ⟨hhandles, hall⟩
  have hpending : s.pending = 0 := by
    unfold pending
    rw [hhandles]
    rfl
  exact ⟨hall, hhandles, hpending⟩

/-- The call waits for a task, which meanwhile starts a child and puts its handle on a list that is empty again. -/
theorem childOfAwaited_join_waits : ∃ s : TaskSet Nat, s.started = [1, 0] ∧ s.joiner = .returned ∧
    (∀ id ∈ s.started, id ∈ s.finished) ∧ s.handles = [] ∧ s.pending = 0 := by
  let ends : TaskSet Nat → Nat → Prop := fun s id => id ∈ s.finished
  have hparent : Reached ends ((empty.start (.host 0) 0).enter (.host 0) 0) :=
    .tail (.single (.start empty (.host 0) 0 rfl rfl (by decide))) (.enter _ (.host 0) 0 rfl)
  have hwaits := (hparent.tail (.join _ rfl fun k => by simp [owes_enter, owes_start, empty])).tail (.take _ rfl)
  have hchild := (hwaits.tail (.start _ (.task 0) 1 (by simp [MayStart, start, enter, take, empty]) rfl (by decide))).tail
    (.enter _ (.task 0) 1 rfl)
  have hdone := hchild.tail (.finish _ 0 (by simp [MayStart, start, enter, take, empty]) rfl)
  have hsecond := ((hdone.tail (.await _ 0 [] rfl List.mem_cons_self)).tail (.again _ rfl)).tail (.take _ rfl)
  have hfinish := hsecond.tail (.finish _ 1 (by simp [MayStart, start, enter, take, finish, empty]) rfl)
  have hreturns := ((hfinish.tail (.await _ 1 [] rfl List.mem_cons_self)).tail (.again _ rfl)).tail (.take _ rfl)
  exact ⟨_, rfl, rfl, Reached.join_waits (fun _ _ hdone => hdone) hreturns rfl⟩

end

end TaskSet

end ScriptMachine
