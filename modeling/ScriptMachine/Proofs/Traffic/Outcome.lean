import ScriptMachine.Proofs.Traffic.Order
import ScriptMachine.Proofs.Traffic.Parties

/-!
# The outcome of a task

A task gets a channel with one slot, and whoever starts the task gets the same channel. Once the call of
the task is over, the task sends the outcome and then closes the channel. The channel is a value like any
other: its holders may pass it on, receive from it, send on it and close it, before and after that.

1. **Model**: `Traffic.Delivery` is a channel with its task among the parties. What the other parties may
   do is a parameter.
2. **The send of the outcome**: it waits exactly if a message of somebody else is in the slot.
3. **Nobody else sends**: then the slot is free for the outcome, and the outcome is what is received
   first (`Traffic.Delivery.Reached.outcome_arrives`). Somebody else's message may keep the task waiting and
   be received in place of the outcome (`Traffic.Delivery.preempted_not_delivered`).
-/

namespace ScriptMachine

namespace Traffic

variable {ι α : Type}

/-! ## Model -/

/-- What a party does to a channel. -/
inductive Deed where
  | send
  | receive
  | tryReceive
  | close
  /-- It takes up a call that it has begun. -/
  | wake
deriving DecidableEq

/-- How far a task has come with its outcome. -/
inductive Delivery.Phase (α : Type) where
  /-- The call of the task is not over. -/
  | working
  /-- The send of the outcome has begun. -/
  | sending (outcome : α)
  /-- The task has closed the channel. -/
  | done (outcome : α)

/-- The channel of a task in use by the parties `ι`. -/
structure Delivery (ι α : Type) where
  traffic : Traffic ι α
  phase : Delivery.Phase α

/-- The outcome, once the call of the task is over. -/
def Delivery.Phase.outcome? : Delivery.Phase α → Option α
  | .working => none
  | .sending a | .done a => some a

section

variable [DecidableEq ι]

/-- A step of party `p`. -/
inductive StepBy (p : ι) (t : Traffic ι α) : Deed → Traffic ι α → Prop where
  | send (a : α) : t.calls p = none → StepBy p t .send ((t.enter p a).attempt p t.begun a)
  | receive : t.calls p = none → StepBy p t .receive (t.receive p)
  | tryReceive : t.calls p = none → StepBy p t .tryReceive (t.tryReceive p)
  | close : t.calls p = none → StepBy p t .close (t.close p)
  | wake (call : Call α) : t.calls p = some call → StepBy p t .wake (t.resume p call)

/-- The call of the task is over: it begins to send the outcome. -/
def complete (t : Traffic ι α) (task : ι) (outcome : α) : Traffic ι α :=
  (t.enter task outcome).attempt task t.begun outcome

namespace Delivery

/-- A step of the task, or of another party that does one of `others`. -/
inductive Step (task : ι) (others : Deed → Prop) : Delivery ι α → Delivery ι α → Prop where
  | complete (t : Traffic ι α) (a : α) : Step task others ⟨t, .working⟩ ⟨t.complete task a, .sending a⟩
  | wake (t : Traffic ι α) (a : α) (call : Call α) : t.calls task = some call →
    Step task others ⟨t, .sending a⟩ ⟨t.resume task call, .sending a⟩
  | close (t : Traffic ι α) (a : α) : t.calls task = none →
    Step task others ⟨t, .sending a⟩ ⟨t.close task, .done a⟩
  | other (t t' : Traffic ι α) (phase : Phase α) (p : ι) (d : Deed) : p ≠ task → others d →
    StepBy p t d t' → Step task others ⟨t, phase⟩ ⟨t', phase⟩

/-- The channel has just been made for a task that begins. -/
def fresh : Delivery ι α := ⟨start (some 1), .working⟩

/-- The delivery can arise from a fresh one. -/
def Reached (task : ι) (others : Deed → Prop) (s : Delivery ι α) : Prop :=
  Relation.ReflTransGen (Step task others) fresh s

end Delivery

/-! ## Steps of single parties -/

variable {t t' : Traffic ι α} {p q : ι} {d : Deed} {a : α}

theorem StepBy.step (h : StepBy p t d t') : Step t t' := by
  cases h with
  | send a hp => exact .send t p a hp
  | receive hp => exact .receive t p hp
  | tryReceive hp => exact .tryReceive t p hp
  | close hp => exact .close t p hp
  | wake call hp => exact .wake t p call hp

/-- What a party does that sends nothing: it may take a message or wait for one, and no send is touched. -/
structure Passive (p : ι) (d : Deed) (t t' : Traffic ι α) : Prop where
  act : ∃ c call events, t' = t.act p c call events ∧ call.bind Call.send? = none ∧
    (∀ e ∈ events, e.send? = none) ∧ (d ≠ .close → .closed ∉ events)

theorem passive_receive : Passive p d t (t.receive p) := by
  unfold Traffic.receive
  split
  · exact ⟨_, none, _, rfl, rfl, by simp [Event.send?], by simp⟩
  · exact ⟨_, none, _, rfl, rfl, by simp [Event.send?], by simp⟩
  · exact ⟨_, some .receiving, _, rfl, rfl, by simp, by simp⟩

theorem StepBy.passive (h : StepBy p t d t') (hd : d ≠ .send) (hp : t.sending p = none) :
    Passive p d t t' := by
  cases h with
  | send a hidle => exact absurd rfl hd
  | receive hidle => exact passive_receive
  | tryReceive hidle =>
    unfold Traffic.tryReceive
    split
    · exact ⟨_, none, _, rfl, rfl, by simp [Event.send?], by simp⟩
    · refine ⟨t.channel, none, [], ?_, rfl, by simp, by simp⟩
      have hcalls : Function.update t.calls p none = t.calls := by
        rw [← hidle, Function.update_eq_self]
      simp only [act, hcalls, List.append_nil]
  | close hidle => exact ⟨_, none, _, rfl, rfl, by simp [Event.send?], fun hd => absurd rfl hd⟩
  | wake call hcall =>
    cases call with
    | receiving => exact passive_receive
    | entering k a | offered k a ticket => simp [sending, hcall, Call.send?] at hp

/-- A party has its own calls only. -/
theorem StepBy.calls_of_ne (h : StepBy p t d t') (hne : q ≠ p) : t'.calls q = t.calls q := by
  have hact : ∀ (u : Traffic ι α) c call events, (u.act p c call events).calls q = u.calls q :=
    fun u c call events => Function.update_of_ne hne ..
  have hattempt : ∀ (u : Traffic ι α) k a, (u.attempt p k a).calls q = u.calls q := by
    intro u k a
    unfold Traffic.attempt
    split <;> exact hact ..
  have hreceive : (t.receive p).calls q = t.calls q := by
    unfold Traffic.receive
    split <;> exact hact ..
  cases h with
  | send a hidle => exact (hattempt ..).trans (hact t t.channel (some (.entering t.begun a)) [.began t.begun a])
  | receive hidle => exact hreceive
  | tryReceive hidle =>
    unfold Traffic.tryReceive
    split
    · exact hact ..
    · rfl
  | close hidle => exact hact ..
  | wake call hcall =>
    cases call with
    | entering k a => exact hattempt ..
    | offered k a ticket =>
      show (t.release p k ticket).calls q = _
      unfold Traffic.release
      split
      · exact hact ..
      · rfl
    | receiving => exact hreceive

/-! ## The send of the outcome -/

/-- On a channel with one slot a send has to wait exactly if there is a message in the slot. -/
theorem attempt_waits_iff (hcap : t.channel.capacity = some 1) (k : Nat) :
    (t.attempt p k a).calls p ≠ none ↔ t.channel.closed = false ∧ t.channel.buffer ≠ [] := by
  have hcalls : ∀ c call events, (t.act p c call events).calls p = call :=
    fun c call events => Function.update_self ..
  have hfull : 1 ≤ t.channel.length ↔ t.channel.buffer ≠ [] := by
    unfold Channel.length
    rw [Nat.succ_le_iff, List.length_pos_iff]
  unfold attempt Channel.send
  cases hclosed : t.channel.closed with
  | true => simp [hcalls]
  | false =>
    rw [hcap, if_neg Bool.false_ne_true]
    by_cases hle : 1 ≤ t.channel.length
    · simp [hle, hcalls, hfull.mp hle]
    · simp [hle, hcalls, mt hfull.mpr hle]

/-- A send into a free slot is over at once. -/
theorem complete_of_empty (hcap : t.channel.capacity = some 1) (hempty : t.channel.buffer = []) :
    t.complete p a = if t.channel.closed then
        (t.enter p a).act p t.channel none [.returned t.begun false]
      else (t.enter p a).act p (t.channel.enqueue a) none [.enqueued t.begun a, .returned t.begun true] := by
  have hlength : ¬ 1 ≤ t.channel.length := by simp [Channel.length, hempty]
  unfold complete attempt Channel.send
  rw [show (t.enter p a).channel = t.channel from rfl, hcap]
  cases hclosed : t.channel.closed with
  | true => rfl
  | false =>
    rw [if_neg Bool.false_ne_true, if_neg Bool.false_ne_true]
    simp only [hlength, if_false]

/-! ## Runs -/

theorem enqueued_eq_nil {events : List (Event α)} (h : ∀ e ∈ events, e.send? = none) :
    enqueued events = [] := by
  rw [enqueued, List.filterMap_eq_nil_iff]
  intro e he
  have hsend := h e he
  cases e with
  | enqueued k a => cases hsend
  | _ => rfl

namespace Delivery

variable {task : ι} {others : Deed → Prop} {s s' : Delivery ι α}

/-- The traffic is sound, and a task at work does not use the channel. -/
structure Regular (task : ι) (s : Delivery ι α) : Prop where
  sound : Sound (some 1) s.traffic
  idle : s.phase.outcome? = none → s.traffic.calls task = none

theorem Regular.step (hr : Regular task s) (h : Step task others s s') : Regular task s' := by
  cases h with
  | complete t a => exact ⟨hr.sound.step (.send t task a (hr.idle rfl)), fun h => by cases h⟩
  | wake t a call hcall => exact ⟨hr.sound.step (.wake t task call hcall), fun h => by cases h⟩
  | close t a hidle => exact ⟨hr.sound.step (.close t task hidle), fun h => by cases h⟩
  | other t t' phase p d hne hd hstep =>
    exact ⟨hr.sound.step hstep.step, fun h => (hstep.calls_of_ne hne.symm).trans (hr.idle h)⟩

/-- No send is in progress, nothing but the outcome was enqueued, and the task closes the channel at its
end, unless a party has done so before that may. -/
structure Alone (task : ι) (others : Deed → Prop) (s : Delivery ι α) : Prop where
  quiet : ∀ p, s.traffic.sending p = none
  idle : s.traffic.calls task = none
  closed : .closed ∈ s.traffic.history → others .close ∨ ∃ a, s.phase = .done a
  ended : ∀ a, s.phase = .done a → .closed ∈ s.traffic.history
  enqueued : enqueued s.traffic.history = s.phase.outcome?.toList ∨
    others .close ∧ enqueued s.traffic.history = []

omit [DecidableEq ι] in
theorem Alone.enqueued_eq_nil (ha : Alone task others s) (hphase : s.phase.outcome? = none) :
    Traffic.enqueued s.traffic.history = [] := by
  rcases ha.enqueued with h | ⟨-, h⟩
  · rwa [hphase] at h
  · exact h

omit [DecidableEq ι] in
theorem Alone.buffer_eq_nil (ha : Alone task others s) (hr : Regular task s)
    (hphase : s.phase.outcome? = none) : s.traffic.channel.buffer = [] := by
  have hnothing := ha.enqueued_eq_nil hphase
  rw [hr.sound.queued.queue] at hnothing
  exact (List.append_eq_nil_iff.mp hnothing).2

/-- Nobody sends after the step of a party that does not send. -/
theorem quiet_act {c : Channel α} {call : Option (Call α)} {events : List (Event α)}
    (hquiet : ∀ q, q ≠ p → t.sending q = none) (hcall : call.bind Call.send? = none) (q : ι) :
    (t.act p c call events).sending q = none := by
  by_cases hne : q = p
  · subst hne
    exact sending_act_self.trans hcall
  · exact (sending_act_of_ne hne).trans (hquiet q hne)

/-- The send of the outcome is over at once. -/
theorem Alone.complete (ha : Alone task others ⟨t, .working⟩) (hr : Regular task ⟨t, .working⟩) (a : α) :
    Alone task others ⟨t.complete task a, .sending a⟩ := by
  have hbegan : Traffic.enqueued (t.history ++ [.began t.begun a]) = [] := by
    rw [enqueued_append, ha.enqueued_eq_nil rfl]
    rfl
  have hquiet : ∀ q, q ≠ task → (t.enter task a).sending q = none := by
    intro q hne
    have hkept : (t.enter task a).calls q = t.calls q := Function.update_of_ne hne ..
    unfold sending
    rw [hkept]
    exact ha.quiet q
  have hclosers : .closed ∈ t.history → others .close := by
    intro hmem
    rcases ha.closed hmem with h | ⟨b, hb⟩
    · exact h
    · cases hb
  rw [complete_of_empty hr.sound.queued.kind (ha.buffer_eq_nil hr rfl)]
  cases hclosed : t.channel.closed with
  | true =>
    have hmay : others .close := hclosers (hr.sound.queued.closed.mp hclosed)
    refine ⟨quiet_act hquiet rfl, Function.update_self .., fun _ => .inl hmay,
      fun _ hdone => (by cases hdone), .inr ⟨hmay, ?_⟩⟩
    show Traffic.enqueued (t.history ++ [.began t.begun a] ++ [.returned t.begun false]) = []
    rw [enqueued_append, hbegan]
    rfl
  | false =>
    refine ⟨quiet_act hquiet rfl, Function.update_self .., ?_, fun _ hdone => (by cases hdone), .inl ?_⟩
    · intro hmem
      have hbefore : .closed ∈ t.history := by simpa [Traffic.act, enter] using hmem
      exact .inl (hclosers hbefore)
    · show Traffic.enqueued (t.history ++ [.began t.begun a] ++
        [.enqueued t.begun a, .returned t.begun true]) = [a]
      rw [enqueued_append, hbegan]
      rfl

/-- What is not a send adds nothing to the queue. -/
theorem Alone.act {phase phase' : Phase α} {c : Channel α} {call : Option (Call α)} {events : List (Event α)}
    (ha : Alone task others ⟨t, phase⟩) (houtcome : phase'.outcome? = phase.outcome?)
    (hcall : call.bind Call.send? = none) (hevents : ∀ e ∈ events, e.send? = none)
    (hidle : (t.act p c call events).calls task = none)
    (hclosed : .closed ∈ t.history ++ events → others .close ∨ ∃ a, phase' = .done a)
    (hended : ∀ a, phase' = .done a → .closed ∈ t.history ++ events) :
    Alone task others ⟨t.act p c call events, phase'⟩ := by
  have hsame : Traffic.enqueued (t.history ++ events) = Traffic.enqueued t.history := by
    rw [enqueued_append, Traffic.enqueued_eq_nil hevents, List.append_nil]
  refine ⟨quiet_act (fun q _ => ha.quiet q) hcall, hidle, hclosed, hended, ?_⟩
  show Traffic.enqueued (t.history ++ events) = phase'.outcome?.toList ∨
    others .close ∧ Traffic.enqueued (t.history ++ events) = []
  rw [hsame, houtcome]
  exact ha.enqueued

theorem Alone.step (ha : Alone task others s) (hr : Regular task s) (h : Step task others s s')
    (hsend : ¬ others .send) : Alone task others s' := by
  cases h with
  | complete t a => exact ha.complete hr a
  | wake t a call hcall =>
    have hidle : t.calls task = none := ha.idle
    rw [hidle] at hcall
    cases hcall
  | close t a hidle =>
    exact ha.act rfl rfl (by simp [Event.send?]) (Function.update_self ..) (fun _ => .inr ⟨a, rfl⟩) (by simp)
  | other t t' phase p d hne hd hstep =>
    have hnosend : d ≠ .send := by
      rintro rfl
      exact hsend hd
    have hidle : t'.calls task = none := (hstep.calls_of_ne hne.symm).trans ha.idle
    obtain ⟨c, call, events, rfl, hcall, hevents, hclosing⟩ := (hstep.passive hnosend (ha.quiet p)).act
    refine ha.act rfl hcall hevents hidle (fun hmem => ?_)
      fun a hdone => List.mem_append_left _ (ha.ended a hdone)
    rcases List.mem_append.mp hmem with hmem | hmem
    · exact ha.closed hmem
    · by_cases hdeed : d = .close
      · exact .inl (hdeed ▸ hd)
      · exact absurd hmem (hclosing hdeed)

theorem Reached.regular (h : Reached task others s) : Regular task s := by
  induction h with
  | refl => exact ⟨sound_start _, fun _ => rfl⟩
  | tail _ hstep ih => exact ih.step hstep

theorem Reached.alone (h : Reached task others s) (hsend : ¬ others .send) : Alone task others s := by
  induction h with
  | refl => exact ⟨fun _ => rfl, rfl, by simp [fresh, start], by simp [fresh], .inl rfl⟩
  | tail hreached hstep ih => exact ih.step (Reached.regular hreached) hstep hsend

end Delivery

/-! ## Tasks as parties -/

/-- A task that delivers makes an attempt to send, and closes the channel if it does not have to wait. -/
theorem deliver_eq {t : Traffic ι Value} {w : World} {τ : Task}
    (hchannel : w.heap.channel τ.result = t.channel) (hcap : t.channel.capacity = some 1) (p : ι) (k : Nat)
    (v : Value) :
    τ.deliver w v =
      if (t.attempt p k v).calls p = none then
        ({ τ with phase := .done },
          { w with heap := w.heap.setChannel τ.result ((t.attempt p k v).close p).channel })
      else ({ τ with phase := .delivering v }, w) := by
  have hsends := attempt_send t.channel v
  unfold Task.deliver attempt
  rw [hchannel]
  generalize t.channel.send v = outcome at hsends
  cases hsends with
  | refused hclosed => simp [act, close, Heap.closeChannel_setChannel]
  | full hopen => simp [act]
  | sent hopen hne hroom => simp [act, close, Heap.closeChannel_setChannel]
  | offered hopen hzero =>
    rw [hcap] at hzero
    cases hzero

namespace Delivery

variable {others : Deed → Prop} {task : ι} {s : Delivery ι Value}

/-- What becomes of the outcome of a task. A task whose call is over has to wait exactly if there is a
message in the slot of its open channel. If nobody else sends on the channel, the slot is free, so the task
is done at once. If nobody else closes the channel either, nothing is received before the outcome, then
the outcome is, and after that every receiver is told that nothing will come any more. -/
theorem Reached.outcome_arrives (h : Reached task others s) :
    (s.phase = .working → ∀ (τ : Task) (w : World) (m : Machine) (r : Except Abort Value),
      w.heap.channel τ.result = s.traffic.channel →
      τ.settle (.ended r, ⟨w, m⟩) =
        if s.traffic.channel.closed = false ∧ s.traffic.channel.buffer ≠ [] then
          ({ τ with machine := m, phase := .delivering (Task.outcome w.heap r) }, w)
        else
          ({ τ with machine := m, phase := .done },
            { w with heap :=
                w.heap.setChannel τ.result ((s.traffic.complete task (Task.outcome w.heap r)).close task).channel })) ∧
    (¬ others .send → s.phase = .working → s.traffic.channel.buffer = []) ∧
    (¬ others .send → ¬ others .close →
      (s.phase = .working → taken s.traffic.history = []) ∧
      ∀ v, s.phase.outcome? = some v →
        (taken s.traffic.history = [] → ∀ p,
          (s.traffic.receive p).history = s.traffic.history ++ [.taken v] ∧
          (s.traffic.tryReceive p).history = s.traffic.history ++ [.taken v]) ∧
        (taken s.traffic.history ≠ [] → taken s.traffic.history = [v]) ∧
        (taken s.traffic.history ≠ [] → s.phase = .done v → ∀ p,
          (s.traffic.receive p).history = s.traffic.history ++ [.drained] ∧
          s.traffic.tryReceive p = s.traffic)) := by
  have hr := h.regular
  refine ⟨?_, ?_, ?_⟩
  · intro hphase τ w m r hchannel
    have hcap : s.traffic.channel.capacity = some 1 := hr.sound.queued.kind
    have hdeliver := deliver_eq (t := s.traffic.enter task (Task.outcome w.heap r))
      (τ := { τ with machine := m }) hchannel hcap task s.traffic.begun (Task.outcome w.heap r)
    have hwaits := attempt_waits_iff (t := s.traffic.enter task (Task.outcome w.heap r)) (p := task)
      (a := Task.outcome w.heap r) hcap s.traffic.begun
    show Task.deliver w { τ with machine := m } _ = _
    rw [hdeliver]
    by_cases hfull : s.traffic.channel.closed = false ∧ s.traffic.channel.buffer ≠ []
    · rw [if_pos hfull, if_neg (hwaits.mpr hfull)]
    · rw [if_neg hfull, if_pos (not_not.mp (mt hwaits.mp hfull))]
      rfl
  · intro hsend hphase
    refine (h.alone hsend).buffer_eq_nil hr ?_
    rw [hphase]
    rfl
  · intro hsend hclose
    have ha := h.alone hsend
    have hqueue := hr.sound.queued.queue
    refine ⟨?_, ?_⟩
    · intro hphase
      rw [ha.enqueued_eq_nil (by rw [hphase]; rfl)] at hqueue
      exact (List.append_eq_nil_iff.mp hqueue.symm).1
    · intro v hv
      have henqueued : enqueued s.traffic.history = [v] := by
        rcases ha.enqueued with heq | ⟨hmay, -⟩
        · rw [heq, hv]
          rfl
        · exact absurd hmay hclose
      rw [henqueued] at hqueue
      have hone : taken s.traffic.history ≠ [] →
          taken s.traffic.history = [v] ∧ s.traffic.channel.buffer = [] := by
        intro hsome
        rcases List.append_eq_singleton_iff.mp hqueue.symm with ⟨hnone, -⟩ | hone
        · exact absurd hnone hsome
        · exact hone
      refine ⟨?_, fun hsome => (hone hsome).1, ?_⟩
      · intro hnone p
        have hbuffer : s.traffic.channel.buffer = [v] := by rw [hqueue, hnone, List.nil_append]
        constructor
        · simp [Traffic.receive, Channel.recv, Channel.dequeue?, hbuffer, Traffic.act]
        · simp [Traffic.tryReceive, Channel.dequeue?, hbuffer, Traffic.act]
      · intro hsome hdone p
        have hbuffer := (hone hsome).2
        have hclosed : s.traffic.channel.closed = true := hr.sound.queued.closed.mpr (ha.ended v hdone)
        constructor
        · simp [Traffic.receive, Channel.recv, Channel.dequeue?, hbuffer, hclosed, Traffic.act]
        · simp [Traffic.tryReceive, Channel.dequeue?, hbuffer]

/-- A party receives, the task completes and closes the channel, and the party has the outcome. -/
def answered : Delivery Bool Value :=
  let completed := ((start (some 1)).receive false).complete true (.int 1)
  ⟨(completed.resume false .receiving).close true, .done (.int 1)⟩

theorem answered_reached : Reached true (fun d => d = .receive ∨ d = .wake) answered := by
  have hstart : Reached true (fun d => d = .receive ∨ d = .wake) (fresh : Delivery Bool Value) := .refl
  have hreceive := hstart.tail (.other _ _ _ false .receive Bool.false_ne_true (.inl rfl) (.receive rfl))
  have hcomplete := hreceive.tail (.complete _ (.int 1))
  have hwake := hcomplete.tail (.other _ _ _ false .wake Bool.false_ne_true (.inr rfl) (.wake .receiving rfl))
  exact hwake.tail (.close _ _ rfl)

theorem answered_outcome_arrives : Reached true (fun d => d = .receive ∨ d = .wake) answered ∧
    taken answered.traffic.history = [.int 1] ∧
    (answered.traffic.receive false).history = answered.traffic.history ++ [.drained] := by
  obtain ⟨-, -, hlone⟩ := Reached.outcome_arrives answered_reached
  obtain ⟨-, houtcome⟩ := hlone (by decide) (by decide)
  obtain ⟨-, -, hdrained⟩ := houtcome (.int 1) rfl
  exact ⟨answered_reached, rfl, (hdrained (List.cons_ne_nil _ _) rfl false).1⟩

/-- A party sends on the channel before the task completes. -/
def preempted : Delivery Bool Value :=
  let sent := ((start (some 1)).enter false (.int 5)).attempt false 0 (.int 5)
  ⟨sent.complete true (.int 1), .sending (.int 1)⟩

theorem preempted_reached : Reached true (fun d => d = .send) preempted := by
  have hstart : Reached true (fun d => d = .send) (fresh : Delivery Bool Value) := .refl
  have hsend := hstart.tail (.other _ _ _ false .send Bool.false_ne_true rfl (.send (.int 5) rfl))
  exact hsend.tail (.complete _ (Value.int 1))

/-- The task has to wait with its outcome, and the message of the other party is received first. -/
theorem preempted_not_delivered : Reached true (fun d => d = .send) preempted ∧
    preempted.phase = .sending (.int 1) ∧ preempted.traffic.calls true = some (.entering 1 (.int 1)) ∧
    taken (preempted.traffic.receive false).history = [.int 5] :=
  ⟨preempted_reached, rfl, rfl, rfl⟩

end Delivery

end

end Traffic

end ScriptMachine
