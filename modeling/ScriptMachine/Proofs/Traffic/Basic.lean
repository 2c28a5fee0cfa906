import Mathlib.Data.List.Infix
import Mathlib.Logic.Function.Basic
import Mathlib.Logic.Relation
import ScriptMachine.Channel

/-!
# Traffic on a channel

Any number of parties use one channel: they send, receive, look for a message without waiting, and
close. A step of the traffic is what one party does to the channel at once. A call that has to wait is
taken up again whenever its party wakes, and a party may wake at any time, so every order of the steps
is covered.

1. **Model**: `Traffic` is the channel with the calls in progress and a history of what happened;
   `Traffic.Step` is a step of one party.
2. **Histories**: `Traffic.Lawful` says of every event what has happened before it.
3. **The queue**: `Traffic.Queued`, the queue holds what was enqueued and not taken yet.
4. **The calls**: `Traffic.Booked`, the history tells of every send what its party knows.
-/

namespace ScriptMachine

/-! ## Model -/

/-- What happens on a channel. Sends are numbered in the order in which they are begun. -/
inductive Traffic.Event (α : Type) where
  /-- Send number `k` begins, with message `a`. -/
  | began (k : Nat) (a : α)
  /-- The message of send number `k` is put at the end of the queue. -/
  | enqueued (k : Nat) (a : α)
  /-- Send number `k` reports success, or that the channel is closed. -/
  | returned (k : Nat) (success : Bool)
  /-- The oldest message is handed to a receiver. -/
  | taken (a : α)
  /-- A receiver is told that nothing will come any more. -/
  | drained
  | closed
deriving DecidableEq

/-- A call in progress. -/
inductive Traffic.Call (α : Type) where
  /-- Send number `k` has not put its message into the queue yet. -/
  | entering (k : Nat) (a : α)
  /-- Send number `k` has enqueued its message as number `ticket`, which has to be taken first. -/
  | offered (k : Nat) (a : α) (ticket : Nat)
  | receiving
deriving DecidableEq

/-- A channel in use by the parties `ι`. -/
structure Traffic (ι α : Type) where
  channel : Channel α
  /-- The call that each party has begun and not finished. -/
  calls : ι → Option (Traffic.Call α)
  /-- Number of sends begun so far. -/
  begun : Nat
  /-- What has happened, oldest first. -/
  history : List (Traffic.Event α)

namespace Traffic

variable {ι α : Type}

/-- The send that is in progress. -/
def Call.send? : Call α → Option Nat
  | .entering k _ | .offered k _ _ => some k
  | .receiving => none

/-- A fresh channel that nobody uses yet. -/
def start (capacity : Option Nat) : Traffic ι α := ⟨.new capacity, fun _ => none, 0, []⟩

section

variable [DecidableEq ι]

/-- The channel is changed by party `p`, whose call is `call` from then on. -/
def act (t : Traffic ι α) (p : ι) (channel : Channel α) (call : Option (Call α))
    (events : List (Event α)) : Traffic ι α :=
  { t with channel, calls := Function.update t.calls p call, history := t.history ++ events }

/-- Begin a send. -/
def enter (t : Traffic ι α) (p : ι) (a : α) : Traffic ι α :=
  { t.act p t.channel (some (.entering t.begun a)) [.began t.begun a] with begun := t.begun + 1 }

/-- Try to put the message of a send into the queue. -/
def attempt (t : Traffic ι α) (p : ι) (k : Nat) (a : α) : Traffic ι α :=
  match t.channel.send a with
  | (.refused, c) => t.act p c none [.returned k false]
  | (.full, c) => t.act p c (some (.entering k a)) []
  | (.sent, c) => t.act p c none [.enqueued k a, .returned k true]
  | (.offered ticket, c) => t.act p c (some (.offered k a ticket)) [.enqueued k a]

/-- End a send whose message was taken, or whose channel was closed. -/
def release (t : Traffic ι α) (p : ι) (k ticket : Nat) : Traffic ι α :=
  if t.channel.released ticket then t.act p t.channel none [.returned k true] else t

/-- Try to receive. -/
def receive (t : Traffic ι α) (p : ι) : Traffic ι α :=
  match t.channel.recv with
  | (.received a, c) => t.act p c none [.taken a]
  | (.drained, c) => t.act p c none [.drained]
  | (.wait, c) => t.act p c (some .receiving) []

/-- Take a message if there is one. -/
def tryReceive (t : Traffic ι α) (p : ι) : Traffic ι α :=
  match t.channel.dequeue? with
  | some (a, c) => t.act p c none [.taken a]
  | none => t

/-- Close the channel. -/
def close (t : Traffic ι α) (p : ι) : Traffic ι α := t.act p t.channel.close none [.closed]

/-- Take a call up again. -/
def resume (t : Traffic ι α) (p : ι) : Call α → Traffic ι α
  | .entering k a => t.attempt p k a
  | .offered k _ ticket => t.release p k ticket
  | .receiving => t.receive p

/-- A step of one party. -/
inductive Step : Traffic ι α → Traffic ι α → Prop where
  | send (t : Traffic ι α) (p : ι) (a : α) : t.calls p = none →
    Step t ((t.enter p a).attempt p t.begun a)
  | receive (t : Traffic ι α) (p : ι) : t.calls p = none → Step t (t.receive p)
  | tryReceive (t : Traffic ι α) (p : ι) : t.calls p = none → Step t (t.tryReceive p)
  | close (t : Traffic ι α) (p : ι) : t.calls p = none → Step t (t.close p)
  | wake (t : Traffic ι α) (p : ι) (call : Call α) : t.calls p = some call → Step t (t.resume p call)

/-- The traffic can arise on a fresh channel. -/
def Reached (capacity : Option Nat) (t : Traffic ι α) : Prop :=
  Relation.ReflTransGen Step (start capacity) t

end

/-! ## Histories -/

/-- The message that is enqueued. -/
def Event.enqueued? : Event α → Option α
  | .enqueued _ a => some a
  | _ => none

/-- The message that is taken. -/
def Event.taken? : Event α → Option α
  | .taken a => some a
  | _ => none

/-- The send that an event belongs to. -/
def Event.send? : Event α → Option Nat
  | .began k _ | .enqueued k _ | .returned k _ => some k
  | _ => none

/-- The messages that were enqueued, oldest first. -/
def enqueued (h : List (Event α)) : List α := h.filterMap Event.enqueued?

/-- The messages that were taken, oldest first. -/
def taken (h : List (Event α)) : List α := h.filterMap Event.taken?

/-- What happened to one send. -/
def story (k : Nat) (h : List (Event α)) : List (Event α) := h.filter fun e => e.send? == some k

/-- The message of send number `k` has been taken: no fewer messages were taken than had been enqueued
up to this one. -/
def Delivered (k : Nat) (h : List (Event α)) : Prop :=
  ∃ a u v, h = u ++ .enqueued k a :: v ∧ (enqueued u).length < (taken h).length

/-- What has happened before an event, on a channel of the given capacity. -/
def Allowed (capacity : Option Nat) (h : List (Event α)) : Event α → Prop
  | .enqueued _ _ => .closed ∉ h
  | .drained => .closed ∈ h ∧ taken h = enqueued h
  | .returned _ false => .closed ∈ h
  | .returned k true => capacity = some 0 → Delivered k h ∨ .closed ∈ h
  | _ => True

/-- Every event of a history is allowed after what precedes it. -/
def Lawful (capacity : Option Nat) (h : List (Event α)) : Prop :=
  ∀ u e v, h = u ++ e :: v → Allowed capacity u e

section

variable {capacity : Option Nat} {h : List (Event α)} {k : Nat} {a : α}

@[simp] theorem enqueued_append (h h' : List (Event α)) :
    enqueued (h ++ h') = enqueued h ++ enqueued h' := List.filterMap_append

@[simp] theorem taken_append (h h' : List (Event α)) : taken (h ++ h') = taken h ++ taken h' :=
  List.filterMap_append

@[simp] theorem story_append (k : Nat) (h h' : List (Event α)) :
    story k (h ++ h') = story k h ++ story k h' := List.filter_append ..

theorem lawful_nil : Lawful capacity ([] : List (Event α)) := by
  intro u e v heq
  simp at heq

/-- One more event that is allowed. -/
theorem Lawful.note {e : Event α} (hl : Lawful capacity h) (he : Allowed capacity h e) :
    Lawful capacity (h ++ [e]) := by
  intro u x v heq
  rcases v.eq_nil_or_concat with rfl | ⟨v, y, rfl⟩
  · obtain ⟨rfl, hlast⟩ := List.append_inj' heq rfl
    cases hlast
    exact he
  · have heq' : h ++ [e] = (u ++ x :: v) ++ [y] := by simpa using heq
    exact hl u x v (List.append_inj' heq' rfl).1

/-- Nothing is enqueued after the channel was closed. -/
theorem Lawful.enqueued_eq_nil {u v : List (Event α)} (hl : Lawful capacity (u ++ .closed :: v)) :
    enqueued v = [] := by
  rw [enqueued, List.filterMap_eq_nil_iff]
  intro e he
  cases e with
  | enqueued k a =>
    obtain ⟨v, w, rfl⟩ := List.append_of_mem he
    have hopen : .closed ∉ u ++ .closed :: v := hl _ (.enqueued k a) w (by simp)
    simp at hopen
  | _ => rfl

end

/-! ## The queue -/

/-- The queue holds what was enqueued and not taken yet. -/
structure Queued (capacity : Option Nat) (c : Channel α) (h : List (Event α)) : Prop where
  kind : c.capacity = capacity
  queue : enqueued h = taken h ++ c.buffer
  sent : c.sent = (enqueued h).length
  received : c.received = (taken h).length
  closed : c.closed = true ↔ .closed ∈ h
  room : ∀ n, capacity = some (n + 1) → c.length ≤ n + 1
  lawful : Lawful capacity h

namespace Queued

variable {capacity : Option Nat} {c c' : Channel α} {h : List (Event α)} {k : Nat} {a : α}

theorem new (capacity : Option Nat) : Queued capacity (.new capacity) ([] : List (Event α)) where
  kind := rfl
  queue := rfl
  sent := rfl
  received := rfl
  closed := by simp [Channel.new]
  room := by simp [Channel.new, Channel.length]
  lawful := lawful_nil

theorem length_eq (hq : Queued capacity c h) : c.sent = c.received + c.length := by
  rw [hq.sent, hq.received, hq.queue, List.length_append]
  rfl

theorem not_mem_closed (hq : Queued capacity c h) (hopen : c.closed = false) : .closed ∉ h := by
  intro hmem
  have hclosed := hq.closed.mpr hmem
  rw [hopen] at hclosed
  cases hclosed

/-- An event that leaves the channel as it is. -/
theorem idle {e : Event α} (hq : Queued capacity c h) (he : Allowed capacity h e)
    (hin : e.enqueued? = none) (hout : e.taken? = none) (hclose : e ≠ .closed) :
    Queued capacity c (h ++ [e]) := by
  have henqueued : enqueued (h ++ [e]) = enqueued h := by simp [enqueued, hin]
  have htaken : taken (h ++ [e]) = taken h := by simp [taken, hout]
  refine ⟨hq.kind, ?_, ?_, ?_, ?_, hq.room, hq.lawful.note he⟩
  · rw [henqueued, htaken]
    exact hq.queue
  · rw [henqueued]
    exact hq.sent
  · rw [htaken]
    exact hq.received
  · rw [hq.closed]
    constructor
    · exact fun hmem => List.mem_append_left _ hmem
    · intro hmem
      rcases List.mem_append.mp hmem with hmem | hmem
      · exact hmem
      · exact absurd (List.mem_singleton.mp hmem).symm hclose

/-- A message enters the queue of an open channel. -/
theorem enqueue (hq : Queued capacity c h) (hopen : c.closed = false)
    (hroom : ∀ n, capacity = some (n + 1) → c.length < n + 1) (k : Nat) (a : α) :
    Queued capacity (c.enqueue a) (h ++ [.enqueued k a]) := by
  have henqueued : enqueued (h ++ [.enqueued k a]) = enqueued h ++ [a] := by simp [enqueued, Event.enqueued?]
  have htaken : taken (h ++ [.enqueued k a]) = taken h := by simp [taken, Event.taken?]
  have hclosed : .closed ∈ h ++ [.enqueued k a] ↔ .closed ∈ h := by simp
  refine ⟨hq.kind, ?_, ?_, ?_, hq.closed.trans hclosed.symm, ?_, hq.lawful.note (hq.not_mem_closed hopen)⟩
  · rw [henqueued, htaken, hq.queue, List.append_assoc]
    rfl
  · rw [henqueued, List.length_append, ← hq.sent]
    rfl
  · rw [htaken]
    exact hq.received
  · intro n hn
    rw [Channel.length_enqueue]
    exact hroom n hn

/-- The oldest message leaves the queue. -/
theorem dequeue (hq : Queued capacity c h) (htake : c.dequeue? = some (a, c')) :
    Queued capacity c' (h ++ [.taken a]) := by
  unfold Channel.dequeue? at htake
  cases hbuffer : c.buffer with
  | nil =>
    rw [hbuffer] at htake
    cases htake
  | cons b rest =>
    rw [hbuffer] at htake
    cases htake
    have henqueued : enqueued (h ++ [.taken a]) = enqueued h := by simp [enqueued, Event.enqueued?]
    have htaken : taken (h ++ [.taken a]) = taken h ++ [a] := by simp [taken, Event.taken?]
    have hclosed : .closed ∈ h ++ [.taken a] ↔ .closed ∈ h := by simp
    refine ⟨hq.kind, ?_, ?_, ?_, hq.closed.trans hclosed.symm, ?_, hq.lawful.note trivial⟩
    · rw [henqueued, htaken, hq.queue, hbuffer, List.append_assoc]
      rfl
    · rw [henqueued]
      exact hq.sent
    · rw [htaken, List.length_append, ← hq.received]
      rfl
    · intro n hn
      have hlength := hq.room n hn
      unfold Channel.length at hlength ⊢
      rw [hbuffer, List.length_cons] at hlength
      exact Nat.le_of_succ_le hlength

theorem close (hq : Queued capacity c h) : Queued capacity c.close (h ++ [.closed]) := by
  have henqueued : enqueued (h ++ [.closed]) = enqueued h := by simp [enqueued, Event.enqueued?]
  have htaken : taken (h ++ [.closed]) = taken h := by simp [taken, Event.taken?]
  refine ⟨hq.kind, ?_, ?_, ?_, ?_, hq.room, hq.lawful.note trivial⟩
  · rw [henqueued, htaken]
    exact hq.queue
  · rw [henqueued]
    exact hq.sent
  · rw [htaken]
    exact hq.received
  · simp [Channel.close]

/-- An empty queue was enqueued and taken as a whole. -/
theorem drained (hq : Queued capacity c h) (htake : c.dequeue? = none) : taken h = enqueued h := by
  rw [hq.queue, Channel.dequeue?_eq_none_iff.mp htake, List.append_nil]

/-- The sender of a message may go on once more messages were taken than stood before it, or once the
channel was closed. -/
theorem released (hq : Queued capacity c h) (n : Nat) :
    c.released (n + 1) = true ↔ n < (taken h).length ∨ .closed ∈ h := by
  unfold Channel.released
  rw [Bool.or_eq_true, decide_eq_true_eq, hq.received, hq.closed]
  rfl

end Queued

/-! ## The calls -/

/-- Send number `k` is over: it was refused and enqueued nothing, or it succeeded and enqueued its own
message once. -/
def Finished (k : Nat) (h : List (Event α)) : Prop :=
  ∃ a, story k h = [.began k a, .returned k false] ∨
    story k h = [.began k a, .enqueued k a, .returned k true]

/-- What is known of a call in progress. -/
def Call.Fits (begun : Nat) (h : List (Event α)) : Call α → Prop
  | .entering k a => k < begun ∧ story k h = [.began k a]
  | .offered k a ticket => k < begun ∧ story k h = [.began k a, .enqueued k a] ∧
    ∃ u v, h = u ++ .enqueued k a :: v ∧ ticket = (enqueued u).length + 1
  | .receiving => True

/-- The send that a party has in progress. -/
def sending (t : Traffic ι α) (p : ι) : Option Nat := (t.calls p).bind Call.send?

/-- The history tells of every send what its party knows. -/
structure Booked (t : Traffic ι α) : Prop where
  fits : ∀ p call, t.calls p = some call → call.Fits t.begun t.history
  distinct : ∀ p q k, t.sending p = some k → t.sending q = some k → p = q
  fresh : ∀ k, t.begun ≤ k → story k t.history = []
  told : ∀ k < t.begun, (∃ p, t.sending p = some k) ∨ Finished k t.history

theorem Booked.begun_of_sending {t : Traffic ι α} {p : ι} {k : Nat} (hb : t.Booked)
    (hk : t.sending p = some k) : k < t.begun := by
  unfold sending at hk
  obtain ⟨call, hcall, hsend⟩ := Option.bind_eq_some_iff.mp hk
  have hfits := hb.fits p call hcall
  cases call with
  | entering => cases hsend; exact hfits.1
  | offered => cases hsend; exact hfits.1
  | receiving => cases hsend

section

variable [DecidableEq ι] {t : Traffic ι α} {p q : ι} {c : Channel α} {call : Option (Call α)}
  {events : List (Event α)} {k : Nat} {a : α}

theorem sending_act_self : (t.act p c call events).sending p = call.bind Call.send? := by
  simp [sending, act]

theorem sending_act_of_ne (hne : q ≠ p) : (t.act p c call events).sending q = t.sending q := by
  simp [sending, act, hne]

theorem story_eq_nil (h : ∀ e ∈ events, e.send? ≠ some k) : story k events = [] := by
  rw [story, List.filter_eq_nil_iff]
  intro e he
  simpa using h e he

/-- What happens to other sends does not concern a call. -/
theorem Call.Fits.append {m n : Nat} {h : List (Event α)} {call : Call α} (hfits : call.Fits m h)
    (hle : m ≤ n) (hothers : ∀ k, call.send? = some k → story k events = []) :
    call.Fits n (h ++ events) := by
  cases call with
  | entering k a =>
    refine ⟨Nat.lt_of_lt_of_le hfits.1 hle, ?_⟩
    rw [story_append, hothers k rfl, List.append_nil]
    exact hfits.2
  | offered k a ticket =>
    obtain ⟨hlt, hstory, u, v, hh, hticket⟩ := hfits
    refine ⟨Nat.lt_of_lt_of_le hlt hle, ?_, u, v ++ events, ?_, hticket⟩
    · rw [story_append, hothers k rfl, List.append_nil]
      exact hstory
    · rw [hh, List.append_assoc]
      rfl
  | receiving => trivial

namespace Booked

/-- A party goes on with its send, or with something else that is no send. -/
theorem act (hb : t.Booked) (hevents : ∀ e ∈ events, ∀ k, e.send? = some k → t.sending p = some k)
    (hcall : ∀ d, call = some d → d.Fits t.begun (t.history ++ events) ∧
      ∀ k, d.send? = some k → t.sending p = some k)
    (hend : ∀ k, t.sending p = some k →
      call.bind Call.send? = some k ∨ Finished k (t.history ++ events)) :
    (t.act p c call events).Booked := by
  have hothers : ∀ k, t.sending p ≠ some k → story k events = [] := by
    intro k hk
    exact story_eq_nil fun e he hsend => hk (hevents e he k hsend)
  -- what a party sends after the step it sent before
  have hkept : ∀ q k, (t.act p c call events).sending q = some k → t.sending q = some k := by
    intro q k hq
    by_cases hne : q = p
    · subst hne
      rw [sending_act_self] at hq
      obtain ⟨d, hd, hsend⟩ := Option.bind_eq_some_iff.mp hq
      exact (hcall d hd).2 k hsend
    · rwa [sending_act_of_ne hne] at hq
  refine ⟨?_, ?_, ?_, ?_⟩
  · intro q d hq
    by_cases hne : q = p
    · subst hne
      have hd : call = some d := by simpa [Traffic.act] using hq
      exact (hcall d hd).1
    · have hd : t.calls q = some d := by simpa [Traffic.act, hne] using hq
      refine (hb.fits q d hd).append (Nat.le_refl _) fun k hsend => hothers k fun hp => hne ?_
      exact hb.distinct q p k (by simp [sending, hd, hsend]) hp
  · intro q r k hq hr
    exact hb.distinct q r k (hkept q k hq) (hkept r k hr)
  · intro k hk
    have hp : t.sending p ≠ some k := fun hp => Nat.not_lt.mpr hk (hb.begun_of_sending hp)
    show story k (t.history ++ events) = []
    rw [story_append, hb.fresh k hk, hothers k hp, List.append_nil]
  · intro k hk
    by_cases hp : t.sending p = some k
    · rcases hend k hp with hcall | hfinished
      · exact .inl ⟨p, sending_act_self.trans hcall⟩
      · exact .inr hfinished
    · rcases hb.told k hk with ⟨q, hq⟩ | ⟨a, hstory⟩
      · have hne : q ≠ p := by
          rintro rfl
          exact hp hq
        exact .inl ⟨q, (sending_act_of_ne hne).trans hq⟩
      · refine .inr ⟨a, ?_⟩
        show story k (t.history ++ events) = _ ∨ story k (t.history ++ events) = _
        rw [story_append, hothers k hp, List.append_nil]
        exact hstory

/-- A party that has no send in progress does something else. -/
theorem act_none (hb : t.Booked) (hp : t.sending p = none) (hevents : ∀ e ∈ events, e.send? = none)
    (hcall : ∀ d, call = some d → d = .receiving) : (t.act p c call events).Booked := by
  refine hb.act ?_ ?_ ?_
  · intro e he k hk
    rw [hevents e he] at hk
    cases hk
  · rintro d hd
    rw [hcall d hd]
    exact ⟨trivial, fun k hk => by cases hk⟩
  · intro k hk
    rw [hp] at hk
    cases hk

/-- A new send has no story yet. -/
theorem enter (hb : t.Booked) (hp : t.calls p = none) (a : α) : (t.enter p a).Booked := by
  have hnew : story t.begun (t.history ++ [.began t.begun a]) = [.began t.begun a] := by
    rw [story_append, hb.fresh t.begun (Nat.le_refl _)]
    simp [story, Event.send?]
  have hothers : ∀ k, k ≠ t.begun → story k [Event.began t.begun a] = [] := by
    intro k hne
    refine story_eq_nil fun e he hsend => hne ?_
    rw [List.mem_singleton.mp he] at hsend
    exact (Option.some.inj hsend).symm
  have hself : (t.enter p a).sending p = some t.begun := by
    simp [sending, Traffic.enter, Traffic.act, Call.send?]
  have hkept : ∀ q, q ≠ p → (t.enter p a).sending q = t.sending q := by
    intro q hne
    simp [sending, Traffic.enter, Traffic.act, hne]
  refine ⟨?_, ?_, ?_, ?_⟩
  · intro q d hq
    by_cases hne : q = p
    · subst hne
      have hd : .entering t.begun a = d := by simpa [Traffic.enter, Traffic.act] using hq
      rw [← hd]
      exact ⟨Nat.lt_succ_self _, hnew⟩
    · have hd : t.calls q = some d := by simpa [Traffic.enter, Traffic.act, hne] using hq
      refine (hb.fits q d hd).append (Nat.le_succ _) fun k hsend => hothers k ?_
      exact Nat.ne_of_lt (hb.begun_of_sending (p := q) (by simp [sending, hd, hsend]))
  · -- the number of the new send is not in use
    have hunused : ∀ q, q ≠ p → (t.enter p a).sending q ≠ some t.begun := by
      intro q hne hq
      rw [hkept q hne] at hq
      exact Nat.lt_irrefl _ (hb.begun_of_sending hq)
    intro q r k hq hr
    by_cases hqp : q = p
    · by_cases hrp : r = p
      · rw [hqp, hrp]
      · rw [hqp, hself] at hq
        cases hq
        exact absurd hr (hunused r hrp)
    · by_cases hrp : r = p
      · rw [hrp, hself] at hr
        cases hr
        exact absurd hq (hunused q hqp)
      · rw [hkept q hqp] at hq
        rw [hkept r hrp] at hr
        exact hb.distinct q r k hq hr
  · intro k hk
    have hlt : t.begun < k := hk
    show story k (t.history ++ [.began t.begun a]) = []
    rw [story_append, hb.fresh k (Nat.le_of_lt hlt), hothers k (Nat.ne_of_gt hlt)]
    rfl
  · intro k hk
    rcases Nat.lt_succ_iff_lt_or_eq.mp hk with hk | rfl
    · rcases hb.told k hk with ⟨q, hq⟩ | ⟨b, hstory⟩
      · have hne : q ≠ p := by
          rintro rfl
          simp [sending, hp] at hq
        exact .inl ⟨q, (hkept q hne).trans hq⟩
      · refine .inr ⟨b, ?_⟩
        show story k (t.history ++ [.began t.begun a]) = _ ∨ story k (t.history ++ [.began t.begun a]) = _
        rw [story_append, hothers k (Nat.ne_of_lt hk), List.append_nil]
        exact hstory
    · exact .inl ⟨p, hself⟩

end Booked

end

end Traffic

end ScriptMachine
