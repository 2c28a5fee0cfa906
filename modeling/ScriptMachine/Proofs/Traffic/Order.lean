import Mathlib.Tactic.Choose
import ScriptMachine.Proofs.Traffic.Basic

/-!
# The order of messages

What holds of a channel however its parties take turns. Each step keeps `Traffic.Sound`, which ties the
channel and the calls in progress to the history.

* `Traffic.Reached.keeps_order` — the messages are taken in the order in which they were enqueued, none
  is lost, and a send enqueues its message exactly if it succeeds;
* `Traffic.Reached.delivers_or_closed` — what the answer of a send on an unbuffered channel means. A send that closing
  sets free reports success although nobody has its message (`Traffic.abandoned_not_delivered`).
-/

namespace ScriptMachine.Traffic

variable {ι α : Type}

/-! ## Steps -/

/-- While an unbuffered channel is open, some party waits for each message in its queue to be taken. -/
def Held (t : Traffic ι α) : Prop :=
  t.channel.capacity = some 0 → t.channel.closed = false → ∀ i a, t.channel.buffer[i]? = some a →
    ∃ p k, t.calls p = some (.offered k a (t.channel.received + i + 1))

/-- Channel, calls and history agree. -/
structure Sound (capacity : Option Nat) (t : Traffic ι α) : Prop where
  queued : Queued capacity t.channel t.history
  booked : t.Booked
  held : t.Held

theorem sound_start (capacity : Option Nat) : Sound capacity (start capacity : Traffic ι α) where
  queued := .new capacity
  booked :=
    { fits := fun _ _ hcall => by cases hcall
      distinct := fun _ _ _ hp => by cases hp
      fresh := fun _ _ => rfl
      told := fun _ hk => by cases hk }
  held := by
    intro _ _ i a hi
    simp [start, Channel.new] at hi

/-- How an attempt to send ends. -/
inductive Attempt (c : Channel α) (a : α) : SendStep × Channel α → Prop where
  | refused : c.closed = true → Attempt c a (.refused, c)
  | offered : c.closed = false → c.capacity = some 0 → Attempt c a (.offered (c.sent + 1), c.enqueue a)
  | full : c.closed = false → Attempt c a (.full, c)
  | sent : c.closed = false → c.capacity ≠ some 0 → (∀ n, c.capacity = some n → c.length < n) →
    Attempt c a (.sent, c.enqueue a)

theorem attempt_send (c : Channel α) (a : α) : Attempt c a (c.send a) := by
  unfold Channel.send
  cases hclosed : c.closed with
  | true => exact .refused hclosed
  | false =>
    rw [if_neg Bool.false_ne_true]
    split
    · next hzero => exact .offered hclosed hzero
    · next n hne hn =>
      split
      · exact .full hclosed
      · next hroom =>
        have hlt : c.length < n := Nat.lt_of_not_le hroom
        refine .sent hclosed ?_ fun m hm => ?_
        · rw [hn]
          intro hzero
          exact hne (Option.some.inj hzero)
        · rw [hn] at hm
          cases hm
          exact hlt
    · next hnone => exact .sent hclosed (by simp [hnone]) (by simp [hnone])

theorem offers_nothing {t : Traffic ι α} {p : ι} (hp : t.sending p = none) (k : Nat) (a : α)
    (ticket : Nat) : t.calls p ≠ some (.offered k a ticket) := by
  intro hcall
  simp [sending, hcall, Call.send?] at hp

section

variable [DecidableEq ι] {t t' : Traffic ι α} {p : ι} {c : Channel α} {call : Option (Call α)}
  {events : List (Event α)} {capacity : Option Nat} {k : Nat} {a : α}

namespace Held

/-- A party that no message in the queue depends on does something that leaves the channel alone. -/
theorem act (hh : t.Held) (hp : ∀ k a ticket, t.calls p = some (.offered k a ticket) →
    t.channel.closed = false → ticket ≤ t.channel.received) : (t.act p t.channel call events).Held := by
  intro hzero hopen i b hi
  obtain ⟨q, j, hq⟩ := hh hzero hopen i b hi
  have hne : q ≠ p := by
    rintro rfl
    have hle := hp j b _ hq hopen
    omega
  refine ⟨q, j, ?_⟩
  show Function.update t.calls p call q = _
  rw [Function.update_of_ne hne]
  exact hq

/-- A new message is offered by the party that enqueued it. -/
theorem offer (hh : t.Held) (hq : Queued capacity t.channel t.history)
    (hp : ∀ k a ticket, t.calls p ≠ some (.offered k a ticket)) :
    (t.act p (t.channel.enqueue a) (some (.offered k a (t.channel.sent + 1))) events).Held := by
  intro hzero hopen i b hi
  change (t.channel.buffer ++ [a])[i]? = some b at hi
  show ∃ q j, Function.update t.calls p _ q = some (.offered j b (t.channel.received + i + 1))
  by_cases hlt : i < t.channel.buffer.length
  · rw [List.getElem?_append_left hlt] at hi
    obtain ⟨q, j, hcall⟩ := hh hzero hopen i b hi
    have hne : q ≠ p := by
      rintro rfl
      exact hp j b _ hcall
    exact ⟨q, j, (Function.update_of_ne hne ..).trans hcall⟩
  · -- the message stands at the end of the queue
    have hlast : i = t.channel.buffer.length := by
      have := (List.getElem?_eq_some_iff.mp hi).1
      rw [List.length_append, List.length_singleton] at this
      omega
    subst hlast
    have hab : a = b := by simpa using hi
    have hsent : t.channel.received + t.channel.buffer.length = t.channel.sent := hq.length_eq.symm
    refine ⟨p, k, ?_⟩
    rw [Function.update_self, hsent, hab]

/-- The messages behind one that is taken move up. -/
theorem take (hh : t.Held) (hp : ∀ k a ticket, t.calls p ≠ some (.offered k a ticket))
    (htake : t.channel.dequeue? = some (a, c)) : (t.act p c call events).Held := by
  unfold Channel.dequeue? at htake
  cases hbuffer : t.channel.buffer with
  | nil =>
    rw [hbuffer] at htake
    cases htake
  | cons b rest =>
    rw [hbuffer] at htake
    cases htake
    intro hzero hopen i x hi
    have hnext : t.channel.buffer[i + 1]? = some x := by
      rw [hbuffer, List.getElem?_cons_succ]
      exact hi
    obtain ⟨q, j, hcall⟩ := hh hzero hopen (i + 1) x hnext
    have hne : q ≠ p := by
      rintro rfl
      exact hp j x _ hcall
    refine ⟨q, j, ?_⟩
    show Function.update t.calls p call q = some (.offered j x (t.channel.received + 1 + i + 1))
    rw [Function.update_of_ne hne, hcall, Nat.add_assoc t.channel.received 1 i, Nat.add_comm 1 i]

end Held

namespace Sound

theorem enter (hs : Sound capacity t) (hp : t.calls p = none) (a : α) :
    Sound capacity (t.enter p a) := by
  have hheld : (t.act p t.channel (some (.entering t.begun a)) [.began t.begun a]).Held := by
    refine hs.held.act fun k b ticket hcall => ?_
    rw [hp] at hcall
    cases hcall
  exact ⟨hs.queued.idle trivial rfl rfl (by simp), hs.booked.enter hp a, hheld⟩

theorem attempt (hs : Sound capacity t) (hp : t.calls p = some (.entering k a)) :
    Sound capacity (t.attempt p k a) := by
  have hsending : t.sending p = some k := by simp [sending, hp, Call.send?]
  obtain ⟨hlt, hstory⟩ : Call.Fits t.begun t.history (.entering k a) := hs.booked.fits p _ hp
  have hoffers : ∀ j b ticket, t.calls p ≠ some (.offered j b ticket) := by
    intro j b ticket hcall
    rw [hp] at hcall
    cases hcall
  have hkeep : ∀ j b ticket, t.calls p = some (.offered j b ticket) → t.channel.closed = false →
      ticket ≤ t.channel.received := fun j b ticket hcall => absurd hcall (hoffers j b ticket)
  -- the events of the step belong to the send
  have hown : ∀ es : List (Event α), (∀ e ∈ es, e.send? = some k) → ∀ e ∈ es, ∀ j, e.send? = some j →
      t.sending p = some j := by
    intro es hes e he j hj
    rw [hsending, ← hes e he, hj]
  have hsends := attempt_send t.channel a
  unfold Traffic.attempt
  generalize t.channel.send a = outcome at hsends
  cases hsends with
  | refused hclosed =>
    have hmem : .closed ∈ t.history := hs.queued.closed.mp hclosed
    refine ⟨hs.queued.idle hmem rfl rfl (by simp), ?_, hs.held.act hkeep⟩
    refine hs.booked.act (hown _ (by simp [Event.send?])) (fun d hd => by cases hd) ?_
    intro j hj
    rw [hsending] at hj
    cases hj
    refine .inr ⟨a, .inl ?_⟩
    rw [story_append, hstory]
    simp [story, Event.send?]
  | full =>
    have hqueued : Queued capacity t.channel (t.history ++ []) := by
      rw [List.append_nil]
      exact hs.queued
    refine ⟨hqueued, ?_, hs.held.act hkeep⟩
    refine hs.booked.act (by simp) ?_ ?_
    · intro d hd
      cases hd
      rw [List.append_nil]
      exact ⟨⟨hlt, hstory⟩, fun j hj => hsending.trans hj⟩
    · exact fun j hj => .inl (hsending.symm.trans hj)
  | sent hopen hcap hroom =>
    have hnotfull : ∀ n, capacity = some (n + 1) → t.channel.length < n + 1 := by
      intro n hn
      exact hroom _ (hs.queued.kind.trans hn)
    have hqueued := hs.queued.enqueue hopen hnotfull k a
    have hreturned : Allowed capacity (t.history ++ [.enqueued k a]) (.returned k true) := by
      intro hzero
      exact absurd (hs.queued.kind.trans hzero) hcap
    refine ⟨?_, ?_, ?_⟩
    · have hboth := hqueued.idle hreturned rfl rfl (by simp)
      rwa [List.append_assoc] at hboth
    · refine hs.booked.act (hown _ (by simp [Event.send?])) (fun d hd => by cases hd) ?_
      intro j hj
      rw [hsending] at hj
      cases hj
      refine .inr ⟨a, .inr ?_⟩
      rw [story_append, hstory]
      simp [story, Event.send?]
    · exact fun hzero => absurd hzero hcap
  | offered hopen hzero =>
    have hunbounded : ∀ n, capacity = some (n + 1) → t.channel.length < n + 1 := by
      intro n hn
      rw [← hs.queued.kind, hzero] at hn
      cases hn
    refine ⟨hs.queued.enqueue hopen hunbounded k a, ?_, hs.held.offer hs.queued hoffers⟩
    refine hs.booked.act (hown _ (by simp [Event.send?])) ?_ fun j hj => .inl (hsending.symm.trans hj)
    intro d hd
    cases hd
    refine ⟨⟨hlt, ?_, t.history, [], rfl, by rw [hs.queued.sent]⟩, fun j hj => hsending.trans hj⟩
    rw [story_append, hstory]
    simp [story, Event.send?]

theorem release {ticket : Nat} (hs : Sound capacity t) (hp : t.calls p = some (.offered k a ticket)) :
    Sound capacity (t.release p k ticket) := by
  have hsending : t.sending p = some k := by simp [sending, hp, Call.send?]
  obtain ⟨-, hstory, u, v, hhistory, rfl⟩ : Call.Fits t.begun t.history (.offered k a ticket) :=
    hs.booked.fits p _ hp
  unfold Traffic.release
  split
  · next hreleased =>
    have hmet := (hs.queued.released _).mp hreleased
    have hallowed : Allowed capacity t.history (.returned k true) := by
      intro _
      exact hmet.imp_left fun hlt => ⟨a, u, v, hhistory, hlt⟩
    refine ⟨hs.queued.idle hallowed rfl rfl (by simp), ?_, hs.held.act ?_⟩
    · refine hs.booked.act ?_ (fun d hd => by cases hd) ?_
      · intro e he j hj
        rw [List.mem_singleton.mp he] at hj
        exact hsending.trans hj
      · intro j hj
        rw [hsending] at hj
        cases hj
        refine .inr ⟨a, .inr ?_⟩
        rw [story_append, hstory]
        simp [story, Event.send?]
    · intro j b ticket hcall hopen
      rw [hp] at hcall
      cases hcall
      rw [hs.queued.received]
      rcases hmet with hlt | hclosed
      · exact hlt
      · exact absurd hclosed (hs.queued.not_mem_closed hopen)
  · exact hs

theorem receive (hs : Sound capacity t) (hp : t.sending p = none) : Sound capacity (t.receive p) := by
  have hoffers := offers_nothing hp
  unfold Traffic.receive Channel.recv
  cases htake : t.channel.dequeue? with
  | some taken =>
    obtain ⟨a, c⟩ := taken
    refine ⟨hs.queued.dequeue htake, ?_, hs.held.take hoffers htake⟩
    exact hs.booked.act_none hp (by simp [Event.send?]) (by simp)
  | none =>
    have hkeep : ∀ j b ticket, t.calls p = some (.offered j b ticket) → t.channel.closed = false →
        ticket ≤ t.channel.received := fun j b ticket hcall => absurd hcall (hoffers j b ticket)
    dsimp only
    split
    · next heq =>
      split at heq <;> cases heq
    · next heq =>
      split at heq
      · next hclosed =>
        cases heq
        have hallowed : Allowed capacity t.history .drained :=
          ⟨hs.queued.closed.mp hclosed, hs.queued.drained htake⟩
        refine ⟨hs.queued.idle hallowed rfl rfl (by simp), ?_, hs.held.act hkeep⟩
        exact hs.booked.act_none hp (by simp [Event.send?]) (by simp)
      · cases heq
    · next heq =>
      split at heq
      · cases heq
      · cases heq
        refine ⟨?_, hs.booked.act_none hp (by simp) (by simp), hs.held.act hkeep⟩
        show Queued capacity t.channel (t.history ++ [])
        rw [List.append_nil]
        exact hs.queued

theorem tryReceive (hs : Sound capacity t) (hp : t.sending p = none) :
    Sound capacity (t.tryReceive p) := by
  unfold Traffic.tryReceive
  cases htake : t.channel.dequeue? with
  | some taken =>
    obtain ⟨a, c⟩ := taken
    refine ⟨hs.queued.dequeue htake, ?_, hs.held.take (offers_nothing hp) htake⟩
    exact hs.booked.act_none hp (by simp [Event.send?]) (by simp)
  | none => exact hs

theorem close (hs : Sound capacity t) (hp : t.sending p = none) : Sound capacity (t.close p) where
  queued := hs.queued.close
  booked := hs.booked.act_none hp (by simp [Event.send?]) (by simp)
  held := by
    intro _ hopen
    cases hopen

/-- A party that is idle sends nothing. -/
theorem step (hs : Sound capacity t) (h : Step t t') : Sound capacity t' := by
  have hidle : ∀ p, t.calls p = none → t.sending p = none := by
    intro p hp
    rw [sending, hp]
    rfl
  cases h with
  | send p a hp => exact (hs.enter hp a).attempt (by simp [Traffic.enter, act])
  | receive p hp => exact hs.receive (hidle p hp)
  | tryReceive p hp => exact hs.tryReceive (hidle p hp)
  | close p hp => exact hs.close (hidle p hp)
  | wake p call hp =>
    cases call with
    | entering k a => exact hs.attempt hp
    | offered k a ticket => exact hs.release hp
    | receiving => exact hs.receive (by simp [sending, hp, Call.send?])

end Sound

/-! ## Runs -/

theorem Reached.sound (h : Reached capacity t) : Sound capacity t := by
  induction h with
  | refl => exact sound_start capacity
  | tail _ hstep ih => exact ih.step hstep

end

section

variable {t : Traffic ι α} {h u u' v v' : List (Event α)} {k : Nat} {a b b' : α} {success : Bool}

/-- An event of a send belongs to its story. -/
theorem mem_story {e : Event α} (he : e ∈ h) (hk : e.send? = some k) : e ∈ story k h := by
  rw [story, List.mem_filter]
  exact ⟨he, by simp [hk]⟩

/-- A send that has returned is over. -/
theorem Booked.finished (hb : t.Booked) (hmem : .returned k success ∈ t.history) :
    Finished k t.history := by
  have hstory := mem_story hmem (k := k) rfl
  by_cases hk : k < t.begun
  · rcases hb.told k hk with ⟨p, hp⟩ | hfinished
    · obtain ⟨call, hcall, hsend⟩ := Option.bind_eq_some_iff.mp hp
      have hfits := hb.fits p call hcall
      cases call with
      | entering j a =>
        cases hsend
        rw [hfits.2] at hstory
        simp at hstory
      | offered j a ticket =>
        cases hsend
        rw [hfits.2.1] at hstory
        simp at hstory
      | receiving => cases hsend
    · exact hfinished
  · rw [hb.fresh k (Nat.le_of_not_lt hk)] at hstory
    cases hstory

/-- Before a send enqueues its message, it has not enqueued anything. -/
theorem not_enqueued_before (hstory : story k h = [.began k a, .enqueued k a])
    (hh : h = u ++ .enqueued k b :: v) (b' : α) : .enqueued k b' ∉ u := by
  intro hmem
  obtain ⟨w, x, rfl⟩ := List.append_of_mem hmem
  have htwice : (story k h).countP (fun e => e.enqueued?.isSome) ≥ 2 := by
    rw [hh]
    simp [story, Event.send?, Event.enqueued?]
    omega
  rw [hstory] at htwice
  simp [Event.enqueued?] at htwice

/-- A send enqueues its message at one place. -/
theorem place_unique (hstory : story k h = [.began k a, .enqueued k a])
    (hu : h = u ++ .enqueued k b :: v) (hu' : h = u' ++ .enqueued k b' :: v') : u = u' := by
  rcases List.append_eq_append_iff.mp (hu.symm.trans hu') with ⟨w, rfl, hw⟩ | ⟨w, rfl, hw⟩
  · cases w with
    | nil => exact (List.append_nil u).symm
    | cons e w =>
      cases hw
      exact absurd (by simp) (not_enqueued_before hstory hu' b)
  · cases w with
    | nil => exact List.append_nil u'
    | cons e w =>
      cases hw
      exact absurd (by simp) (not_enqueued_before hstory hu b')

/-- A send that put its message into the queue and has not returned. -/
def Offers (t : Traffic ι α) (k : Nat) (a : α) : Prop :=
  (∃ p ticket, t.calls p = some (.offered k a ticket)) ∧ ∀ success, .returned k success ∉ t.history

end

/-- One party sends, another receives and closes the channel, and the first one receives then. -/
def meeting : Traffic Bool Nat :=
  let offered := ((start (some 0)).enter true 5).attempt true 0 5
  let met := (offered.receive false).resume true (.offered 0 5 1)
  (met.close false).receive true

theorem meeting_reached : Reached (some 0) meeting := by
  have hsend := Relation.ReflTransGen.single (Step.send (start (some 0)) true 5 rfl)
  have hreceive := hsend.tail (.receive _ false rfl)
  have hwake := hreceive.tail (.wake _ true (.offered 0 5 1) rfl)
  have hclose := hwake.tail (.close _ false rfl)
  exact hclose.tail (.receive _ true rfl)

/-- One party sends, and another closes the channel before anybody receives. -/
def abandoned : Traffic Bool Nat :=
  let offered := ((start (some 0)).enter true 5).attempt true 0 5
  (offered.close false).resume true (.offered 0 5 1)

theorem abandoned_reached : Reached (some 0) abandoned := by
  have hsend := Relation.ReflTransGen.single (Step.send (start (some 0)) true 5 rfl)
  have hclose := hsend.tail (.close _ false rfl)
  exact hclose.tail (.wake _ true (.offered 0 5 1) rfl)

section

variable [DecidableEq ι] {t : Traffic ι α} {capacity : Option Nat}

/-- Messages are neither lost nor duplicated nor reordered, however the parties take turns: the messages
taken are the first of those enqueued, and the queue holds the others. A send that was refused has
enqueued nothing, and one that succeeded has enqueued its own message once. Nothing is enqueued after the
channel was closed, and a receiver is told so only once all messages were taken. The queue of a bounded
channel keeps to its capacity, and every message in the queue of an open unbuffered channel belongs to a
send of its own that has not returned. -/
theorem Reached.keeps_order (h : Reached capacity t) :
    (taken t.history <+: enqueued t.history ∧ enqueued t.history = taken t.history ++ t.channel.buffer) ∧
    (t.channel.received ≤ t.channel.sent ∧
      t.channel.sent - t.channel.received = t.channel.buffer.length) ∧
    (∀ k, .returned k false ∈ t.history →
      ∃ a, story k t.history = [.began k a, .returned k false]) ∧
    (∀ k, .returned k true ∈ t.history →
      ∃ a, story k t.history = [.began k a, .enqueued k a, .returned k true]) ∧
    (∀ u v, t.history = u ++ .closed :: v → enqueued v = []) ∧
    (∀ u v, t.history = u ++ .drained :: v → .closed ∈ u ∧ taken u = enqueued u) ∧
    (∀ n, capacity = some (n + 1) → t.channel.buffer.length ≤ n + 1) ∧
    (capacity = some 0 → t.channel.closed = false →
      ∃ sends : Fin t.channel.buffer.length → Nat, Function.Injective sends ∧
        ∀ i, t.Offers (sends i) t.channel.buffer[i]) := by
  have hs := h.sound
  have hlength : t.channel.sent = t.channel.received + t.channel.buffer.length := hs.queued.length_eq
  refine ⟨⟨⟨_, hs.queued.queue.symm⟩, hs.queued.queue⟩, by omega, ?_, ?_, ?_, ?_, hs.queued.room, ?_⟩
  · intro k hmem
    obtain ⟨a, hstory | hstory⟩ := hs.booked.finished hmem
    · exact ⟨a, hstory⟩
    · have hmem := mem_story hmem (k := k) rfl
      rw [hstory] at hmem
      simp at hmem
  · intro k hmem
    obtain ⟨a, hstory | hstory⟩ := hs.booked.finished hmem
    · have hmem := mem_story hmem (k := k) rfl
      rw [hstory] at hmem
      simp at hmem
    · exact ⟨a, hstory⟩
  · intro u v heq
    have hlawful := hs.queued.lawful
    rw [heq] at hlawful
    exact hlawful.enqueued_eq_nil
  · exact fun u v heq => hs.queued.lawful u .drained v heq
  · intro hzero hopen
    have hheld : ∀ i : Fin t.channel.buffer.length, ∃ k p,
        t.calls p = some (.offered k t.channel.buffer[i] (t.channel.received + i + 1)) := by
      intro i
      obtain ⟨p, k, hcall⟩ := hs.held (hs.queued.kind.trans hzero) hopen i _ (List.getElem?_eq_getElem i.isLt)
      exact ⟨k, p, hcall⟩
    choose sends parties hcalls using hheld
    refine ⟨sends, ?_, ?_⟩
    · -- one party has one call, and with it one ticket
      intro i j hij
      have hi : t.sending (parties i) = some (sends i) := by simp [sending, hcalls i, Call.send?]
      have hj : t.sending (parties j) = some (sends i) := by simp [sending, hcalls j, Call.send?, hij]
      have hsame := hcalls j
      rw [← hs.booked.distinct _ _ _ hi hj, hcalls i] at hsame
      simp only [Option.some.injEq, Call.offered.injEq] at hsame
      exact Fin.ext (by omega)
    · intro i
      refine ⟨⟨_, _, hcalls i⟩, fun success hmem => ?_⟩
      have hstory := mem_story hmem (k := sends i) rfl
      rw [(hs.booked.fits _ _ (hcalls i)).2.1] at hstory
      simp at hstory

theorem meeting_keeps_order : Reached (some 0) meeting ∧
    meeting.history = [.began 0 5, .enqueued 0 5, .taken 5, .returned 0 true, .closed, .drained] ∧
    (taken meeting.history <+: enqueued meeting.history) ∧
    (∃ a, story 0 meeting.history = [.began 0 a, .enqueued 0 a, .returned 0 true]) ∧
    ∀ u v, meeting.history = u ++ .drained :: v → .closed ∈ u ∧ taken u = enqueued u := by
  obtain ⟨⟨htaken, -⟩, -, -, hsent, -, hdrained, -⟩ := Reached.keeps_order meeting_reached
  exact ⟨meeting_reached, rfl, htaken, hsent 0 (by decide), hdrained⟩

/-- What the answer of a send on an unbuffered channel means. One that succeeded had its message taken,
unless the channel was closed in the meantime; one that was refused came to a closed channel. A send that
waits for its message to be taken returns once that has happened or the channel is closed, and in both
cases it reports success. -/
theorem Reached.delivers_or_closed (h : Reached (some 0) t) :
    (∀ k u v, t.history = u ++ .returned k true :: v → Delivered k u ∨ .closed ∈ u) ∧
    (∀ k u v, t.history = u ++ .returned k false :: v → .closed ∈ u) ∧
    ∀ p k a ticket, t.calls p = some (.offered k a ticket) →
      .returned k false ∉ (t.resume p (.offered k a ticket)).history ∧
      (.returned k true ∈ (t.resume p (.offered k a ticket)).history ↔
        Delivered k t.history ∨ .closed ∈ t.history) := by
  have hs := h.sound
  refine ⟨?_, ?_, ?_⟩
  · exact fun k u v heq => hs.queued.lawful u _ v heq rfl
  · exact fun k u v heq => hs.queued.lawful u _ v heq
  · intro p k a ticket hcall
    obtain ⟨-, hstory, u, v, hhistory, rfl⟩ : Call.Fits t.begun t.history (.offered k a ticket) :=
      hs.booked.fits p _ hcall
    have hwaits : ∀ success, .returned k success ∉ t.history := by
      intro success hmem
      have hmem := mem_story hmem (k := k) rfl
      rw [hstory] at hmem
      simp at hmem
    have hdelivered : (enqueued u).length < (taken t.history).length ↔ Delivered k t.history := by
      constructor
      · exact fun hlt => ⟨a, u, v, hhistory, hlt⟩
      · rintro ⟨b, u', v', hhistory', hlt⟩
        rwa [place_unique hstory hhistory hhistory']
    have hreleased := hs.queued.released (enqueued u).length
    rw [hdelivered] at hreleased
    rw [← hreleased]
    show .returned k false ∉ (t.release p k _).history ∧ (.returned k true ∈ (t.release p k _).history ↔ _)
    unfold release
    split
    · next hgo => simp [act, hwaits, hgo]
    · next hgo => simp [hwaits, hgo]

theorem abandoned_meets : Reached (some 0) abandoned ∧
    abandoned.history = [.began 0 5, .enqueued 0 5, .closed, .returned 0 true] ∧
    (Delivered 0 [.began 0 5, .enqueued 0 5, .closed] ∨
      .closed ∈ ([.began 0 5, .enqueued 0 5, .closed] : List (Event Nat))) :=
  ⟨abandoned_reached, rfl, (Reached.delivers_or_closed abandoned_reached).1 0 _ [] rfl⟩

/-- A send reports success although nobody has taken its message. -/
theorem abandoned_not_delivered : Reached (some 0) abandoned ∧ .returned 0 true ∈ abandoned.history ∧
    ¬ Delivered 0 abandoned.history := by
  refine ⟨abandoned_reached, by decide, ?_⟩
  rintro ⟨a, u, v, -, hlt⟩
  exact absurd hlt (Nat.not_lt_zero _)

end

end ScriptMachine.Traffic
