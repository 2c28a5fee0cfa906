import ScriptMachine.Proofs.Machine.Equations
import ScriptMachine.Proofs.Traffic.Basic
import ScriptMachine.Session

/-!
# Machines as parties

Parties of the traffic on a channel are machines and the host. A machine uses a channel by the
instructions that send and receive; when its call cannot be finished at once, it waits, and it polls the
channel whenever it gets a turn.

`Exec.send_eq`, `Exec.receive_eq` and `Exec.poll_eq` say that a machine takes the steps of a party: the
channel is that of the traffic afterwards, the machine waits for what its call in progress needs, and the
last event tells it how to go on. `Session.tryReceive_eq` is the step of the host, and
`Prelude.close_eq` that of the host function which closes.
-/

namespace ScriptMachine

/-! ## Channels of a heap -/

namespace Heap

theorem setChannel_channel (h : Heap) (ch : Ref) : h.setChannel ch (h.channel ch) = h := by
  unfold setChannel channel
  congr 1
  apply Array.ext_getElem?
  intro i
  by_cases hi : i = ch
  · subst hi
    rw [Array.getElem?_setIfInBounds_self]
    split
    · next hlt => rw [Array.getElem?_eq_getElem hlt, Option.getD_some]
    · next hge => rw [Array.getElem?_eq_none (Nat.not_lt.mp hge)]
  · rw [Array.getElem?_setIfInBounds_ne (Ne.symm hi)]

theorem closeChannel_eq (h : Heap) (ch : Ref) : h.closeChannel ch = h.setChannel ch (h.channel ch).close := by
  unfold closeChannel setChannel channel
  congr 1
  apply Array.ext_getElem?
  intro i
  by_cases hi : i = ch
  · subst hi
    rw [Array.getElem?_modify, if_pos rfl, Array.getElem?_setIfInBounds_self]
    split
    · next hlt => rw [Array.getElem?_eq_getElem hlt, Option.map_some, Option.getD_some]
    · next hge => rw [Array.getElem?_eq_none (Nat.not_lt.mp hge), Option.map_none]
  · rw [Array.getElem?_modify, if_neg (Ne.symm hi), Array.getElem?_setIfInBounds_ne (Ne.symm hi)]

/-- A channel that is set and closed at once. -/
theorem closeChannel_setChannel (h : Heap) (ch : Ref) (c : Channel Value) :
    (h.setChannel ch c).closeChannel ch = h.setChannel ch c.close := by
  unfold closeChannel setChannel
  congr 1
  apply Array.ext_getElem?
  intro i
  by_cases hi : i = ch
  · subst hi
    rw [Array.getElem?_modify, if_pos rfl, Array.getElem?_setIfInBounds_self, Array.getElem?_setIfInBounds_self]
    split <;> rfl
  · rw [Array.getElem?_modify, if_neg (Ne.symm hi), Array.getElem?_setIfInBounds_ne (Ne.symm hi),
      Array.getElem?_setIfInBounds_ne (Ne.symm hi)]

end Heap

/-! ## Steps of machines -/

namespace Traffic

variable {ι : Type} [DecidableEq ι]

/-- What a machine waits for that has a call in progress on the channel `ch`. -/
def Call.wait (ch : Ref) : Call Value → Wait
  | .entering _ v => .room ch v
  | .offered _ _ ticket => .taken ch ticket
  | .receiving => .message ch

/-- How a machine goes on after an event that concerns it. -/
def Event.answer : Event Value → Exec Unit
  | .returned _ true | .drained => Exec.push .null
  | .returned _ false => Exec.raise .channelClosed
  | .taken v => Exec.push v
  | _ => pure ()

/-- How a machine goes on after a step of its party: the last of the new events tells it. -/
def answer (t t' : Traffic ι Value) : Exec Unit :=
  match (t'.history.drop t.history.length).getLast? with
  | some e => e.answer
  | none => pure ()

/-- The state of the machine of party `p` with the channel and the call that the traffic says. -/
def update (t : Traffic ι Value) (p : ι) (ch : Ref) (s : State) : State :=
  ⟨{ s.world with heap := s.world.heap.setChannel ch t.channel },
    { s.machine with waiting := (t.calls p).map (Call.wait ch) }⟩

/-- A call that is over leaves nothing to wait for. -/
theorem update_over (t : Traffic ι Value) (p : ι) (c : Channel Value) (events : List (Event Value)) (ch : Ref)
    {s : State} (hwaiting : s.machine.waiting = none) : (t.act p c none events).update p ch s =
      ⟨{ s.world with heap := s.world.heap.setChannel ch c }, s.machine⟩ := by
  simp only [update, act, Function.update_self, Option.map_none, ← hwaiting]

theorem update_waiting (t : Traffic ι Value) (p : ι) (c : Channel Value) (call : Call Value)
    (events : List (Event Value)) (ch : Ref) (s : State) : (t.act p c (some call) events).update p ch s =
      ⟨{ s.world with heap := s.world.heap.setChannel ch c },
        { s.machine with waiting := some (call.wait ch) }⟩ := by
  simp only [update, act, Function.update_self, Option.map_some]

theorem answer_act (t : Traffic ι Value) (p : ι) (c : Channel Value) (call : Option (Call Value))
    (events : List (Event Value)) : t.answer (t.act p c call events) =
      match events.getLast? with
      | some e => e.answer
      | none => pure () := by
  unfold answer act
  rw [List.drop_left]

end Traffic

namespace Exec

variable {ι : Type} [DecidableEq ι] {s : State} {t : Traffic ι Value} {ch : Ref}

/-- An attempt to send is a step of the party. -/
theorem trySend_eq (hchannel : s.world.heap.channel ch = t.channel) (hwaiting : s.machine.waiting = none)
    (p : ι) (k : Nat) (v : Value) :
    trySend ch v s = t.answer (t.attempt p k v) ((t.attempt p k v).update p ch s) := by
  have hallocate : allocate (fun h => (((h.channel ch).send v).1, h.setChannel ch ((h.channel ch).send v).2)) s =
      .ok (t.channel.send v).1
        ⟨{ s.world with heap := s.world.heap.setChannel ch (t.channel.send v).2 }, s.machine⟩ := by
    rw [← hchannel]
    rfl
  refine (bind_eq hallocate).trans ?_
  unfold Traffic.attempt
  obtain ⟨outcome, c⟩ := t.channel.send v
  cases outcome with
  | refused | sent =>
    simp only [Traffic.answer_act, Traffic.update_over _ _ _ _ _ hwaiting]
    rfl
  | full | offered ticket =>
    simp only [Traffic.answer_act, Traffic.update_waiting]
    rfl

/-- An attempt to receive is a step of the party. -/
theorem tryReceive_eq (hchannel : s.world.heap.channel ch = t.channel) (hwaiting : s.machine.waiting = none)
    (p : ι) : tryReceive ch s = t.answer (t.receive p) ((t.receive p).update p ch s) := by
  have hallocate : allocate (fun h => ((h.channel ch).recv.1, h.setChannel ch (h.channel ch).recv.2)) s =
      .ok t.channel.recv.1
        ⟨{ s.world with heap := s.world.heap.setChannel ch t.channel.recv.2 }, s.machine⟩ := by
    rw [← hchannel]
    rfl
  refine (bind_eq hallocate).trans ?_
  unfold Traffic.receive
  obtain ⟨outcome, c⟩ := t.channel.recv
  cases outcome with
  | received v | drained =>
    simp only [Traffic.answer_act, Traffic.update_over _ _ _ _ _ hwaiting]
    rfl
  | wait =>
    simp only [Traffic.answer_act, Traffic.update_waiting]
    rfl

/-- A look whether the message was taken is a step of the party. -/
theorem tryFinishSend_eq (hchannel : s.world.heap.channel ch = t.channel)
    (hwaiting : s.machine.waiting = none) {p : ι} {k ticket : Nat} {v : Value}
    (hcall : t.calls p = some (.offered k v ticket)) :
    tryFinishSend ch ticket s = t.answer (t.release p k ticket) ((t.release p k ticket).update p ch s) := by
  have hheap : (getHeap : Exec Heap) s = .ok s.world.heap s := rfl
  have hsame : s.world.heap.setChannel ch t.channel = s.world.heap := by
    rw [← hchannel, Heap.setChannel_channel]
  refine (bind_eq hheap).trans ?_
  rw [hchannel]
  unfold Traffic.release
  by_cases hreleased : t.channel.released ticket = true
  · rw [if_pos hreleased, if_pos hreleased, Traffic.answer_act, Traffic.update_over _ _ _ _ _ hwaiting, hsame]
    rfl
  · rw [if_neg hreleased, if_neg hreleased]
    have hnothing : t.answer t = pure () := by
      unfold Traffic.answer
      rw [List.drop_length]
      rfl
    rw [hnothing]
    unfold Traffic.update
    rw [hsame, hcall]
    rfl

/-- A machine that waits takes its call up again when it has a turn. -/
theorem poll_eq (hchannel : s.world.heap.channel ch = t.channel) {p : ι} {call : Traffic.Call Value}
    (hcall : t.calls p = some call) :
    poll (call.wait ch) s = (do
      t.answer (t.resume p call)
      return if (← getMachine).waiting.isSome then Signal.blocked else .next)
      ((t.resume p call).update p ch s) := by
  have hstart : modifyMachine (fun m => { m with waiting := none }) s =
      .ok () ⟨s.world, { s.machine with waiting := none }⟩ := rfl
  refine (bind_eq hstart).trans ?_
  let s' : State := ⟨s.world, { s.machine with waiting := none }⟩
  have hchannel' : s'.world.heap.channel ch = t.channel := hchannel
  -- the rest is the same for whatever comes of the attempt
  have hrest : ∀ {x : Exec Unit}, x s' = t.answer (t.resume p call) ((t.resume p call).update p ch s) →
      ∀ y : Exec Signal, (do x; y) s' =
        (do t.answer (t.resume p call); y) ((t.resume p call).update p ch s) := by
    intro x hx y
    show EStateM.bind x (fun _ => y) _ = EStateM.bind _ (fun _ => y) _
    unfold EStateM.bind
    rw [hx]
  cases call with
  | entering k v => exact hrest (trySend_eq hchannel' rfl p k v) _
  | offered k v ticket => exact hrest (tryFinishSend_eq hchannel' rfl hcall) _
  | receiving => exact hrest (tryReceive_eq hchannel' rfl p) _

/-- The state without the uppermost slot. -/
def dropped (s : State) : State :=
  ⟨s.world, { s.machine with
    stack := s.machine.stack.setIfInBounds (s.machine.sp - 1) .null, sp := s.machine.sp - 1 }⟩

/-- The instruction that sends begins a send. -/
theorem send_eq (hchannel : s.world.heap.channel ch = t.channel) (hwaiting : s.machine.waiting = none)
    {capacity : Option Nat} {v : Value} (hheight : 2 ≤ s.machine.sp)
    (hmessage : s.machine.stack[s.machine.sp - 1]? = some v)
    (hto : s.machine.stack[s.machine.sp - 2]? = some (.channel ch capacity)) (p : ι) :
    send s = (t.enter p v).answer ((t.enter p v).attempt p t.begun v)
      (((t.enter p v).attempt p t.begun v).update p ch (dropped (dropped s))) := by
  refine (bind_eq (pop_eq (by omega) hmessage)).trans ?_
  have hbelow : (dropped s).machine.stack[(dropped s).machine.sp - 1]? = some (.channel ch capacity) := by
    show (s.machine.stack.setIfInBounds _ _)[s.machine.sp - 1 - 1]? = _
    rw [Array.getElem?_setIfInBounds_ne (by omega), show s.machine.sp - 1 - 1 = s.machine.sp - 2 by omega, hto]
  have hheight' : (dropped s).machine.sp ≠ 0 := by
    show s.machine.sp - 1 ≠ 0
    omega
  refine (bind_eq (pop_eq (s := dropped s) hheight' hbelow)).trans ?_
  exact trySend_eq (t := t.enter p v) (s := dropped (dropped s)) hchannel hwaiting p t.begun v

/-- The instruction that receives begins to receive. -/
theorem receive_eq (hchannel : s.world.heap.channel ch = t.channel) (hwaiting : s.machine.waiting = none)
    {capacity : Option Nat} (hheight : s.machine.sp ≠ 0)
    (hfrom : s.machine.stack[s.machine.sp - 1]? = some (.channel ch capacity)) (p : ι) :
    receive s = t.answer (t.receive p) ((t.receive p).update p ch (dropped s)) := by
  refine (bind_eq (pop_eq hheight hfrom)).trans ?_
  exact tryReceive_eq (s := dropped s) hchannel hwaiting p

end Exec

/-! ## Steps of the host -/

section

variable {ι : Type} [DecidableEq ι] {t : Traffic ι Value} {ch : Ref} {capacity : Option Nat}

/-- A host that takes a message does a step of a party that does not wait. -/
theorem Session.tryReceive_eq {s : Session} {name : String} (hget : s.get? name = some (.channel ch capacity))
    (hchannel : s.heap.channel ch = t.channel) (p : ι) :
    (s.tryReceive name).2.heap = s.heap.setChannel ch (t.tryReceive p).channel ∧
      (t.tryReceive p).history = t.history ++ (s.tryReceive name).1.toList.map .taken := by
  unfold Session.tryReceive Traffic.tryReceive
  rw [hget]
  dsimp only
  rw [hchannel]
  cases htake : t.channel.dequeue? with
  | none =>
    refine ⟨?_, (List.append_nil _).symm⟩
    rw [← hchannel, Heap.setChannel_channel]
  | some taken => exact ⟨rfl, rfl⟩

/-- The host function that closes does a step of a party. -/
theorem Prelude.close_eq {h : Heap} (hchannel : h.channel ch = t.channel) (p : ι) :
    Prelude.close.call h [.channel ch capacity] = (.value .null, h.setChannel ch (t.close p).channel) := by
  show (NativeOutcome.value .null, h.closeChannel ch) = _
  rw [Heap.closeChannel_eq, hchannel]
  rfl

end

end ScriptMachine
