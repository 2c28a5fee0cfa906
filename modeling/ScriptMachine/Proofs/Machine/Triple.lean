import ScriptMachine.Machine.Run

/-!
# Triples

`Triple I x Q A` says that `x`, begun in a state that satisfies `I`, ends well with `Q` or stops with
`A`. `Keeps I A x Q` is the case of an invariant: the state satisfies `I` again, however `x` ends, a
result satisfies `Q`, and what stops `x` satisfies `A`.

There is a rule for each way of putting executions together and for each access to the state. What
they need of a particular invariant is left to its own module.
-/

namespace ScriptMachine.Exec

section

variable {α β : Type} {I J : State → Prop} {Q : α → State → Prop} {R : β → State → Prop}
  {A : Abort → State → Prop} {x : Exec α}

/-- From a state with `I`, `x` ends well with `Q`, or it stops with `A`. -/
def Triple (I : State → Prop) (x : Exec α) (Q : α → State → Prop) (A : Abort → State → Prop) : Prop :=
  ∀ s, I s → match x s with
    | .ok a t => Q a t
    | .error e t => A e t

/-! ## Putting executions together -/

theorem Triple.ok (h : Triple I x Q A) {s t : State} {a : α} (hs : I s) (hx : x.run s = .ok a t) :
    Q a t := by
  have hend := h s hs
  rwa [show x s = .ok a t from hx] at hend

theorem Triple.error (h : Triple I x Q A) {s t : State} {e : Abort} (hs : I s)
    (hx : x.run s = .error e t) : A e t := by
  have hend := h s hs
  rwa [show x s = .error e t from hx] at hend

theorem Triple.mono {Q' : α → State → Prop} {A' : Abort → State → Prop} (h : Triple I x Q A)
    (hI : ∀ s, J s → I s) (hQ : ∀ a s, Q a s → Q' a s) (hA : ∀ e s, A e s → A' e s) :
    Triple J x Q' A' := by
  intro s hs
  have hend := h s (hI s hs)
  cases hx : x s with
  | ok a t =>
    rw [hx] at hend
    exact hQ a t hend
  | error e t =>
    rw [hx] at hend
    exact hA e t hend

theorem Triple.pre (h : Triple I x Q A) (hI : ∀ s, J s → I s) : Triple J x Q A :=
  h.mono hI (fun _ _ hq => hq) fun _ _ ha => ha

/-- What holds of the state at the beginning may be assumed of it. -/
theorem Triple.assume {p : Prop} (hp : ∀ s, I s → p) (h : p → Triple I x Q A) : Triple I x Q A :=
  fun s hs => h (hp s hs) s hs

theorem triple_pure {a : α} (h : ∀ s, I s → Q a s) : Triple I (pure a) Q A := h

theorem Triple.bind {f : α → Exec β} (hx : Triple I x Q A) (hf : ∀ a, Triple (Q a) (f a) R A) :
    Triple I (x >>= f) R A := by
  intro s hs
  have hend := hx s hs
  simp only [Bind.bind, EStateM.bind]
  cases hrun : x s with
  | ok a t =>
    rw [hrun] at hend
    exact hf a t hend
  | error e t =>
    rw [hrun] at hend
    exact hend

theorem Triple.map {f : α → β} (hx : Triple I x (fun a t => R (f a) t) A) : Triple I (f <$> x) R A := by
  intro s hs
  have hend := hx s hs
  simp only [Functor.map, EStateM.map]
  cases hrun : x s with
  | ok a t =>
    rw [hrun] at hend
    exact hend
  | error e t =>
    rw [hrun] at hend
    exact hend

theorem triple_throw {e : Abort} (h : ∀ s, I s → A e s) : Triple I (throw e : Exec α) Q A := h

theorem tryCatch_apply (x : Exec α) (f : Abort → Exec α) (s : State) :
    tryCatch x f s = match x s with
      | .ok a t => .ok a t
      | .error e t => f e t := by
  change EStateM.tryCatch x f s = _
  unfold EStateM.tryCatch
  cases x s <;> rfl

theorem Triple.handle {A' : Abort → State → Prop} {f : Abort → Exec α} (hx : Triple I x Q A')
    (hf : ∀ e, Triple (A' e) (f e) Q A) : Triple I (tryCatch x f) Q A := by
  intro s hs
  have hend := hx s hs
  rw [tryCatch_apply]
  cases hrun : x s with
  | ok a t =>
    rw [hrun] at hend
    exact hend
  | error e t =>
    rw [hrun] at hend
    exact hf e t hend

/-! ## The state -/

theorem triple_raise {c : Cause} (h : ∀ s, I s → A (.fault (c.placed s.machine.span)) s) :
    Triple I (raise c : Exec α) Q A := h

theorem triple_defect {d : Defect}
    (h : ∀ s, I s → A (.fault ((Cause.invalidBytecode d).placed s.machine.span)) s) :
    Triple I (defect d : Exec α) Q A := h

theorem triple_getMachine {Q : Machine → State → Prop} (h : ∀ s, I s → Q s.machine s) :
    Triple I getMachine Q A := h

/-- The machine that is read is the one of the state. -/
theorem Triple.withMachine {f : Machine → Exec β}
    (h : ∀ m, Triple (fun s => I s ∧ s.machine = m) (f m) R A) : Triple I (getMachine >>= f) R A :=
  Triple.bind (triple_getMachine fun _ hs => ⟨hs, rfl⟩) h

theorem triple_getHeap {Q : Heap → State → Prop} (h : ∀ s, I s → Q s.world.heap s) :
    Triple I getHeap Q A := h

theorem triple_get {Q : State → State → Prop} (h : ∀ s, I s → Q s s) : Triple I get Q A := h

theorem triple_modify {Q : Unit → State → Prop} {f : State → State} (h : ∀ s, I s → Q () (f s)) :
    Triple I (modify f) Q A := h

theorem triple_modifyGet {f : State → α × State} (h : ∀ s, I s → Q (f s).1 (f s).2) :
    Triple I (modifyGet f) Q A := h

theorem triple_modifyMachine {Q : Unit → State → Prop} {f : Machine → Machine}
    (h : ∀ s, I s → Q () ⟨s.world, f s.machine⟩) : Triple I (modifyMachine f) Q A := h

theorem triple_modifyHeap {Q : Unit → State → Prop} {f : Heap → Heap}
    (h : ∀ s, I s → Q () ⟨{ s.world with heap := f s.world.heap }, s.machine⟩) :
    Triple I (modifyHeap f) Q A := h

theorem triple_allocate {f : Heap → α × Heap}
    (h : ∀ s, I s → Q (f s.world.heap).1 ⟨{ s.world with heap := (f s.world.heap).2 }, s.machine⟩) :
    Triple I (allocate f) Q A := h

end

/-! ## Invariants -/

section

variable {α β : Type} {I : State → Prop} {A : Abort → Prop} {Q : α → Prop} {R : β → Prop} {x : Exec α}

/-- However `x` ends, the state satisfies `I` again; a result satisfies `Q`, and what stops `x`
satisfies `A`. -/
def Keeps (I : State → Prop) (A : Abort → Prop) (x : Exec α) (Q : α → Prop) : Prop :=
  Triple I x (fun a t => I t ∧ Q a) fun e t => I t ∧ A e

theorem keeps_pure {a : α} (h : Q a) : Keeps I A (pure a) Q := triple_pure fun _ hs => ⟨hs, h⟩

theorem Keeps.bind {f : α → Exec β} (hx : Keeps I A x Q) (hf : ∀ a, Q a → Keeps I A (f a) R) :
    Keeps I A (x >>= f) R :=
  Triple.bind hx fun a => Triple.assume (fun _ hs => hs.2) fun ha => (hf a ha).pre fun _ hs => hs.1

/-- What comes first has no result that matters. -/
theorem Keeps.seq {f : α → Exec β} (hx : Keeps I A x fun _ => True) (hf : ∀ a, Keeps I A (f a) R) :
    Keeps I A (x >>= f) R := hx.bind fun a _ => hf a

theorem Keeps.mono {Q' : α → Prop} (hx : Keeps I A x Q) (hQ : ∀ a, Q a → Q' a) : Keeps I A x Q' :=
  Triple.mono hx (fun _ hs => hs) (fun a _ ha => ⟨ha.1, hQ a ha.2⟩) fun _ _ he => he

theorem Keeps.trivial (hx : Keeps I A x Q) : Keeps I A x fun _ => True := hx.mono fun _ _ => True.intro

theorem Keeps.map {f : α → β} (hx : Keeps I A x fun a => R (f a)) : Keeps I A (f <$> x) R :=
  Triple.map hx

theorem keeps_raise {c : Cause} (h : ∀ f, A (.fault f)) : Keeps I A (raise c : Exec α) Q :=
  triple_raise fun _ hs => ⟨hs, h _⟩

theorem keeps_defect {d : Defect} (h : ∀ f, A (.fault f)) : Keeps I A (defect d : Exec α) Q :=
  keeps_raise h

theorem keeps_ofExcept {e : Except Cause α} (h : ∀ f, A (.fault f)) (hQ : ∀ a, e = .ok a → Q a) :
    Keeps I A (ofExcept e) Q := by
  cases e with
  | ok a => exact keeps_pure (hQ a rfl)
  | error c => exact keeps_raise h

theorem keeps_getMachine {Q : Machine → Prop} (h : ∀ s, I s → Q s.machine) : Keeps I A getMachine Q :=
  triple_getMachine fun s hs => ⟨hs, h s hs⟩

theorem keeps_getHeap {Q : Heap → Prop} (h : ∀ s, I s → Q s.world.heap) : Keeps I A getHeap Q :=
  triple_getHeap fun s hs => ⟨hs, h s hs⟩

theorem keeps_get {Q : State → Prop} (h : ∀ s, I s → Q s) : Keeps I A get Q :=
  triple_get fun s hs => ⟨hs, h s hs⟩

theorem keeps_modify {f : State → State} (h : ∀ s, I s → I (f s)) :
    Keeps I A (modify f) fun _ => True := triple_modify fun s hs => ⟨h s hs, True.intro⟩

theorem keeps_modifyMachine {f : Machine → Machine} (h : ∀ s, I s → I ⟨s.world, f s.machine⟩) :
    Keeps I A (modifyMachine f) fun _ => True :=
  triple_modifyMachine fun s hs => ⟨h s hs, True.intro⟩

theorem keeps_modifyHeap {f : Heap → Heap}
    (h : ∀ s, I s → I ⟨{ s.world with heap := f s.world.heap }, s.machine⟩) :
    Keeps I A (modifyHeap f) fun _ => True := triple_modifyHeap fun s hs => ⟨h s hs, True.intro⟩

theorem keeps_allocate {f : Heap → α × Heap}
    (h : ∀ s, I s →
      I ⟨{ s.world with heap := (f s.world.heap).2 }, s.machine⟩ ∧ Q (f s.world.heap).1) :
    Keeps I A (allocate f) Q := triple_allocate h

/-! ## Keys and entries -/

theorem keeps_keyOf (h : ∀ f, A (.fault f)) (v : Value) : Keeps I A (keyOf v) fun _ => True := by
  unfold keyOf
  split
  · exact keeps_pure True.intro
  · exact keeps_raise h

/-- Entries are put in one after the other. -/
theorem keeps_collectEntries {Q : Dict Key Value → Prop} (h : ∀ f, A (.fault f)) {d : Dict Key Value}
    {vs : List Value} (hd : Q d) (hinsert : ∀ d, Q d → ∀ k, ∀ v ∈ vs, Q (d.insert k v)) :
    Keeps I A (collectEntries d vs) Q := by
  fun_induction collectEntries d vs with
  | case1 d k v rest ih =>
    have hv : v ∈ k :: v :: rest := by simp
    have hrest : ∀ w ∈ rest, w ∈ k :: v :: rest := fun w hw => by simp [hw]
    exact (keeps_keyOf h k).seq fun key =>
      ih key (hinsert d hd key v hv) fun d hd k w hw => hinsert d hd k w (hrest w hw)
  | case2 => exact keeps_pure hd

end

end ScriptMachine.Exec
