import ScriptMachine.Machine.Access
import ScriptMachine.Native.Prelude

/-!
# Closures within reach

A running program can only call closures that it gets hold of: in its values, in the objects of the
heap, and in the methods of classes. A value is *over* `G` if all closures within its reach satisfy
`G`. Nothing that a program can do to values, and nothing that the operations of the heap do, brings
closures from elsewhere into reach.

Host functions are code from outside. `Native.Honest` is what a program relies on: a host function
has no closures of its own, so it answers with what it was given or with plain data. The prelude is
honest.
-/

namespace ScriptMachine

/-! ## Values -/

/-- All methods of a class and of its ancestors satisfy `G`. -/
def Class.Over (G : Closure → Prop) (c : Class) : Prop :=
  ∀ k ∈ c.chain, ∀ m ∈ k.methods, G m.2

/-- All closures within reach of a value, apart from those on the heap, satisfy `G`. -/
def Value.Over (G : Closure → Prop) : Value → Prop
  | .closure c => G c
  | .cls c | .object _ c => c.Over G
  | _ => True

/-- All values of a dictionary satisfy `P`. -/
def Dict.All {κ ν : Type} (P : ν → Prop) (d : Dict κ ν) : Prop := ∀ e ∈ d.entries, P e.2

/-- All values on the heap are over `G`. -/
structure Heap.Over (G : Closure → Prop) (h : Heap) : Prop where
  arrays : ∀ a ∈ h.arrays, ∀ v ∈ a, v.Over G
  maps : ∀ d ∈ h.maps, d.All (Value.Over G)
  hashes : ∀ d ∈ h.hashes, d.All (Value.Over G)
  cells : ∀ v ∈ h.cells, v.Over G
  fields : ∀ d ∈ h.fields, d.All (Value.Over G)
  channels : ∀ c ∈ h.channels, ∀ v ∈ c.buffer, v.Over G

/-- A host function answers with what it was given or with plain data. -/
def Native.Honest (n : Native) : Prop :=
  ∀ (G : Closure → Prop) (h : Heap) (args : List Value), h.Over G → (∀ v ∈ args, v.Over G) →
    (n.body h args).2.Over G ∧ ∀ v, (n.body h args).1 = .value v → v.Over G

section

variable {G G' : Closure → Prop} {κ ν : Type}

theorem Value.Over.mono {v : Value} (h : v.Over G) (hG : ∀ c, G c → G' c) : v.Over G' := by
  cases v with
  | closure c => exact hG _ h
  | cls c | object ref c => exact fun k hk m hm => hG _ (h k hk m hm)
  | _ => trivial

theorem Heap.Over.mono {h : Heap} (hh : h.Over G) (hG : ∀ c, G c → G' c) : h.Over G' where
  arrays a ha v hv := (hh.arrays a ha v hv).mono hG
  maps d hd e he := (hh.maps d hd e he).mono hG
  hashes d hd e he := (hh.hashes d hd e he).mono hG
  cells v hv := (hh.cells v hv).mono hG
  fields d hd e he := (hh.fields d hd e he).mono hG
  channels c hc v hv := (hh.channels c hc v hv).mono hG

/-- A slot that holds nothing reads as null. -/
theorem Value.over_getElem? {a : Array Value} (h : ∀ v ∈ a, v.Over G) (i : Nat) :
    (a[i]?.getD .null).Over G := by
  cases hi : a[i]? with
  | none => trivial
  | some v => exact h v (Array.mem_of_getElem? hi)

theorem all_setIfInBounds {α : Type} {P : α → Prop} {a : Array α}
    (h : ∀ x ∈ a, P x) (i : Nat) {x : α} (hx : P x) : ∀ y ∈ a.setIfInBounds i x, P y := by
  intro y hy
  rcases Array.mem_or_eq_of_mem_setIfInBounds hy with hy | rfl
  · exact h y hy
  · exact hx

theorem all_modify {α : Type} {P : α → Prop} {a : Array α} (h : ∀ x ∈ a, P x)
    (i : Nat) {g : α → α} (hg : ∀ x, P x → P (g x)) : ∀ y ∈ a.modify i g, P y := by
  intro y hy
  obtain ⟨j, hj, rfl⟩ := Array.getElem_of_mem hy
  have hlt : j < a.size := by simpa using hj
  have hmem := h a[j] (Array.getElem_mem hlt)
  rw [Array.getElem_modify]
  split
  · exact hg _ hmem
  · exact hmem

/-! ## Dictionaries -/

namespace Dict

variable {P : ν → Prop} {d : Dict κ ν}

theorem all_empty : (empty : Dict κ ν).All P := by simp [All, empty]

theorem All.values (h : d.All P) : ∀ v ∈ d.values, P v := by
  intro v hv
  obtain ⟨e, he, rfl⟩ := List.mem_map.mp hv
  exact h e (Array.mem_toList_iff.mp he)

variable [BEq κ]

theorem All.insert (h : d.All P) (k : κ) {v : ν} (hv : P v) : (d.insert k v).All P := by
  unfold Dict.insert
  split
  · exact all_modify h _ (fun e _ => show P (e.1, v).2 from hv)
  · exact Array.forall_mem_push.mpr ⟨hv, h⟩

theorem all_ofList {es : List (κ × ν)} (h : ∀ e ∈ es, P e.2) : (ofList es).All P := by
  unfold ofList
  generalize hd : (empty : Dict κ ν) = d
  have hall : d.All P := hd ▸ all_empty
  clear hd
  induction es generalizing d with
  | nil => exact hall
  | cons e es ih =>
    exact ih (fun e he => h e (List.mem_cons_of_mem _ he)) _
      (hall.insert e.1 (h e List.mem_cons_self))

theorem All.get? (h : d.All P) {k : κ} {v : ν} (hv : d.get? k = some v) : P v := by
  obtain ⟨e, he, rfl⟩ := Option.map_eq_some_iff.mp hv
  exact h e (Array.mem_of_find?_eq_some he)

end Dict

/-! ## Channels -/

namespace Channel

variable {α : Type} {P : α → Prop} {c : Channel α}

theorem forall_mem_send (h : ∀ a ∈ c.buffer, P a) {a : α} (ha : P a) :
    ∀ b ∈ (c.send a).2.buffer, P b := by
  have henqueue : ∀ b ∈ (c.enqueue a).buffer, P b := by
    intro b hb
    rcases List.mem_append.mp hb with hb | hb
    · exact h b hb
    · obtain rfl := List.mem_singleton.mp hb
      exact ha
  unfold send
  split
  · exact h
  · split
    · exact henqueue
    · split
      · exact h
      · exact henqueue
    · exact henqueue

theorem forall_mem_recv (h : ∀ a ∈ c.buffer, P a) :
    (∀ b ∈ c.recv.2.buffer, P b) ∧ ∀ a, c.recv.1 = .received a → P a := by
  unfold recv dequeue?
  cases hbuffer : c.buffer with
  | nil =>
    refine ⟨by simp [hbuffer], ?_⟩
    intro a ha
    dsimp only at ha
    split at ha <;> cases ha
  | cons b rest =>
    rw [hbuffer] at h
    refine ⟨fun a ha => h a (List.mem_cons_of_mem _ ha), ?_⟩
    rintro a ⟨⟩
    exact h b List.mem_cons_self

end Channel

/-! ## The heap -/

namespace Heap

theorem over_empty : Heap.empty.Over G := by constructor <;> simp [Heap.empty]

namespace Over

variable {h : Heap}

theorem array (hh : h.Over G) (r : Ref) : ∀ v ∈ h.array r, v.Over G := by
  unfold Heap.array
  cases hr : h.arrays[r]? with
  | none => simp
  | some a => exact hh.arrays a (Array.mem_of_getElem? hr)

theorem map (hh : h.Over G) (r : Ref) : (h.map r).All (Value.Over G) := by
  unfold Heap.map
  cases hr : h.maps[r]? with
  | none => exact Dict.all_empty
  | some d => exact hh.maps d (Array.mem_of_getElem? hr)

theorem hash (hh : h.Over G) (r : Ref) : (h.hash r).All (Value.Over G) := by
  unfold Heap.hash
  cases hr : h.hashes[r]? with
  | none => exact Dict.all_empty
  | some d => exact hh.hashes d (Array.mem_of_getElem? hr)

theorem objectFields (hh : h.Over G) (r : Ref) : (h.objectFields r).All (Value.Over G) := by
  unfold Heap.objectFields
  cases hr : h.fields[r]? with
  | none => exact Dict.all_empty
  | some d => exact hh.fields d (Array.mem_of_getElem? hr)

theorem cell (hh : h.Over G) (r : Ref) : (h.cell r).Over G := Value.over_getElem? hh.cells r

theorem channel (hh : h.Over G) (r : Ref) : ∀ v ∈ (h.channel r).buffer, v.Over G := by
  unfold Heap.channel
  cases hr : h.channels[r]? with
  | none => simp [Channel.new]
  | some c => exact hh.channels c (Array.mem_of_getElem? hr)

theorem newArray (hh : h.Over G) {vs : Array Value} (hvs : ∀ v ∈ vs, v.Over G) :
    (h.newArray vs).2.Over G :=
  { hh with arrays := Array.forall_mem_push.mpr ⟨hvs, hh.arrays⟩ }

theorem newMap (hh : h.Over G) {d : Dict Key Value} (hd : d.All (Value.Over G)) :
    (h.newMap d).2.Over G :=
  { hh with maps := Array.forall_mem_push.mpr ⟨hd, hh.maps⟩ }

theorem newHash (hh : h.Over G) {d : Dict Key Value} (hd : d.All (Value.Over G)) :
    (h.newHash d).2.Over G :=
  { hh with hashes := Array.forall_mem_push.mpr ⟨hd, hh.hashes⟩ }

theorem newCell (hh : h.Over G) {v : Value} (hv : v.Over G) : (h.newCell v).2.Over G :=
  { hh with cells := Array.forall_mem_push.mpr ⟨hv, hh.cells⟩ }

theorem newChannel (hh : h.Over G) (capacity : Option Nat) : (h.newChannel capacity).2.Over G :=
  { hh with channels := Array.forall_mem_push.mpr ⟨(by simp [Channel.new]), hh.channels⟩ }

theorem newClosure (hh : h.Over G) (f : Function) (free : Array Ref) :
    (h.newClosure f free).2.Over G :=
  { hh with }

theorem newObject (hh : h.Over G) (c : Class) {args : List Value} (hargs : ∀ v ∈ args, v.Over G) :
    (h.newObject c args).2.Over G := by
  refine { hh with fields := Array.forall_mem_push.mpr ⟨(Dict.all_ofList ?_), hh.fields⟩ }
  intro e he
  obtain ⟨i, hi, rfl⟩ := List.mem_mapIdx.mp he
  dsimp only
  cases harg : args[i]? with
  | none => trivial
  | some v => exact hargs v (List.mem_of_getElem? harg)

theorem modifyArray (hh : h.Over G) (r : Ref) {g : Array Value → Array Value}
    (hg : ∀ a : Array Value, (∀ v ∈ a, v.Over G) → ∀ v ∈ g a, v.Over G) :
    (h.modifyArray r g).Over G :=
  { hh with arrays := all_modify hh.arrays r hg }

theorem setCell (hh : h.Over G) (r : Ref) {v : Value} (hv : v.Over G) : (h.setCell r v).Over G :=
  { hh with cells := all_setIfInBounds hh.cells r hv }

theorem setChannel (hh : h.Over G) (r : Ref) {c : Channel Value} (hc : ∀ v ∈ c.buffer, v.Over G) :
    (h.setChannel r c).Over G :=
  { hh with channels := all_setIfInBounds hh.channels r hc }

theorem closeChannel (hh : h.Over G) (r : Ref) : (h.closeChannel r).Over G :=
  { hh with channels := all_modify hh.channels r fun _ hc => hc }

theorem write (hh : h.Over G) (place : Place) {v : Value} (hv : v.Over G) :
    (h.write place v).Over G := by
  cases place with
  | item r i => exact hh.modifyArray r fun a ha => all_setIfInBounds ha i hv
  | mapEntry r k =>
    exact { hh with maps := all_modify hh.maps r fun _ hd => hd.insert k hv }
  | hashEntry r k =>
    exact { hh with hashes := all_modify hh.hashes r fun _ hd => hd.insert k hv }
  | field r name =>
    exact { hh with fields := all_modify hh.fields r fun _ hd => hd.insert name hv }

end Over

end Heap

/-- What may be missing reads as null. -/
theorem Dict.All.getD {κ : Type} [BEq κ] {d : Dict κ Value} (h : d.All (Value.Over G)) (k : κ) :
    ((d.get? k).getD .null).Over G := by
  cases hk : d.get? k with
  | none => trivial
  | some v => exact h.get? hk

/-! ## Operations -/

theorem over_arrayItem {h : Heap} (hh : h.Over G) (r : Ref) (i : Int64) :
    (h.arrayItem r i).Over G := by
  unfold Heap.arrayItem
  split
  · trivial
  · exact Value.over_getElem? (hh.array r) _

theorem over_stringItem (s : String) (i : Int64) : (Heap.stringItem s i).Over G := by
  unfold Heap.stringItem
  split
  · trivial
  · split <;> trivial

theorem over_getItem {h : Heap} (hh : h.Over G) {target index v : Value}
    (hv : h.getItem target index = .ok v) : v.Over G := by
  have entry : ∀ {d : Dict Key Value}, d.All (Value.Over G) →
      (Heap.keyOrCause index).map (fun k => (d.get? k).getD .null) = .ok v → v.Over G := by
    intro d hd hv
    cases hkey : Heap.keyOrCause index with
    | error c => rw [hkey] at hv; cases hv
    | ok k =>
      rw [hkey] at hv
      cases hv
      exact hd.getD k
  unfold Heap.getItem at hv
  split at hv
  · cases hv
    exact over_arrayItem hh _ _
  · cases hv
    exact over_stringItem _ _
  · exact entry (hh.map _) hv
  · exact entry (hh.hash _) hv
  · cases hv
  · cases hv
  · cases hv

theorem over_property? {h : Heap} (hh : h.Over G) {target v : Value} {name : String}
    (hv : h.property? target name = some (some v)) : v.Over G := by
  unfold Heap.property? at hv
  split at hv
  · exact (hh.objectFields _).get? (Option.some.inj hv)
  · exact (hh.map _).get? (Option.some.inj hv)
  · exact (hh.hash _).get? (Option.some.inj hv)
  · cases hv

theorem over_getProperty {h : Heap} (hh : h.Over G) {target v : Value} {name : String}
    (hv : h.getProperty target name = .ok v) : v.Over G := by
  unfold Heap.getProperty at hv
  split at hv
  · next field hfield =>
    cases hv
    cases field with
    | none => trivial
    | some v => exact over_property? hh hfield
  · cases hv

theorem over_apply {h : Heap} {op : BinaryOp} {a b v : Value} (hv : op.apply h a b = .ok v) :
    v.Over G := by
  have ints : ∀ {x y : Int64}, op.onInts x y = .ok v → v.Over G := by
    intro x y hv
    cases op <;> simp only [BinaryOp.onInts] at hv
    case div | mod =>
      split at hv
      · cases hv
      · cases hv
        trivial
    all_goals
      cases hv
      trivial
  have floats : ∀ {x y : Float}, op.onFloats x y = .ok v → v.Over G := by
    intro x y hv
    cases op <;> simp only [BinaryOp.onFloats] at hv
    case div | mod =>
      split at hv
      · cases hv
      · cases hv
        trivial
    all_goals
      cases hv
      trivial
  have strings : ∀ {x y : String}, op.onStrings? x y = some v → v.Over G := by
    intro x y hv
    cases op <;> simp only [BinaryOp.onStrings?] at hv <;> cases hv <;> trivial
  unfold BinaryOp.apply at hv
  split at hv
  · exact ints hv
  · split at hv
    · cases hv
      trivial
    · cases hv
      trivial
    · split at hv
      · exact floats hv
      · dsimp only at hv
        split at hv
        · split at hv
          · next hsome =>
            cases hv
            exact strings hsome
          · cases hv
        · cases hv

theorem over_negate {a v : Value} (hv : a.negate = .ok v) : v.Over G := by
  unfold Value.negate at hv
  split at hv
  · cases hv
    trivial
  · cases hv
    trivial
  · cases hv

/-! ## Classes -/

/-- A method that is found belongs to a class of the chain. -/
theorem Class.Over.findMethod? {c : Class} (h : c.Over G) {name : String} {m : Closure}
    (hm : c.findMethod? name = some m) : G m := by
  obtain ⟨k, hk, hown⟩ := List.exists_of_findSome?_eq_some hm
  obtain ⟨e, he, rfl⟩ := Option.map_eq_some_iff.mp hown
  exact h k hk e (List.mem_of_find?_eq_some he)

theorem Class.Over.constructor? {c : Class} (h : c.Over G) {m : Closure}
    (hm : c.constructor? = some m) : G m := by
  obtain ⟨k, hk, hown⟩ := List.exists_of_findSome?_eq_some hm
  obtain ⟨name, -, hown⟩ := List.exists_of_findSome?_eq_some hown
  obtain ⟨e, he, rfl⟩ := Option.map_eq_some_iff.mp hown
  exact h k hk e (List.mem_of_find?_eq_some he)

theorem Class.Over.parent {c p : Class} (h : c.Over G) (hp : c.parent = some p) : p.Over G := by
  intro k hk
  refine h k ?_
  obtain ⟨id, name, parentName, properties, methods, parent⟩ := c
  cases hp
  exact List.mem_cons_of_mem _ hk

/-! ## Host functions -/

theorem Native.Honest.call {n : Native} (hn : n.Honest) {h : Heap} {args : List Value}
    (hh : h.Over G) (hargs : ∀ v ∈ args, v.Over G) :
    (n.call h args).2.Over G ∧ ∀ v, (n.call h args).1 = .value v → v.Over G := by
  unfold Native.call
  split
  · split
    · exact hn G h args hh hargs
    · refine ⟨hh, ?_⟩
      rintro v ⟨⟩
      trivial
  · exact hn G h args hh hargs

theorem Native.honest_pure {name : String} {arity : Option Nat} {g : Heap → List Value → Value}
    (hg : ∀ (G : Closure → Prop) h args, (∀ v ∈ args, v.Over G) → (g h args).Over G) :
    (Native.pure name arity g).Honest := by
  intro G h args hh hargs
  refine ⟨hh, ?_⟩
  rintro v ⟨⟩
  exact hg G h args hargs

theorem Prelude.honest_arrayOutcome {h : Heap} {vs : List Value} (hh : h.Over G)
    (hvs : ∀ v ∈ vs, v.Over G) : (arrayOutcome h vs).2.Over G ∧
      ∀ v, (arrayOutcome h vs).1 = .value v → v.Over G := by
  refine ⟨hh.newArray (by simpa using hvs), ?_⟩
  rintro v ⟨⟩
  trivial

theorem Key.over_toValue (k : Key) : k.toValue.Over G := by cases k <;> trivial

theorem Prelude.honest {n : Native} (hn : n ∈ Prelude.functions) : n.Honest := by
  have hfirst : ∀ {G : Closure → Prop} {args : List Value}, (∀ v ∈ args, v.Over G) →
      (first args).Over G := by
    intro G args hargs
    cases args with
    | nil => trivial
    | cons v vs => exact hargs v List.mem_cons_self
  simp only [functions, List.mem_cons, List.not_mem_nil, or_false] at hn
  rcases hn with rfl | rfl | rfl | rfl | rfl | rfl | rfl | rfl
  · apply Native.honest_pure
    intro G h args _
    split <;> trivial
  · intro G h args hh _
    unfold close
    dsimp only
    split
    · exact ⟨hh.closeChannel _, by rintro v ⟨⟩; trivial⟩
    · exact ⟨hh, by rintro v ⟨⟩; trivial⟩
  · intro G h args hh _
    unfold keys
    dsimp only
    split
    · apply honest_arrayOutcome hh
      simp only [List.forall_mem_map]
      exact fun k _ => k.over_toValue
    · apply honest_arrayOutcome hh
      simp only [List.forall_mem_map]
      exact fun k _ => k.over_toValue
    · apply honest_arrayOutcome hh
      simp only [List.forall_mem_map]
      exact fun _ _ => trivial
    · exact ⟨hh, by rintro v ⟨⟩; trivial⟩
  · intro G h args hh _
    unfold values
    dsimp only
    split
    · exact honest_arrayOutcome hh (hh.map _).values
    · exact honest_arrayOutcome hh (hh.hash _).values
    · exact honest_arrayOutcome hh (by simpa using hh.array _)
    · exact ⟨hh, by rintro v ⟨⟩; trivial⟩
  · intro G h args hh hargs
    unfold push
    dsimp only
    split
    · refine ⟨hh.modifyArray _ fun a ha => Array.forall_mem_push.mpr ⟨?_, ha⟩, by rintro v ⟨⟩; trivial⟩
      exact hargs _ (List.mem_cons_of_mem _ List.mem_cons_self)
    · exact ⟨hh, by rintro v ⟨⟩; trivial⟩
  · exact Native.honest_pure fun _ _ _ _ => trivial
  · exact Native.honest_pure fun _ _ _ _ => trivial
  · apply Native.honest_pure
    intro G h args hargs
    split <;> trivial

end

end ScriptMachine
