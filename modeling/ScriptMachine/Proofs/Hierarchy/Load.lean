import Mathlib.Data.List.Forall2
import ScriptMachine.Compile.Load
import ScriptMachine.Proofs.Hierarchy.Link

/-!
# Classes as values

Loading makes a value of every class of the pool, and the parent of that value is the value of the class
that the pool says. The chain above a class value is therefore the way up from its place in the pool
(`Pool.Mirrored.chain`), and so methods, constructors and fields are those of the classes on this way.
-/

namespace ScriptMachine

/-! ## Model -/

/-- The method that a class of the pool declares itself. -/
def ClassConstant.method? (k : ClassConstant) (name : String) : Option Function :=
  (k.methods.find? fun m => m.1 == name).map (·.2)

/-- The constructor that a class of the pool declares itself. -/
def ClassConstant.constructor? (k : ClassConstant) : Option Function :=
  Class.constructorNames.findSome? k.method?

/-- The class that the constant at a place has become. -/
def classOf? (constants : Array Value) (place : Nat) : Option Class :=
  match constants[place]? with
  | some (.cls c) => some c
  | _ => none

/-- A value of a class of the pool; its parent is the value of the parent's place. -/
structure Class.Mirrors (c : Class) (k : ClassConstant) (constants : Array Value) : Prop where
  name : c.name = k.name
  parentName : c.parentName = k.parentName
  properties : c.properties = k.properties
  methods : c.methods.map (fun m => (m.1, m.2.function)) = k.methods
  parent : c.parent = k.parent.bind (classOf? constants)

/-- Every class of the pool has a value. -/
structure Pool.Mirrored (p : Pool) (constants : Array Value) : Prop where
  size : constants.size = p.size
  classes : ∀ place k, p.class? place = some k →
    ∃ c, classOf? constants place = some c ∧ c.Mirrors k constants

theorem classOf?_eq_some_iff {constants : Array Value} {place : Nat} {c : Class} :
    classOf? constants place = some c ↔ constants[place]? = some (.cls c) := by
  unfold classOf?
  constructor
  · intro h
    split at h
    · next hc =>
      cases h
      exact hc
    · cases h
  · intro h
    rw [h]

/-! ## Loading -/

namespace Pool

variable {p q : Pool} {loaded constants : Array Value} {ids : Array Nat} {place : Nat} {path : List Nat}
  {k : ClassConstant}

/-- The value of a class does not depend on the fuel, if there is enough for the way up. -/
theorem Rises.classAt?_congr (h : q.Rises place path) {m n : Nat} (hm : path.length ≤ m)
    (hn : path.length ≤ n) : q.classAt? loaded ids m place = q.classAt? loaded ids n place := by
  induction h generalizing m n with
  | root hk hparent =>
    obtain ⟨m, rfl⟩ := Nat.exists_eq_succ_of_ne_zero (Nat.ne_of_gt hm)
    obtain ⟨n, rfl⟩ := Nat.exists_eq_succ_of_ne_zero (Nat.ne_of_gt hn)
    unfold classAt?
    rw [class?_eq_some_iff.mp hk]
    dsimp only
    rw [hparent]
    rfl
  | up hk hparent _ ih =>
    obtain ⟨m, rfl⟩ := Nat.exists_eq_succ_of_ne_zero (Nat.ne_of_gt (Nat.lt_of_lt_of_le (Nat.succ_pos _) hm))
    obtain ⟨n, rfl⟩ := Nat.exists_eq_succ_of_ne_zero (Nat.ne_of_gt (Nat.lt_of_lt_of_le (Nat.succ_pos _) hn))
    have hsame := ih (Nat.le_of_succ_le_succ hm) (Nat.le_of_succ_le_succ hn)
    unfold classAt?
    rw [class?_eq_some_iff.mp hk]
    dsimp only
    rw [hparent, Option.bind_some, Option.bind_some, hsame]

theorem size_load (p : Pool) (loaded : Array Value) (h : Heap) :
    (p.load loaded h).1.size = loaded.size + (p.size - loaded.size) := by
  simp [load]

/-- The values after loading. -/
theorem getElem?_load (p : Pool) (loaded : Array Value) (h : Heap) : ∃ ids : Array Nat, ∀ place,
    (p.load loaded h).1[place]? =
      if place < loaded.size then loaded[place]?
      else if place < p.size then some (p.valueAt loaded ids place) else none := by
  refine ⟨(assignIds h.nextId (p.toList.drop loaded.size)).1.toArray, fun place => ?_⟩
  unfold load
  dsimp only
  rw [Array.getElem?_append]
  split
  · rfl
  · next hge =>
    rw [List.getElem?_toArray, List.getElem?_map, List.length_drop, Array.length_toList]
    by_cases hlt : place < p.size
    · rw [if_pos hlt, List.getElem?_range (by omega), Option.map_some,
        show loaded.size + (place - loaded.size) = place by omega]
    · rw [if_neg hlt, List.getElem?_eq_none (by rw [List.length_range]; omega), Option.map_none]

/-- After loading, the value of a class is what `classAt?` makes of its place. -/
theorem classOf?_load (hload : ∀ place, constants[place]? =
      if place < loaded.size then loaded[place]?
      else if place < q.size then some (q.valueAt loaded ids place) else none)
    (hk : q.class? place = some k) :
    classOf? constants place = q.classAt? loaded ids (q.size + 1) place := by
  unfold classOf?
  rw [hload]
  by_cases hold : place < loaded.size
  · rw [if_pos hold]
    cases hv : loaded[place]? with
    | none => simp only [classAt?, if_pos hold, hv]
    | some v => cases v <;> simp only [classAt?, if_pos hold, hv]
  · rw [if_neg hold, if_pos (lt_size_of_class? hk)]
    unfold valueAt
    rw [class?_eq_some_iff.mp hk]
    dsimp only
    cases q.classAt? loaded ids (q.size + 1) place <;> rfl

/-- The value of a new class mirrors it. -/
theorem Founded.mirrors_load (hq : q.Founded) (hload : ∀ place, constants[place]? =
      if place < loaded.size then loaded[place]?
      else if place < q.size then some (q.valueAt loaded ids place) else none)
    (hnew : loaded.size ≤ place) (hk : q.class? place = some k) :
    ∃ c, classOf? constants place = some c ∧ c.Mirrors k constants := by
  rw [classOf?_load hload hk]
  unfold classAt?
  rw [if_neg (Nat.not_lt.mpr hnew), class?_eq_some_iff.mp hk]
  refine ⟨_, rfl, rfl, rfl, rfl, ?_, ?_⟩
  · apply List.ext_getElem
    · simp
    · intro i hi hi'
      simp
  · dsimp only
    cases hparent : k.parent with
    | none => rfl
    | some parent =>
      obtain ⟨path, hrises⟩ := hq.parent hk hparent
      obtain ⟨above, habove⟩ := hrises.class?
      have hlength := hrises.length_le
      rw [Option.bind_some, Option.bind_some, classOf?_load hload habove]
      exact hrises.classAt?_congr hlength (Nat.le_succ_of_le hlength)

/-- Loading gives every class a value, and leaves those of earlier units alone. -/
theorem Mirrored.load (h : p.Mirrored loaded) (hp : p.Founded) (hbegins : p.Begins q) (hq : q.Founded)
    (heap : Heap) : q.Mirrored (q.load loaded heap).1 := by
  have hsize : loaded.size ≤ q.size := h.size ▸ hbegins.size
  refine ⟨by rw [size_load]; omega, fun place k hk => ?_⟩
  obtain ⟨ids, hload⟩ := getElem?_load q loaded heap
  by_cases hlt : place < loaded.size
  · -- a class of an earlier unit, whose parent is one too
    have hold : ∀ i, i < loaded.size → classOf? (q.load loaded heap).1 i = classOf? loaded i := by
      intro i hi
      unfold classOf?
      rw [hload, if_pos hi]
    have hclass : p.class? place = some k := by
      unfold Pool.class? at hk ⊢
      rwa [hbegins.same place (h.size ▸ hlt)] at hk
    obtain ⟨c, hc, hmirrors⟩ := h.classes place k hclass
    refine ⟨c, (hold place hlt).trans hc, hmirrors.name, hmirrors.parentName, hmirrors.properties,
      hmirrors.methods, ?_⟩
    rw [hmirrors.parent]
    cases hparent : k.parent with
    | none => rfl
    | some parent =>
      obtain ⟨path, hrises⟩ := hp.parent hclass hparent
      exact (hold parent (h.size ▸ hrises.lt_size_self)).symm
  · exact hq.mirrors_load hload (Nat.le_of_not_lt hlt) hk

end Pool

/-! ## Looking up -/

namespace Class

variable {c d : Class} {k : ClassConstant} {constants : Array Value}

theorem chain_of_none (h : c.parent = none) : c.chain = [c] := by
  obtain ⟨id, name, parentName, properties, methods, parent⟩ := c
  cases h
  rw [chain]

theorem chain_of_some (h : c.parent = some d) : c.chain = c :: d.chain := by
  obtain ⟨id, name, parentName, properties, methods, parent⟩ := c
  cases h
  rw [chain]

theorem Mirrors.ownMethod? (h : c.Mirrors k constants) (name : String) :
    (c.ownMethod? name).map (·.function) = k.method? name := by
  unfold Class.ownMethod? ClassConstant.method?
  rw [← h.methods, List.find?_map, Option.map_map, Option.map_map]
  rfl

end Class

/-- The first answer from two lists that answer alike. -/
theorem map_findSome?_of_forall₂ {α β γ δ : Type} {R : α → β → Prop} {f : α → Option γ} {g : β → Option δ}
    {φ : γ → δ} (hR : ∀ a b, R a b → (f a).map φ = g b) {l : List α} {l' : List β}
    (h : List.Forall₂ R l l') : (l.findSome? f).map φ = l'.findSome? g := by
  induction h with
  | nil => rfl
  | @cons a b l l' hab _ ih =>
    rw [List.findSome?_cons, List.findSome?_cons, ← hR a b hab]
    cases f a with
    | none => exact ih
    | some x => rfl

theorem Class.Mirrors.ownConstructor? {c : Class} {k : ClassConstant} {constants : Array Value}
    (h : c.Mirrors k constants) : c.ownConstructor?.map (·.function) = k.constructor? :=
  map_findSome?_of_forall₂ (R := Eq) (fun _ _ hname => hname ▸ h.ownMethod? _) (List.forall₂_refl _)

namespace Pool

variable {p : Pool} {constants : Array Value} {place : Nat} {path : List Nat}

/-- A value of the class at a place. -/
def Shows (p : Pool) (constants : Array Value) (c : Class) (place : Nat) : Prop :=
  ∃ k, p.class? place = some k ∧ c.Mirrors k constants

/-- The chain above the value of a class is the way up from its place. -/
theorem Mirrored.chain (h : p.Mirrored constants) (hr : p.Rises place path) :
    ∃ c, classOf? constants place = some c ∧ List.Forall₂ (p.Shows constants) c.chain path := by
  induction hr with
  | root hk hparent =>
    obtain ⟨c, hc, hmirrors⟩ := h.classes _ _ hk
    refine ⟨c, hc, ?_⟩
    rw [Class.chain_of_none (by rw [hmirrors.parent, hparent]; rfl)]
    exact .cons ⟨_, hk, hmirrors⟩ .nil
  | up hk hparent _ ih =>
    obtain ⟨c, hc, hmirrors⟩ := h.classes _ _ hk
    obtain ⟨d, hd, hchain⟩ := ih
    refine ⟨c, hc, ?_⟩
    rw [Class.chain_of_some (by rw [hmirrors.parent, hparent]; exact hd)]
    exact .cons ⟨_, hk, hmirrors⟩ hchain

section

variable {c : Class} (h : List.Forall₂ (p.Shows constants) c.chain path)

include h

/-- A method is that of the nearest class on the way up that declares it. -/
theorem findMethod?_of_shows (name : String) : (c.findMethod? name).map (·.function) =
    path.findSome? fun i => (p.class? i).bind fun k => k.method? name := by
  refine map_findSome?_of_forall₂ (fun d i hd => ?_) h
  obtain ⟨k, hk, hmirrors⟩ := hd
  rw [hk]
  exact hmirrors.ownMethod? name

/-- The constructor is that of the nearest class on the way up that declares one. -/
theorem constructor?_of_shows : c.constructor?.map (·.function) =
    path.findSome? fun i => (p.class? i).bind ClassConstant.constructor? := by
  refine map_findSome?_of_forall₂ (fun d i hd => ?_) h
  obtain ⟨k, hk, hmirrors⟩ := hd
  rw [hk]
  exact hmirrors.ownConstructor?

/-- The fields are those that the classes on the way up declare, those of the root first. -/
theorem fieldNames_of_shows : c.fieldNames =
    path.reverse.foldl (fun names i => Class.addNames names (((p.class? i).map (·.properties)).getD [])) [] := by
  have hsame : c.chain.map Class.properties = path.map fun i => ((p.class? i).map (·.properties)).getD [] := by
    generalize c.chain = chain at h
    induction h with
    | nil => rfl
    | cons hd _ ih =>
      obtain ⟨k, hk, hmirrors⟩ := hd
      rw [List.map_cons, List.map_cons, ih, hk, hmirrors.properties]
      rfl
  unfold Class.fieldNames
  rw [← List.foldl_map (f := Class.properties) (g := Class.addNames), List.map_reverse, hsame, ← List.map_reverse,
    List.foldl_map]

end

end Pool

end ScriptMachine
