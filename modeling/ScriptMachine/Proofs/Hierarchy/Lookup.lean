import ScriptMachine.Proofs.Containers.Basic
import ScriptMachine.Proofs.Hierarchy.Load

/-!
# What a class looks up

Methods and constructors are looked up on the way from a class to its parent, to the parent of that, and so on. The
first class on this way that declares one decides (`Class.Nearest`). Fields have names in the order of their classes,
the root first, and a new object binds them to its arguments by position (`Heap.binds_newObject`).
-/

namespace ScriptMachine

/-! ## The way up -/

/-- From a class one comes to another by parents, past the classes in between. -/
inductive Class.Ascends : Class → List Class → Class → Prop where
  | here (c : Class) : Ascends c [] c
  | up {c p d : Class} {passed : List Class} : c.parent = some p → Ascends p passed d → Ascends c (c :: passed) d

section

variable {α : Type} {c d p : Class} {own : Class → Option α} {x : α} {passed : List Class} {m : Closure}
  {name : String}

/-- The nearest class on the way up that has its own answer gives `x`. -/
def Class.Nearest (c : Class) (own : Class → Option α) (x : α) : Prop :=
  ∃ passed d, c.Ascends passed d ∧ (∀ k ∈ passed, own k = none) ∧ own d = some x

/-- No class on the way up has its own answer. -/
def Class.Lacks (c : Class) (own : Class → Option α) : Prop := ∀ passed d, c.Ascends passed d → own d = none

namespace Class

/-- A chain begins with its class. -/
theorem chain_eq_cons (c : Class) : c.chain = c :: (c.parent.map chain).getD [] := by
  cases hparent : c.parent with
  | none => exact chain_of_none hparent
  | some p => exact chain_of_some hparent

theorem Ascends.chain (h : c.Ascends passed d) : c.chain = passed ++ d.chain := by
  induction h with
  | here => rfl
  | up hparent _ ih => rw [chain_of_some hparent, ih, List.cons_append]

/-- A way up is what a chain begins with. -/
theorem ascends_iff : c.Ascends passed d ↔ ∃ above, c.chain = passed ++ d :: above := by
  constructor
  · intro h
    exact ⟨_, h.chain.trans (congrArg _ d.chain_eq_cons)⟩
  · rintro ⟨above, h⟩
    induction passed generalizing c with
    | nil =>
      rw [chain_eq_cons] at h
      obtain rfl := (List.cons.inj h).1
      exact .here c
    | cons k passed ih =>
      cases hparent : c.parent with
      | none =>
        rw [chain_of_none hparent] at h
        exact absurd (List.cons.inj h).2 (by simp)
      | some p =>
        rw [chain_of_some hparent] at h
        obtain ⟨rfl, hrest⟩ := List.cons.inj h
        exact .up hparent (ih hrest)

theorem findSome?_chain_eq_some : c.chain.findSome? own = some x ↔ c.Nearest own x := by
  rw [List.findSome?_eq_some_iff]
  constructor
  · rintro ⟨passed, d, above, hchain, hx, hnone⟩
    exact ⟨passed, d, ascends_iff.mpr ⟨above, hchain⟩, hnone, hx⟩
  · rintro ⟨passed, d, hascends, hnone, hx⟩
    obtain ⟨above, hchain⟩ := ascends_iff.mp hascends
    exact ⟨passed, d, above, hchain, hx, hnone⟩

theorem findSome?_chain_eq_none : c.chain.findSome? own = none ↔ c.Lacks own := by
  rw [List.findSome?_eq_none_iff]
  constructor
  · intro h passed d hascends
    obtain ⟨above, hchain⟩ := ascends_iff.mp hascends
    exact h d (hchain ▸ List.mem_append_right _ List.mem_cons_self)
  · intro h d hd
    obtain ⟨passed, above, hchain⟩ := List.append_of_mem hd
    exact h passed d (ascends_iff.mpr ⟨above, hchain⟩)

/-! ## Methods and constructors -/

theorem findMethod?_eq_some_iff : c.findMethod? name = some m ↔ c.Nearest (·.ownMethod? name) m :=
  findSome?_chain_eq_some

theorem findMethod?_eq_none_iff : c.findMethod? name = none ↔ c.Lacks (·.ownMethod? name) := findSome?_chain_eq_none

theorem constructor?_eq_some_iff : c.constructor? = some m ↔ c.Nearest ownConstructor? m := findSome?_chain_eq_some

theorem constructor?_eq_none_iff : c.constructor? = none ↔ c.Lacks ownConstructor? := findSome?_chain_eq_none

/-- Within one class `init` comes before `constructor`. -/
theorem ownConstructor?_eq_some_iff : c.ownConstructor? = some m ↔
    c.ownMethod? "init" = some m ∨ c.ownMethod? "init" = none ∧ c.ownMethod? "constructor" = some m := by
  unfold ownConstructor? constructorNames
  cases hinit : c.ownMethod? "init" with
  | some n => simp [hinit]
  | none => cases hconstructor : c.ownMethod? "constructor" <;> simp [hinit, hconstructor]

/-! ## Fields -/

/-- Properties that are there already are not added again, nor is one added twice. -/
theorem addNames_eq (names properties : List String) :
    addNames names properties = names ++ (properties.filter (· ∉ names)).eraseDups := by
  unfold addNames
  induction properties generalizing names with
  | nil => simp
  | cons p ps ih =>
    rw [List.foldl_cons, ih]
    by_cases hp : p ∈ names
    · simp [hp]
    · have hrest : (ps.filter (· ∉ names ++ [p])) = (ps.filter (· ∉ names)).filter fun q => !q == p := by
        rw [List.filter_filter]
        refine List.filter_congr fun q _ => ?_
        by_cases hq : q ∈ names <;> by_cases heq : q = p <;> simp [hq, heq]
      rw [if_neg (by simpa using hp), hrest, List.append_assoc, List.singleton_append]
      simp [hp, List.eraseDups_cons]

theorem nodup_addNames {names : List String} (h : names.Nodup) (properties : List String) :
    (addNames names properties).Nodup := by
  unfold addNames
  induction properties generalizing names with
  | nil => exact h
  | cons p ps ih =>
    rw [List.foldl_cons]
    refine ih ?_
    split
    · exact h
    · next hp =>
      have hp : p ∉ names := by simpa using hp
      refine List.nodup_append.mpr ⟨h, List.nodup_singleton p, fun q hq r hr heq => hp ?_⟩
      rwa [← List.mem_singleton.mp hr, ← heq]

/-- No field is named twice. -/
theorem nodup_fieldNames (c : Class) : c.fieldNames.Nodup := by
  unfold fieldNames
  generalize c.chain.reverse = classes
  suffices ∀ names : List String, names.Nodup →
      (classes.foldl (fun names k => addNames names k.properties) names).Nodup from this [] .nil
  induction classes with
  | nil => exact fun _ h => h
  | cons k ks ih => exact fun _ h => ih _ (nodup_addNames h k.properties)

/-- The fields of the parent come first, and the new properties of the class after them. -/
theorem fieldNames_eq (c : Class) : c.fieldNames =
    (c.parent.map fieldNames).getD [] ++
      (c.properties.filter (· ∉ (c.parent.map fieldNames).getD [])).eraseDups := by
  rw [← addNames_eq]
  cases hparent : c.parent with
  | none =>
    unfold fieldNames
    rw [chain_of_none hparent]
    rfl
  | some p =>
    rw [fieldNames, chain_of_some hparent, List.reverse_cons, List.foldl_append]
    rfl

end Class

end

/-! ## New objects -/

namespace Heap

/-- The fields of an object are those of its class, in order, and each is bound to the argument in its place, or to
null if there is none. -/
structure Binds (h : Heap) (ref : Ref) (c : Class) (args : List Value) : Prop where
  keys : (h.objectFields ref).keys = c.fieldNames
  fields : ∀ (i : Nat) (name : String), c.fieldNames[i]? = some name →
    (h.objectFields ref).get? name = some (args[i]?.getD .null)

theorem map_fst_fields (names : List String) (args : List Value) :
    (names.mapIdx fun i name => (name, args[i]?.getD .null)).map Prod.fst = names := by
  refine List.ext_getElem? fun i => ?_
  rw [List.getElem?_map, List.getElem?_mapIdx]
  cases names[i]? <;> rfl

theorem toList_initialFields (c : Class) (args : List Value) : (initialFields c args).toList =
    c.fieldNames.mapIdx fun i name => (name, args[i]?.getD .null) := by
  refine Dict.toList_ofList ?_
  refine List.Pairwise.of_map Prod.fst (fun e f hne => beq_eq_false_iff_ne.mpr hne) ?_
  rw [map_fst_fields]
  exact c.nodup_fieldNames

/-- A new object has a place that no object had before. -/
theorem binds_newObject (h : Heap) (c : Class) (args : List Value) :
    (h.newObject c args).1 = .object h.fields.size c ∧ (h.newObject c args).2.Binds h.fields.size c args := by
  have hfields : (h.newObject c args).2.objectFields h.fields.size = initialFields c args := by
    show (h.fields.push (initialFields c args))[h.fields.size]?.getD .empty = _
    rw [Array.getElem?_push_size]
    rfl
  refine ⟨rfl, ?_, fun i name hi => ?_⟩
  · rw [hfields, Dict.keys, toList_initialFields, map_fst_fields]
  · rw [hfields]
    refine (Dict.distinct_ofList _).get?_of_mem ?_
    show _ ∈ (initialFields c args).toList
    rw [toList_initialFields]
    refine List.mem_of_getElem? (i := i) ?_
    rw [List.getElem?_mapIdx, hi]
    rfl

end Heap

end ScriptMachine
