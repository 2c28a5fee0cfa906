import Mathlib
import ScriptMachine.Proofs.Reach

/-!
# Keys, dictionaries and what is open

Keys are compared by kind and by value, except that both zeros are one key. Two keys are equal exactly if they have the
same canonical form, so equality of keys is an equivalence. Each key stands in a dictionary once, and writing an entry
keeps it so.

A walk through containers that may hold themselves opens them one inside the other, none of them twice. What it has
not opened yet bounds how deep it still goes.
-/

namespace ScriptMachine

/-! ## Keys -/

namespace Key

/-- A key as the first of all keys equal to it: both zeros are one key, and there is one NaN only. -/
def canonical : Key → Key
  | .float x => .float (if x = -0 then 0 else x)
  | k => k

theorem beq_iff_canonical (k l : Key) : (k == l) = true ↔ k.canonical = l.canonical := by
  change same k l = true ↔ _
  cases k with
  | float x => cases l with
    | float y =>
      -- as numbers, NaN equals nothing, and the zeros equal each other
      have hzero : (0 : Float) ≠ Float.nan := by decide
      have hnegZero : (-0 : Float) ≠ Float.nan := by decide
      have hbeq := @Float.beq_iff_ne_nan_and_eq x y
      simp only [same, canonical, Key.float.injEq, Float.isNaN_eq_decide_eq_nan, decide_eq_true_eq]
      grind
    | _ => simp [same, canonical]
  | _ => cases l <;> simp [same, canonical]

theorem beq_eq_false_iff_canonical {k l : Key} : (k == l) = false ↔ k.canonical ≠ l.canonical := by
  rw [Bool.eq_false_iff, Ne, beq_iff_canonical]

instance : EquivBEq Key where
  rfl := (beq_iff_canonical _ _).mpr rfl
  symm h := (beq_iff_canonical _ _).mpr ((beq_iff_canonical _ _).mp h).symm
  trans h h' := (beq_iff_canonical _ _).mpr (((beq_iff_canonical _ _).mp h).trans ((beq_iff_canonical _ _).mp h'))

end Key

/-! ## Dictionaries -/

namespace Dict

variable {κ ν : Type} [BEq κ]

/-- Each key stands in a dictionary once. -/
def Distinct (d : Dict κ ν) : Prop := d.keys.Pairwise fun k l => (k == l) = false

theorem distinct_empty : (empty : Dict κ ν).Distinct := List.Pairwise.nil

theorem keys_insert (d : Dict κ ν) (k : κ) (v : ν) :
    (d.insert k v).keys = d.keys ∨
      (∀ l ∈ d.keys, (l == k) = false) ∧ (d.insert k v).keys = d.keys ++ [k] := by
  unfold insert
  split
  · rename_i i hi
    left
    apply List.ext_getElem?
    intro j
    simp only [keys, toList, List.getElem?_map, Array.getElem?_toList, Array.getElem?_modify]
    split
    · simp only [Option.map_map, Function.comp_def]
    · rfl
  · rename_i hnone
    right
    rw [Array.findIdx?_eq_none_iff] at hnone
    refine ⟨?_, by simp [keys, toList]⟩
    intro l hl
    rcases List.mem_map.mp hl with ⟨e, he, rfl⟩
    exact hnone e (Array.mem_toList_iff.mp he)

theorem Distinct.insert {d : Dict κ ν} (hd : d.Distinct) (k : κ) (v : ν) : (d.insert k v).Distinct := by
  unfold Distinct
  rcases keys_insert d k v with hkeys | ⟨hnew, hkeys⟩
  · rw [hkeys]
    exact hd
  · rw [hkeys]
    refine List.pairwise_append.mpr ⟨hd, List.pairwise_singleton _ _, ?_⟩
    intro l hl k' hk'
    rw [List.mem_singleton.mp hk']
    exact hnew l hl

theorem distinct_ofList (es : List (κ × ν)) : (ofList es).Distinct := by
  unfold ofList
  generalize hd : (empty : Dict κ ν) = d
  have hdistinct : d.Distinct := hd ▸ distinct_empty
  clear hd
  induction es generalizing d with
  | nil => exact hdistinct
  | cons e es ih => exact ih _ (hdistinct.insert e.1 e.2)

/-- A new key gets its entry behind those there are. -/
theorem toList_insert_of_new {d : Dict κ ν} {k : κ} (h : ∀ l ∈ d.keys, (l == k) = false) (v : ν) :
    (d.insert k v).toList = d.toList ++ [(k, v)] := by
  have hnone : d.entries.findIdx? (fun e => e.1 == k) = none := by
    rw [Array.findIdx?_eq_none_iff]
    exact fun e he => h e.1 (List.mem_map_of_mem (Array.mem_toList_iff.mpr he))
  unfold insert toList
  rw [hnone]
  exact Array.toList_push

theorem ofList_append (es fs : List (κ × ν)) :
    ofList (es ++ fs) = fs.foldl (fun d e => d.insert e.1 e.2) (ofList es) :=
  List.foldl_append

/-- Keys keep their places. -/
theorem keys_ofList_append (es fs : List (κ × ν)) : (ofList es).keys <+: (ofList (es ++ fs)).keys := by
  rw [ofList_append]
  generalize ofList es = d
  induction fs generalizing d with
  | nil => exact List.prefix_rfl
  | cons f fs ih =>
    refine List.IsPrefix.trans ?_ (ih _)
    rcases keys_insert d f.1 f.2 with hkeys | ⟨-, hkeys⟩
    · rw [hkeys]
    · rw [hkeys]
      exact List.prefix_append _ _

theorem mem_keys_ofList {es : List (κ × ν)} {k : κ} (h : k ∈ (ofList es).keys) : k ∈ es.map (·.1) := by
  induction es using List.reverseRecOn with
  | nil => cases h
  | append_singleton es e ih =>
    rw [ofList_append] at h
    rw [List.map_append, List.mem_append]
    rcases keys_insert (ofList es) e.1 e.2 with hkeys | ⟨-, hkeys⟩
    · exact .inl (ih (hkeys ▸ h))
    · have hmem : k ∈ (ofList es).keys ++ [e.1] := hkeys ▸ h
      exact (List.mem_append.mp hmem).imp ih fun he => he

/-- Keys that are all different get an entry each. -/
theorem toList_ofList {es : List (κ × ν)} (h : es.Pairwise fun e f => (e.1 == f.1) = false) : (ofList es).toList = es := by
  induction es using List.reverseRecOn with
  | nil => rfl
  | append_singleton es e ih =>
    obtain ⟨hes, -, hlast⟩ := List.pairwise_append.mp h
    have hnew : ∀ l ∈ (ofList es).keys, (l == e.1) = false := by
      intro l hl
      obtain ⟨f, hf, rfl⟩ := List.mem_map.mp (mem_keys_ofList hl)
      exact hlast f hf e List.mem_cons_self
    rw [ofList_append]
    exact (toList_insert_of_new hnew e.2).trans (by rw [ih hes])

theorem get?_eq_find? (d : Dict κ ν) (k : κ) : d.get? k = (d.toList.find? fun e => e.1 == k).map (·.2) := by
  rw [toList, Array.find?_toList]
  rfl

theorem mem_of_get? {d : Dict κ ν} {k : κ} {v : ν} (h : d.get? k = some v) :
    ∃ l, (l, v) ∈ d.toList ∧ (l == k) = true := by
  rw [get?_eq_find?] at h
  rcases Option.map_eq_some_iff.mp h with ⟨e, he, rfl⟩
  have hkey : (e.1 == k) = true := List.find?_some (p := fun e : κ × ν => e.1 == k) he
  exact ⟨e.1, List.mem_of_find?_eq_some he, hkey⟩

theorem get?_congr [PartialEquivBEq κ] (d : Dict κ ν) {k l : κ} (h : (k == l) = true) : d.get? k = d.get? l := by
  unfold get?
  rw [show (fun e : κ × ν => e.1 == k) = fun e => e.1 == l from funext fun e => BEq.congr_right h]

/-- An entry is found under its key. -/
theorem Distinct.get?_of_mem [ReflBEq κ] {d : Dict κ ν} (hd : d.Distinct) {k : κ} {v : ν} (h : (k, v) ∈ d.toList) :
    d.get? k = some v := by
  rw [get?_eq_find?]
  unfold Distinct keys at hd
  generalize d.toList = es at hd h
  induction es with
  | nil => cases h
  | cons e es ih =>
    rw [List.map_cons, List.pairwise_cons] at hd
    rcases List.mem_cons.mp h with rfl | hmem
    · simp only [List.find?_cons, BEq.rfl, Option.map_some]
    · have hother : (e.1 == k) = false := hd.1 k (List.mem_map.mpr ⟨_, hmem, rfl⟩)
      simp only [List.find?_cons, hother]
      exact ih hd.2 hmem

theorem canonical_mem_keys_iff {d : Dict Key ν} {k : Key} :
    k.canonical ∈ d.keys.map Key.canonical ↔ (d.get? k).isSome := by
  constructor
  · intro hmem
    rcases List.mem_map.mp hmem with ⟨l, hl, hcanonical⟩
    rcases List.mem_map.mp hl with ⟨e, he, rfl⟩
    rw [get?_eq_find?, Option.isSome_map, List.find?_isSome]
    exact ⟨e, he, (Key.beq_iff_canonical e.1 k).mpr hcanonical⟩
  · intro hsome
    rcases Option.isSome_iff_exists.mp hsome with ⟨v, hv⟩
    rcases mem_of_get? hv with ⟨l, hl, hlk⟩
    exact List.mem_map.mpr ⟨l, List.mem_map.mpr ⟨_, hl, rfl⟩, (Key.beq_iff_canonical l k).mp hlk⟩

/-- If all keys of a dictionary are keys of another one of the same size, that one has no further keys. -/
theorem Distinct.get?_eq_none_of_size {d e : Dict Key ν} (hd : d.Distinct) (hsize : d.size = e.size)
    (h : ∀ k ∈ d.keys, (e.get? k).isSome) {k : Key} (hk : d.get? k = none) : e.get? k = none := by
  have hnodup : (d.keys.map Key.canonical).Nodup := by
    refine List.pairwise_map.mpr (hd.imp ?_)
    intro k l hkl
    exact Key.beq_eq_false_iff_canonical.mp hkl
  have hsub : d.keys.map Key.canonical ⊆ e.keys.map Key.canonical := by
    intro m hm
    rcases List.mem_map.mp hm with ⟨k, hk, rfl⟩
    exact canonical_mem_keys_iff.mpr (h k hk)
  have hlength : (e.keys.map Key.canonical).length ≤ (d.keys.map Key.canonical).length := by
    simpa [keys, toList, size] using Nat.le_of_eq hsize.symm
  -- no key is left over on either side
  have hperm := (hnodup.subperm hsub).perm_of_length_le hlength
  rw [← Option.not_isSome_iff_eq_none, ← canonical_mem_keys_iff] at hk ⊢
  exact mt hperm.mem_iff.mpr hk

end Dict

/-! ## The containers of a heap -/

namespace Heap

section

variable {h : Heap} {r : Ref}

-- a reference that no object has reads as an empty container

theorem lt_of_array_size_pos (hpos : 0 < (h.array r).size) : r < h.arrays.size := by
  by_contra hr
  rw [array, Array.getElem?_eq_none (Nat.le_of_not_lt hr)] at hpos
  exact absurd hpos (Nat.lt_irrefl 0)

theorem lt_of_map_size_pos (hpos : 0 < (h.map r).size) : r < h.maps.size := by
  by_contra hr
  rw [map, Array.getElem?_eq_none (Nat.le_of_not_lt hr)] at hpos
  exact absurd hpos (Nat.lt_irrefl 0)

theorem lt_of_hash_size_pos (hpos : 0 < (h.hash r).size) : r < h.hashes.size := by
  by_contra hr
  rw [hash, Array.getElem?_eq_none (Nat.le_of_not_lt hr)] at hpos
  exact absurd hpos (Nat.lt_irrefl 0)

end

/-- Each key stands once in each dictionary that scripts can get hold of. -/
structure Keyed (h : Heap) : Prop where
  maps : ∀ d ∈ h.maps, d.Distinct
  hashes : ∀ d ∈ h.hashes, d.Distinct

theorem keyed_empty : empty.Keyed where
  maps d hd := absurd hd (Array.not_mem_empty d)
  hashes d hd := absurd hd (Array.not_mem_empty d)

namespace Keyed

variable {h : Heap} (hh : h.Keyed)
include hh

theorem map (r : Ref) : (h.map r).Distinct := by
  unfold Heap.map
  cases hr : h.maps[r]? with
  | none => exact Dict.distinct_empty
  | some d => exact hh.maps d (Array.mem_of_getElem? hr)

theorem hash (r : Ref) : (h.hash r).Distinct := by
  unfold Heap.hash
  cases hr : h.hashes[r]? with
  | none => exact Dict.distinct_empty
  | some d => exact hh.hashes d (Array.mem_of_getElem? hr)

-- dictionaries are made and written by these operations, which keep the keys distinct

theorem newMap {d : Dict Key Value} (hd : d.Distinct) : (h.newMap d).2.Keyed :=
  { hh with maps := Array.forall_mem_push.mpr ⟨hd, hh.maps⟩ }

theorem newHash {d : Dict Key Value} (hd : d.Distinct) : (h.newHash d).2.Keyed :=
  { hh with hashes := Array.forall_mem_push.mpr ⟨hd, hh.hashes⟩ }

theorem insertMap (r : Ref) (k : Key) (v : Value) : (h.modifyMap r (·.insert k v)).Keyed :=
  { hh with maps := all_modify hh.maps r fun _ hd => hd.insert k v }

theorem insertHash (r : Ref) (k : Key) (v : Value) : (h.modifyHash r (·.insert k v)).Keyed :=
  { hh with hashes := all_modify hh.hashes r fun _ hd => hd.insert k v }

end Keyed

end Heap

/-! ## What is not open yet -/

/-- How many members of a list are not open. -/
def leftToOpen {α : Type} [DecidableEq α] (all opened : List α) : Nat := (all.filter (· ∉ opened)).length

theorem leftToOpen_cons_lt {α : Type} [DecidableEq α] {all opened : List α} {c : α} (hmem : c ∈ all)
    (hnew : c ∉ opened) : leftToOpen all (c :: opened) < leftToOpen all opened := by
  have hfilter : all.filter (· ∉ c :: opened) = (all.filter (· ∉ opened)).filter (· ≠ c) := by
    rw [List.filter_filter]
    exact List.filter_congr fun x _ => by simp
  unfold leftToOpen
  rw [hfilter, List.length_filter_lt_length_iff_exists]
  exact ⟨c, List.mem_filter.mpr ⟨hmem, decide_eq_true hnew⟩, by simp⟩

theorem leftToOpen_le {α : Type} [DecidableEq α] (all opened : List α) : leftToOpen all opened ≤ all.length :=
  List.length_filter_le _ _

end ScriptMachine
