import ScriptMachine.Proofs.Containers.Basic
import ScriptMachine.Value.Equal

/-!
# Values that are alike

Two values are alike if they are equal by themselves, or if they are containers of one kind that are the same object
or hold as many elements, alike at every index or under every key. Containers may hold themselves, so this is no
recursion but the largest relation of this kind: any relation between values that goes on inside containers witnesses
that the values it joins are alike.

Two containers come with their parts, in the order in which they are compared. Containers of different sizes, and keys
that only one of them has, come as parts with nothing to compare.
-/

namespace ScriptMachine

/-! ## Values that are alike -/

/-- Values other than containers that are equal by themselves. -/
inductive Value.Like : Value → Value → Prop
  | int (n : Int64) : Like (.int n) (.int n)
  | float {x y : Float} (h : (x == y) = true) : Like (.float x) (.float y)
  | intFloat {n : Int64} {x : Float} (h : (n.toFloat == x) = true) : Like (.int n) (.float x)
  | floatInt {n : Int64} {x : Float} (h : (n.toFloat == x) = true) : Like (.float x) (.int n)
  | bool (b : Bool) : Like (.bool b) (.bool b)
  | null : Like .null .null
  | str (s : String) : Like (.str s) (.str s)
  | closure {c d : Closure} (h : c.id = d.id) : Like (.closure c) (.closure d)
  | function (id : Nat) (f g : Function) : Like (.function id f) (.function id g)
  | native (id : Nat) (name name' : String) : Like (.native id name) (.native id name')
  | cls {c d : Class} (h : c.id = d.id) : Like (.cls c) (.cls d)
  | object (ref : Ref) (c d : Class) : Like (.object ref c) (.object ref d)
  | channel (ref : Ref) (capacity capacity' : Option Nat) : Like (.channel ref capacity) (.channel ref capacity')
  | error (message : String) (span span' : Option Span) : Like (.error message span) (.error message span')

theorem Value.Like.symm {a b : Value} (h : a.Like b) : b.Like a := by
  cases h with
  | float h => exact .float (BEq.symm h)
  | intFloat h => exact .floatInt h
  | floatInt h => exact .intFloat h
  | closure h => exact .closure h.symm
  | cls h => exact .cls h.symm
  | _ => constructor

/-- Arrays of one length with related elements at every index. -/
def ArraysRelated (R : Value → Value → Prop) (xs ys : Array Value) : Prop :=
  xs.size = ys.size ∧ ∀ i : Nat, Option.Rel R xs[i]? ys[i]?

/-- Dictionaries of one size with related values under every key. -/
def DictsRelated (R : Value → Value → Prop) (d e : Dict Key Value) : Prop :=
  d.size = e.size ∧ ∀ k, Option.Rel R (d.get? k) (e.get? k)

namespace Heap

variable (h : Heap)

/-- Values that are equal if `R` says which elements of containers are. -/
inductive Related (R : Value → Value → Prop) : Value → Value → Prop
  | like {a b : Value} (hlike : a.Like b) : Related R a b
  | arrays {x y : Ref} (hxy : x = y ∨ ArraysRelated R (h.array x) (h.array y)) : Related R (.array x) (.array y)
  | maps {x y : Ref} (hxy : x = y ∨ DictsRelated R (h.map x) (h.map y)) : Related R (.map x) (.map y)
  | hashes {x y : Ref} (hxy : x = y ∨ DictsRelated R (h.hash x) (h.hash y)) : Related R (.hash x) (.hash y)

/-- Values that some relation joins which goes on inside containers. -/
def Alike (a b : Value) : Prop := ∃ R : Value → Value → Prop, R a b ∧ ∀ a b, R a b → h.Related R a b

end Heap

section

variable {R R' : Value → Value → Prop}

theorem rel_mono {o o' : Option Value} (hrel : Option.Rel R o o') (hR : ∀ a b, R a b → R' a b) :
    Option.Rel R' o o' := by
  cases hrel with
  | none => exact .none
  | some hab => exact .some (hR _ _ hab)

theorem rel_flip {o o' : Option Value} (hrel : Option.Rel R o o') : Option.Rel (flip R) o' o := by
  cases hrel with
  | none => exact .none
  | some hab => exact .some hab

theorem ArraysRelated.mono {xs ys : Array Value} (hrel : ArraysRelated R xs ys) (hR : ∀ a b, R a b → R' a b) :
    ArraysRelated R' xs ys := ⟨hrel.1, fun i => rel_mono (hrel.2 i) hR⟩

theorem DictsRelated.mono {d e : Dict Key Value} (hrel : DictsRelated R d e) (hR : ∀ a b, R a b → R' a b) :
    DictsRelated R' d e := ⟨hrel.1, fun k => rel_mono (hrel.2 k) hR⟩

theorem ArraysRelated.symm {xs ys : Array Value} (hrel : ArraysRelated R xs ys) : ArraysRelated (flip R) ys xs :=
  ⟨hrel.1.symm, fun i => rel_flip (hrel.2 i)⟩

theorem DictsRelated.symm {d e : Dict Key Value} (hrel : DictsRelated R d e) : DictsRelated (flip R) e d :=
  ⟨hrel.1.symm, fun k => rel_flip (hrel.2 k)⟩

namespace Heap

variable {h : Heap} {a b : Value}

theorem Related.mono (hrel : h.Related R a b) (hR : ∀ a b, R a b → R' a b) : h.Related R' a b := by
  cases hrel with
  | like hlike => exact .like hlike
  | arrays hxy => exact .arrays (hxy.imp_right fun hs => hs.mono hR)
  | maps hxy => exact .maps (hxy.imp_right fun hs => hs.mono hR)
  | hashes hxy => exact .hashes (hxy.imp_right fun hs => hs.mono hR)

theorem Related.symm (hrel : h.Related R a b) : h.Related (flip R) b a := by
  cases hrel with
  | like hlike => exact .like hlike.symm
  | arrays hxy => exact .arrays (hxy.imp Eq.symm ArraysRelated.symm)
  | maps hxy => exact .maps (hxy.imp Eq.symm DictsRelated.symm)
  | hashes hxy => exact .hashes (hxy.imp Eq.symm DictsRelated.symm)

theorem Alike.dest (halike : h.Alike a b) : h.Related h.Alike a b := by
  rcases halike with ⟨R, hab, hR⟩
  exact (hR a b hab).mono fun a b hab => ⟨R, hab, hR⟩

theorem Alike.step (hrel : h.Related h.Alike a b) : h.Alike a b := by
  refine ⟨h.Related h.Alike, hrel, ?_⟩
  intro a b hab
  exact hab.mono fun a b hab => hab.dest

theorem Alike.symm (halike : h.Alike a b) : h.Alike b a := by
  refine ⟨flip h.Alike, halike, ?_⟩
  intro a b hab
  exact (Alike.dest hab).symm

end Heap

end

/-! ## Related containers have related parts -/

namespace ContainerPair

/-- The containers that two values are, if they are of one kind. -/
def of? : Value → Value → Option ContainerPair
  | .array x, .array y => some (.arrays x y)
  | .map x, .map y => some (.maps x y)
  | .hash x, .hash y => some (.hashes x y)
  | _, _ => none

/-- The two containers as values. -/
def values : ContainerPair → Value × Value
  | .arrays x y => (.array x, .array y)
  | .maps x y => (.map x, .map y)
  | .hashes x y => (.hash x, .hash y)

theorem values_of? {a b : Value} {p : ContainerPair} (hp : of? a b = some p) : p.values = (a, b) := by
  unfold of? at hp
  split at hp <;> cases hp <;> rfl

/-- Both containers are the same object. -/
def isSame : ContainerPair → Bool
  | .arrays x y | .maps x y | .hashes x y => x == y

/-- Elements at the same index; containers of different sizes have one part, which has no elements to compare. -/
def arrayParts (xs ys : Array Value) : List (Option (Value × Value)) :=
  if xs.size = ys.size then (xs.zip ys).toList.map some else [none]

/-- Values under the same key. -/
def dictParts (d e : Dict Key Value) : List (Option (Value × Value)) :=
  if d.size = e.size then d.toList.map fun f => (e.get? f.1).map fun w => (f.2, w) else [none]

/-- What is compared one after the other to compare two containers; `none` where there is nothing to compare with. -/
def parts (h : Heap) : ContainerPair → List (Option (Value × Value))
  | .arrays x y => arrayParts (h.array x) (h.array y)
  | .maps x y => dictParts (h.map x) (h.map y)
  | .hashes x y => dictParts (h.hash x) (h.hash y)

/-- There is something to compare with, and `R` joins the two. -/
def Joined (R : Value → Value → Prop) : Option (Value × Value) → Prop
  | some q => R q.1 q.2
  | none => False

section

variable {R : Value → Value → Prop}

theorem joined_arrayParts (xs ys : Array Value) :
    (∀ q ∈ arrayParts xs ys, Joined R q) ↔ ArraysRelated R xs ys := by
  unfold arrayParts
  split
  · rename_i hsize
    rw [List.forall_mem_map]
    constructor
    · intro hall
      refine ⟨hsize, fun i => ?_⟩
      by_cases hi : i < xs.size
      · have hi' : i < ys.size := hsize ▸ hi
        have hmem : (xs[i], ys[i]) ∈ (xs.zip ys).toList := by
          have hzip : i < (xs.zip ys).size := by
            rw [Array.size_zip]
            omega
          rw [Array.mem_toList_iff, show (xs[i], ys[i]) = (xs.zip ys)[i] from Array.getElem_zip.symm]
          exact Array.getElem_mem hzip
        rw [Array.getElem?_eq_getElem hi, Array.getElem?_eq_getElem hi']
        exact .some (hall _ hmem)
      · rw [Array.getElem?_eq_none (by omega), Array.getElem?_eq_none (by omega)]
        exact .none
    · rintro ⟨-, hall⟩ q hq
      rcases Array.mem_iff_getElem.mp (Array.mem_toList_iff.mp hq) with ⟨i, hi, rfl⟩
      have hrel := hall i
      rw [Array.size_zip] at hi
      rw [Array.getElem?_eq_getElem (by omega), Array.getElem?_eq_getElem (by omega)] at hrel
      cases hrel with
      | some hR =>
        rw [Array.getElem_zip]
        exact hR
  · rename_i hsize
    exact iff_of_false (fun hall => hall none List.mem_cons_self) fun hrel => hsize hrel.1

theorem joined_dictParts {d : Dict Key Value} (hd : d.Distinct) (e : Dict Key Value) :
    (∀ q ∈ dictParts d e, Joined R q) ↔ DictsRelated R d e := by
  unfold dictParts
  split
  · rename_i hsize
    rw [List.forall_mem_map]
    constructor
    · intro hall
      have hfound : ∀ k v, (k, v) ∈ d.toList → ∃ w, e.get? k = some w ∧ R v w := by
        intro k v hmem
        have hjoined := hall _ hmem
        cases hw : e.get? k with
        | none =>
          rw [hw] at hjoined
          exact hjoined.elim
        | some w =>
          rw [hw] at hjoined
          exact ⟨w, rfl, hjoined⟩
      refine ⟨hsize, fun k => ?_⟩
      cases hv : d.get? k with
      | some v =>
        rcases Dict.mem_of_get? hv with ⟨l, hmem, hlk⟩
        rcases hfound l v hmem with ⟨w, hw, hR⟩
        rw [← Dict.get?_congr e hlk, hw]
        exact .some hR
      | none =>
        -- the other dictionary has no room for a key of its own
        have hkeys : ∀ k ∈ d.keys, (e.get? k).isSome := by
          intro k hk
          rcases List.mem_map.mp hk with ⟨f, hf, rfl⟩
          rcases hfound f.1 f.2 hf with ⟨w, hw, -⟩
          exact Option.isSome_of_eq_some hw
        rw [hd.get?_eq_none_of_size hsize hkeys hv]
        exact .none
    · rintro ⟨-, hall⟩ ⟨k, v⟩ hmem
      have hrel := hall k
      rw [hd.get?_of_mem hmem] at hrel
      cases hw : e.get? k with
      | none =>
        rw [hw] at hrel
        cases hrel
      | some w =>
        rw [hw] at hrel
        cases hrel with
        | some hR => exact hR
  · rename_i hsize
    exact iff_of_false (fun hall => hall none List.mem_cons_self) fun hrel => hsize hrel.1

end

end ContainerPair

open ContainerPair

namespace Heap

variable {h : Heap} {R : Value → Value → Prop} {a b : Value} {p : ContainerPair}

theorem related_iff_of_none (hp : of? a b = none) : h.Related R a b ↔ a.Like b := by
  constructor
  · intro hrel
    cases hrel with
    | like hlike => exact hlike
    | arrays | maps | hashes => cases hp
  · exact .like

theorem related_iff_of_pair (hh : h.Keyed) (hp : of? a b = some p) :
    h.Related R a b ↔ p.isSame = true ∨ ∀ q ∈ p.parts h, Joined R q := by
  unfold of? at hp
  split at hp
  case h_1 x y =>
    cases hp
    rw [parts, joined_arrayParts, isSame, beq_iff_eq]
    constructor
    · intro hrel
      cases hrel with
      | like hlike => cases hlike
      | arrays hxy => exact hxy
    · exact .arrays
  case h_2 x y =>
    cases hp
    rw [parts, joined_dictParts (hh.map x), isSame, beq_iff_eq]
    constructor
    · intro hrel
      cases hrel with
      | like hlike => cases hlike
      | maps hxy => exact hxy
    · exact .maps
  case h_3 x y =>
    cases hp
    rw [parts, joined_dictParts (hh.hash x), isSame, beq_iff_eq]
    constructor
    · intro hrel
      cases hrel with
      | like hlike => cases hlike
      | hashes hxy => exact hxy
    · exact .hashes
  case h_4 => cases hp

end Heap

/-! ## Equality, opening one pair -/

namespace Heap

variable {h : Heap} {a b : Value} {p : ContainerPair} {fuel : Nat} {opened : List ContainerPair}

theorem equalFrom_of_none (hp : of? a b = none) : h.equalFrom fuel opened a b = true ↔ a.Like b := by
  constructor
  · intro heq
    unfold equalFrom at heq
    split at heq
    case h_1 | h_5 | h_7 => exact eq_of_beq heq ▸ by constructor
    case h_2 => exact .float heq
    case h_3 => exact .intFloat heq
    case h_4 => exact .floatInt heq
    case h_6 => exact .null
    case h_8 | h_9 | h_10 => cases hp
    case h_11 => exact .closure (eq_of_beq heq)
    case h_14 => exact .cls (eq_of_beq heq)
    case h_12 | h_13 | h_15 | h_16 | h_17 => exact eq_of_beq heq ▸ by constructor
    case h_18 => cases heq
  · intro hlike
    cases hlike <;> simp [equalFrom, *]

theorem all_arrayParts (equal : Value → Value → Bool) (xs ys : Array Value) :
    ((arrayParts xs ys).all fun q => q.elim false fun q => equal q.1 q.2) =
      (xs.size == ys.size && (xs.zip ys).all fun q => equal q.1 q.2) := by
  unfold arrayParts
  split
  · rename_i hsize
    rw [beq_iff_eq.mpr hsize, Bool.true_and, List.all_map, ← Array.all_toList]
    rfl
  · rename_i hsize
    rw [beq_false_of_ne hsize]
    rfl

theorem all_dictParts (equal : Value → Value → Bool) (d e : Dict Key Value) :
    ((dictParts d e).all fun q => q.elim false fun q => equal q.1 q.2) = dictsEqual equal d e := by
  unfold dictParts dictsEqual
  split
  · rename_i hsize
    rw [beq_iff_eq.mpr hsize, Bool.true_and, List.all_map, Dict.toList, Array.all_toList]
    congr 1
    funext f
    simp only [Function.comp_apply]
    cases e.get? f.1 <;> rfl
  · rename_i hsize
    rw [beq_false_of_ne hsize]
    rfl

theorem equalFrom_of_pair (hp : of? a b = some p) :
    h.equalFrom (fuel + 1) opened a b = (p.isSame || opened.contains p ||
      (p.parts h).all fun q => q.elim false fun q => h.equalFrom fuel (p :: opened) q.1 q.2) := by
  unfold of? at hp
  split at hp
  case h_1 x y =>
    cases hp
    rw [parts, all_arrayParts, isSame, equalFrom]
    cases x == y || opened.contains (.arrays x y) <;> rfl
  case h_2 x y =>
    cases hp
    rw [parts, all_dictParts, isSame, equalFrom]
    cases x == y || opened.contains (.maps x y) <;> rfl
  case h_3 x y =>
    cases hp
    rw [parts, all_dictParts, isSame, equalFrom]
    cases x == y || opened.contains (.hashes x y) <;> rfl
  case h_4 => cases hp

end Heap

end ScriptMachine
