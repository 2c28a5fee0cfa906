import ScriptMachine.Proofs.Containers.Alike

/-!
# Comparing containers that may hold themselves

Two values are compared by walking through both at once. A pair of containers is opened, its parts are compared one
after the other until two are unequal, and the pair is closed again. A pair that is open already counts as equal.

1. **The walk**, with the pairs that are open before and after it. It leaves open what was open before.
2. **Values that are alike but for open pairs**: what the walk can tell while pairs are open. Closing a pair whose
   parts are alike but for the pair itself is what makes the answer independent of it.
3. **The walk ends**: each pair is opened at most once at a time, and only pairs on the heap have parts.
4. **Equality**: `Heap.Keyed.equal_exact`.
-/

namespace ScriptMachine

open ContainerPair

/-! ## The walk -/

/-- What is to be compared: two values, or all parts of a pair of containers from the first one on. -/
inductive Comparison where
  | values (a b : Value)
  | parts (qs : List (Option (Value × Value)))

/-- All that is to be compared is joined by `R`. -/
def Comparison.Holds (R : Value → Value → Prop) : Comparison → Prop
  | .values a b => R a b
  | .parts qs => ∀ q ∈ qs, Joined R q

/-- What is to be compared is equal, if `equal` says which values are. -/
def Comparison.eval (equal : Value → Value → Bool) : Comparison → Bool
  | .values a b => equal a b
  | .parts qs => qs.all fun q => q.elim false fun q => equal q.1 q.2

namespace Heap

/-- The walk through what is to be compared, with the open pairs at its beginning, its answer and the open pairs at its
end. -/
inductive Compares (h : Heap) : List ContainerPair → Comparison → Bool → List ContainerPair → Prop
  | like {opened : List ContainerPair} {a b : Value} (hp : of? a b = none) (hlike : a.Like b) :
      Compares h opened (.values a b) true opened
  | unlike {opened : List ContainerPair} {a b : Value} (hp : of? a b = none) (hunlike : ¬a.Like b) :
      Compares h opened (.values a b) false opened
  | same {opened : List ContainerPair} {a b : Value} {p : ContainerPair} (hp : of? a b = some p)
      (hsame : p.isSame = true) : Compares h opened (.values a b) true opened
  /-- The pair is being compared already. -/
  | met {opened : List ContainerPair} {a b : Value} {p : ContainerPair} (hp : of? a b = some p)
      (hsame : p.isSame = false) (hmem : p ∈ opened) : Compares h opened (.values a b) true opened
  /-- The pair is opened, and what was opened last is closed. -/
  | opens {opened opened' : List ContainerPair} {a b : Value} {p : ContainerPair} {r : Bool} (hp : of? a b = some p)
      (hsame : p.isSame = false) (hnew : p ∉ opened)
      (hparts : Compares h (p :: opened) (.parts (p.parts h)) r opened') :
      Compares h opened (.values a b) r opened'.tail
  | done {opened : List ContainerPair} : Compares h opened (.parts []) true opened
  | missing {opened : List ContainerPair} {qs : List (Option (Value × Value))} :
      Compares h opened (.parts (none :: qs)) false opened
  | stop {opened opened' : List ContainerPair} {v w : Value} {qs : List (Option (Value × Value))}
      (hpart : Compares h opened (.values v w) false opened') :
      Compares h opened (.parts (some (v, w) :: qs)) false opened'
  | next {opened opened' opened'' : List ContainerPair} {v w : Value} {qs : List (Option (Value × Value))} {r : Bool}
      (hpart : Compares h opened (.values v w) true opened') (hrest : Compares h opened' (.parts qs) r opened'') :
      Compares h opened (.parts (some (v, w) :: qs)) r opened''

section

variable {h : Heap} {opened opened' : List ContainerPair} {c : Comparison} {r : Bool} {a b : Value} {p : ContainerPair}

/-- Every pair that is opened is closed again. -/
theorem Compares.restores (hc : h.Compares opened c r opened') : opened' = opened := by
  induction hc with
  | opens _ _ _ _ ih => rw [ih, List.tail_cons]
  | stop _ ih => exact ih
  | next _ _ ih ih' => exact ih'.trans ih
  | _ => rfl

/-! ## Values that are alike but for open pairs -/

/-- Values that some relation joins which goes on inside containers, unless these are open. -/
def AlikeBut (h : Heap) (opened : List ContainerPair) (a b : Value) : Prop :=
  ∃ R : Value → Value → Prop, R a b ∧ ∀ a b, R a b → (∃ p ∈ opened, of? a b = some p) ∨ h.Related R a b

theorem AlikeBut.of_mem (hp : of? a b = some p) (hmem : p ∈ opened) : h.AlikeBut opened a b := by
  refine ⟨fun v w => of? v w = some p, hp, ?_⟩
  intro v w hvw
  exact .inl ⟨p, hmem, hvw⟩

theorem AlikeBut.dest (halike : h.AlikeBut opened a b) :
    (∃ p ∈ opened, of? a b = some p) ∨ h.Related (h.AlikeBut opened) a b := by
  rcases halike with ⟨R, hab, hR⟩
  rcases hR a b hab with hopen | hrel
  · exact .inl hopen
  · exact .inr (hrel.mono fun a b hab => ⟨R, hab, hR⟩)

theorem AlikeBut.step (hrel : h.Related (h.AlikeBut opened) a b) : h.AlikeBut opened a b := by
  refine ⟨fun v w => h.AlikeBut opened v w ∨ h.Related (h.AlikeBut opened) v w, .inr hrel, ?_⟩
  rintro v w (halike | hrel)
  · exact halike.dest.imp_right fun hrel => hrel.mono fun _ _ => .inl
  · exact .inr (hrel.mono fun _ _ => .inl)

/-- A pair whose parts are alike but for the pair itself does not need to be open. -/
theorem AlikeBut.close (hp : of? a b = some p) (hrel : h.Related (h.AlikeBut (p :: opened)) a b) :
    h.AlikeBut opened a b := by
  refine ⟨fun v w => h.AlikeBut (p :: opened) v w ∨ of? v w = some p, .inr hp, ?_⟩
  have hself : ∀ v w, of? v w = some p →
      h.Related (fun v w => h.AlikeBut (p :: opened) v w ∨ of? v w = some p) v w := by
    intro v w hvw
    -- the same pair of values once more
    have hvalues : (v, w) = (a, b) := (values_of? hvw).symm.trans (values_of? hp)
    cases hvalues
    exact hrel.mono fun _ _ => .inl
  rintro v w (halike | hvw)
  · rcases halike.dest with ⟨q, hmem, hq⟩ | hrel
    · rcases List.mem_cons.mp hmem with rfl | hmem
      · exact .inr (hself v w hq)
      · exact .inl ⟨q, hmem, hq⟩
    · exact .inr (hrel.mono fun _ _ => .inl)
  · exact .inr (hself v w hvw)

theorem alikeBut_nil : h.AlikeBut [] a b ↔ h.Alike a b := by
  constructor
  · rintro ⟨R, hab, hR⟩
    exact ⟨R, hab, fun a b hab => (hR a b hab).resolve_left fun ⟨_, hmem, _⟩ => List.not_mem_nil hmem⟩
  · rintro ⟨R, hab, hR⟩
    exact ⟨R, hab, fun a b hab => .inr (hR a b hab)⟩

/-! ## The answer of the walk -/

/-- Values that are not told apart are alike but for the pairs that are open. -/
theorem Compares.sound (hh : h.Keyed) (hc : h.Compares opened c r opened') :
    r = true → c.Holds (h.AlikeBut opened) := by
  induction hc with
  | like hp hlike => exact fun _ => AlikeBut.step ((related_iff_of_none hp).mpr hlike)
  | same hp hsame => exact fun _ => AlikeBut.step ((related_iff_of_pair hh hp).mpr (.inl hsame))
  | met hp _ hmem => exact fun _ => AlikeBut.of_mem hp hmem
  | opens hp _ _ _ ih => exact fun hr => AlikeBut.close hp ((related_iff_of_pair hh hp).mpr (.inr (ih hr)))
  | done => exact fun _ => List.forall_mem_nil _
  | next hpart _ ih ih' =>
    intro hr
    -- the rest is compared with the same pairs open
    rw [hpart.restores] at ih'
    exact List.forall_mem_cons.mpr ⟨ih rfl, ih' hr⟩
  | unlike | missing | stop => exact nofun

/-- Values that are alike are never told apart. -/
theorem Compares.complete (hh : h.Keyed) (hc : h.Compares opened c r opened') :
    c.Holds h.Alike → r = true := by
  induction hc with
  | like | same | met | done => exact fun _ => rfl
  | unlike hp hunlike => exact fun halike => absurd ((related_iff_of_none hp).mp halike.dest) hunlike
  | opens hp hsame _ _ ih =>
    intro halike
    rcases (related_iff_of_pair hh hp).mp halike.dest with hsame' | hparts
    · rw [hsame] at hsame'
      cases hsame'
    · exact ih hparts
  | missing => exact fun hparts => (hparts none List.mem_cons_self).elim
  | stop _ ih => exact fun hparts => ih (hparts _ List.mem_cons_self)
  | next _ _ _ ih => exact fun hparts => ih fun q hq => hparts q (List.mem_cons_of_mem _ hq)

/-- What the walk answers, `equalFrom` answers with enough fuel. -/
theorem Compares.equalFrom_eq (hc : h.Compares opened c r opened') :
    ∃ enough, ∀ fuel ≥ enough, c.eval (h.equalFrom fuel opened) = r := by
  induction hc with
  | like hp hlike => exact ⟨0, fun _ _ => (equalFrom_of_none hp).mpr hlike⟩
  | unlike hp hunlike =>
    exact ⟨0, fun _ _ => Bool.eq_false_iff.mpr fun heq => hunlike ((equalFrom_of_none hp).mp heq)⟩
  | same hp hsame =>
    refine ⟨1, fun fuel hfuel => ?_⟩
    rcases Nat.exists_eq_add_of_le' hfuel with ⟨fuel, rfl⟩
    rw [Comparison.eval, equalFrom_of_pair hp, hsame]
    rfl
  | met hp _ hmem =>
    refine ⟨1, fun fuel hfuel => ?_⟩
    rcases Nat.exists_eq_add_of_le' hfuel with ⟨fuel, rfl⟩
    rw [Comparison.eval, equalFrom_of_pair hp, List.contains_iff_mem.mpr hmem, Bool.or_true]
    rfl
  | opens hp hsame hnew _ ih =>
    rcases ih with ⟨enough, ih⟩
    refine ⟨enough + 1, fun fuel hfuel => ?_⟩
    rcases Nat.exists_eq_add_of_le' (Nat.le_trans (Nat.le_add_left 1 enough) hfuel) with ⟨fuel, rfl⟩
    rw [Comparison.eval, equalFrom_of_pair hp, hsame, Bool.eq_false_iff.mpr (mt List.contains_iff_mem.mp hnew)]
    exact ih fuel (Nat.le_of_succ_le_succ hfuel)
  | done | missing => exact ⟨0, fun _ _ => rfl⟩
  | stop _ ih =>
    rcases ih with ⟨enough, ih⟩
    refine ⟨enough, fun fuel hfuel => ?_⟩
    rw [Comparison.eval, List.all_cons]
    exact Bool.and_eq_false_imp.mpr fun hpart => absurd hpart (Bool.eq_false_iff.mp (ih fuel hfuel))
  | next hpart _ ih ih' =>
    rcases ih with ⟨enough, ih⟩
    rcases ih' with ⟨enough', ih'⟩
    rw [hpart.restores] at ih'
    refine ⟨max enough enough', fun fuel hfuel => ?_⟩
    have hfirst := ih fuel (Nat.le_trans (Nat.le_max_left _ _) hfuel)
    have hrest := ih' fuel (Nat.le_trans (Nat.le_max_right _ _) hfuel)
    rw [Comparison.eval, List.all_cons]
    exact (congrArg (· && _) hfirst).trans hrest

/-- There is only one answer. -/
theorem Compares.unique {r' : Bool} {opened'' : List ContainerPair} (hc : h.Compares opened c r opened')
    (hc' : h.Compares opened c r' opened'') : r = r' := by
  rcases hc.equalFrom_eq with ⟨enough, hr⟩
  rcases hc'.equalFrom_eq with ⟨enough', hr'⟩
  exact (hr _ (Nat.le_max_left enough enough')).symm.trans (hr' _ (Nat.le_max_right enough enough'))

/-! ## The walk ends -/

/-- The pairs of objects that `pair` makes of two of the first `n` references. -/
def pairsBelow (n : Nat) (pair : Ref → Ref → ContainerPair) : List ContainerPair :=
  (List.range n ×ˢ List.range n).map fun q => pair q.1 q.2

/-- The pairs of containers on the heap. -/
def pairs (h : Heap) : List ContainerPair :=
  pairsBelow h.arrays.size .arrays ++ pairsBelow h.maps.size .maps ++ pairsBelow h.hashes.size .hashes

theorem length_pairs (h : Heap) : h.pairs.length = h.pairCount := by
  have hbelow : ∀ n pair, (pairsBelow n pair).length = n * n := by
    intro n pair
    rw [pairsBelow, List.length_map, List.length_product, List.length_range]
  simp only [pairs, pairCount, List.length_append, hbelow]

theorem mem_pairsBelow {n : Nat} (pair : Ref → Ref → ContainerPair) {x y : Ref} (hx : x < n) (hy : y < n) :
    pair x y ∈ pairsBelow n pair :=
  List.mem_map.mpr ⟨(x, y), List.mem_product.mpr ⟨List.mem_range.mpr hx, List.mem_range.mpr hy⟩, rfl⟩

theorem size_pos_of_mem_arrayParts {xs ys : Array Value} {q : Value × Value} (hq : some q ∈ arrayParts xs ys) :
    0 < xs.size ∧ 0 < ys.size := by
  unfold arrayParts at hq
  split at hq
  · rename_i hsize
    rcases List.mem_map.mp hq with ⟨q', hq', -⟩
    have hpos : 0 < (xs.zip ys).size := Array.size_pos_of_mem (Array.mem_toList_iff.mp hq')
    rw [Array.size_zip] at hpos
    omega
  · simp at hq

theorem size_pos_of_mem_dictParts {d e : Dict Key Value} {q : Value × Value} (hq : some q ∈ dictParts d e) :
    0 < d.size ∧ 0 < e.size := by
  unfold dictParts at hq
  split at hq
  · rename_i hsize
    rcases List.mem_map.mp hq with ⟨f, hf, -⟩
    have hpos : 0 < d.size := Array.size_pos_of_mem (Array.mem_toList_iff.mp hf)
    omega
  · simp at hq

/-- A pair that has two values to compare is on the heap: what is not there is empty. -/
theorem mem_pairs_of_mem_parts {q : Value × Value} (hq : some q ∈ p.parts h) : p ∈ h.pairs := by
  unfold pairs
  rw [List.mem_append, List.mem_append]
  cases p with
  | arrays x y =>
    rcases size_pos_of_mem_arrayParts hq with ⟨hx, hy⟩
    exact .inl (.inl (mem_pairsBelow _ (lt_of_array_size_pos hx) (lt_of_array_size_pos hy)))
  | maps x y =>
    rcases size_pos_of_mem_dictParts hq with ⟨hx, hy⟩
    exact .inl (.inr (mem_pairsBelow _ (lt_of_map_size_pos hx) (lt_of_map_size_pos hy)))
  | hashes x y =>
    rcases size_pos_of_mem_dictParts hq with ⟨hx, hy⟩
    exact .inr (mem_pairsBelow _ (lt_of_hash_size_pos hx) (lt_of_hash_size_pos hy))

theorem compares_parts {qs : List (Option (Value × Value))} {equal : Value → Value → Bool}
    (hqs : ∀ q, some q ∈ qs → h.Compares opened (.values q.1 q.2) (equal q.1 q.2) opened) :
    h.Compares opened (.parts qs) ((Comparison.parts qs).eval equal) opened := by
  induction qs with
  | nil => exact .done
  | cons q qs ih =>
    cases q with
    | none => exact .missing
    | some q =>
      have hpart := hqs q List.mem_cons_self
      have hrest := ih fun q hq => hqs q (List.mem_cons_of_mem _ hq)
      rw [Comparison.eval, List.all_cons, Option.elim_some]
      cases heq : equal q.1 q.2 with
      | false =>
        rw [heq] at hpart
        exact .stop hpart
      | true =>
        rw [heq] at hpart
        exact .next hpart hrest

/-- With fuel for the pairs that can still be opened, `equalFrom` answers what the walk answers. -/
theorem compares_equalFrom {fuel : Nat} (hfuel : leftToOpen h.pairs opened < fuel) (a b : Value) :
    h.Compares opened (.values a b) (h.equalFrom fuel opened a b) opened := by
  -- one unit of fuel for each pair that is opened
  induction fuel generalizing opened a b with
  | zero => exact absurd hfuel (Nat.not_lt_zero _)
  | succ fuel ih =>
    cases hp : of? a b with
    | none =>
      cases heq : h.equalFrom (fuel + 1) opened a b with
      | true => exact .like hp ((equalFrom_of_none hp).mp heq)
      | false => exact .unlike hp fun hlike => Bool.eq_false_iff.mp heq ((equalFrom_of_none hp).mpr hlike)
    | some p =>
      rw [equalFrom_of_pair hp]
      cases hsame : p.isSame with
      | true => exact .same hp hsame
      | false =>
        by_cases hmem : p ∈ opened
        · rw [List.contains_iff_mem.mpr hmem]
          exact .met hp hsame hmem
        · rw [Bool.eq_false_iff.mpr (mt List.contains_iff_mem.mp hmem)]
          refine .opens hp hsame hmem (compares_parts fun q hq => ih ?_ q.1 q.2)
          have hless := leftToOpen_cons_lt (mem_pairs_of_mem_parts hq) hmem
          omega

/-! ## Equality -/

theorem compares_exists (h : Heap) (opened : List ContainerPair) (a b : Value) :
    ∃ r, h.Compares opened (.values a b) r opened ∧ ∀ fuel > h.pairCount, h.equalFrom fuel opened a b = r := by
  have hwalk : ∀ fuel > h.pairCount, h.Compares opened (.values a b) (h.equalFrom fuel opened a b) opened := by
    intro fuel hfuel
    have hleft := leftToOpen_le h.pairs opened
    rw [length_pairs] at hleft
    exact compares_equalFrom (Nat.lt_of_le_of_lt hleft hfuel) a b
  refine ⟨_, hwalk (h.pairCount + 1) (Nat.lt_succ_self _), ?_⟩
  intro fuel hfuel
  exact (hwalk fuel hfuel).unique (hwalk (h.pairCount + 1) (Nat.lt_succ_self _))

theorem Keyed.equal_iff_alike (hh : h.Keyed) (a b : Value) : h.equal a b = true ↔ h.Alike a b := by
  rcases compares_exists h [] a b with ⟨r, hwalk, hr⟩
  rw [equal, hr _ (Nat.lt_succ_self _), ← alikeBut_nil]
  constructor
  · exact hwalk.sound hh
  · exact fun halike => hwalk.complete hh (alikeBut_nil.mp halike)

/-- Equality of values is the largest relation between values that relates containers by what they hold, whichever way
they hold each other. Comparing two values ends, with one answer whatever is open, and leaves open what was open. -/
theorem Keyed.equal_exact (hh : h.Keyed) :
    ((∀ a b, h.Alike a b ↔ h.Related h.Alike a b) ∧
      ∀ R : Value → Value → Prop, (∀ a b, R a b → h.Related R a b) → ∀ a b, R a b → h.Alike a b) ∧
    (∀ a b, h.equal a b = true ↔ h.Alike a b) ∧
    (∀ a b, h.equal a b = h.equal b a) ∧
    ∀ opened a b, ∃ r, h.Compares opened (.values a b) r opened ∧
      (∀ r' opened', h.Compares opened (.values a b) r' opened' → r' = r ∧ opened' = opened) ∧
      ∀ fuel > h.pairCount, h.equalFrom fuel opened a b = r := by
  refine ⟨⟨?_, ?_⟩, hh.equal_iff_alike, ?_, ?_⟩
  · exact fun a b => ⟨Alike.dest, Alike.step⟩
  · exact fun R hR a b hab => ⟨R, hab, hR⟩
  · intro a b
    rw [Bool.eq_iff_iff, hh.equal_iff_alike, hh.equal_iff_alike]
    exact ⟨Alike.symm, Alike.symm⟩
  · intro opened a b
    rcases compares_exists h opened a b with ⟨r, hwalk, hr⟩
    refine ⟨r, hwalk, ?_, hr⟩
    intro r' opened' hwalk'
    exact ⟨hwalk'.unique hwalk, hwalk'.restores⟩

/-- Two hash maps that hold each other, and arrays that hold themselves. -/
def crossed : Heap :=
  let made := ((empty.newHash .empty).2.newHash .empty).2
  let linked := (made.modifyHash 0 (·.insert (.str "other") (.hash 1))).modifyHash 1 (·.insert (.str "other") (.hash 0))
  { linked with arrays := #[#[.array 0, .float 0], #[.array 1, .float (-0)], #[.array 0, .float 2]] }

theorem crossed_keyed : crossed.Keyed :=
  have made := (keyed_empty.newHash Dict.distinct_empty).newHash Dict.distinct_empty
  have linked := (made.insertHash 0 (.str "other") (.hash 1)).insertHash 1 (.str "other") (.hash 0)
  ⟨linked.maps, linked.hashes⟩

theorem crossed_equal :
    crossed.Keyed ∧ crossed.Alike (.array 0) (.array 1) ∧ ¬crossed.Alike (.array 0) (.array 2) ∧
      crossed.Alike (.hash 0) (.hash 1) := by
  have hexact := crossed_keyed.equal_exact.2.1
  refine ⟨crossed_keyed, (hexact _ _).mp ?_, mt (hexact _ _).mpr ?_, (hexact _ _).mp ?_⟩
  · decide +kernel
  · decide +kernel
  · decide +kernel

end

end Heap

end ScriptMachine
