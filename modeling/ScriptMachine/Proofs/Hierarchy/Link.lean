import Mathlib.Data.List.Nodup
import Mathlib.Data.List.Perm.Subperm
import Mathlib.Data.List.Range
import ScriptMachine.Proofs.Refusal

/-!
# Parent links

A class refers to its parent by a place in the pool, while the check for cycles goes by names. What the
two have to do with each other:

* `Pool.IsLast` — the class that a name stands for: the last one of this name in the pool;
* `Pool.Rises` — the links above a class, up to one that has no parent;
* `Pool.Founded` — a class is linked exactly if it names a parent, and the links above it end somewhere;
* `Pool.Founded.link` — linking the classes of a unit keeps a pool founded. The walk above a new class
  stops at a class that is linked already; the links above that one end by assumption.
-/

namespace ScriptMachine

namespace Pool

variable {p q r : Pool} {place : Nat} {k : ClassConstant} {name : String}

theorem class?_eq_some_iff : p.class? place = some k ↔ p[place]? = some (.cls k) := by
  unfold Pool.class?
  rw [Option.bind_eq_some_iff]
  constructor
  · rintro ⟨c, hc, hk⟩
    cases c with
    | cls c =>
      cases hk
      exact hc
    | _ => cases hk
  · exact fun h => ⟨_, h, rfl⟩

theorem lt_size_of_class? (h : p.class? place = some k) : place < p.size :=
  (Array.getElem?_eq_some_iff.mp (class?_eq_some_iff.mp h)).1

/-! ## The last class of a name -/

/-- The last class of this name stands at `place`. -/
structure IsLast (p : Pool) (name : String) (place : Nat) : Prop where
  named : ∃ k, p.class? place = some k ∧ k.name = name
  last : ∀ later k, place < later → p.class? later = some k → k.name ≠ name

/-- The first answer from the end of a range. -/
theorem findSome?_reverse_range {α : Type} {f : Nat → Option α} {n : Nat} {a : α}
    (h : (List.range n).reverse.findSome? f = some a) :
    ∃ i < n, f i = some a ∧ ∀ j, i < j → j < n → f j = none := by
  induction n with
  | zero => cases h
  | succ n ih =>
    rw [List.range_succ, List.reverse_append, List.reverse_singleton, List.singleton_append,
      List.findSome?_cons] at h
    cases hn : f n with
    | some b =>
      rw [hn] at h
      cases h
      exact ⟨n, Nat.lt_succ_self n, hn, fun j hlt hle => absurd hlt (Nat.not_lt.mpr (Nat.le_of_lt_succ hle))⟩
    | none =>
      rw [hn] at h
      obtain ⟨i, hi, ha, hlater⟩ := ih h
      refine ⟨i, Nat.lt_succ_of_lt hi, ha, fun j hlt hj => ?_⟩
      rcases Nat.lt_succ_iff_lt_or_eq.mp hj with hj | rfl
      · exact hlater j hlt hj
      · exact hn

theorem of_lastClass? (h : p.lastClass? name = some (place, k)) :
    p.class? place = some k ∧ p.IsLast name place := by
  obtain ⟨i, hi, hfound, hlater⟩ := findSome?_reverse_range h
  have hplace : p.class? place = some k ∧ k.name = name := by
    split at hfound
    · next c hc =>
      split at hfound
      · next hname =>
        cases hfound
        exact ⟨hc, by simpa using hname⟩
      · cases hfound
    · cases hfound
  have hi : i = place := by
    split at hfound
    · split at hfound <;> cases hfound
      rfl
    · cases hfound
  refine ⟨hplace.1, ⟨k, hplace⟩, fun later c hlt hc hname => ?_⟩
  have hnone := hlater later (hi ▸ hlt) (lt_size_of_class? hc)
  rw [hc] at hnone
  simp [hname] at hnone

/-! ## Chains of links -/

/-- The links above the class at `place` lead over the classes of `path`, the first of which is the class
itself and the last of which has no parent. -/
inductive Rises (p : Pool) : Nat → List Nat → Prop where
  | root {place : Nat} {k : ClassConstant} : p.class? place = some k → k.parent = none →
    Rises p place [place]
  | up {place parent : Nat} {k : ClassConstant} {path : List Nat} : p.class? place = some k →
    k.parent = some parent → Rises p parent path → Rises p place (place :: path)

/-- A class is linked exactly if it names a parent, and the links above every class end. -/
structure Founded (p : Pool) : Prop where
  linked : ∀ place k, p.class? place = some k → (k.parent = none ↔ k.parentName = none)
  rises : ∀ place k, p.class? place = some k → ∃ path, p.Rises place path

theorem founded_empty : Founded #[] := by
  have hnone : ∀ place, Pool.class? #[] place = none := fun place => rfl
  refine ⟨fun place k hk => ?_, fun place k hk => ?_⟩
  · rw [hnone] at hk
    cases hk
  · rw [hnone] at hk
    cases hk

namespace Rises

variable {path path' : List Nat} {other : Nat}

/-- The links above a class lead to one place only. -/
theorem unique (h : p.Rises place path) (h' : p.Rises place path') : path = path' := by
  induction h generalizing path' with
  | root hk hparent =>
    cases h' with
    | root => rfl
    | up hk' hparent' =>
      rw [hk, Option.some.injEq] at hk'
      subst hk'
      rw [hparent] at hparent'
      cases hparent'
  | up hk hparent _ ih =>
    cases h' with
    | root hk' hparent' =>
      rw [hk, Option.some.injEq] at hk'
      subst hk'
      rw [hparent] at hparent'
      cases hparent'
    | up hk' hparent' hrest =>
      rw [hk, Option.some.injEq] at hk'
      subst hk'
      rw [hparent, Option.some.injEq] at hparent'
      subst hparent'
      rw [ih hrest]

/-- The links above a class on the way are the rest of the way. -/
theorem of_mem (h : p.Rises place path) (hmem : other ∈ path) :
    ∃ rest, p.Rises other rest ∧ rest.length ≤ path.length := by
  induction h with
  | root hk hparent =>
    cases List.mem_singleton.mp hmem
    exact ⟨_, .root hk hparent, Nat.le_refl _⟩
  | up hk hparent hrest ih =>
    rcases List.mem_cons.mp hmem with rfl | hmem
    · exact ⟨_, .up hk hparent hrest, Nat.le_refl _⟩
    · obtain ⟨rest, hrises, hlength⟩ := ih hmem
      exact ⟨rest, hrises, Nat.le_succ_of_le hlength⟩

/-- No class comes up twice: the way from there on would be longer than itself. -/
theorem nodup (h : p.Rises place path) : path.Nodup := by
  induction h with
  | root => exact List.nodup_singleton _
  | up hk hparent hrest ih =>
    refine List.nodup_cons.mpr ⟨fun hmem => ?_, ih⟩
    obtain ⟨rest, hrises, hlength⟩ := hrest.of_mem hmem
    rw [hrises.unique (.up hk hparent hrest), List.length_cons] at hlength
    exact absurd hlength (Nat.not_succ_le_self _)

theorem lt_size (h : p.Rises place path) (hmem : other ∈ path) : other < p.size := by
  induction h with
  | root hk hparent =>
    cases List.mem_singleton.mp hmem
    exact lt_size_of_class? hk
  | up hk hparent hrest ih =>
    rcases List.mem_cons.mp hmem with rfl | hmem
    · exact lt_size_of_class? hk
    · exact ih hmem

theorem class? (h : p.Rises place path) : ∃ k, p.class? place = some k := by
  cases h with
  | root hk hparent => exact ⟨_, hk⟩
  | up hk hparent hrest => exact ⟨_, hk⟩

theorem lt_size_self (h : p.Rises place path) : place < p.size := by
  obtain ⟨k, hk⟩ := h.class?
  exact lt_size_of_class? hk

/-- The way up is no longer than the pool. -/
theorem length_le (h : p.Rises place path) : path.length ≤ p.size := by
  have hsub : path ⊆ List.range p.size := fun i hi => List.mem_range.mpr (h.lt_size hi)
  have hle := (List.subperm_of_subset h.nodup hsub).length_le
  rwa [List.length_range] at hle

/-- Constants that are added behind do not matter. -/
theorem begins (h : p.Rises place path) (hpq : ∀ i k, p.class? i = some k → q.class? i = some k) :
    q.Rises place path := by
  induction h with
  | root hk hparent => exact .root (hpq _ _ hk) hparent
  | up hk hparent _ ih => exact .up (hpq _ _ hk) hparent ih

end Rises

/-- A class is linked to a class. -/
theorem Founded.parent (hp : p.Founded) (hk : p.class? place = some k) {parent : Nat}
    (hparent : k.parent = some parent) : ∃ path, p.Rises parent path := by
  obtain ⟨path, hrises⟩ := hp.rises place k hk
  cases hrises with
  | root hk' hnone =>
    rw [hk, Option.some.injEq] at hk'
    rw [hk', hnone] at hparent
    cases hparent
  | up hk' hparent' hrest =>
    rw [hk, Option.some.injEq] at hk'
    rw [hk', hparent', Option.some.injEq] at hparent
    exact ⟨_, hparent ▸ hrest⟩

/-- A pool that begins with another one has its classes. -/
theorem Begins.class? (h : p.Begins q) (hk : p.class? place = some k) : q.class? place = some k := by
  rw [class?_eq_some_iff] at hk ⊢
  rw [h.same place (Array.getElem?_eq_some_iff.mp hk).1, hk]

/-! ## Linking -/

theorem mem_newClasses_iff {first : Nat} {e : Nat × ClassConstant} : e ∈ p.newClasses first ↔
    first ≤ e.1 ∧ p.class? e.1 = some e.2 ∧ e.2.parent = none := by
  unfold newClasses
  rw [List.mem_filterMap]
  constructor
  · rintro ⟨place, -, hplace⟩
    split at hplace
    · next hfirst =>
      split at hplace
      · next c hc =>
        split at hplace
        · next hnone =>
          cases hplace
          exact ⟨hfirst, hc, by simpa using hnone⟩
        · cases hplace
      · cases hplace
    · cases hplace
  · rintro ⟨hfirst, hk, hnone⟩
    refine ⟨e.1, List.mem_range.mpr (lt_size_of_class? hk), ?_⟩
    rw [if_pos hfirst, hk]
    simp [hnone]

/-- What linking makes of the classes: those of the unit are linked, and the others stay as they are. -/
theorem Drafts.class?_link {spans : List (String × Span)} (h : p.Drafts q)
    (hlink : q.link spans p.size = .ok r) : r.size = q.size ∧ ∀ place, r.class? place =
      if place < p.size then p.class? place else (q.class? place).map (Link.linked q) := by
  -- the classes of a list are written, each at its own place
  have hwrite : ∀ (l : List (Nat × ClassConstant)) (s : Pool), s.size = q.size →
      (∀ e ∈ l, q.class? e.1 = some e.2) → ∀ t,
      t = l.foldl (fun s e => s.setIfInBounds e.1 (.cls (Link.linked q e.2))) s →
      t.size = q.size ∧ ∀ place, t.class? place =
        if place ∈ l.map Prod.fst then (q.class? place).map (Link.linked q) else s.class? place := by
    intro l
    induction l with
    | nil =>
      rintro s hsize - t rfl
      exact ⟨hsize, fun place => rfl⟩
    | cons e l ih =>
      rintro s hsize hl t rfl
      have he := hl e List.mem_cons_self
      obtain ⟨hsize', hclasses⟩ := ih _ ((Array.size_setIfInBounds ..).trans hsize)
        (fun e' he' => hl e' (List.mem_cons_of_mem _ he')) _ rfl
      refine ⟨hsize', fun place => (hclasses place).trans ?_⟩
      rw [List.map_cons]
      by_cases hlater : place ∈ l.map Prod.fst
      · rw [if_pos hlater, if_pos (List.mem_cons_of_mem _ hlater)]
      · rw [if_neg hlater]
        by_cases hplace : place = e.1
        · subst hplace
          rw [if_pos List.mem_cons_self, he]
          refine class?_eq_some_iff.mpr (Array.getElem?_setIfInBounds_self_of_lt ?_)
          rw [hsize]
          exact lt_size_of_class? he
        · rw [if_neg (List.not_mem_cons_of_ne_of_not_mem hplace hlater)]
          unfold Pool.class?
          rw [Array.getElem?_setIfInBounds_ne (Ne.symm hplace)]
  unfold Pool.link at hlink
  dsimp only at hlink
  split at hlink
  · cases hlink
  · cases hlink
    obtain ⟨hsize, hclasses⟩ := hwrite (q.newClasses p.size) q rfl
      (fun e he => (mem_newClasses_iff.mp he).2.1) _ rfl
    refine ⟨hsize, fun place => (hclasses place).trans ?_⟩
    by_cases hlt : place < p.size
    · have hold : place ∉ (q.newClasses p.size).map Prod.fst := by
        intro hmem
        obtain ⟨e, he, rfl⟩ := List.mem_map.mp hmem
        exact absurd hlt (Nat.not_lt.mpr (mem_newClasses_iff.mp he).1)
      rw [if_neg hold, if_pos hlt]
      unfold Pool.class?
      rw [h.same place hlt]
    · rw [if_neg hlt]
      cases hk : q.class? place with
      | none => simp
      | some k =>
        have hnew : (place, k) ∈ q.newClasses p.size :=
          mem_newClasses_iff.mpr ⟨Nat.le_of_not_lt hlt, hk,
            h.unlinked place k (Nat.le_of_not_lt hlt) (class?_eq_some_iff.mp hk)⟩
        rw [if_pos (List.mem_map_of_mem hnew)]

/-- The walk above each new class has come to its end. -/
theorem walk_ok_of_link {spans : List (String × Span)} {first : Nat}
    (hlink : q.link spans first = .ok r) (hmem : (place, k) ∈ q.newClasses first) :
    Link.walk q spans k.name (q.size + 1) [k.name] k = .ok () := by
  have hall : ∀ l : List (Nat × ClassConstant), Link.checkAll q spans l = .ok () → (place, k) ∈ l →
      Link.walk q spans k.name (q.size + 1) [k.name] k = .ok () := by
    intro l
    induction l with
    | nil => exact fun _ hmem => absurd hmem List.not_mem_nil
    | cons e l ih =>
      intro hcheck hmem
      unfold Link.checkAll at hcheck
      split at hcheck
      · cases hcheck
      · next hwalk =>
        rcases List.mem_cons.mp hmem with rfl | hmem
        · exact hwalk
        · exact ih hcheck hmem
  unfold Pool.link at hlink
  dsimp only at hlink
  split at hlink
  · cases hlink
  · next hcheck => exact hall _ hcheck hmem

/-- The links above a class end if the walk does. The walk stops at a class that is linked already, whose
links end because they are those of an earlier unit. -/
theorem Founded.rises_of_walk {spans : List (String × Span)} {start : String} {fuel : Nat} {seen : List String}
    (hp : p.Founded) (h : p.Drafts q) (hlink : q.link spans p.size = .ok r) (hk : q.class? place = some k)
    (hwalk : Link.walk q spans start fuel seen k = .ok ()) : ∃ path, r.Rises place path := by
  obtain ⟨-, hclasses⟩ := h.class?_link hlink
  have hkept : ∀ i c, p.class? i = some c → r.class? i = some c := by
    intro i c hc
    rw [hclasses, if_pos (lt_size_of_class? hc), hc]
  induction fuel generalizing seen place k with
  | zero => cases hwalk
  | succ fuel ih =>
    by_cases hold : place < p.size
    · have hclass : p.class? place = some k := by
        unfold Pool.class? at hk ⊢
        rwa [h.same place hold] at hk
      obtain ⟨path, hpath⟩ := hp.rises place k hclass
      exact ⟨path, hpath.begins hkept⟩
    · have hnone : k.parent = none :=
        h.unlinked place k (Nat.le_of_not_lt hold) (class?_eq_some_iff.mp hk)
      have hlinked : r.class? place = some (Link.linked q k) := by rw [hclasses, if_neg hold, hk, Option.map_some]
      unfold Link.walk at hwalk
      cases hname : k.parentName with
      | none =>
        exact ⟨_, .root hlinked (by simp [Link.linked, hname])⟩
      | some name =>
        rw [hname, hnone] at hwalk
        dsimp only at hwalk
        cases hlast : q.lastClass? name with
        | none =>
          rw [hlast] at hwalk
          cases hwalk
        | some found =>
          obtain ⟨parent, next⟩ := found
          rw [hlast] at hwalk
          dsimp only at hwalk
          split at hwalk
          · cases hwalk
          · obtain ⟨path, hpath⟩ := ih (of_lastClass? hlast).1 hwalk
            exact ⟨_, .up hlinked (by simp [Link.linked, hname, hlast]) hpath⟩

/-- Linking changes no name. -/
theorem Drafts.isLast_link {spans : List (String × Span)} (h : p.Drafts q)
    (hlink : q.link spans p.size = .ok r) (hlast : q.IsLast name place) : r.IsLast name place := by
  have hnames : ∀ i, (r.class? i).map (·.name) = (q.class? i).map (·.name) := by
    intro i
    rw [(h.class?_link hlink).2]
    split
    · next hlt =>
      unfold Pool.class?
      rw [h.same i hlt]
    · cases q.class? i <;> rfl
  constructor
  · obtain ⟨k, hk, hname⟩ := hlast.named
    have hr := hnames place
    rw [hk, Option.map_some, Option.map_eq_some_iff] at hr
    obtain ⟨k', hk', hname'⟩ := hr
    exact ⟨k', hk', hname'.trans hname⟩
  · intro later k hlt hk
    have hq := (hnames later).symm
    rw [hk, Option.map_some, Option.map_eq_some_iff] at hq
    obtain ⟨k', hk', hname'⟩ := hq
    rw [← hname']
    exact hlast.last later k' hlt hk'

/-- A new class that names a parent is linked to the last class of this name, and one that names none is
not linked. -/
theorem Drafts.parent_link {spans : List (String × Span)} (h : p.Drafts q)
    (hlink : q.link spans p.size = .ok r) (hplace : p.size ≤ place) (hk : r.class? place = some k) :
    (k.parentName = none → k.parent = none) ∧
      ∀ name, k.parentName = some name → ∃ parent, k.parent = some parent ∧ r.IsLast name parent := by
  rw [(h.class?_link hlink).2, if_neg (Nat.not_lt.mpr hplace), Option.map_eq_some_iff] at hk
  obtain ⟨c, hc, rfl⟩ := hk
  have hnone : c.parent = none := h.unlinked place c hplace (class?_eq_some_iff.mp hc)
  have hwalk := walk_ok_of_link hlink (mem_newClasses_iff.mpr ⟨hplace, hc, hnone⟩)
  constructor
  · intro hname
    have hname : c.parentName = none := hname
    simp [Link.linked, hname]
  · intro name hname
    have hname : c.parentName = some name := hname
    unfold Link.walk at hwalk
    rw [hname, hnone] at hwalk
    dsimp only at hwalk
    cases hlast : q.lastClass? name with
    | none =>
      rw [hlast] at hwalk
      cases hwalk
    | some found =>
      obtain ⟨parent, next⟩ := found
      refine ⟨parent, by simp [Link.linked, hname, hlast], h.isLast_link hlink (of_lastClass? hlast).2⟩

/-- Linking the classes of a unit keeps the pool founded. -/
theorem Founded.link {spans : List (String × Span)} (hp : p.Founded) (h : p.Drafts q)
    (hlink : q.link spans p.size = .ok r) : r.Founded := by
  obtain ⟨-, hclasses⟩ := h.class?_link hlink
  constructor
  · intro place k hk
    by_cases hold : place < p.size
    · rw [hclasses, if_pos hold] at hk
      exact hp.linked place k hk
    · obtain ⟨hroot, hchild⟩ := h.parent_link hlink (Nat.le_of_not_lt hold) hk
      refine ⟨fun hnone => ?_, hroot⟩
      cases hname : k.parentName with
      | none => rfl
      | some name =>
        obtain ⟨parent, hsome, -⟩ := hchild name hname
        rw [hnone] at hsome
        cases hsome
  · intro place k hk
    by_cases hold : place < p.size
    · rw [hclasses, if_pos hold] at hk
      obtain ⟨path, hpath⟩ := hp.rises place k hk
      refine ⟨path, hpath.begins fun i c hc => ?_⟩
      rw [hclasses, if_pos (lt_size_of_class? hc), hc]
    · rw [hclasses, if_neg hold, Option.map_eq_some_iff] at hk
      obtain ⟨c, hc, -⟩ := hk
      have hnew : (place, c) ∈ q.newClasses p.size := mem_newClasses_iff.mpr
        ⟨Nat.le_of_not_lt hold, hc, h.unlinked place c (Nat.le_of_not_lt hold) (class?_eq_some_iff.mp hc)⟩
      exact hp.rises_of_walk h hlink hc (walk_ok_of_link hlink hnew)

end Pool

end ScriptMachine
