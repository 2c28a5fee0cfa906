import Mathlib.Logic.Relation
import ScriptMachine.Proofs.Hierarchy.Link

/-!
# Which hierarchies are accepted

Before the classes of a unit are linked, a walk goes up from each of them. It looks every parent up by name, and it
remembers the classes that it has met by name, too. What this means for the classes themselves:

1. **Walks**: the classes that a walk visits (`Pool.Walks`) and how it ends (`Pool.WalkEnds`). Every walk ends, and in
   one way only.
2. **Linking**: a unit is refused with the error of the first walk that fails, and nothing is linked then.
3. **Hierarchies**: all classes above a class, those that are linked already included (`Pool.Above`). The walks end
   well if and only if every name that is looked up is that of a class, no class lies above itself, and no class above
   a new class looks for the name of that class (`Pool.Drafts.walks_end_iff`).

The last condition is what names make of the walk. A class that was declared again in the same unit has a namesake, and
the walk from the first of the two takes the second one for itself (`namesakes_refused`).
-/

namespace ScriptMachine

namespace Pool

/-! ## Model -/

/-- The class at a place is not linked, and gives this name to its parent. -/
def Seeks (p : Pool) (place : Nat) (name : String) : Prop :=
  ∃ k, p.class? place = some k ∧ k.parent = none ∧ k.parentName = some name

/-- The class at a place has this name. -/
def Named (p : Pool) (place : Nat) (name : String) : Prop := ∃ k, p.class? place = some k ∧ k.name = name

/-- The parent that linking finds for a class. -/
def Finds (p : Pool) (place parent : Nat) : Prop := ∃ name, p.Seeks place name ∧ p.IsLast name parent

/-- The class right above a class: the one that it is linked to, or the one that linking finds. -/
def Above (p : Pool) (place parent : Nat) : Prop :=
  (∃ k, p.class? place = some k ∧ k.parent = some parent) ∨ p.Finds place parent

/-- Every name that is looked up on the way up from a class is that of a class. -/
def Resolves (p : Pool) (start : Nat) : Prop :=
  ∀ other name, Relation.ReflTransGen p.Above start other → p.Seeks other name → ∃ next, p.IsLast name next

/-- No class on the way up from a class lies above itself. -/
def Acyclic (p : Pool) (start : Nat) : Prop :=
  ∀ other, Relation.ReflTransGen p.Above start other → ¬ Relation.TransGen p.Above other other

/-- No class on the way up from a class looks for the name of that class. -/
def Unsought (p : Pool) (start : Nat) : Prop :=
  ∀ other name, Relation.ReflTransGen p.Above start other → p.Seeks other name → ¬ p.Named start name

/-- The classes that a walk from `start` visits, the latest one first. It goes on to classes of other names. -/
inductive Walks (p : Pool) (start : Nat) : List Nat → Prop where
  | start : Walks p start [start]
  | up {last next : Nat} {visited : List Nat} {name : String} : Walks p start (last :: visited) →
    p.Seeks last name → p.IsLast name next → (∀ other ∈ last :: visited, ¬ p.Named other name) →
    Walks p start (next :: last :: visited)

/-- How the walk from `start` ends, after it has visited some classes: well, at a class that looks for no parent, or
with an error. -/
inductive WalkEnds (p : Pool) (spans : List (String × Span)) (start : Nat) : List Nat → Option CompileError → Prop where
  | well {last : Nat} {visited : List Nat} : p.Walks start (last :: visited) → (∀ name, ¬ p.Seeks last name) →
    WalkEnds p spans start (last :: visited) none
  /-- No class has the name. -/
  | unknown {last : Nat} {visited : List Nat} {k : ClassConstant} {name : String} :
    p.Walks start (last :: visited) → p.class? last = some k → p.Seeks last name → (∀ next, ¬ p.IsLast name next) →
    WalkEnds p spans start (last :: visited) (some ⟨.unknownParentClass k.name name, Link.spanOf spans k.name⟩)
  /-- The class of this name has a namesake among the classes that were visited. -/
  | again {last next other : Nat} {visited : List Nat} {k : ClassConstant} {name : String} :
    p.Walks start (last :: visited) → p.class? start = some k → p.Seeks last name → p.IsLast name next →
    other ∈ last :: visited → p.Named other name →
    WalkEnds p spans start (last :: visited) (some ⟨.inheritanceCycle k.name, Link.spanOf spans k.name⟩)

section

variable {p q r : Pool} {spans : List (String × Span)} {start place last next other parent : Nat}
  {visited path : List Nat} {k : ClassConstant} {name name' : String} {e : CompileError} {o o' : Option CompileError}

/-! ## The class of a name -/

theorem Seeks.unique (h : p.Seeks place name) (h' : p.Seeks place name') : name = name' := by
  obtain ⟨k, hk, -, hname⟩ := h
  obtain ⟨k', hk', -, hname'⟩ := h'
  rw [hk, Option.some.injEq] at hk'
  rw [← hk', hname, Option.some.injEq] at hname'
  exact hname'

theorem Named.unique (h : p.Named place name) (h' : p.Named place name') : name = name' := by
  obtain ⟨k, hk, rfl⟩ := h
  obtain ⟨k', hk', rfl⟩ := h'
  rw [hk, Option.some.injEq] at hk'
  rw [hk']

theorem IsLast.unique (h : p.IsLast name place) (h' : p.IsLast name other) : place = other := by
  obtain ⟨k, hk, hname⟩ := h.named
  obtain ⟨k', hk', hname'⟩ := h'.named
  by_contra hne
  rcases Nat.lt_or_gt_of_ne hne with hlt | hlt
  · exact h.last other k' hlt hk' hname'
  · exact h'.last place k hlt hk hname

theorem not_isLast_of_lastClass? (h : p.lastClass? name = none) : ¬ p.IsLast name place := by
  intro hlast
  obtain ⟨k, hk, hname⟩ := hlast.named
  have hnone := List.findSome?_eq_none_iff.mp h place (List.mem_reverse.mpr (List.mem_range.mpr (lt_size_of_class? hk)))
  rw [hk] at hnone
  simp [hname] at hnone

theorem Finds.unique (h : p.Finds place next) (h' : p.Finds place other) : next = other := by
  obtain ⟨name, hseeks, hlast⟩ := h
  obtain ⟨name', hseeks', hlast'⟩ := h'
  obtain rfl := hseeks.unique hseeks'
  exact hlast.unique hlast'

theorem Above.unique (h : p.Above place next) (h' : p.Above place other) : next = other := by
  rcases h with ⟨k, hk, hparent⟩ | h
  · rcases h' with ⟨k', hk', hparent'⟩ | ⟨name', ⟨k', hk', hnone', -⟩, -⟩
    · rw [hk, Option.some.injEq] at hk'
      rw [← hk', hparent, Option.some.injEq] at hparent'
      exact hparent'
    · rw [hk, Option.some.injEq] at hk'
      rw [← hk', hparent] at hnone'
      cases hnone'
  · rcases h' with ⟨k', hk', hparent'⟩ | h'
    · obtain ⟨name, ⟨k, hk, hnone, -⟩, -⟩ := h
      rw [hk, Option.some.injEq] at hk'
      rw [← hk', hnone] at hparent'
      cases hparent'
    · exact h.unique h'

/-! ## Walks -/

namespace Walks

/-- All classes that a walk visits are there, if the first one is. -/
theorem class? (h : p.Walks start visited) (hstart : p.class? start = some k) :
    ∀ other ∈ visited, ∃ k, p.class? other = some k := by
  induction h with
  | start =>
    intro other hother
    rw [List.mem_singleton.mp hother]
    exact ⟨k, hstart⟩
  | up hwalks hseeks hlast hfresh ih =>
    intro other hother
    rcases List.mem_cons.mp hother with rfl | hother
    · obtain ⟨k', hk', -⟩ := hlast.named
      exact ⟨k', hk'⟩
    · exact ih other hother

/-- No class is visited twice. -/
theorem nodup (h : p.Walks start visited) : visited.Nodup := by
  induction h with
  | start => exact List.nodup_singleton _
  | up hwalks hseeks hlast hfresh ih =>
    refine List.nodup_cons.mpr ⟨fun hmem => ?_, ih⟩
    exact hfresh _ hmem hlast.named

/-- A walk visits no more classes than there are constants. -/
theorem length_le (h : p.Walks start visited) (hstart : p.class? start = some k) : visited.length ≤ p.size := by
  have hsub : visited ⊆ List.range p.size := by
    intro other hother
    obtain ⟨k', hk'⟩ := h.class? hstart other hother
    exact List.mem_range.mpr (lt_size_of_class? hk')
  have hle := (List.subperm_of_subset h.nodup hsub).length_le
  rwa [List.length_range] at hle

/-- A walk that goes on from a class goes on to the parent that is found for it. -/
theorem goes_on (h : p.Walks start visited) (hsuffix : last :: path <:+ visited) :
    last :: path = visited ∨ ∃ next, p.Finds last next ∧ next :: last :: path <:+ visited := by
  induction h with
  | start =>
    rcases List.suffix_cons_iff.mp hsuffix with heq | hnil
    · exact .inl heq
    · exact absurd (List.suffix_nil.mp hnil) (List.cons_ne_nil _ _)
  | up hwalks hseeks hlast hfresh ih =>
    rcases List.suffix_cons_iff.mp hsuffix with heq | hshort
    · exact .inl heq
    rcases ih hshort with heq | ⟨next, hfinds, hnext⟩
    · obtain ⟨rfl, rfl⟩ := List.cons.inj heq
      exact .inr ⟨_, ⟨_, hseeks, hlast⟩, List.suffix_rfl⟩
    · exact .inr ⟨next, hfinds, hnext.trans (List.suffix_cons _ _)⟩

/-- A part of a walk is a walk. -/
theorem of_suffix (h : p.Walks start visited) (hsuffix : last :: path <:+ visited) : p.Walks start (last :: path) := by
  induction h with
  | start =>
    rcases List.suffix_cons_iff.mp hsuffix with heq | hnil
    · exact heq ▸ .start
    · exact absurd (List.suffix_nil.mp hnil) (List.cons_ne_nil _ _)
  | up hwalks hseeks hlast hfresh ih =>
    rcases List.suffix_cons_iff.mp hsuffix with heq | hshort
    · exact heq ▸ .up hwalks hseeks hlast hfresh
    · exact ih hshort

/-- Two walks from one class are the same as far as both go. -/
theorem suffix_or_suffix (h : p.Walks start path) (h' : p.Walks start visited) :
    path <:+ visited ∨ visited <:+ path := by
  induction h with
  | start =>
    left
    induction h' with
    | start => exact List.suffix_rfl
    | up _ _ _ _ ih => exact ih.trans (List.suffix_cons _ _)
  | up hwalks hseeks hlast hfresh ih =>
    rcases ih with hsuffix | hsuffix
    · rcases h'.goes_on hsuffix with heq | ⟨next, hfinds, hnext⟩
      · exact .inr (heq ▸ List.suffix_cons _ _)
      · exact .inl (Finds.unique ⟨_, hseeks, hlast⟩ hfinds ▸ hnext)
    · exact .inr (hsuffix.trans (List.suffix_cons _ _))

theorem start_mem (h : p.Walks start visited) : start ∈ visited := by
  induction h with
  | start => exact List.mem_cons_self
  | up _ _ _ _ ih => exact List.mem_cons_of_mem _ ih

/-- All classes that are visited lie above the first one. -/
theorem above (h : p.Walks start visited) : ∀ other ∈ visited, Relation.ReflTransGen p.Above start other := by
  induction h with
  | start =>
    intro other hother
    rw [List.mem_singleton.mp hother]
  | up hwalks hseeks hlast hfresh ih =>
    intro other hother
    rcases List.mem_cons.mp hother with rfl | hother
    · exact (ih _ List.mem_cons_self).tail (.inr ⟨_, hseeks, hlast⟩)
    · exact ih other hother

/-- The latest class lies above all others. -/
theorem above_all (h : p.Walks start (last :: visited)) :
    ∀ other ∈ last :: visited, Relation.ReflTransGen p.Above other last := by
  generalize hall : last :: visited = all at h
  induction h generalizing last visited with
  | start =>
    intro other hother
    obtain ⟨rfl, -⟩ := List.cons.inj hall
    rw [List.mem_singleton.mp hother]
  | up hwalks hseeks hlast hfresh ih =>
    intro other hother
    obtain ⟨rfl, -⟩ := List.cons.inj hall
    rcases List.mem_cons.mp hother with rfl | hother
    · exact .refl
    · exact (ih rfl other hother).tail (.inr ⟨_, hseeks, hlast⟩)

/-- All classes but the first are the last ones of their names. -/
theorem isLast (h : p.Walks start visited) : ∀ other ∈ visited, other ≠ start → ∃ name, p.IsLast name other := by
  induction h with
  | start =>
    intro other hother hne
    exact absurd (List.mem_singleton.mp hother) hne
  | up hwalks hseeks hlast hfresh ih =>
    intro other hother hne
    rcases List.mem_cons.mp hother with rfl | hother
    · exact ⟨_, hlast⟩
    · exact ih other hother hne

end Walks

/-! ## Ends of walks -/

namespace WalkEnds

theorem walks (h : p.WalkEnds spans start visited o) : p.Walks start visited := by
  cases h <;> assumption

/-- A walk that has ended does not go on. -/
theorem stops (h : p.WalkEnds spans start visited o) : ¬ p.Walks start (next :: visited) := by
  intro hnext
  cases h with
  | well hwalks hnone =>
    cases hnext with
    | up _ hseeks => exact hnone _ hseeks
  | unknown hwalks hk hseeks hnone =>
    cases hnext with
    | up _ hseeks' hlast => exact hnone _ (hseeks.unique hseeks' ▸ hlast)
  | again hwalks hk hseeks hlast hother hnamed =>
    cases hnext with
    | up _ hseeks' _ hfresh => exact hfresh _ hother (hseeks.unique hseeks' ▸ hnamed)

theorem eq_of_suffix (h : p.WalkEnds spans start visited o) (h' : p.Walks start path) (hsuffix : visited <:+ path) :
    visited = path := by
  cases visited with
  | nil => cases h
  | cons last visited =>
    rcases h'.goes_on hsuffix with heq | ⟨next, -, hnext⟩
    · exact heq
    · exact absurd (h'.of_suffix hnext) h.stops

/-- A walk ends in one way. -/
theorem unique (h : p.WalkEnds spans start visited o) (h' : p.WalkEnds spans start path o') :
    visited = path ∧ o = o' := by
  have hsame : visited = path := by
    rcases h.walks.suffix_or_suffix h'.walks with hsuffix | hsuffix
    · exact h.eq_of_suffix h'.walks hsuffix
    · exact (h'.eq_of_suffix h.walks hsuffix).symm
  subst hsame
  refine ⟨rfl, ?_⟩
  cases h with
  | well _ hnone =>
    cases h' with
    | well => rfl
    | unknown _ _ hseeks => exact absurd hseeks (hnone _)
    | again _ _ hseeks => exact absurd hseeks (hnone _)
  | unknown _ hk hseeks hnone =>
    cases h' with
    | well _ hnone' => exact absurd hseeks (hnone' _)
    | unknown _ hk' hseeks' =>
      rw [hk, Option.some.injEq] at hk'
      rw [hk', hseeks.unique hseeks']
    | again _ _ hseeks' hlast => exact absurd (hseeks.unique hseeks' ▸ hlast) (hnone _)
  | again _ hk hseeks hlast =>
    cases h' with
    | well _ hnone' => exact absurd hseeks (hnone' _)
    | unknown _ _ hseeks' hnone => exact absurd (hseeks'.unique hseeks ▸ hlast) (hnone _)
    | again _ hk' =>
      rw [hk, Option.some.injEq] at hk'
      rw [hk']

end WalkEnds

/-- The walk is carried out as it should be. It has visited some classes and remembers their names, and there is fuel
for all classes that it has not visited. -/
theorem walk_ends {s : ClassConstant} {fuel : Nat} {seen : List String} (hstart : p.class? start = some s)
    (hwalks : p.Walks start (place :: visited)) (hk : p.class? place = some k)
    (hseen : ∀ name, name ∈ seen ↔ ∃ other ∈ place :: visited, p.Named other name)
    (hfuel : p.size + 1 = fuel + visited.length) : ∃ path,
      (∀ e, Link.walk p spans s.name fuel seen k = .error e → p.WalkEnds spans start path (some e)) ∧
      (Link.walk p spans s.name fuel seen k = .ok () → p.WalkEnds spans start path none) := by
  induction fuel generalizing place visited k seen with
  | zero =>
    -- more classes would have been visited than there are
    have hle := hwalks.length_le hstart
    rw [List.length_cons] at hle
    omega
  | succ fuel ih =>
    unfold Link.walk
    by_cases hseeks : ∃ name, p.Seeks place name
    · obtain ⟨name, hseeks⟩ := hseeks
      obtain ⟨k', hk', hnone, hname⟩ := id hseeks
      rw [hk, Option.some.injEq] at hk'
      subst hk'
      rw [hname, hnone]
      dsimp only
      cases hfound : p.lastClass? name with
      | none =>
        refine ⟨place :: visited, fun e he => ?_, fun hok => by cases hok⟩
        cases he
        exact .unknown hwalks hk hseeks fun next => not_isLast_of_lastClass? hfound
      | some found =>
        obtain ⟨next, c⟩ := found
        obtain ⟨hc, hlast⟩ := of_lastClass? hfound
        obtain rfl : c.name = name := by
          obtain ⟨c', hc', hname'⟩ := hlast.named
          rw [hc, Option.some.injEq] at hc'
          rw [hc', hname']
        dsimp only
        split
        · next hagain =>
          obtain ⟨other, hother, hnamed⟩ := (hseen c.name).mp (by simpa using hagain)
          refine ⟨place :: visited, fun e he => ?_, fun hok => by cases hok⟩
          cases he
          exact .again hwalks hstart hseeks hlast hother hnamed
        · next hfresh =>
          have hfresh : c.name ∉ seen := by simpa using hfresh
          refine ih (.up hwalks hseeks hlast fun other hother hnamed => ?_) hc (fun name => ?_) (by simp; omega)
          · exact hfresh ((hseen c.name).mpr ⟨other, hother, hnamed⟩)
          · have hname : name = c.name ↔ p.Named next name :=
              ⟨fun heq => ⟨c, hc, heq.symm⟩, fun hnamed => hnamed.unique ⟨c, hc, rfl⟩⟩
            rw [List.mem_cons, hseen, hname, ← List.exists_mem_cons_iff (fun other => p.Named other name)]
    · refine ⟨place :: visited, ?_⟩
      have hwell : p.WalkEnds spans start (place :: visited) none := .well hwalks fun name hname => hseeks ⟨name, hname⟩
      split
      · next name hname hnone => exact absurd ⟨name, k, hk, hnone, hname⟩ hseeks
      · exact ⟨fun e he => (by cases he), fun _ => hwell⟩

/-- The walk from a class, as linking starts it. -/
theorem walk_start (spans : List (String × Span)) {s : ClassConstant} (hstart : p.class? start = some s) : ∃ path,
    (∀ e, Link.walk p spans s.name (p.size + 1) [s.name] s = .error e → p.WalkEnds spans start path (some e)) ∧
    (Link.walk p spans s.name (p.size + 1) [s.name] s = .ok () → p.WalkEnds spans start path none) := by
  refine walk_ends hstart .start hstart (fun name => ?_) (by simp)
  simp only [List.mem_singleton, exists_eq_left]
  exact ⟨fun heq => ⟨s, hstart, heq.symm⟩, fun hnamed => hnamed.unique ⟨s, hstart, rfl⟩⟩

/-! ## Linking -/

theorem pairwise_filterMap_range {α : Type} {g : Nat → Option (Nat × α)} {n : Nat}
    (h : ∀ i a, g i = some a → a.1 = i) : ((List.range n).filterMap g).Pairwise fun a b => a.1 < b.1 := by
  refine List.Pairwise.filterMap _ (fun i j hlt a ha b hb => ?_) List.pairwise_lt_range
  rw [h i a ha, h j b hb]
  exact hlt

/-- The new classes are checked in the order of their places. -/
theorem pairwise_newClasses (p : Pool) (first : Nat) : (p.newClasses first).Pairwise fun a b => a.1 < b.1 := by
  refine pairwise_filterMap_range fun i a ha => ?_
  split at ha
  · split at ha
    · split at ha
      · cases ha
        rfl
      · cases ha
    · cases ha
  · cases ha

/-- The first walk that fails decides. -/
theorem checkAll_eq_error {l : List (Nat × ClassConstant)} : Link.checkAll p spans l = .error e ↔
    ∃ before place k after, l = before ++ (place, k) :: after ∧
      Link.walk p spans k.name (p.size + 1) [k.name] k = .error e ∧
      ∀ c ∈ before, Link.walk p spans c.2.name (p.size + 1) [c.2.name] c.2 = .ok () := by
  induction l with
  | nil =>
    constructor
    · intro h
      cases h
    · rintro ⟨before, place, k, after, h, -⟩
      exact absurd h.symm (by simp)
  | cons c l ih =>
    obtain ⟨place, k⟩ := c
    unfold Link.checkAll
    constructor
    · intro h
      split at h
      · next hwalk =>
        cases h
        exact ⟨[], place, k, l, rfl, hwalk, nofun⟩
      · next hwalk =>
        obtain ⟨before, place', k', after, rfl, herror, hbefore⟩ := ih.mp h
        exact ⟨(place, k) :: before, place', k', after, rfl, herror, List.forall_mem_cons.mpr ⟨hwalk, hbefore⟩⟩
    · rintro ⟨before, place', k', after, heq, herror, hbefore⟩
      cases before with
      | nil =>
        cases heq
        rw [herror]
      | cons c before =>
        obtain ⟨rfl, rfl⟩ := List.cons.inj heq
        obtain ⟨hwalk, hbefore⟩ := List.forall_mem_cons.mp hbefore
        rw [hwalk]
        exact ih.mpr ⟨before, place', k', after, rfl, herror, hbefore⟩

/-- A new class, which waits to be linked. -/
def IsNew (p : Pool) (first place : Nat) : Prop :=
  first ≤ place ∧ ∃ k, p.class? place = some k ∧ k.parent = none

theorem isNew_iff_mem {first : Nat} : p.IsNew first place ↔ ∃ k, (place, k) ∈ p.newClasses first := by
  constructor
  · rintro ⟨hfirst, k, hk, hnone⟩
    exact ⟨k, mem_newClasses_iff.mpr ⟨hfirst, hk, hnone⟩⟩
  · rintro ⟨k, hk⟩
    obtain ⟨hfirst, hk, hnone⟩ := mem_newClasses_iff.mp hk
    exact ⟨hfirst, k, hk, hnone⟩

theorem link_error_iff_checkAll {first : Nat} :
    p.link spans first = .error e ↔ Link.checkAll p spans (p.newClasses first) = .error e := by
  unfold Pool.link
  dsimp only
  split
  · next he => rw [he, Except.error.injEq, Except.error.injEq]
  · next hok =>
    rw [hok]
    exact ⟨nofun, nofun⟩

/-- What the walk from a class answers is how it ends. -/
theorem WalkEnds.walk_eq {s : ClassConstant} {o : Option CompileError} (hends : p.WalkEnds spans start path o)
    (hstart : p.class? start = some s) :
    Link.walk p spans s.name (p.size + 1) [s.name] s = o.elim (.ok ()) .error := by
  obtain ⟨path', herror, hok⟩ := walk_start spans hstart
  cases hwalk : Link.walk p spans s.name (p.size + 1) [s.name] s with
  | error e' =>
    rw [(hends.unique (herror e' hwalk)).2]
    rfl
  | ok u =>
    rw [(hends.unique (hok hwalk)).2]
    rfl

/-- Linking fails with the error of the first walk that fails. -/
theorem link_eq_error_iff (first : Nat) : p.link spans first = .error e ↔ ∃ place, p.IsNew first place ∧
    (∃ path, p.WalkEnds spans place path (some e)) ∧
    ∀ earlier, p.IsNew first earlier → earlier < place → ∃ path, p.WalkEnds spans earlier path none := by
  have hsorted := p.pairwise_newClasses first
  rw [link_error_iff_checkAll, checkAll_eq_error]
  constructor
  · rintro ⟨before, place, k, after, hsplit, herror, hbefore⟩
    have hmem : (place, k) ∈ p.newClasses first := by rw [hsplit]; simp
    obtain ⟨path, hends, -⟩ := walk_start spans (mem_newClasses_iff.mp hmem).2.1
    refine ⟨place, isNew_iff_mem.mpr ⟨k, hmem⟩, ⟨path, hends e herror⟩, fun earlier hearlier hlt => ?_⟩
    obtain ⟨c, hc⟩ := isNew_iff_mem.mp hearlier
    rw [hsplit] at hsorted hc
    rcases List.mem_append.mp hc with hc | hc
    · obtain ⟨path, -, hends⟩ := walk_start spans (mem_newClasses_iff.mp (hsplit ▸ List.mem_append_left _ hc)).2.1
      exact ⟨path, hends (hbefore _ hc)⟩
    · -- the others come later
      rcases List.mem_cons.mp hc with heq | hc
      · cases heq
        exact absurd hlt (Nat.lt_irrefl _)
      · have hle := (List.pairwise_cons.mp (List.pairwise_append.mp hsorted).2.1).1 _ hc
        exact absurd hlt (Nat.not_lt.mpr (Nat.le_of_lt hle))
  · rintro ⟨place, hplace, ⟨path, hends⟩, hearlier⟩
    obtain ⟨k, hmem⟩ := isNew_iff_mem.mp hplace
    obtain ⟨before, after, hsplit⟩ := List.append_of_mem hmem
    refine ⟨before, place, k, after, hsplit, hends.walk_eq (mem_newClasses_iff.mp hmem).2.1, fun c hc => ?_⟩
    have hcmem : c ∈ p.newClasses first := hsplit ▸ List.mem_append_left _ hc
    rw [hsplit] at hsorted
    have hlt := (List.pairwise_append.mp hsorted).2.2 c hc _ List.mem_cons_self
    obtain ⟨path', hwell⟩ := hearlier c.1 (isNew_iff_mem.mpr ⟨c.2, hcmem⟩) hlt
    exact hwell.walk_eq (mem_newClasses_iff.mp hcmem).2.1

/-- A unit is accepted if all walks end well. -/
theorem link_isOk_iff (spans : List (String × Span)) (first : Nat) : (∃ r, p.link spans first = .ok r) ↔
    ∀ place, p.IsNew first place → ∃ path, p.WalkEnds spans place path none := by
  constructor
  · rintro ⟨r, hlink⟩ place ⟨hfirst, k, hk, hnone⟩
    obtain ⟨path, -, hok⟩ := walk_start spans hk
    exact ⟨path, hok (walk_ok_of_link hlink (mem_newClasses_iff.mpr ⟨hfirst, hk, hnone⟩))⟩
  · intro hwell
    cases hlink : p.link spans first with
    | ok r => exact ⟨r, rfl⟩
    | error e =>
      obtain ⟨place, hnew, ⟨path, hfails⟩, -⟩ := (link_eq_error_iff first).mp hlink
      obtain ⟨path', hends⟩ := hwell place hnew
      cases (hfails.unique hends).2

/-! ## Hierarchies -/

/-- Every walk ends. -/
theorem exists_end (spans : List (String × Span)) {s : ClassConstant} (hstart : p.class? start = some s) :
    ∃ path o, p.WalkEnds spans start path o := by
  obtain ⟨path, herror, hok⟩ := walk_start spans hstart
  cases hwalk : Link.walk p spans s.name (p.size + 1) [s.name] s with
  | ok u => exact ⟨path, none, hok hwalk⟩
  | error e => exact ⟨path, some e, herror e hwalk⟩

/-- A walk that ends well has found every name that was looked up on the way, and not among the names of the classes
that it had visited. -/
theorem WalkEnds.finds (h : p.WalkEnds spans start path none) (hother : other ∈ path) (hseeks : p.Seeks other name) :
    ∃ next ∈ path, p.IsLast name next ∧ ¬ p.Named start name := by
  obtain ⟨before, rest, rfl⟩ := List.append_of_mem hother
  rcases h.walks.goes_on (List.suffix_append before (other :: rest)) with heq | ⟨next, hfinds, hnext⟩
  · -- the walk has ended there
    rw [← heq] at h
    cases h with
    | well _ hnone => exact absurd hseeks (hnone name)
  · cases h.walks.of_suffix hnext with
    | up hwalks hseeks' hlast hfresh =>
      obtain rfl := hseeks.unique hseeks'
      exact ⟨next, hnext.subset List.mem_cons_self, hlast, hfresh start hwalks.start_mem⟩

/-- A walk that takes two classes for the same has come back to a class, or it has found a namesake of the first one. -/
theorem WalkEnds.namesake {cls : String} {span : Span}
    (h : p.WalkEnds spans start visited (some ⟨.inheritanceCycle cls, span⟩)) :
    ∃ last next, visited.head? = some last ∧ p.Finds last next ∧
      (next ∈ visited ∨ next ≠ start ∧ ∃ name, p.Named start name ∧ p.Named next name) := by
  cases h with
  | @again last next other visited k name hwalks hk hseeks hlast hother hnamed =>
    refine ⟨last, next, rfl, ⟨name, hseeks, hlast⟩, ?_⟩
    by_cases hstart : other = start
    · by_cases hback : next = start
      · exact .inl (hback ▸ hwalks.start_mem)
      · exact .inr ⟨hback, name, hstart ▸ hnamed, hlast.named⟩
    · obtain ⟨name', hlast'⟩ := hwalks.isLast other hother hstart
      obtain rfl := Named.unique hnamed hlast'.named
      exact .inl (hlast.unique hlast' ▸ hother)

/-- Of the classes, only new ones look for a parent. -/
theorem Drafts.isNew_of_seeks (hp : p.Founded) (h : p.Drafts q) (hseeks : q.Seeks place name) :
    q.IsNew p.size place := by
  obtain ⟨k, hk, hnone, hname⟩ := hseeks
  refine ⟨?_, k, hk, hnone⟩
  by_contra hold
  have hclass : p.class? place = some k := by
    unfold Pool.class? at hk ⊢
    rwa [h.same place (Nat.lt_of_not_le hold)] at hk
  rw [(hp.linked place k hclass).mp hnone] at hname
  cases hname

/-- Above an old class there are only old ones. -/
theorem Drafts.above_old (hp : p.Founded) (h : p.Drafts q) (habove : q.Above place parent) (hold : place < p.size) :
    parent < p.size := by
  rcases habove with ⟨k, hk, hparent⟩ | ⟨name, hseeks, -⟩
  · have hclass : p.class? place = some k := by
      unfold Pool.class? at hk ⊢
      rwa [h.same place hold] at hk
    obtain ⟨path, hrises⟩ := hp.parent hclass hparent
    exact hrises.lt_size_self
  · exact absurd hold (Nat.not_lt.mpr (h.isNew_of_seeks hp hseeks).1)

/-- A walk that ends well has visited all classes above the first one, up to one of an earlier unit. -/
theorem Drafts.visited_or_old (hp : p.Founded) (h : p.Drafts q) (hends : q.WalkEnds spans start path none)
    (habove : Relation.ReflTransGen q.Above start other) : other ∈ path ∨ other < p.size := by
  induction habove with
  | refl => exact .inl hends.walks.start_mem
  | @tail other next _ hnext ih =>
    by_cases hold : other < p.size
    · exact .inr (h.above_old hp hnext hold)
    have hvisited := ih.resolve_right hold
    rcases hnext with ⟨k, hk, hparent⟩ | ⟨name, hseeks, hlast⟩
    · -- a class that is linked already is an old one
      have hnone := h.unlinked other k (Nat.le_of_not_lt hold) (class?_eq_some_iff.mp hk)
      rw [hparent] at hnone
      cases hnone
    · obtain ⟨next', hmem, hlast', -⟩ := hends.finds hvisited hseeks
      exact .inl (hlast.unique hlast' ▸ hmem)

/-- Once the classes are linked, the class above a class is its parent. -/
theorem Drafts.parent_of_above (hp : p.Founded) (h : p.Drafts q) (hlink : q.link spans p.size = .ok r)
    (habove : q.Above place parent) : ∃ k, r.class? place = some k ∧ k.parent = some parent := by
  obtain ⟨-, hclasses⟩ := h.class?_link hlink
  rcases habove with ⟨k, hk, hparent⟩ | ⟨name, hseeks, hlast⟩
  · have hold : place < p.size := by
      by_contra hnew
      have hnone := h.unlinked place k (Nat.le_of_not_lt hnew) (class?_eq_some_iff.mp hk)
      rw [hparent] at hnone
      cases hnone
    refine ⟨k, ?_, hparent⟩
    rw [hclasses, if_pos hold]
    unfold Pool.class? at hk ⊢
    rwa [h.same place hold] at hk
  · obtain ⟨k, hk, hnone, hname⟩ := id hseeks
    have hnew := (h.isNew_of_seeks hp hseeks).1
    refine ⟨Link.linked q k, by rw [hclasses, if_neg (Nat.not_lt.mpr hnew), hk, Option.map_some], ?_⟩
    cases hfound : q.lastClass? name with
    | none => exact absurd hlast (not_isLast_of_lastClass? hfound)
    | some found =>
      have hsame := (of_lastClass? hfound).2.unique hlast
      simp [Link.linked, hname, hfound, hsame]

/-- From a link on, the way up is shorter. -/
theorem Rises.shorter {path : List Nat} (h : r.Rises place path) (hk : r.class? place = some k)
    (hparent : k.parent = some other) : ∃ rest, r.Rises other rest ∧ rest.length < path.length := by
  cases h with
  | root hk' hnone =>
    rw [hk, Option.some.injEq] at hk'
    rw [← hk', hparent] at hnone
    cases hnone
  | up hk' hparent' hrest =>
    rw [hk, Option.some.injEq] at hk'
    rw [← hk', hparent, Option.some.injEq] at hparent'
    exact ⟨_, hparent' ▸ hrest, Nat.lt_succ_self _⟩

/-- The links above a class do not lead back to it. -/
theorem Rises.not_back {path : List Nat} (h : r.Rises place path) :
    ¬ Relation.TransGen (fun i j => ∃ k, r.class? i = some k ∧ k.parent = some j) place place := by
  have hshorter : ∀ other, Relation.TransGen (fun i j => ∃ k, r.class? i = some k ∧ k.parent = some j) place other →
      ∃ rest, r.Rises other rest ∧ rest.length < path.length := by
    intro other hother
    induction hother with
    | single hlink =>
      obtain ⟨k, hk, hparent⟩ := hlink
      exact h.shorter hk hparent
    | tail _ hlink ih =>
      obtain ⟨k, hk, hparent⟩ := hlink
      obtain ⟨rest, hrises, hlt⟩ := ih
      obtain ⟨rest', hrises', hlt'⟩ := hrises.shorter hk hparent
      exact ⟨rest', hrises', Nat.lt_trans hlt' hlt⟩
  intro hback
  obtain ⟨rest, hrises, hlt⟩ := hshorter place hback
  rw [hrises.unique h] at hlt
  exact absurd hlt (Nat.lt_irrefl _)

/-- All walks end well if and only if every name that is looked up is that of a class, no class lies above itself, and
no class above a new class looks for the name of that class. -/
theorem Drafts.walks_end_iff (hp : p.Founded) (h : p.Drafts q) (spans : List (String × Span)) :
    (∀ place, q.IsNew p.size place → ∃ path, q.WalkEnds spans place path none) ↔
      ∀ place, q.IsNew p.size place → q.Resolves place ∧ q.Acyclic place ∧ q.Unsought place := by
  constructor
  · intro hwell place hnew
    obtain ⟨path, hends⟩ := hwell place hnew
    -- a class that looks for a name is new, so the walk from `place` has visited it
    have hvisited : ∀ other name, Relation.ReflTransGen q.Above place other → q.Seeks other name → other ∈ path := by
      intro other name habove hseeks
      refine (h.visited_or_old hp hends habove).resolve_right fun hold => ?_
      exact absurd hold (Nat.not_lt.mpr (h.isNew_of_seeks hp hseeks).1)
    refine ⟨fun other name habove hseeks => ?_, fun other _ hback => ?_, fun other name habove hseeks => ?_⟩
    · obtain ⟨next, -, hlast, -⟩ := hends.finds (hvisited other name habove hseeks) hseeks
      exact ⟨next, hlast⟩
    · obtain ⟨r, hlink⟩ := (link_isOk_iff spans p.size).mpr hwell
      have hback : Relation.TransGen (fun i j => ∃ k, r.class? i = some k ∧ k.parent = some j) other other :=
        Relation.TransGen.mono (fun i j hij => h.parent_of_above hp hlink hij) _ _ hback
      obtain ⟨c, ⟨k, hk, -⟩, -⟩ := Relation.TransGen.head'_iff.mp hback
      obtain ⟨up, hrises⟩ := (hp.link h hlink).rises other k hk
      exact hrises.not_back hback
    · obtain ⟨next, -, -, hunsought⟩ := hends.finds (hvisited other name habove hseeks) hseeks
      exact hunsought
  · intro hgood place hnew
    obtain ⟨hresolves, hacyclic, hunsought⟩ := hgood place hnew
    obtain ⟨k, hk, -⟩ := hnew.2
    obtain ⟨path, o, hends⟩ := exists_end spans hk
    cases hends with
    | well hwalks hnone => exact ⟨_, .well hwalks hnone⟩
    | unknown hwalks hk' hseeks hnone =>
      obtain ⟨next, hlast⟩ := hresolves _ _ (hwalks.above _ List.mem_cons_self) hseeks
      exact absurd hlast (hnone next)
    | @again last next other visited _ name hwalks _ hseeks hlast hother hnamed =>
      have hlastAbove := hwalks.above _ List.mem_cons_self
      by_cases hstart : other = place
      · exact absurd (hstart ▸ hnamed) (hunsought last name hlastAbove hseeks)
      · -- the class of the name was visited before, so it lies above itself
        obtain ⟨name', hlast'⟩ := hwalks.isLast other hother hstart
        obtain rfl := Named.unique hnamed hlast'.named
        have hback : Relation.TransGen q.Above other other := by
          have hup := hwalks.above_all other hother
          exact Relation.TransGen.tail' hup (.inr ⟨name, hseeks, hlast.unique hlast' ▸ hlast⟩)
        exact absurd hback (hacyclic other (hwalks.above other hother))

end

end Pool

section

variable {p : Pool} {σ : CompileState}

theorem CompileM.linkClasses_ok_iff {first : Nat} {τ : CompileState} : linkClasses first σ = .ok () τ ↔
    ∃ r, σ.pool.link σ.classSpans first = .ok r ∧ τ = { σ with pool := r } := by
  rw [linkClasses_eq]
  cases σ.pool.link σ.classSpans first with
  | ok r =>
    constructor
    · intro heq
      cases heq
      exact ⟨r, rfl, rfl⟩
    · rintro ⟨r', heq, rfl⟩
      cases heq
      rfl
  | error e => exact ⟨nofun, fun ⟨r, heq, _⟩ => nomatch heq⟩

theorem CompileM.linkClasses_error_iff {first : Nat} {e : CompileError} {τ : CompileState} :
    linkClasses first σ = .error e τ ↔ σ.pool.link σ.classSpans first = .error e ∧ τ = σ := by
  rw [linkClasses_eq]
  cases σ.pool.link σ.classSpans first with
  | ok r => exact ⟨nofun, nofun⟩
  | error e' =>
    constructor
    · intro heq
      cases heq
      exact ⟨rfl, rfl⟩
    · rintro ⟨heq, rfl⟩
      cases heq
      rfl

/-- Let the classes of earlier units be linked, and those of a unit wait for it. Linking succeeds if and only if, on the
way up from each new class, every name that is looked up is that of a class, no class lies above itself, and no class
looks for the name of the new class. Otherwise the first walk that fails says why: it has met an unknown name, or it has
come back to a class, or to a namesake of the class that it started from. Nothing is linked then. If linking succeeds,
each new class is linked to the last class of the name that it gives to its parent. -/
theorem Pool.Founded.links_hierarchies (hp : p.Founded) (h : p.Drafts σ.pool) :
    ((∃ τ, CompileM.linkClasses p.size σ = .ok () τ) ↔ ∀ place, σ.pool.IsNew p.size place →
      σ.pool.Resolves place ∧ σ.pool.Acyclic place ∧ σ.pool.Unsought place) ∧
    (∀ e τ, CompileM.linkClasses p.size σ = .error e τ ↔ τ = σ ∧ ∃ place, σ.pool.IsNew p.size place ∧
      (∃ path, σ.pool.WalkEnds σ.classSpans place path (some e)) ∧
      ∀ earlier, σ.pool.IsNew p.size earlier → earlier < place →
        ∃ path, σ.pool.WalkEnds σ.classSpans earlier path none) ∧
    (∀ place path cls span, σ.pool.WalkEnds σ.classSpans place path (some ⟨.inheritanceCycle cls, span⟩) →
      ∃ last next, path.head? = some last ∧ σ.pool.Finds last next ∧
        (next ∈ path ∨ next ≠ place ∧ ∃ name, σ.pool.Named place name ∧ σ.pool.Named next name)) ∧
    ∀ τ, CompileM.linkClasses p.size σ = .ok () τ → τ = { σ with pool := τ.pool } ∧ p.Begins τ.pool ∧
      ∀ place k, p.size ≤ place → τ.pool.class? place = some k → (k.parentName = none → k.parent = none) ∧
        ∀ name, k.parentName = some name → ∃ parent, k.parent = some parent ∧ τ.pool.IsLast name parent := by
  refine ⟨?_, fun e τ => ?_, fun place path cls span hends => hends.namesake, fun τ hτ => ?_⟩
  · rw [← h.walks_end_iff hp σ.classSpans, ← Pool.link_isOk_iff]
    constructor
    · rintro ⟨τ, hτ⟩
      obtain ⟨r, hlink, -⟩ := CompileM.linkClasses_ok_iff.mp hτ
      exact ⟨r, hlink⟩
    · rintro ⟨r, hlink⟩
      exact ⟨_, CompileM.linkClasses_ok_iff.mpr ⟨r, hlink, rfl⟩⟩
  · rw [CompileM.linkClasses_error_iff, Pool.link_eq_error_iff]
    exact and_comm
  · obtain ⟨r, hlink, rfl⟩ := CompileM.linkClasses_ok_iff.mp hτ
    exact ⟨rfl, h.toBegins.link hlink, fun place k hplace hk => h.parent_link hlink hplace hk⟩

end

/-! ## A class that extends a child of its namesake -/

/-- `class A {}; class B extends A {}`, linked -/
def parentAndChild : Pool := #[.cls ⟨"A", none, [], [], none⟩, .cls ⟨"B", some "A", [], [], some 0⟩]

/-- In a later unit, `class A extends B {}`, before it is linked -/
def redeclared : CompileState := ⟨parentAndChild.push (.cls ⟨"A", some "B", [], [], none⟩), .empty, .top, [], []⟩

theorem parentAndChild_founded : parentAndChild.Founded := by
  have hroot : parentAndChild.Rises 0 [0] := .root rfl rfl
  have hchild : parentAndChild.Rises 1 [1, 0] := .up rfl rfl hroot
  constructor
  · intro place k hk
    match place with
    | 0 | 1 =>
      cases Option.some.inj hk
      decide
    | n + 2 => cases hk
  · intro place k hk
    match place with
    | 0 => exact ⟨_, hroot⟩
    | 1 => exact ⟨_, hchild⟩
    | n + 2 => cases hk

theorem redeclared_drafts : parentAndChild.Drafts redeclared.pool := by
  refine ⟨(Pool.Begins.refl _).push _, fun place k hplace hk => ?_⟩
  match place with
  | 0 | 1 => exact absurd hplace (by decide)
  | 2 =>
    cases Option.some.inj hk
    rfl
  | n + 3 => cases hk

/-- The walk from the new class ends at `B`, which is linked already to the old `A`. -/
theorem redeclared_links : parentAndChild.Founded ∧ parentAndChild.Drafts redeclared.pool ∧
    redeclared.pool.IsNew parentAndChild.size 2 ∧
    (∃ τ, CompileM.linkClasses parentAndChild.size redeclared = .ok () τ) ∧
    redeclared.pool.Resolves 2 ∧ redeclared.pool.Acyclic 2 ∧ redeclared.pool.Unsought 2 := by
  have hlinks := Pool.Founded.links_hierarchies parentAndChild_founded redeclared_drafts
  have hok : ∃ τ, CompileM.linkClasses parentAndChild.size redeclared = .ok () τ := ⟨_, rfl⟩
  have hnew : redeclared.pool.IsNew parentAndChild.size 2 := ⟨Nat.le_refl _, _, rfl, rfl⟩
  exact ⟨parentAndChild_founded, redeclared_drafts, hnew, hok, hlinks.1.mp hok 2 hnew⟩

/-! ## A class and its namesake -/

/-- `class A extends B {}; class B extends A {}; class A {}`, before the classes are linked -/
def namesakes : CompileState :=
  ⟨#[.cls ⟨"A", some "B", [], [], none⟩, .cls ⟨"B", some "A", [], [], none⟩, .cls ⟨"A", none, [], [], none⟩],
    .empty, .top, [], []⟩

namespace namesakes

/-- Going up from a class leads to the class behind it, if it leads anywhere. -/
theorem above {place parent : Nat} (h : namesakes.pool.Above place parent) : place < parent := by
  have hclass : ∀ k, namesakes.pool.class? place = some k →
      place = 0 ∧ k = ⟨"A", some "B", [], [], none⟩ ∨ place = 1 ∧ k = ⟨"B", some "A", [], [], none⟩ ∨
        place = 2 ∧ k = ⟨"A", none, [], [], none⟩ := by
    intro k hk
    match place with
    | 0 => exact .inl ⟨rfl, (Option.some.inj hk).symm⟩
    | 1 => exact .inr (.inl ⟨rfl, (Option.some.inj hk).symm⟩)
    | 2 => exact .inr (.inr ⟨rfl, (Option.some.inj hk).symm⟩)
    | n + 3 => cases hk
  rcases h with ⟨k, hk, hparent⟩ | ⟨name, ⟨k, hk, -, hname⟩, hlast⟩
  · rcases hclass k hk with ⟨rfl, rfl⟩ | ⟨rfl, rfl⟩ | ⟨rfl, rfl⟩ <;> cases hparent
  · rcases hclass k hk with ⟨rfl, rfl⟩ | ⟨rfl, rfl⟩ | ⟨rfl, rfl⟩
    · cases hname
      by_contra hle
      obtain rfl : parent = 0 := by omega
      exact hlast.last 1 _ (by decide) rfl rfl
    · cases hname
      by_contra hle
      exact hlast.last 2 _ (by omega) rfl rfl
    · cases hname

theorem acyclic (place : Nat) : namesakes.pool.Acyclic place := by
  intro other _ hback
  have hlt : ∀ i j, Relation.TransGen namesakes.pool.Above i j → i < j := by
    intro i j hij
    induction hij with
    | single hstep => exact above hstep
    | tail _ hstep ih => exact Nat.lt_trans ih (above hstep)
  exact Nat.lt_irrefl _ (hlt other other hback)

theorem names_resolve (place : Nat) : namesakes.pool.Resolves place := by
  rintro other name - ⟨k, hk, -, hname⟩
  match other with
  | 0 =>
    cases Option.some.inj hk
    cases hname
    exact ⟨1, (Pool.of_lastClass? (k := ⟨"B", some "A", [], [], none⟩) rfl).2⟩
  | 1 =>
    cases Option.some.inj hk
    cases hname
    exact ⟨2, (Pool.of_lastClass? (k := ⟨"A", none, [], [], none⟩) rfl).2⟩
  | 2 =>
    cases Option.some.inj hk
    cases hname
  | n + 3 => cases hk

theorem drafts : Pool.Drafts #[] namesakes.pool := by
  refine ⟨⟨Nat.zero_le _, nofun⟩, fun place k _ hk => ?_⟩
  match place with
  | 0 | 1 | 2 =>
    cases Option.some.inj hk
    rfl
  | n + 3 => cases hk

end namesakes

/-- Every name is that of a class and no class lies above itself, and still the unit is refused because of a cycle. -/
theorem namesakes_refused : CompileM.linkClasses 0 namesakes = .error ⟨.inheritanceCycle "A", .dummy⟩ namesakes ∧
    ∀ place, namesakes.pool.IsNew 0 place → namesakes.pool.Resolves place ∧ namesakes.pool.Acyclic place :=
  ⟨rfl, fun place _ => ⟨namesakes.names_resolve place, namesakes.acyclic place⟩⟩

end ScriptMachine
