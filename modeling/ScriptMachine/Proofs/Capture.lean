import Mathlib.Data.List.Nodup
import ScriptMachine.Proofs.Scope

/-!
# Captured names

What a name stands for in nested function scopes, in whatever order scopes are entered and left, names declared and
names resolved.

1. **Where a name is bound**: the innermost scope that binds it, the innermost one that declares it (a captured
   variable is bound, but not declared), and the way along the captures from one scope to the next one out.
2. **Histories**: a table together with all that was declared in each of its scopes, and its steps.
3. **Linked scopes**: what a scope captures is what the scope around it binds at this moment. This is an invariant,
   because only the innermost scope is declared in: the scopes around it gain captures and lose nothing.
4. **Slots**: a slot is reused for the name that has it, and for no other.
5. **Resolving**: `History.Reached.resolves`.
-/

namespace ScriptMachine

/-! ## Where a name is bound -/

namespace Scope

/-- The innermost scope that binds a name is number `m` of the chain, and binds it to `x`. -/
inductive Binds (name : String) : List Scope → Nat → Symbol → Prop
  | here {s : Scope} {chain : List Scope} {x : Symbol} (h : s.store[name]? = some x) : Binds name (s :: chain) 0 x
  | outward {s : Scope} {chain : List Scope} {m : Nat} {x : Symbol} (h : s.store[name]? = none)
      (hrest : Binds name chain m x) : Binds name (s :: chain) (m + 1) x

/-- The innermost scope that declares a name is number `n` of the chain, and declares it as `y`. What is bound further
in is captured. -/
inductive Declares (name : String) : List Scope → Nat → Symbol → Prop
  | here {s : Scope} {chain : List Scope} {y : Symbol} (h : s.store[name]? = some y) (hown : y.storage ≠ .free) :
      Declares name (s :: chain) 0 y
  | outward {s : Scope} {chain : List Scope} {n : Nat} {y : Symbol}
      (h : ∀ x, s.store[name]? = some x → x.storage = .free) (hrest : Declares name chain n y) :
      Declares name (s :: chain) (n + 1) y

/-- A binding `x` of the first scope stands for the binding `y` of scope number `n`: a captured variable stands for
what its capture stands for in the scope around. -/
inductive LeadsTo : List Scope → Symbol → Nat → Symbol → Prop
  | here {s : Scope} {chain : List Scope} {x : Symbol} (h : x.storage ≠ .free) : LeadsTo (s :: chain) x 0 x
  | outward {s : Scope} {chain : List Scope} {x outer y : Symbol} {n : Nat} (h : x.storage = .free)
      (hrecorded : s.free[x.index]? = some outer) (hrest : LeadsTo chain outer n y) : LeadsTo (s :: chain) x (n + 1) y

/-- How often a scope has captured a name. -/
def captures (s : Scope) (name : String) : Nat := (s.free.toList.map Symbol.name).count name

theorem binds_or_unbound (name : String) (chain : List Scope) :
    (∀ s ∈ chain, s.store[name]? = none) ∨ ∃ m x, Binds name chain m x := by
  induction chain with
  | nil => exact .inl fun s hs => by cases hs
  | cons s chain ih =>
    cases hs : s.store[name]? with
    | some x => exact .inr ⟨0, x, .here hs⟩
    | none =>
      rcases ih with hnone | ⟨m, x, hbinds⟩
      · exact .inl (List.forall_mem_cons.mpr ⟨hs, hnone⟩)
      · exact .inr ⟨m + 1, x, .outward hs hbinds⟩

end Scope

/-! ## Resolving, case by case -/

namespace SymbolTable

section

variable {name : String} {scope next next' : Scope} {rest rest' : List Scope} {x : Symbol}

theorem resolveFrom_of_bound (h : scope.store[name]? = some x) (outer : List Scope) :
    resolveFrom name scope outer = (some x, scope, outer) := by
  unfold resolveFrom
  rw [h]

theorem resolveFrom_nil (h : scope.store[name]? = none) : resolveFrom name scope [] = (none, scope, []) := by
  unfold resolveFrom
  rw [h]

theorem resolveFrom_of_unbound (h : scope.store[name]? = none)
    (hnext : resolveFrom name next rest = (none, next', rest')) :
    resolveFrom name scope (next :: rest) = (none, scope, next' :: rest') := by
  unfold resolveFrom
  simp only [h, hnext]

/-- Globals and host functions pass through a scope. -/
theorem resolveFrom_of_shared (h : scope.store[name]? = none)
    (hnext : resolveFrom name next rest = (some x, next', rest')) (hx : ¬x.IsCaptured) :
    resolveFrom name scope (next :: rest) = (some x, scope, next' :: rest') := by
  have hst : x.storage = .global ∨ x.storage = .builtin := by
    unfold Symbol.IsCaptured at hx
    tauto
  unfold resolveFrom
  simp only [h, hnext]
  rcases hst with hst | hst <;> simp only [hst]

/-- All else is captured. -/
theorem resolveFrom_of_captured (h : scope.store[name]? = none)
    (hnext : resolveFrom name next rest = (some x, next', rest')) (hx : x.IsCaptured) :
    resolveFrom name scope (next :: rest) =
      (some (scope.defineFree x).1, (scope.defineFree x).2, next' :: rest') := by
  unfold resolveFrom
  simp only [h, hnext]
  cases hst : x.storage with
  | global => exact absurd hst hx.1
  | builtin => exact absurd hst hx.2
  | _ => rfl

theorem resolveFrom_eq_none (outer : List Scope) (h : ∀ s ∈ scope :: outer, s.store[name]? = none) :
    resolveFrom name scope outer = (none, scope, outer) := by
  induction outer generalizing scope with
  | nil => exact resolveFrom_nil (h scope List.mem_cons_self)
  | cons next rest ih =>
    have hnext := ih fun s hs => h s (List.mem_cons_of_mem _ hs)
    exact resolveFrom_of_unbound (h scope List.mem_cons_self) hnext

/-- A name that is bound in the first scope, or shared by all of them, is answered as it is bound. -/
theorem resolveFrom_eq_some {chain : List Scope} {m : Nat} (h : Scope.Binds name chain m x)
    (hplain : m = 0 ∨ ¬x.IsCaptured) {outer : List Scope} (hchain : chain = scope :: outer) :
    resolveFrom name scope outer = (some x, scope, outer) := by
  induction h generalizing scope outer with
  | here h =>
    cases hchain
    exact resolveFrom_of_bound h _
  | @outward s chain m x h hrest ih =>
    cases hchain
    have hx : ¬x.IsCaptured := hplain.resolve_left (Nat.succ_ne_zero m)
    cases chain with
    | nil => cases hrest
    | cons next rest => exact resolveFrom_of_shared h (ih (.inr hx) rfl) hx

end

end SymbolTable

/-! ## Linked scopes -/

namespace Scope

/-- What a scope has captured is what the scope around it binds, each name once, and it is what the captured variables
of the scope stand for. -/
structure LinkedTo (s next : Scope) : Prop where
  named : ∀ {name : String} {x : Symbol}, s.store[name]? = some x → x.name = name
  captured : ∀ outer ∈ s.free, outer.IsCaptured ∧ next.store[outer.name]? = some outer
  recorded : ∀ {name : String} {x : Symbol}, s.store[name]? = some x → x.storage = .free →
    ∃ outer, s.free[x.index]? = some outer ∧ outer.name = name ∧ outer.constant = x.constant
  once : (s.free.toList.map Symbol.name).Nodup
  bound : ∀ outer ∈ s.free, (s.store[outer.name]?).isSome

/-- The outermost scope captures nothing. -/
structure Outermost (s : Scope) : Prop where
  named : ∀ {name : String} {x : Symbol}, s.store[name]? = some x → x.name = name
  free_eq : s.free = #[]
  own : ∀ {name : String} {x : Symbol}, s.store[name]? = some x → x.storage ≠ .free

/-- Every scope of a chain is linked to the scope around it. -/
def ChainLinked : Scope → List Scope → Prop
  | s, [] => s.Outermost
  | s, next :: rest => s.LinkedTo next ∧ ChainLinked next rest

/-- What a scope binds and declares after names were resolved: nothing is lost, and what is new is captured. -/
structure Widens (s s' : Scope) : Prop where
  kept : ∀ {name : String} {x : Symbol}, s.store[name]? = some x → s'.store[name]? = some x
  declared : ∀ {name : String} {x : Symbol}, s'.store[name]? = some x → x.storage ≠ .free → s.store[name]? = some x
  definitions : s'.definitions = s.definitions

theorem Widens.refl (s : Scope) : s.Widens s := ⟨fun h => h, fun h _ => h, rfl⟩

theorem ChainLinked.named {s : Scope} {rest : List Scope} (h : ChainLinked s rest) {name : String} {x : Symbol}
    (hx : s.store[name]? = some x) : x.name = name := by
  cases rest with
  | nil => exact Outermost.named h hx
  | cons next rest => exact h.1.named hx

theorem ChainLinked.named_of_binds {s : Scope} {rest : List Scope} (h : ChainLinked s rest) {name : String} {m : Nat}
    {x : Symbol} (hbinds : Binds name (s :: rest) m x) : x.name = name := by
  induction rest generalizing s m with
  | nil =>
    cases hbinds with
    | here hx => exact h.named hx
    | outward _ hrest => cases hrest
  | cons next rest ih =>
    cases hbinds with
    | here hx => exact h.named hx
    | outward _ hrest => exact ih h.2 hrest

theorem ChainLinked.nodup {s : Scope} {rest : List Scope} (h : ChainLinked s rest) :
    ∀ t ∈ s :: rest, (t.free.toList.map Symbol.name).Nodup := by
  induction rest generalizing s with
  | nil =>
    intro t ht
    rw [List.mem_singleton.mp ht, Outermost.free_eq h]
    exact List.nodup_nil
  | cons next rest ih => exact List.forall_mem_cons.mpr ⟨h.1.once, ih h.2⟩

theorem LinkedTo.widen {s next next' : Scope} (h : s.LinkedTo next) (hnext : next.Widens next') :
    s.LinkedTo next' := by
  refine ⟨h.named, fun outer houter => ?_, h.recorded, h.once, h.bound⟩
  rcases h.captured outer houter with ⟨hkind, hbound⟩
  exact ⟨hkind, hnext.kept hbound⟩

/-- A declaration captures nothing. Whatever was captured under its name stays captured. -/
theorem LinkedTo.insert {s next : Scope} (h : s.LinkedTo next) {symbol : Symbol} (hst : symbol.storage ≠ .free)
    (n : Nat) : LinkedTo ({ s with definitions := n }.insert symbol) next := by
  refine ⟨?_, h.captured, ?_, h.once, ?_⟩
  · intro name x hx
    simp only [Scope.insert, Std.HashMap.getElem?_insert] at hx
    split at hx
    · next hname =>
      cases hx
      exact beq_iff_eq.mp hname
    · exact h.named hx
  · intro name x hx hfree
    simp only [Scope.insert, Std.HashMap.getElem?_insert] at hx
    split at hx
    · cases hx
      exact absurd hfree hst
    · exact h.recorded hx hfree
  · intro outer houter
    simp only [Scope.insert, Std.HashMap.getElem?_insert]
    split
    · rfl
    · exact h.bound outer houter

theorem Outermost.insert {s : Scope} (h : s.Outermost) {symbol : Symbol} (hst : symbol.storage ≠ .free) (n : Nat) :
    Outermost ({ s with definitions := n }.insert symbol) := by
  refine ⟨?_, h.free_eq, ?_⟩
  · intro name x hx
    simp only [Scope.insert, Std.HashMap.getElem?_insert] at hx
    split at hx
    · next hname =>
      cases hx
      exact beq_iff_eq.mp hname
    · exact h.named hx
  · intro name x hx
    simp only [Scope.insert, Std.HashMap.getElem?_insert] at hx
    split at hx
    · cases hx
      exact hst
    · exact h.own hx

theorem ChainLinked.insert {s : Scope} {rest : List Scope} (h : ChainLinked s rest) {symbol : Symbol}
    (hst : symbol.storage ≠ .free) (n : Nat) : ChainLinked ({ s with definitions := n }.insert symbol) rest := by
  cases rest with
  | nil => exact Outermost.insert h hst n
  | cons next rest => exact ⟨h.1.insert hst n, h.2⟩

/-- The declared variable has the slot that its name had before, or the next one. -/
theorem define_cases (s : Scope) (storage : Storage) (name : String) (constant : Bool) :
    (∃ old, s.store[name]? = some old ∧ old.storage = storage ∧
      s.define storage name constant =
        (⟨name, storage, old.index, constant⟩, s.insert ⟨name, storage, old.index, constant⟩)) ∨
    s.define storage name constant = (⟨name, storage, s.definitions, constant⟩,
      { s with definitions := s.definitions + 1 }.insert ⟨name, storage, s.definitions, constant⟩) := by
  unfold define
  dsimp only
  cases hold : s.store[name]? with
  | none => exact .inr rfl
  | some old =>
    by_cases hst : old.storage = storage
    · exact .inl ⟨old, rfl, hst, by simp only [hst, if_true]⟩
    · exact .inr (by simp only [hst, if_false])

theorem ChainLinked.define {s : Scope} {rest : List Scope} (h : ChainLinked s rest) {storage : Storage}
    (hst : storage ≠ .free) (name : String) (constant : Bool) :
    ChainLinked (s.define storage name constant).2 rest := by
  rcases s.define_cases storage name constant with ⟨old, -, -, hdefine⟩ | hdefine
  · rw [hdefine]
    exact h.insert hst s.definitions
  · rw [hdefine]
    exact h.insert hst (s.definitions + 1)

theorem linkedTo_empty (next : Scope) : Scope.empty.LinkedTo next := by
  constructor <;> simp [Scope.empty]

theorem outermost_empty : Scope.empty.Outermost := by
  constructor <;> simp [Scope.empty]

section

variable {s next : Scope} {x : Symbol}

theorem widens_defineFree (hnew : s.store[x.name]? = none) : s.Widens (s.defineFree x).2 := by
  refine ⟨?_, ?_, rfl⟩
  · intro name y hy
    have hne : ¬(x.name == name) = true := by
      intro heq
      rw [beq_iff_eq.mp heq, hy] at hnew
      cases hnew
    simp only [defineFree, Scope.insert, Std.HashMap.getElem?_insert, if_neg hne]
    exact hy
  · intro name y hy hown
    simp only [defineFree, Scope.insert, Std.HashMap.getElem?_insert] at hy
    split at hy
    · cases hy
      exact absurd rfl hown
    · exact hy

/-- A name is captured where it is not bound, so it has not been captured before. -/
theorem LinkedTo.defineFree (h : s.LinkedTo next) (hnew : s.store[x.name]? = none) (hx : x.IsCaptured)
    (hnext : next.store[x.name]? = some x) : (s.defineFree x).2.LinkedTo next := by
  have hstore (name : String) : (s.defineFree x).2.store[name]? =
      if x.name == name then some ⟨x.name, .free, s.free.size, x.constant⟩ else s.store[name]? := by
    simp only [Scope.defineFree, Scope.insert, Std.HashMap.getElem?_insert]
  have hfree : (s.defineFree x).2.free = s.free.push x := rfl
  refine ⟨?_, ?_, ?_, ?_, ?_⟩
  · intro name y hy
    rw [hstore] at hy
    split at hy
    · next hname =>
      cases hy
      exact beq_iff_eq.mp hname
    · exact h.named hy
  · intro outer houter
    rcases Array.mem_push.mp (hfree ▸ houter) with houter | rfl
    · exact h.captured outer houter
    · exact ⟨hx, hnext⟩
  · intro name y hy hyfree
    rw [hstore] at hy
    split at hy
    · next hname =>
      cases hy
      exact ⟨x, by simp [hfree], beq_iff_eq.mp hname, rfl⟩
    · rcases h.recorded hy hyfree with ⟨outer, hrec, hname, hconst⟩
      have hlt := (Array.getElem?_eq_some_iff.mp hrec).1
      refine ⟨outer, ?_, hname, hconst⟩
      rw [hfree, Array.getElem?_push_lt hlt]
      exact (Array.getElem?_eq_getElem hlt).symm.trans hrec
  · rw [hfree, Array.toList_push, List.map_append, List.nodup_append]
    refine ⟨h.once, by simp, ?_⟩
    intro name hname other hother heq
    rcases List.mem_map.mp hname with ⟨outer, houter, rfl⟩
    have hbound := h.bound outer (Array.mem_toList_iff.mp houter)
    rw [heq, List.mem_singleton.mp hother, hnew] at hbound
    cases hbound
  · intro outer houter
    rw [hstore]
    split
    · rfl
    · rcases Array.mem_push.mp (hfree ▸ houter) with houter | rfl
      · exact h.bound outer houter
      · next hne => exact absurd (beq_self_eq_true _) hne

end

/-- Where a name is declared, its captures end. -/
theorem leadsTo_self {s : Scope} {name : String} {x : Symbol} (rest : List Scope) (hx : s.store[name]? = some x)
    (hkind : x.IsCaptured) (hown : x.storage ≠ .free) :
    Declares name (s :: rest) 0 x ∧ (x.storage = .local ∨ x.storage = .functionSelf) ∧ LeadsTo (s :: rest) x 0 x := by
  refine ⟨.here hx hown, ?_, .here hown⟩
  rcases hkind with ⟨hglobal, hbuiltin⟩
  cases hst : x.storage <;> simp_all

/-- Along the captures of linked scopes there is a declaration at the end, and each scope on the way has captured the
name once. -/
theorem ChainLinked.leadsTo {s : Scope} {rest : List Scope} (h : ChainLinked s rest) {name : String} {x : Symbol}
    (hx : s.store[name]? = some x) (hkind : x.IsCaptured) :
    ∃ n y, (Declares name (s :: rest) n y ∧ (y.storage = .local ∨ y.storage = .functionSelf) ∧
      LeadsTo (s :: rest) x n y) ∧ y.constant = x.constant ∧ ∀ t ∈ (s :: rest).take n, t.captures name = 1 := by
  induction rest generalizing s x with
  | nil =>
    have hself := leadsTo_self [] hx hkind (Outermost.own h hx)
    exact ⟨0, x, hself, rfl, fun t ht => by cases ht⟩
  | cons next rest ih =>
    by_cases hfree : x.storage = .free
    · rcases h with ⟨hlinked, hrest⟩
      rcases hlinked.recorded hx hfree with ⟨outer, hrecorded, rfl, hconstant⟩
      have hmem : outer ∈ s.free := Array.mem_of_getElem? hrecorded
      rcases hlinked.captured outer hmem with ⟨houter, hnext⟩
      rcases ih hrest hnext houter with ⟨n, y, ⟨hdeclares, hown, hleads⟩, hsame, hothers⟩
      have hone : s.captures outer.name = 1 :=
        List.count_eq_one_of_mem hlinked.once (List.mem_map_of_mem (Array.mem_toList_iff.mpr hmem))
      have hbound : ∀ z, s.store[outer.name]? = some z → z.storage = .free := by
        intro z hz
        rw [hx] at hz
        cases hz
        exact hfree
      refine ⟨n + 1, y, ⟨.outward hbound hdeclares, hown, .outward hfree hrecorded hleads⟩,
        hsame.trans hconstant, ?_⟩
      rw [List.take_succ_cons]
      exact List.forall_mem_cons.mpr ⟨hone, hothers⟩
    · have hself := leadsTo_self (next :: rest) hx hkind hfree
      exact ⟨0, x, hself, rfl, fun t ht => by cases ht⟩

/-- What is declared after names were resolved was declared before. -/
theorem Declares.before {name : String} {chain chain' : List Scope} {n : Nat} {y : Symbol}
    (h : Declares name chain' n y) (hwidens : List.Forall₂ Widens chain chain') : Declares name chain n y := by
  induction h generalizing chain with
  | here hbound hown =>
    cases hwidens with
    | cons hs _ => exact .here (hs.declared hbound hown) hown
  | outward hfree _ ih =>
    cases hwidens with
    | cons hs hrest => exact .outward (fun x hx => hfree x (hs.kept hx)) (ih hrest)

end Scope

namespace SymbolTable

open Scope

/-- Resolving a name widens the scopes on the way and keeps all scopes linked, and what is answered is bound in the
first scope unless it is shared by all of them. -/
theorem resolveFrom_linked (name : String) {scope : Scope} {outer : List Scope} (h : ChainLinked scope outer)
    {found : Option Symbol} {scope' : Scope} {outer' : List Scope}
    (hresolve : resolveFrom name scope outer = (found, scope', outer')) :
    ChainLinked scope' outer' ∧ List.Forall₂ Widens (scope :: outer) (scope' :: outer') ∧
      ∀ x, found = some x → x.name = name ∧ (x.IsCaptured → scope'.store[name]? = some x) := by
  have hsame (rest : List Scope) : List.Forall₂ Widens rest rest := List.forall₂_same.mpr fun s _ => .refl s
  induction outer generalizing scope found scope' outer' with
  | nil =>
    cases hbound : scope.store[name]? with
    | some x =>
      rw [resolveFrom_of_bound hbound] at hresolve
      cases hresolve
      refine ⟨h, hsame _, fun y hy => ?_⟩
      cases hy
      exact ⟨h.named hbound, fun _ => hbound⟩
    | none =>
      rw [resolveFrom_nil hbound] at hresolve
      cases hresolve
      exact ⟨h, hsame _, fun y hy => by cases hy⟩
  | cons next rest ih =>
    cases hbound : scope.store[name]? with
    | some x =>
      rw [resolveFrom_of_bound hbound] at hresolve
      cases hresolve
      refine ⟨h, hsame _, fun y hy => ?_⟩
      cases hy
      exact ⟨h.named hbound, fun _ => hbound⟩
    | none =>
      rcases h with ⟨hlinked, hrest⟩
      rcases hnext : resolveFrom name next rest with ⟨inner, next', rest'⟩
      rcases ih hrest hnext with ⟨hchain, hwidens, hanswer⟩
      have hlinked' : scope.LinkedTo next' := by
        cases hwidens with
        | cons hhead _ => exact hlinked.widen hhead
      cases inner with
      | none =>
        rw [resolveFrom_of_unbound hbound hnext] at hresolve
        cases hresolve
        exact ⟨⟨hlinked', hchain⟩, .cons (.refl _) hwidens, fun y hy => by cases hy⟩
      | some x =>
        rcases hanswer x rfl with ⟨rfl, hx⟩
        by_cases hkind : x.IsCaptured
        · rw [resolveFrom_of_captured hbound hnext hkind] at hresolve
          cases hresolve
          refine ⟨⟨hlinked'.defineFree hbound hkind (hx hkind), hchain⟩,
            .cons (widens_defineFree hbound) hwidens, fun y hy => ?_⟩
          cases hy
          exact ⟨rfl, fun _ => by simp [defineFree, Scope.insert]⟩
        · rw [resolveFrom_of_shared hbound hnext hkind] at hresolve
          cases hresolve
          refine ⟨⟨hlinked', hchain⟩, .cons (.refl _) hwidens, fun y hy => ?_⟩
          cases hy
          exact ⟨rfl, fun hcaptured => absurd hcaptured hkind⟩

/-- What is bound further out, and not shared by all scopes, is answered as a captured variable. -/
theorem resolveFrom_captures {name : String} {chain : List Scope} {m : Nat} {x : Symbol} (hm : m ≠ 0)
    (h : Binds name chain m x) (hname : x.name = name) (hkind : x.IsCaptured) {scope : Scope} {outer : List Scope}
    (hchain : chain = scope :: outer) :
    ∃ i, (resolveFrom name scope outer).1 = some ⟨name, .free, i, x.constant⟩ := by
  induction h generalizing scope outer with
  | here _ => exact absurd rfl hm
  | @outward s chain m x hs hrest ih =>
    cases hchain
    cases chain with
    | nil => cases hrest
    | cons next rest =>
      rcases hnext : resolveFrom name next rest with ⟨found, next', rest'⟩
      by_cases hzero : m = 0
      · have hfound := resolveFrom_eq_some hrest (.inl hzero) rfl
        rw [hnext] at hfound
        cases hfound
        rw [resolveFrom_of_captured hs hnext hkind]
        exact ⟨s.free.size, by rw [← hname]; rfl⟩
      · rcases ih hzero hname hkind rfl with ⟨i, hi⟩
        rw [hnext] at hi
        cases hi
        rw [resolveFrom_of_captured hs hnext ⟨nofun, nofun⟩]
        exact ⟨s.free.size, rfl⟩

end SymbolTable

/-! ## Slots -/

/-- The slots of a scope in which `declared` was declared: each is below the number of slots, no two names were ever
given the same one, and what is bound to a slot was declared. -/
structure Scope.Allots (s : Scope) (declared : List Symbol) : Prop where
  below : ∀ x ∈ declared, x.index < s.definitions
  apart : ∀ x ∈ declared, ∀ y ∈ declared, x.index = y.index → x.name = y.name
  logged : ∀ {name : String} {x : Symbol}, s.store[name]? = some x → x.storage = .global ∨ x.storage = .local →
    x.name = name ∧ x ∈ declared

namespace Scope

variable {s s' : Scope} {declared : List Symbol}

theorem allots_empty : Scope.empty.Allots [] := by
  constructor <;> simp [Scope.empty]

/-- Other bindings take no slots. -/
theorem Allots.insert (h : s.Allots declared) {symbol : Symbol} (hglobal : symbol.storage ≠ .global)
    (hlocal : symbol.storage ≠ .local) : (s.insert symbol).Allots declared := by
  refine ⟨h.below, h.apart, ?_⟩
  intro name x hx hst
  simp only [Scope.insert, Std.HashMap.getElem?_insert] at hx
  split at hx
  · cases hx
    exact (hst.elim hglobal hlocal).elim
  · exact h.logged hx hst

theorem Allots.widen (h : s.Allots declared) (hwidens : s.Widens s') : s'.Allots declared := by
  refine ⟨fun x hx => ?_, h.apart, fun hx hst => ?_⟩
  · rw [hwidens.definitions]
    exact h.below x hx
  · refine h.logged (hwidens.declared hx ?_) hst
    intro hfree
    rcases hst with hst | hst <;> rw [hfree] at hst <;> cases hst

/-- A slot that is used again is used for the same name, and any other slot is new. -/
theorem Allots.declare (h : s.Allots declared) (x : Symbol) (n : Nat) (hle : s.definitions ≤ n) (hlt : x.index < n)
    (hsame : ∀ y ∈ declared, y.index = x.index → y.name = x.name) :
    Allots ({ s with definitions := n }.insert x) (x :: declared) := by
  refine ⟨?_, ?_, ?_⟩
  · exact List.forall_mem_cons.mpr ⟨hlt, fun y hy => Nat.lt_of_lt_of_le (h.below y hy) hle⟩
  · intro y hy z hz heq
    rcases List.mem_cons.mp hy with rfl | hy'
    · rcases List.mem_cons.mp hz with rfl | hz'
      · rfl
      · exact (hsame z hz' heq.symm).symm
    · rcases List.mem_cons.mp hz with rfl | hz'
      · exact hsame y hy' heq
      · exact h.apart y hy' z hz' heq
  · intro name y hy hst
    simp only [Scope.insert, Std.HashMap.getElem?_insert] at hy
    split at hy
    · next hname =>
      cases hy
      exact ⟨beq_iff_eq.mp hname, List.mem_cons_self⟩
    · rcases h.logged hy hst with ⟨hname, hmem⟩
      exact ⟨hname, List.mem_cons_of_mem _ hmem⟩

theorem Allots.define (h : s.Allots declared) {storage : Storage} (hst : storage = .global ∨ storage = .local)
    (name : String) (constant : Bool) :
    (s.define storage name constant).2.Allots ((s.define storage name constant).1 :: declared) := by
  rcases s.define_cases storage name constant with ⟨old, hold, hkeep, hdefine⟩ | hdefine
  · rw [hdefine]
    rcases h.logged hold (hkeep ▸ hst) with ⟨hname, hmem⟩
    refine h.declare _ s.definitions (Nat.le_refl _) (h.below old hmem) fun y hy heq => ?_
    exact (h.apart y hy old hmem heq).trans hname
  · rw [hdefine]
    refine h.declare _ (s.definitions + 1) (Nat.le_succ _) (Nat.lt_succ_self _) fun y hy heq => ?_
    exact absurd heq (Nat.ne_of_lt (h.below y hy))

/-- Resolving names takes no slots. -/
theorem allots_widen {chain chain' : List Scope} {declared : List (List Symbol)}
    (h : List.Forall₂ Allots chain declared) (hwidens : List.Forall₂ Widens chain chain') :
    List.Forall₂ Allots chain' declared := by
  induction hwidens generalizing declared with
  | nil => exact h
  | cons hs _ ih =>
    cases h with
    | cons hhead hrest => exact .cons (hhead.widen hs) (ih hrest)

end Scope

/-! ## Histories -/

/-- A table and, for each scope of its chain, all symbols that were declared in the scope so far, the last one first. -/
structure History where
  table : SymbolTable
  declared : List (List Symbol)

namespace History

open Scope

/-- What may be done to a table. -/
inductive Step : History → History → Prop
  | enclose (t : SymbolTable) (declared : List (List Symbol)) : Step ⟨t, declared⟩ ⟨t.enclose, [] :: declared⟩
  | leave {t u : SymbolTable} (h : t.leave? = some u) (inside : List Symbol) (declared : List (List Symbol)) :
      Step ⟨t, inside :: declared⟩ ⟨u, declared⟩
  | define (t : SymbolTable) (name : String) (constant : Bool) (here : List Symbol) (declared : List (List Symbol)) :
      Step ⟨t, here :: declared⟩ ⟨(t.define name constant).2, ((t.define name constant).1 :: here) :: declared⟩
  | nameFunction (t : SymbolTable) (name : String) (declared : List (List Symbol)) :
      Step ⟨t, declared⟩ ⟨(t.defineFunctionName name).2, declared⟩
  | nameNative (t : SymbolTable) (index : Nat) (name : String) (declared : List (List Symbol)) :
      Step ⟨t, declared⟩ ⟨(t.defineBuiltin index name).2, declared⟩
  | resolve (t : SymbolTable) (name : String) (declared : List (List Symbol)) :
      Step ⟨t, declared⟩ ⟨(t.resolve name).2, declared⟩

/-- Histories that begin with an empty outermost scope. -/
inductive Reached : History → Prop
  | start : Reached ⟨.empty, [[]]⟩
  | step {h h' : History} (hreached : Reached h) (hstep : Step h h') : Reached h'

/-- The scopes of the table are linked, and each has given out its slots to the names that were declared in it. -/
structure Sound (h : History) : Prop where
  linked : ChainLinked h.table.current h.table.outer
  allots : List.Forall₂ Allots h.table.chain h.declared

theorem sound_start : Sound ⟨.empty, [[]]⟩ := ⟨outermost_empty, .cons allots_empty .nil⟩

/-- A name that stands for no variable is bound. -/
theorem Sound.bind {t : SymbolTable} {declared : List (List Symbol)} (h : Sound ⟨t, declared⟩) {symbol : Symbol}
    (hst : symbol.storage = .functionSelf ∨ symbol.storage = .builtin) : Sound ⟨t.bind symbol, declared⟩ := by
  rcases t with ⟨current, outer⟩
  rcases h with ⟨hlinked, hallots⟩
  have hfree : symbol.storage ≠ .free := by
    rcases hst with hst | hst <;> rw [hst] <;> nofun
  have hglobal : symbol.storage ≠ .global := by
    rcases hst with hst | hst <;> rw [hst] <;> nofun
  have hlocal : symbol.storage ≠ .local := by
    rcases hst with hst | hst <;> rw [hst] <;> nofun
  refine ⟨hlinked.insert hfree current.definitions, ?_⟩
  cases hallots with
  | cons hcurrent houter => exact .cons (hcurrent.insert hglobal hlocal) houter

theorem Sound.define {t : SymbolTable} {here : List Symbol} {declared : List (List Symbol)}
    (h : Sound ⟨t, here :: declared⟩) (name : String) (constant : Bool) :
    Sound ⟨(t.define name constant).2, ((t.define name constant).1 :: here) :: declared⟩ := by
  rcases t with ⟨current, outer⟩
  rcases h with ⟨hlinked, hallots⟩
  cases hallots with
  | cons hcurrent houter =>
    have hkind (t : SymbolTable) : (if t.isGlobal then Storage.global else .local) = .global ∨
        (if t.isGlobal then Storage.global else .local) = .local := by
      cases t.isGlobal
      · exact .inr rfl
      · exact .inl rfl
    have hfree : (if SymbolTable.isGlobal ⟨current, outer⟩ then Storage.global else .local) ≠ .free := by
      rcases hkind ⟨current, outer⟩ with hst | hst <;> rw [hst] <;> nofun
    exact ⟨hlinked.define hfree name constant, .cons (hcurrent.define (hkind _) name constant) houter⟩

theorem Sound.resolve {t : SymbolTable} {declared : List (List Symbol)} (h : Sound ⟨t, declared⟩) (name : String) :
    Sound ⟨(t.resolve name).2, declared⟩ := by
  rcases hresolve : SymbolTable.resolveFrom name t.current t.outer with ⟨found, current, outer⟩
  rcases SymbolTable.resolveFrom_linked name h.linked hresolve with ⟨hlinked, hwidens, -⟩
  have htable : (t.resolve name).2 = ⟨current, outer⟩ := by
    unfold SymbolTable.resolve
    rw [hresolve]
  rw [htable]
  exact ⟨hlinked, allots_widen h.allots hwidens⟩

theorem Step.sound {h h' : History} (hstep : Step h h') (hs : Sound h) : Sound h' := by
  cases hstep with
  | enclose t declared => exact ⟨⟨linkedTo_empty _, hs.linked⟩, .cons allots_empty hs.allots⟩
  | @leave t u hleave inside declared =>
    rcases t with ⟨current, outer⟩
    rcases hs with ⟨hlinked, hallots⟩
    cases outer with
    | nil => cases hleave
    | cons next rest =>
      cases hleave
      cases hallots with
      | cons _ hrest => exact ⟨hlinked.2, hrest⟩
  | define t name constant here declared => exact hs.define name constant
  | nameFunction t name declared => exact hs.bind (.inl rfl)
  | nameNative t index name declared => exact hs.bind (.inr rfl)
  | resolve t name declared => exact hs.resolve name

theorem Reached.sound {h : History} (hreached : Reached h) : Sound h := by
  induction hreached with
  | start => exact sound_start
  | step _ hstep ih => exact hstep.sound ih

/-! ## Resolving -/

/-- What resolving a name answers, and what it captures.

1. Nothing is answered if and only if no scope binds the name, and then nothing changes.
2. A binding of the innermost scope that binds the name is answered as it is if that is the current scope, or if the
   binding is a global or a host function. Nothing is captured.
3. Any other is answered as a captured variable.
4. A captured variable that is answered leads, scope by scope, to the local or the function that the innermost scope
   that declares the name declares. It is as constant as that, and each scope on the way has captured the name once.
5. No scope has captured a name twice.
6. No two names that were declared in one scope were given the same slot, and all slots are below the number of slots
   of the scope. -/
theorem Reached.resolves {t : SymbolTable} {declared : List (List Symbol)} (h : Reached ⟨t, declared⟩)
    (name : String) :
    ((t.resolve name).1 = none ↔ ∀ s ∈ t.chain, s.store[name]? = none) ∧
    ((t.resolve name).1 = none → t.resolve name = (none, t)) ∧
    (∀ m x, Binds name t.chain m x → m = 0 ∨ ¬x.IsCaptured → t.resolve name = (some x, t)) ∧
    (∀ m x, Binds name t.chain m x → m ≠ 0 → x.IsCaptured →
      ∃ i, (t.resolve name).1 = some ⟨name, .free, i, x.constant⟩) ∧
    (∀ x, (t.resolve name).1 = some x → x.storage = .free → ∃ n y, Declares name t.chain n y ∧
      (y.storage = .local ∨ y.storage = .functionSelf) ∧ LeadsTo (t.resolve name).2.chain x n y ∧
      y.constant = x.constant ∧ ∀ s ∈ (t.resolve name).2.chain.take n, s.captures name = 1) ∧
    (∀ s ∈ t.chain, (s.free.toList.map Symbol.name).Nodup) ∧
    List.Forall₂ (fun s here => (∀ x ∈ here, x.index < s.definitions) ∧
      ∀ x ∈ here, ∀ y ∈ here, x.name ≠ y.name → x.index ≠ y.index) t.chain declared := by
  have hsound := h.sound
  rcases hresolve : SymbolTable.resolveFrom name t.current t.outer with ⟨found, current, outer⟩
  have hanswer : t.resolve name = (found, ⟨current, outer⟩) := by
    unfold SymbolTable.resolve
    rw [hresolve]
  rcases SymbolTable.resolveFrom_linked name hsound.linked hresolve with ⟨hlinked, hwidens, hfound⟩
  have hnone (hunbound : ∀ s ∈ t.chain, s.store[name]? = none) : t.resolve name = (none, t) := by
    unfold SymbolTable.resolve
    rw [SymbolTable.resolveFrom_eq_none t.outer hunbound]
  have hplain {m : Nat} {x : Symbol} (hbinds : Binds name t.chain m x) (hm : m = 0 ∨ ¬x.IsCaptured) :
      t.resolve name = (some x, t) := by
    unfold SymbolTable.resolve
    rw [SymbolTable.resolveFrom_eq_some hbinds hm rfl]
  have hcaptures {m : Nat} {x : Symbol} (hbinds : Binds name t.chain m x) (hm : m ≠ 0) (hkind : x.IsCaptured) :
      ∃ i, (t.resolve name).1 = some ⟨name, .free, i, x.constant⟩ := by
    have hname : x.name = name := hsound.linked.named_of_binds hbinds
    rcases SymbolTable.resolveFrom_captures hm hbinds hname hkind rfl with ⟨i, hi⟩
    exact ⟨i, hi⟩
  have hunbound (heq : (t.resolve name).1 = none) : ∀ s ∈ t.chain, s.store[name]? = none := by
    rcases binds_or_unbound name t.chain with hall | ⟨m, x, hbinds⟩
    · exact hall
    · by_cases hm : m = 0 ∨ ¬x.IsCaptured
      · rw [hplain hbinds hm] at heq
        cases heq
      · rw [not_or, not_not] at hm
        rcases hcaptures hbinds hm.1 hm.2 with ⟨i, hi⟩
        rw [hi] at heq
        cases heq
  refine ⟨⟨hunbound, fun hall => by rw [hnone hall]⟩, fun heq => hnone (hunbound heq), fun m x => hplain,
    fun m x => hcaptures, ?_, ?_, ?_⟩
  · intro x hx hfree
    rw [hanswer] at hx ⊢
    have hkind : x.IsCaptured := by simp [Symbol.IsCaptured, hfree]
    rcases hlinked.leadsTo ((hfound x hx).2 hkind) hkind with ⟨n, y, ⟨hdeclares, hown, hleads⟩, hsame, hones⟩
    exact ⟨n, y, hdeclares.before hwidens, hown, hleads, hsame, hones⟩
  · exact hsound.linked.nodup
  · refine hsound.allots.imp fun s here hs => ⟨hs.below, fun x hx y hy hne heq => ?_⟩
    exact hne (hs.apart x hx y hy heq)

/-- A function that declares a constant, with a function inside a function in it. -/
def nested : SymbolTable := (SymbolTable.empty.enclose.define "k" true).2.enclose.enclose

theorem nested_resolves :
    Reached ⟨nested, [[], [], [⟨"k", .local, 0, true⟩], []]⟩ ∧
      ∃ i n y, (nested.resolve "k").1 = some ⟨"k", .free, i, true⟩ ∧ Declares "k" nested.chain n y ∧
        LeadsTo (nested.resolve "k").2.chain ⟨"k", .free, i, true⟩ n y ∧ y.constant = true := by
  have hdefine : (SymbolTable.empty.enclose.define "k" true).1 = ⟨"k", .local, 0, true⟩ := by
    simp [SymbolTable.enclose, SymbolTable.empty, SymbolTable.define, SymbolTable.isGlobal, Scope.define, Scope.empty]
  have hreached : Reached ⟨nested, [[], [], [⟨"k", .local, 0, true⟩], []]⟩ := by
    have houter := Reached.start.step (.enclose .empty [[]])
    have hdeclared := houter.step (.define _ "k" true [] [[]])
    have hinner := (hdeclared.step (.enclose _ _)).step (.enclose _ _)
    rw [hdefine] at hinner
    exact hinner
  have hbinds : Binds "k" nested.chain 2 ⟨"k", .local, 0, true⟩ := by
    refine .outward ?_ (.outward ?_ (.here ?_))
    · simp [nested, SymbolTable.enclose, Scope.empty]
    · simp [SymbolTable.enclose, Scope.empty]
    · simp [SymbolTable.enclose, SymbolTable.empty, SymbolTable.define, SymbolTable.isGlobal, Scope.define,
        Scope.insert, Scope.empty]
  rcases hreached.resolves "k" with ⟨-, -, -, hfree, hleads, -⟩
  rcases hfree 2 _ hbinds (by decide) ⟨by decide, by decide⟩ with ⟨i, hi⟩
  rcases hleads _ hi rfl with ⟨n, y, hdeclares, -, hleadsTo, hconstant, -⟩
  exact ⟨hreached, i, n, y, hi, hdeclares, hleadsTo, hconstant⟩

end History

end ScriptMachine
