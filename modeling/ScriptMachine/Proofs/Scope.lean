import Mathlib.Data.List.Forall2
import ScriptMachine.Symbol

/-!
# Bindings of scopes

Every binding of a scope stands for something that is there, whatever is declared, resolved or
captured: a local for a slot among those that the scope has defined, a captured variable for a cell
that a closure of the scope is given, a host function for one that satisfies `B`. What a scope captures
is a local or a captured variable of the scope around it, or the function around it itself. The
outermost scope has no locals and captures nothing. Slots and captured variables only become more, in
every scope of the chain, and globals keep to slots of their own (`Scope.Apart`).
-/

namespace ScriptMachine

variable {B : Nat → Prop}

/-- A binding stands for one of `slots` slots, one of `free` cells or a host function with `B`, or it
needs nothing of the kind. -/
def Symbol.Valid (B : Nat → Prop) (slots free : Nat) (s : Symbol) : Prop :=
  match s.storage with
  | .local => s.index < slots
  | .free => s.index < free
  | .builtin => B s.index
  | .global | .functionSelf => True

theorem Symbol.Valid.mono {s : Symbol} {m n j k : Nat} (h : s.Valid B m j) (hslots : m ≤ n)
    (hfree : j ≤ k) : s.Valid B n k := by
  obtain ⟨name, storage, index, constant⟩ := s
  cases storage with
  | «local» => exact Nat.lt_of_lt_of_le h hslots
  | free => exact Nat.lt_of_lt_of_le h hfree
  | _ => exact h

/-- A binding that a closure is given a cell for. -/
def Symbol.IsCaptured (s : Symbol) : Prop := s.storage ≠ .global ∧ s.storage ≠ .builtin

/-- The bindings of a scope are valid, with slots below `n`. -/
def Scope.Bounded (B : Nat → Prop) (s : Scope) (n : Nat) : Prop :=
  ∀ (name : String) (symbol : Symbol), s.store[name]? = some symbol → symbol.Valid B n s.free.size

/-- Every global of a scope has a slot of its own among those that the scope has defined. -/
structure Scope.Apart (s : Scope) : Prop where
  defined : ∀ (name : String) (x : Symbol), s.store[name]? = some x → x.storage = .global →
    x.index < s.definitions
  distinct : ∀ (name name' : String) (x x' : Symbol), s.store[name]? = some x → s.store[name']? = some x' →
    x.storage = .global → x'.storage = .global → x.index = x'.index → name = name'

/-- The next scope has no fewer slots and captured variables, and globals that were apart are apart. -/
structure Scope.Grows (s s' : Scope) : Prop where
  definitions : s.definitions ≤ s'.definitions
  free : s.free.size ≤ s'.free.size
  apart : s.Apart → s'.Apart

namespace Scope

theorem Grows.refl (s : Scope) : s.Grows s := ⟨Nat.le_refl _, Nat.le_refl _, fun h => h⟩

theorem Grows.trans {s t u : Scope} (h : s.Grows t) (h' : t.Grows u) : s.Grows u :=
  ⟨Nat.le_trans h.definitions h'.definitions, Nat.le_trans h.free h'.free, fun hs => h'.apart (h.apart hs)⟩

theorem apart_empty : Scope.empty.Apart := by
  constructor <;> simp [Scope.empty]

/-- One more global, in a slot that no other name has. -/
theorem Apart.insert {s : Scope} (hs : s.Apart) {symbol : Symbol} {n : Nat} (hle : s.definitions ≤ n)
    (hslot : symbol.storage = .global → symbol.index < n ∧ ∀ (name : String) (x : Symbol),
      s.store[name]? = some x → x.storage = .global → x.index = symbol.index → name = symbol.name) :
    Apart ({ s with definitions := n }.insert symbol) := by
  refine ⟨?_, ?_⟩
  · intro name x hx hst
    simp only [Scope.insert, Std.HashMap.getElem?_insert] at hx
    split at hx
    · cases hx
      exact (hslot hst).1
    · exact Nat.lt_of_lt_of_le (hs.defined name x hx hst) hle
  · intro name name' x x' hx hx' hst hst' heq
    simp only [Scope.insert, Std.HashMap.getElem?_insert] at hx hx'
    split at hx
    · next hname =>
      cases hx
      split at hx'
      · next hname' => exact (beq_iff_eq.mp hname).symm.trans (beq_iff_eq.mp hname')
      · exact (beq_iff_eq.mp hname).symm.trans ((hslot hst).2 name' x' hx' hst' heq.symm).symm
    · split at hx'
      · next hname' =>
        cases hx'
        exact ((hslot hst').2 name x hx hst heq).trans (beq_iff_eq.mp hname')
      · exact hs.distinct name name' x x' hx hx' hst hst' heq

/-- Other bindings do not matter to globals. -/
theorem Apart.insert_of_ne {s : Scope} (hs : s.Apart) {symbol : Symbol} (hst : symbol.storage ≠ .global) :
    (s.insert symbol).Apart := hs.insert (Nat.le_refl _) fun h => absurd h hst

/-- A variable that is declared again keeps its slot, and any other gets one that nobody has. -/
theorem Apart.define {s : Scope} (hs : s.Apart) (storage : Storage) (name : String) (constant : Bool) :
    (s.define storage name constant).2.Apart := by
  have hfresh : Apart ({ s with definitions := s.definitions + 1 }.insert
      ⟨name, storage, s.definitions, constant⟩) := by
    refine hs.insert (Nat.le_succ _) fun _ => ⟨Nat.lt_succ_self _, fun other x hx hst heq => ?_⟩
    exact absurd heq (Nat.ne_of_lt (hs.defined other x hx hst))
  unfold Scope.define
  dsimp only
  cases hold : s.store[name]? with
  | none => exact hfresh
  | some old =>
    by_cases hkeep : old.storage = storage
    · simp only [hkeep, if_true]
      refine hs.insert (Nat.le_refl _) fun hst => ?_
      have hold' : old.storage = .global := hkeep.trans hst
      exact ⟨hs.defined name old hold hold', fun other x hx hst' heq =>
        hs.distinct other name x old hx hold hst' hold' heq⟩
    · simp only [hkeep, if_false]
      exact hfresh

theorem bounded_empty (n : Nat) : Scope.empty.Bounded B n := by
  intro name symbol hfound
  simp [Scope.empty] at hfound

theorem Bounded.mono {s : Scope} {m n : Nat} (hs : s.Bounded B m) (h : m ≤ n) : s.Bounded B n := by
  intro name symbol hfound
  exact (hs name symbol hfound).mono h (Nat.le_refl _)

theorem Bounded.insert {s : Scope} {n : Nat} (hs : s.Bounded B n) {symbol : Symbol}
    (h : symbol.Valid B n s.free.size) : (s.insert symbol).Bounded B n := by
  intro name found hfound
  simp only [Scope.insert, Std.HashMap.getElem?_insert] at hfound
  split at hfound
  · cases hfound
    exact h
  · exact hs name found hfound

theorem Bounded.defineFree {s : Scope} {n : Nat} (hs : s.Bounded B n) (outer : Symbol) :
    (s.defineFree outer).2.Bounded B n := by
  have hmore : Bounded B { s with free := s.free.push outer } n := by
    intro name symbol hfound
    exact (hs name symbol hfound).mono (Nat.le_refl _) (by simp)
  refine hmore.insert ?_
  show s.free.size < (s.free.push outer).size
  simp

theorem storage_define (s : Scope) (storage : Storage) (name : String) (constant : Bool) :
    (s.define storage name constant).1.storage = storage := by
  unfold define
  dsimp only
  split <;> rfl

theorem free_define (s : Scope) (storage : Storage) (name : String) (constant : Bool) :
    (s.define storage name constant).2.free = s.free := by
  unfold define
  dsimp only
  split <;> rfl

theorem grows_define (s : Scope) (storage : Storage) (name : String) (constant : Bool) :
    s.Grows (s.define storage name constant).2 := by
  refine ⟨?_, Nat.le_of_eq (by rw [free_define]), fun hs => hs.define storage name constant⟩
  unfold define
  dsimp only
  split
  · exact Nat.le_refl _
  · exact Nat.le_succ _

/-- Declaring a local keeps bindings valid, and the new one is valid, too. -/
theorem Bounded.define_local {s : Scope} (hs : s.Bounded B s.definitions) (name : String)
    (constant : Bool) :
    (s.define .local name constant).2.Bounded B (s.define .local name constant).2.definitions ∧
      (s.define .local name constant).1.index < (s.define .local name constant).2.definitions := by
  -- a variable declared before keeps its slot, which is in range already
  have hmore : Bounded B { s with definitions := s.definitions + 1 } (s.definitions + 1) :=
    Bounded.mono (s := { s with definitions := s.definitions + 1 }) hs (Nat.le_succ _)
  have hfresh : Bounded B ({ s with definitions := s.definitions + 1 }.insert
      ⟨name, .local, s.definitions, constant⟩) (s.definitions + 1) :=
    hmore.insert (Nat.lt_succ_self s.definitions)
  unfold define
  dsimp only
  cases hold : s.store[name]? with
  | none => exact ⟨hfresh, Nat.lt_succ_self _⟩
  | some old =>
    by_cases hst : old.storage = .local
    · have hslot : old.index < s.definitions := by
        have hvalid := hs name old hold
        unfold Symbol.Valid at hvalid
        rwa [hst] at hvalid
      simp only [hst, if_true]
      exact ⟨hs.insert hslot, hslot⟩
    · simp only [hst, if_false]
      exact ⟨hfresh, Nat.lt_succ_self _⟩

/-- Declaring a global keeps bindings valid. -/
theorem Bounded.define_global {s : Scope} {n : Nat} (hs : s.Bounded B n) (name : String)
    (constant : Bool) : (s.define .global name constant).2.Bounded B n := by
  unfold define
  dsimp only
  split
  · exact hs.insert True.intro
  · have hmore : Bounded B { s with definitions := s.definitions + 1 } n := hs
    exact hmore.insert True.intro

end Scope

namespace SymbolTable

/-- The scopes of a table, innermost first. -/
def chain (t : SymbolTable) : List Scope := t.current :: t.outer

/-- The number of slots for locals of the current scope. -/
def slots (t : SymbolTable) : Nat := if t.isGlobal then 0 else t.current.definitions

/-- A binding of the current scope is valid. -/
def Knows (B : Nat → Prop) (t : SymbolTable) (symbol : Symbol) : Prop :=
  symbol.Valid B t.slots t.current.free.size

/-- What a scope captures is there in the scopes around it. -/
def Supplies (B : Nat → Prop) (t : SymbolTable) (s : Scope) : Prop :=
  ∀ symbol ∈ s.free, t.Knows B symbol ∧ symbol.IsCaptured

/-- The bindings of all scopes are valid. -/
def ChainOk (B : Nat → Prop) : Scope → List Scope → Prop
  | s, [] => s.Bounded B 0 ∧ s.free = #[]
  | s, next :: rest => s.Bounded B s.definitions ∧ Supplies B ⟨next, rest⟩ s ∧ ChainOk B next rest

def Ok (B : Nat → Prop) (t : SymbolTable) : Prop := ChainOk B t.current t.outer

/-- The same scopes, with no fewer slots and captured variables. -/
def Grows (t t' : SymbolTable) : Prop := List.Forall₂ Scope.Grows t.chain t'.chain

theorem Grows.refl (t : SymbolTable) : t.Grows t := List.forall₂_same.mpr fun s _ => .refl s

theorem Grows.trans {t u v : SymbolTable} (h : t.Grows u) (h' : u.Grows v) : t.Grows v := by
  unfold Grows at *
  generalize t.chain = a at *
  generalize u.chain = b at *
  generalize v.chain = c at *
  induction h generalizing c with
  | nil => cases h'; exact .nil
  | cons hd _ ih =>
    cases h' with
    | cons hd' tl' => exact .cons (hd.trans hd') (ih _ tl')

theorem Grows.slots {t t' : SymbolTable} (h : t.Grows t') : t.slots ≤ t'.slots := by
  obtain ⟨current, outer⟩ := t
  obtain ⟨current', outer'⟩ := t'
  cases h with
  | cons hd tl =>
    cases tl with
    | nil => exact Nat.le_refl _
    | cons _ _ => exact hd.definitions

theorem Grows.free {t t' : SymbolTable} (h : t.Grows t') :
    t.current.free.size ≤ t'.current.free.size := by
  obtain ⟨current, outer⟩ := t
  obtain ⟨current', outer'⟩ := t'
  cases h with
  | cons hd _ => exact hd.free

/-- The outermost scope stays the outermost one. -/
theorem Grows.isGlobal {t t' : SymbolTable} (h : t.Grows t') (ht : t.isGlobal = true) :
    t'.isGlobal = true := by
  obtain ⟨current, outer⟩ := t
  obtain ⟨current', outer'⟩ := t'
  cases h with
  | cons _ tl =>
    cases tl with
    | nil => rfl
    | cons _ _ => cases ht

theorem slots_le (t : SymbolTable) : t.slots ≤ t.current.definitions := by
  unfold slots
  split
  · exact Nat.zero_le _
  · exact Nat.le_refl _

theorem Knows.mono {t t' : SymbolTable} {symbol : Symbol} (h : t.Knows B symbol) (hgrow : t.Grows t') :
    t'.Knows B symbol := Symbol.Valid.mono h hgrow.slots hgrow.free

theorem Supplies.mono {t t' : SymbolTable} {s : Scope} (h : t.Supplies B s) (hgrow : t.Grows t') :
    t'.Supplies B s := fun symbol hs => ⟨(h symbol hs).1.mono hgrow, (h symbol hs).2⟩

theorem Ok.knows {t : SymbolTable} (h : t.Ok B) {name : String} {symbol : Symbol}
    (hfound : t.current.store[name]? = some symbol) : t.Knows B symbol := by
  obtain ⟨current, outer⟩ := t
  cases outer with
  | nil => exact h.1 name symbol hfound
  | cons next rest => exact h.1 name symbol hfound

/-- The outermost scope captures nothing. -/
theorem Ok.free_eq {t : SymbolTable} (h : t.Ok B) (ht : t.isGlobal = true) : t.current.free = #[] := by
  obtain ⟨current, outer⟩ := t
  cases outer with
  | nil => exact h.2
  | cons next rest => cases ht

theorem define_ok {t : SymbolTable} (ht : t.Ok B) (name : String) (constant : Bool) :
    (t.define name constant).2.Ok B ∧ t.Grows (t.define name constant).2 ∧
      (t.define name constant).2.Knows B (t.define name constant).1 := by
  obtain ⟨current, outer⟩ := t
  have hgrow : List.Forall₂ Scope.Grows outer outer := List.forall₂_same.mpr fun s _ => .refl s
  cases outer with
  | nil =>
    refine ⟨⟨Scope.Bounded.define_global (s := current) ht.1 name constant, ?_⟩,
      .cons (Scope.grows_define _ _ _ _) hgrow, ?_⟩
    · exact (Scope.free_define current .global name constant).trans ht.2
    · have hst := Scope.storage_define current .global name constant
      show Symbol.Valid B _ _ (current.define .global name constant).1
      unfold Symbol.Valid
      rw [hst]
      trivial
  | cons next rest =>
    obtain ⟨hcurrent, hsupplies, hrest⟩ := ht
    obtain ⟨hok, hslot⟩ := hcurrent.define_local name constant
    refine ⟨⟨hok, ?_, hrest⟩, .cons (Scope.grows_define _ _ _ _) hgrow, ?_⟩
    · intro symbol hs
      refine hsupplies symbol ?_
      rwa [← Scope.free_define current .local name constant]
    · have hst := Scope.storage_define current .local name constant
      show Symbol.Valid B _ _ (current.define .local name constant).1
      unfold Symbol.Valid
      rw [hst]
      exact hslot

/-- Resolving a name outward captures it on the way. -/
theorem resolveFrom_ok (name : String) (scope : Scope) (outer : List Scope)
    (h : ChainOk B scope outer) :
    Ok B ⟨(resolveFrom name scope outer).2.1, (resolveFrom name scope outer).2.2⟩ ∧
      Grows ⟨scope, outer⟩ ⟨(resolveFrom name scope outer).2.1, (resolveFrom name scope outer).2.2⟩ ∧
      (∀ symbol, (resolveFrom name scope outer).1 = some symbol →
        Knows B ⟨(resolveFrom name scope outer).2.1, (resolveFrom name scope outer).2.2⟩ symbol) := by
  induction outer generalizing scope with
  | nil =>
    unfold resolveFrom
    cases hfound : scope.store[name]? with
    | none => exact ⟨h, .refl _, fun _ hs => by simp at hs⟩
    | some symbol =>
      refine ⟨h, .refl _, ?_⟩
      intro found hf
      cases hf
      exact Ok.knows (t := ⟨scope, []⟩) h hfound
  | cons next rest ih =>
    obtain ⟨hscope, hsupplies, hnext⟩ := h
    obtain ⟨hok, hgrow, hknows⟩ := ih next hnext
    unfold resolveFrom
    cases hfound : scope.store[name]? with
    | some symbol =>
      refine ⟨⟨hscope, hsupplies, hnext⟩, .refl _, ?_⟩
      intro found hf
      cases hf
      exact Ok.knows (t := ⟨scope, next :: rest⟩) ⟨hscope, hsupplies, hnext⟩ hfound
    | none =>
      dsimp only
      rcases hr : resolveFrom name next rest with ⟨found, next', rest'⟩
      rw [hr] at hok hgrow hknows
      have hsupplies' := hsupplies.mono hgrow
      cases found with
      | none =>
        exact ⟨⟨hscope, hsupplies', hok⟩, .cons (.refl _) hgrow, fun _ hs => by simp at hs⟩
      | some symbol =>
        have hsymbol := hknows symbol rfl
        -- a global or a host function needs no capture, anything else becomes free here
        cases hst : symbol.storage <;> simp only [hst]
        case global | builtin =>
          refine ⟨⟨hscope, hsupplies', hok⟩, .cons (.refl _) hgrow, ?_⟩
          intro found hf
          cases hf
          unfold Knows Symbol.Valid at hsymbol ⊢
          rw [hst] at hsymbol ⊢
          exact hsymbol
        all_goals
          have hcaptured : symbol.IsCaptured := by simp [Symbol.IsCaptured, hst]
          have hgrows : scope.Grows (scope.defineFree symbol).2 :=
            ⟨Nat.le_refl _, by simp [Scope.defineFree, Scope.insert], fun hs =>
              Scope.Apart.insert_of_ne (s := { scope with free := scope.free.push symbol }) ⟨hs.1, hs.2⟩ nofun⟩
          refine ⟨⟨hscope.defineFree symbol, ?_, hok⟩, .cons hgrows hgrow, ?_⟩
          · intro s hs
            rcases Array.mem_push.mp hs with hs | rfl
            · exact hsupplies' s hs
            · exact ⟨hsymbol, hcaptured⟩
          · intro found hf
            cases hf
            show scope.free.size < (scope.free.push symbol).size
            simp

theorem resolve_ok {t : SymbolTable} (ht : t.Ok B) (name : String) :
    (t.resolve name).2.Ok B ∧ t.Grows (t.resolve name).2 ∧
      (∀ symbol, (t.resolve name).1 = some symbol → (t.resolve name).2.Knows B symbol) :=
  resolveFrom_ok name t.current t.outer ht

/-- A name that stands for no variable is bound. -/
theorem bind_ok {t : SymbolTable} (ht : t.Ok B) {symbol : Symbol} (h : symbol.Valid B 0 0)
    (hst : symbol.storage ≠ .global) : (t.bind symbol).Ok B ∧ t.Grows (t.bind symbol) := by
  obtain ⟨current, outer⟩ := t
  have hvalid (n k : Nat) : symbol.Valid B n k := h.mono (Nat.zero_le n) (Nat.zero_le k)
  constructor
  · cases outer with
    | nil => exact ⟨Scope.Bounded.insert (s := current) ht.1 (hvalid _ _), ht.2⟩
    | cons next rest => exact ⟨ht.1.insert (hvalid _ _), ht.2.1, ht.2.2⟩
  · refine .cons ⟨Nat.le_refl _, Nat.le_refl _, fun hs => ?_⟩ (List.forall₂_same.mpr fun s _ => .refl s)
    exact hs.insert_of_ne hst

theorem enclose_ok {t : SymbolTable} (ht : t.Ok B) : t.enclose.Ok B :=
  ⟨Scope.bounded_empty _, fun symbol hs => by simp [enclose, Scope.empty] at hs, ht⟩

/-- Back outside a function body, the scopes around it are what they were, with their captures, and
they have what the body captures. -/
theorem leave_ok {t u : SymbolTable} (hu : u.Ok B) (h : t.enclose.Grows u) :
    ((u.leave?).getD .empty).Ok B ∧ t.Grows ((u.leave?).getD .empty) ∧
      ((u.leave?).getD .empty).Supplies B u.current := by
  obtain ⟨current, outer⟩ := u
  cases h with
  | cons _ htail =>
    cases outer with
    | nil => cases htail
    | cons s rest => exact ⟨hu.2.2, htail, hu.2.1⟩

end SymbolTable

end ScriptMachine
