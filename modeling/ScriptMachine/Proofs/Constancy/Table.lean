import ScriptMachine.Compile.Monad
import ScriptMachine.Proofs.Capture

/-!
# A constant among the globals

Globals are bound in the outermost scope, and each keeps the slot that it was given. A slot that was given to another
name is never that of a certain global, whatever is declared later (`SymbolTable.Spares`). As long as this global is
declared as a constant only, every global that can be assigned to has such a slot (`SymbolTable.Fixes.spares`).
-/

namespace ScriptMachine

namespace Scope

/-- The outermost scope of a chain. -/
def outermost : Scope → List Scope → Scope
  | s, [] => s
  | _, next :: rest => outermost next rest

/-- No scope of a chain binds globals but the outermost one. -/
def Inward : Scope → List Scope → Prop
  | _, [] => True
  | s, next :: rest => (∀ (other : String) (x : Symbol), s.store[other]? = some x → x.storage ≠ .global) ∧
      Inward next rest

theorem Inward.insert {s : Scope} {rest : List Scope} (h : Inward s rest) {x : Symbol} (hx : x.storage ≠ .global)
    (n : Nat) (free : Array Symbol) : Inward ({ s with definitions := n, free }.insert x) rest := by
  cases rest with
  | nil => trivial
  | cons next rest =>
    refine ⟨fun other y hy => ?_, h.2⟩
    simp only [Scope.insert, Std.HashMap.getElem?_insert] at hy
    split at hy
    · cases hy
      exact hx
    · exact h.1 other y hy

/-- Globals have slots of their own that instructions can address, and the global `name` is a constant. -/
structure Fixes (name : String) (s : Scope) : Prop where
  apart : s.Apart
  room : s.definitions ≤ CompileM.maxGlobals
  constant : ∀ x, s.store[name]? = some x → x.storage = .global → x.constant = true

/-- The slot was given away, but not to the global `name`. -/
structure Spares (name : String) (s : Scope) (k : Nat) : Prop where
  defined : k < s.definitions
  other : ∀ x, s.store[name]? = some x → x.storage = .global → x.index ≠ k

section

variable {name other : String} {constant : Bool} {s : Scope} {k : Nat}

/-- A slot that was given to another name stays with it. -/
theorem Spares.define (h : s.Spares name k) (other : String) (constant : Bool) :
    (s.define .global other constant).2.Spares name k := by
  have hstore {n : Nat} {y : Symbol} (hy : y.name = name → y.index ≠ k) (x : Symbol)
      (hx : ({ s with definitions := n }.insert y).store[name]? = some x) (hst : x.storage = .global) :
      x.index ≠ k := by
    simp only [Scope.insert, Std.HashMap.getElem?_insert] at hx
    split at hx
    · next hname =>
      cases hx
      exact hy (beq_iff_eq.mp hname)
    · exact h.other x hx hst
  rcases s.define_cases .global other constant with ⟨old, hold, hst, hdefine⟩ | hdefine <;> rw [hdefine]
  · refine ⟨h.defined, hstore (n := s.definitions) ?_⟩
    rintro rfl
    exact h.other old hold hst
  · refine ⟨Nat.lt_succ_of_lt h.defined, hstore ?_⟩
    rintro -
    exact Nat.ne_of_gt h.defined

/-- A host function has no slot. -/
theorem Spares.insert (h : s.Spares name k) {y : Symbol} (hy : y.storage ≠ .global) : (s.insert y).Spares name k := by
  refine ⟨h.defined, fun x hx hst => ?_⟩
  simp only [Scope.insert, Std.HashMap.getElem?_insert] at hx
  split at hx
  · cases hx
    exact absurd hst hy
  · exact h.other x hx hst

theorem Fixes.insert (h : s.Fixes name) {y : Symbol} (hy : y.storage ≠ .global) : (s.insert y).Fixes name := by
  refine ⟨h.apart.insert_of_ne hy, h.room, fun x hx hst => ?_⟩
  simp only [Scope.insert, Std.HashMap.getElem?_insert] at hx
  split at hx
  · cases hx
    exact absurd hst hy
  · exact h.constant x hx hst

/-- A declared global is bound to what is answered. -/
theorem bound_define (s : Scope) (other : String) (constant : Bool) :
    (s.define .global other constant).1.name = other ∧ (s.define .global other constant).1.storage = .global ∧
      (s.define .global other constant).1.constant = constant ∧
      (s.define .global other constant).2.store = s.store.insert other (s.define .global other constant).1 := by
  rcases s.define_cases .global other constant with ⟨old, -, -, hdefine⟩ | hdefine <;> rw [hdefine] <;>
    exact ⟨rfl, rfl, rfl, rfl⟩

theorem Fixes.define (h : s.Fixes name) (hconstant : other = name → constant = true)
    (hroom : (s.define .global other constant).1.index < CompileM.maxGlobals) :
    (s.define .global other constant).2.Fixes name := by
  refine ⟨h.apart.define _ _ _, ?_, fun x hx hst => ?_⟩
  · rcases s.define_cases .global other constant with ⟨old, -, -, hdefine⟩ | hdefine <;> rw [hdefine] at hroom ⊢
    · exact h.room
    · exact hroom
  obtain ⟨-, -, hflag, hstore⟩ := s.bound_define other constant
  rw [hstore, Std.HashMap.getElem?_insert] at hx
  split at hx
  · next hname =>
    cases hx
    rw [hflag]
    exact hconstant (beq_iff_eq.mp hname)
  · exact h.constant x hx hst

/-- The slot of a global with another name. -/
theorem Fixes.spares (h : s.Fixes name) {x : Symbol} (hx : s.store[other]? = some x) (hst : x.storage = .global)
    (hne : other ≠ name) : s.Spares name x.index := by
  refine ⟨h.apart.defined other x hx hst, fun y hy hst' heq => ?_⟩
  exact hne (h.apart.distinct other name x y hx hy hst hst' heq.symm)

end

end Scope

namespace SymbolTable

def outermost (t : SymbolTable) : Scope := Scope.outermost t.current t.outer

def Inward (t : SymbolTable) : Prop := Scope.Inward t.current t.outer

/-- The global `name` is a constant, if there is one. -/
structure Fixes (name : String) (t : SymbolTable) : Prop where
  inward : t.Inward
  outermost : t.outermost.Fixes name

/-- The slot is that of another global than `name`. -/
def Spares (name : String) (t : SymbolTable) (k : Nat) : Prop := t.outermost.Spares name k

/-- What was given to other globals than `name` in `t` is so in `t'`, and `name` is a constant there. -/
structure Fixed (name : String) (t t' : SymbolTable) : Prop where
  fixes : t'.Fixes name
  spares : ∀ k, t.Spares name k → t'.Spares name k

section

variable {name other : String} {constant : Bool} {t t' : SymbolTable}

/-- The outermost scope is the same. -/
theorem Fixes.fixed_of_outermost (h : t.Fixes name) (hinward : t'.Inward) (houter : t'.outermost = t.outermost) :
    t.Fixed name t' := by
  refine ⟨⟨hinward, ?_⟩, fun k hk => ?_⟩
  · rw [houter]
    exact h.outermost
  · unfold Spares
    rw [houter]
    exact hk

theorem Fixes.enclose (h : t.Fixes name) : t.Fixed name t.enclose := by
  refine h.fixed_of_outermost ⟨fun other x hx => ?_, h.inward⟩ rfl
  simp [SymbolTable.enclose, Scope.empty] at hx

theorem Fixes.leave (h : t.Fixes name) {s : Scope} {rest : List Scope} (houter : t.outer = s :: rest) :
    t.leave? = some ⟨s, rest⟩ ∧ t.Fixed name ⟨s, rest⟩ := by
  obtain ⟨current, outer⟩ := t
  cases houter
  exact ⟨rfl, h.fixed_of_outermost h.inward.2 rfl⟩

/-- In a function something is bound. -/
theorem Fixes.bind (h : t.Fixes name) {x : Symbol} (hx : x.storage ≠ .global) : t.Fixed name (t.bind x) := by
  obtain ⟨current, outer⟩ := t
  cases outer with
  | nil => exact ⟨⟨trivial, h.outermost.insert hx⟩, fun k hk => Scope.Spares.insert hk hx⟩
  | cons next rest => exact h.fixed_of_outermost (Scope.Inward.insert h.inward hx _ _) rfl

/-- In a function a local is declared. -/
theorem Fixes.define_local (h : t.Fixes name) (ht : t.outer ≠ []) (other : String) (constant : Bool) :
    t.Fixed name (t.define other constant).2 ∧ (t.define other constant).1.storage = .local := by
  obtain ⟨current, outer⟩ := t
  cases outer with
  | nil => exact absurd rfl ht
  | cons next rest =>
    refine ⟨?_, Scope.storage_define current .local other constant⟩
    have hinward : Scope.Inward (current.define .local other constant).2 (next :: rest) := by
      rcases current.define_cases .local other constant with ⟨old, -, -, hdefine⟩ | hdefine <;> rw [hdefine] <;>
        exact Scope.Inward.insert (x := ⟨_, .local, _, _⟩) h.inward nofun _ _
    exact h.fixed_of_outermost hinward rfl

/-- A global is declared. -/
theorem Fixes.define_global (h : t.Fixes name) (ht : t.outer = []) (hconstant : other = name → constant = true)
    (hroom : (t.define other constant).1.index < CompileM.maxGlobals) :
    t.Fixed name (t.define other constant).2 ∧
      (other ≠ name → (t.define other constant).2.Spares name (t.define other constant).1.index) := by
  obtain ⟨current, outer⟩ := t
  cases ht
  have hfixes : (current.define .global other constant).2.Fixes name :=
    Scope.Fixes.define h.outermost hconstant hroom
  refine ⟨⟨⟨trivial, hfixes⟩, fun k hk => Scope.Spares.define hk other constant⟩, fun hne => ?_⟩
  obtain ⟨-, hst, -, hstore⟩ := current.bound_define other constant
  refine Scope.Fixes.spares hfixes ?_ hst hne
  rw [hstore]
  exact Std.HashMap.getElem?_insert_self

/-- Resolving a name changes scopes further in only. -/
theorem keeps_outermost (other : String) {scope : Scope} {outer : List Scope} {found : Option Symbol} {scope' : Scope}
    {outer' : List Scope} (hresolve : resolveFrom other scope outer = (found, scope', outer')) :
    Scope.outermost scope' outer' = Scope.outermost scope outer ∧ outer'.length = outer.length := by
  induction outer generalizing scope found scope' outer' with
  | nil =>
    cases hbound : scope.store[other]? with
    | none =>
      rw [resolveFrom_nil hbound] at hresolve
      cases hresolve
      exact ⟨rfl, rfl⟩
    | some x =>
      rw [resolveFrom_of_bound hbound] at hresolve
      cases hresolve
      exact ⟨rfl, rfl⟩
  | cons next rest ih =>
    cases hbound : scope.store[other]? with
    | some x =>
      rw [resolveFrom_of_bound hbound] at hresolve
      cases hresolve
      exact ⟨rfl, rfl⟩
    | none =>
      rcases hnext : resolveFrom other next rest with ⟨found', next', rest'⟩
      obtain ⟨houter, hlength⟩ := ih hnext
      have hlength : (next' :: rest').length = (next :: rest).length := congrArg Nat.succ hlength
      cases found' with
      | none =>
        rw [resolveFrom_of_unbound hbound hnext] at hresolve
        cases hresolve
        exact ⟨houter, hlength⟩
      | some x =>
        by_cases hx : x.IsCaptured
        · rw [resolveFrom_of_captured hbound hnext hx] at hresolve
          cases hresolve
          exact ⟨houter, hlength⟩
        · rw [resolveFrom_of_shared hbound hnext hx] at hresolve
          cases hresolve
          exact ⟨houter, hlength⟩

/-- An answer that is a global is bound in the outermost scope. -/
theorem resolveFrom_inward (other : String) {scope : Scope} {outer : List Scope} (h : Scope.Inward scope outer)
    {found : Option Symbol} {scope' : Scope} {outer' : List Scope}
    (hresolve : resolveFrom other scope outer = (found, scope', outer')) :
    Scope.Inward scope' outer' ∧
      ∀ x, found = some x → x.storage = .global → (Scope.outermost scope outer).store[other]? = some x := by
  induction outer generalizing scope found scope' outer' with
  | nil =>
    cases hbound : scope.store[other]? with
    | none =>
      rw [resolveFrom_nil hbound] at hresolve
      cases hresolve
      exact ⟨h, fun x hx => by cases hx⟩
    | some x =>
      rw [resolveFrom_of_bound hbound] at hresolve
      cases hresolve
      refine ⟨h, fun y hy _ => ?_⟩
      cases hy
      exact hbound
  | cons next rest ih =>
    cases hbound : scope.store[other]? with
    | some x =>
      rw [resolveFrom_of_bound hbound] at hresolve
      cases hresolve
      refine ⟨h, fun y hy hst => ?_⟩
      cases hy
      exact absurd hst (h.1 other x hbound)
    | none =>
      rcases hnext : resolveFrom other next rest with ⟨found', next', rest'⟩
      obtain ⟨hinward, hanswer⟩ := ih h.2 hnext
      cases found' with
      | none =>
        rw [resolveFrom_of_unbound hbound hnext] at hresolve
        cases hresolve
        exact ⟨⟨h.1, hinward⟩, fun x hx => by cases hx⟩
      | some x =>
        by_cases hx : x.IsCaptured
        · rw [resolveFrom_of_captured hbound hnext hx] at hresolve
          cases hresolve
          have hlinked : Scope.Inward scope (next' :: rest') := ⟨h.1, hinward⟩
          refine ⟨hlinked.insert (x := ⟨_, .free, _, _⟩) nofun _ _, fun y hy hst => ?_⟩
          cases hy
          cases hst
        · rw [resolveFrom_of_shared hbound hnext hx] at hresolve
          cases hresolve
          exact ⟨⟨h.1, hinward⟩, hanswer⟩

theorem Fixes.resolve (h : t.Fixes name) (other : String) :
    t.Fixed name (t.resolve other).2 ∧ (t.resolve other).2.outer.length = t.outer.length ∧
      ∀ x, (t.resolve other).1 = some x → x.storage = .global → x.constant = false →
        (t.resolve other).2.Spares name x.index := by
  obtain ⟨houter, hlength⟩ := @keeps_outermost other t.current t.outer _ _ _ rfl
  obtain ⟨hinward, hanswer⟩ := resolveFrom_inward other h.inward rfl
  have hfixed : t.Fixed name (t.resolve other).2 := h.fixed_of_outermost hinward houter
  refine ⟨hfixed, hlength, fun x hx hst hconstant => hfixed.spares _ ?_⟩
  have hbound : t.outermost.store[other]? = some x := hanswer x hx hst
  refine Scope.Fixes.spares h.outermost hbound hst ?_
  rintro rfl
  rw [h.outermost.constant x hbound hst] at hconstant
  cases hconstant

end

end SymbolTable

end ScriptMachine
