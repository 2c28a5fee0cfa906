import ScriptMachine.Proofs.Constancy.Table
import ScriptMachine.Proofs.Rules.Forms

/-!
# Names that stay bound

While a unit is compiled, the names of the outermost scope stand for the slots for which they stood before. Only a
declaration at the top level binds a name anew. One that stood for a global keeps its slot even so; one that stood for
a host function becomes a global (`CompileM.binds_stmts`).
-/

namespace ScriptMachine

/-- A declared variable keeps the slot that its name had. -/
theorem Scope.define_of_bound {s : Scope} {storage : Storage} {name : String} {old : Symbol}
    (hold : s.store[name]? = some old) (hst : old.storage = storage) (constant : Bool) :
    s.define storage name constant =
      (⟨name, storage, old.index, constant⟩, s.insert ⟨name, storage, old.index, constant⟩) := by
  unfold define
  simp only [hold, hst, if_true]

/-- What a name stands for. -/
structure NameSlot where
  name : String
  storage : Storage
  index : Nat

namespace SymbolTable

/-- There are `depth` scopes around the current one, and in the outermost scope the name stands for what it should. -/
structure Binds (b : NameSlot) (depth : Nat) (t : SymbolTable) : Prop where
  depth : t.outer.length = depth
  bound : ∃ x, t.outermost.store[b.name]? = some x ∧ x.storage = b.storage ∧ x.index = b.index

namespace Binds

variable {b : NameSlot} {depth : Nat} {t : SymbolTable} {name : String}

theorem enclose (h : t.Binds b depth) : t.enclose.Binds b (depth + 1) := ⟨congrArg Nat.succ h.depth, h.bound⟩

theorem leave (h : t.Binds b (depth + 1)) : (t.leave?.getD .empty).Binds b depth := by
  obtain ⟨current, outer⟩ := t
  cases outer with
  | nil => cases h.depth
  | cons s rest => exact ⟨Nat.succ.inj h.depth, h.bound⟩

/-- In a function body something is bound. -/
theorem bind (h : t.Binds b (depth + 1)) (x : Symbol) : (t.bind x).Binds b (depth + 1) := by
  obtain ⟨current, outer⟩ := t
  cases outer with
  | nil => cases h.depth
  | cons s rest => exact ⟨h.depth, h.bound⟩

theorem resolve (h : t.Binds b depth) (name : String) : (t.resolve name).2.Binds b depth := by
  obtain ⟨houter, hlength⟩ := @keeps_outermost name t.current t.outer _ _ _ rfl
  have houtermost : (t.resolve name).2.outermost = t.outermost := houter
  refine ⟨hlength.trans h.depth, ?_⟩
  rw [houtermost]
  exact h.bound

/-- A global that is declared once more keeps its slot. -/
theorem define (h : t.Binds b depth) {constant : Bool} (hglobal : depth = 0 → name = b.name → b.storage = .global) :
    (t.define name constant).2.Binds b depth := by
  obtain ⟨current, outer⟩ := t
  cases outer with
  | cons s rest => exact ⟨h.depth, h.bound⟩
  | nil =>
    refine ⟨h.depth, ?_⟩
    show ∃ y, (current.define .global name constant).2.store[b.name]? = some y ∧ _
    obtain ⟨x, hx, hst, hindex⟩ := h.bound
    have hx : current.store[b.name]? = some x := hx
    by_cases hname : name = b.name
    · subst hname
      have hbound : b.storage = .global := hglobal h.depth.symm rfl
      rw [Scope.define_of_bound hx (hst.trans hbound)]
      exact ⟨_, Std.HashMap.getElem?_insert_self, hbound.symm, hindex⟩
    · obtain ⟨-, -, -, hstore⟩ := current.bound_define name constant
      rw [hstore, Std.HashMap.getElem?_insert, if_neg (by simpa using hname)]
      exact ⟨x, hx, hst, hindex⟩

end Binds

end SymbolTable

namespace CompileM

variable {α β : Type} {b : NameSlot} {depth : Nat} {m : CompileM α} {span : Span}

/-- A step leaves all names alone. -/
def KeepsNames {α : Type} (m : CompileM α) : Prop :=
  ∀ (σ : CompileState) (a : α) (σ' : CompileState), m σ = .ok a σ' → σ'.symbols = σ.symbols

/-- After a step the name stands for what it stood for before. -/
def KeepsBinding {α : Type} (b : NameSlot) (depth : Nat) (m : CompileM α) : Prop :=
  ∀ (σ : CompileState) (a : α) (σ' : CompileState), m σ = .ok a σ' → σ.symbols.Binds b depth →
    σ'.symbols.Binds b depth

/-! ## Steps that leave names alone -/

theorem KeepsNames.bind {f : α → CompileM β} (hm : KeepsNames m) (hf : ∀ a, KeepsNames (f a)) :
    KeepsNames (m >>= f) := by
  intro σ c σ' hrun
  obtain ⟨a, σ₁, hfirst, hrest⟩ := bind_ok hrun
  exact (hf a σ₁ c σ' hrest).trans (hm σ a σ₁ hfirst)

theorem keepsNames_pure (a : α) : KeepsNames (pure a : CompileM α) := by
  intro σ _ σ' hrun
  obtain ⟨-, rfl⟩ := pure_ok hrun
  rfl

theorem keepsNames_fail (cause : CompileCause) : KeepsNames (fail cause span : CompileM α) :=
  fun _ _ _ hrun => (fail_ok hrun).elim

theorem keepsNames_get : KeepsNames (get : CompileM CompileState) := by
  intro σ _ σ' hrun
  obtain ⟨-, rfl⟩ := get_ok hrun
  rfl

theorem keepsNames_modify {f : CompileState → CompileState} (h : ∀ σ, (f σ).symbols = σ.symbols) :
    KeepsNames (modify f : CompileM PUnit) := by
  intro σ _ σ' hrun
  rw [modify_ok hrun]
  exact h σ

theorem keepsNames_emit {op : Opcode} {xs : List Nat} : KeepsNames (emit op xs span) := by
  refine .bind (.bind keepsNames_get fun _ => keepsNames_pure _) fun _ => ?_
  exact .bind (keepsNames_modify fun _ => rfl) fun _ => keepsNames_pure _

theorem keepsNames_put {op : Opcode} {xs : List Nat} : KeepsNames (put op xs span) := by
  intro σ _ σ' hrun
  obtain rfl := put_ok hrun
  rfl

theorem keepsNames_patch {place k target : Nat} : KeepsNames (patch place k target span) := by
  intro σ _ σ' hrun
  obtain ⟨-, rfl⟩ := patch_ok hrun
  rfl

theorem keepsNames_patchAllHere (places : List Nat) : KeepsNames (patchAllHere span places) := by
  induction places with
  | nil => exact keepsNames_pure ()
  | cons place rest ih =>
    refine .bind (.bind (.bind (.bind keepsNames_get fun _ => keepsNames_pure _) fun _ => keepsNames_pure _) ?_) ?_
    · exact fun _ => keepsNames_patch
    · exact fun _ => ih

theorem keepsNames_emitJumpTo {op : Opcode} {target : Nat} : KeepsNames (emitJumpTo op target span) := by
  intro σ _ σ' hrun
  obtain ⟨-, rfl⟩ := emitJumpTo_ok hrun
  rfl

theorem keepsNames_addConstant {c : Constant} : KeepsNames (addConstant c span) := by
  intro σ _ σ' hrun
  obtain ⟨rfl, -⟩ := addConstant_ok hrun
  rfl

theorem keepsNames_load (x : Symbol) : KeepsNames (load x span) := by
  unfold load
  split <;> exact keepsNames_put

theorem keepsNames_capture (x : Symbol) : KeepsNames (capture x span) := by
  unfold capture
  split
  · exact keepsNames_put
  · exact keepsNames_put
  · exact keepsNames_put
  all_goals exact keepsNames_pure ()

theorem keepsNames_captureAll (xs : List Symbol) : KeepsNames (captureAll span xs) := by
  induction xs with
  | nil => exact keepsNames_pure ()
  | cons x rest ih => exact (keepsNames_capture x).bind fun _ => ih

theorem keepsNames_store (x : Symbol) : KeepsNames (store x span) := by
  unfold store
  split
  · exact keepsNames_put
  · exact keepsNames_put
  · exact keepsNames_put
  all_goals exact keepsNames_fail _

theorem keepsNames_checkArgs (n : Nat) : KeepsNames (checkArgs n span) := by
  unfold checkArgs
  split
  · exact keepsNames_fail _
  · exact keepsNames_pure ()

theorem keepsNames_superClass : KeepsNames (superClass span) := by
  refine .bind keepsNames_get fun _ => ?_
  split
  · split
    · exact keepsNames_pure _
    · exact keepsNames_fail _
  · exact keepsNames_fail _

theorem keepsNames_makeClosure {f : FunctionLiteral} {name : Option String} {body : Body} :
    KeepsNames (makeClosure f name body) :=
  (keepsNames_captureAll _).bind fun _ => keepsNames_addConstant.bind fun _ => keepsNames_put

theorem keepsNames_makeMethod {cls name : String} {f : FunctionLiteral} {body : Body} :
    KeepsNames (makeMethod cls f name body) := by
  unfold makeMethod
  split
  · exact keepsNames_fail _
  · exact keepsNames_pure _

theorem keepsNames_endClass {x : Symbol} {place : Nat} {c : ClassConstant} : KeepsNames (endClass x place c span) := by
  refine .bind (keepsNames_modify fun _ => rfl) fun _ => .bind keepsNames_put fun _ => ?_
  exact (keepsNames_store x).bind fun _ => keepsNames_put

theorem keepsNames_modifyLoop {f : LoopContext → LoopContext} : KeepsNames (modifyLoop f) :=
  keepsNames_modify fun _ => rfl

theorem keepsNames_leaveLoop : KeepsNames (leaveLoop span) := by
  refine .bind keepsNames_get fun _ => ?_
  split
  · exact keepsNames_pure ()
  · exact .bind (keepsNames_modify fun _ => rfl) fun _ => keepsNames_patchAllHere _

theorem keepsNames_placeContinues : KeepsNames (placeContinues span) := by
  refine .bind keepsNames_get fun _ => ?_
  split
  · exact keepsNames_pure ()
  · exact keepsNames_modifyLoop.bind fun _ => keepsNames_patchAllHere _

/-! ## Steps that bind names -/

theorem KeepsNames.keepsBinding (hm : KeepsNames m) : KeepsBinding b depth m := by
  intro σ a σ' hrun hσ
  rw [hm σ a σ' hrun]
  exact hσ

theorem KeepsBinding.bind {f : α → CompileM β} (hm : KeepsBinding b depth m) (hf : ∀ a, KeepsBinding b depth (f a)) :
    KeepsBinding b depth (m >>= f) := by
  intro σ c σ' hrun hσ
  obtain ⟨a, σ₁, hfirst, hrest⟩ := bind_ok hrun
  exact hf a σ₁ c σ' hrest (hm σ a σ₁ hfirst hσ)

theorem keepsBinding_define {name : String} {constant : Bool}
    (h : depth = 0 → name = b.name → b.storage = .global) : KeepsBinding b depth (define name constant span) := by
  intro σ x σ' hrun hσ
  obtain ⟨-, rfl, -⟩ := define_ok hrun
  exact hσ.define h

theorem keepsBinding_resolve (name : String) : KeepsBinding b depth (resolve name span) := by
  intro σ x σ' hrun hσ
  obtain ⟨found, σ₁, hmod, hcheck⟩ := bind_ok hrun
  obtain ⟨-, rfl⟩ := modifyGet_ok hmod
  cases found with
  | none => exact (fail_ok hcheck).elim
  | some y =>
    obtain ⟨-, rfl⟩ := pure_ok hcheck
    exact hσ.resolve name

theorem keepsBinding_nameFunction (name : Option String) : KeepsBinding b (depth + 1) (nameFunction name) := by
  cases name with
  | none => exact (keepsNames_pure ()).keepsBinding
  | some name =>
    intro σ _ σ' hrun hσ
    obtain rfl := modify_ok hrun
    exact hσ.bind _

theorem keepsBinding_inFunction {m : CompileM Unit} (hm : KeepsBinding b (depth + 1) m) :
    KeepsBinding b depth (inFunction m) := by
  intro σ body σ' hrun hσ
  obtain ⟨σ₁, hbody, -, -, -, rfl⟩ := inFunction_ok hrun
  exact (hm _ () σ₁ hbody hσ.enclose).leave

theorem keepsBinding_beginClass {id : Ident} {hasParent : Bool}
    (h : depth = 0 → id.name = b.name → b.storage = .global) : KeepsBinding b depth (beginClass id hasParent span) := by
  refine (keepsBinding_define h).bind fun x => keepsNames_addConstant.keepsBinding.bind fun place => ?_
  refine KeepsNames.keepsBinding (.bind (m := modify _) ?_ fun _ => keepsNames_pure _)
  exact keepsNames_modify fun _ => rfl

/-- What a name stands for, as a judgement about steps. Nothing else has to be known. -/
def binding (b : NameSlot) : Logic where
  Level := Nat
  inside := Nat.succ
  Allows depth d := depth = 0 → d.1 = b.name → b.storage = .global
  allows_inside depth _ h := absurd h (Nat.succ_ne_zero depth)
  Gives depth _ m _ := KeepsBinding b depth m
  weaken h _ := h
  bind hm hf := hm.bind hf
  pure _ := (keepsNames_pure _).keepsBinding
  fail cause := (keepsNames_fail cause).keepsBinding
  withState h := fun σ => h σ σ
  put _ := keepsNames_put.keepsBinding
  emit _ := keepsNames_emit.keepsBinding
  emitJumpTo _ := keepsNames_emitJumpTo.keepsBinding
  patch _ _ _ := keepsNames_patch.keepsBinding
  dropPop := KeepsNames.keepsBinding (keepsNames_modify fun _ => rfl)
  returnPop := KeepsNames.keepsBinding (keepsNames_modify fun _ => rfl)
  addConstant _ := keepsNames_addConstant.keepsBinding
  define h := keepsBinding_define h
  resolve := keepsBinding_resolve
  load _ := (keepsNames_load _).keepsBinding
  store _ := (keepsNames_store _).keepsBinding
  checkArgs n := (keepsNames_checkArgs n).keepsBinding
  superClass := keepsNames_superClass.keepsBinding
  nameFunction := keepsBinding_nameFunction
  inFunction _ := keepsBinding_inFunction
  makeClosure _ := keepsNames_makeClosure.keepsBinding
  makeMethod _ := keepsNames_makeMethod.keepsBinding
  beginClass := keepsBinding_beginClass
  endClass _ _ _ := keepsNames_endClass.keepsBinding
  enterLoop _ _ := KeepsNames.keepsBinding (keepsNames_modify fun _ => rfl)
  leaveLoop := keepsNames_leaveLoop.keepsBinding
  placeContinues := keepsNames_placeContinues.keepsBinding
  modifyLoop _ _ := keepsNames_modifyLoop.keepsBinding

/-- Statements at the top level leave a name bound as it is, if it stands for a global or they do not declare it. -/
theorem keepsBinding_stmts {ss : List Stmt}
    (hss : b.storage = .global ∨ ∀ d ∈ Stmt.declaredAll ss, d.1 ≠ b.name) : KeepsBinding b 0 (stmts [] ss) := by
  have hall : (binding b).AllowsAll (0 : Nat) (Stmt.declaredAll ss) := by
    intro d hd _ hname
    rcases hss with hglobal | hother
    · exact hglobal
    · exact absurd hname (hother d hd)
  exact Logic.keeps_stmts (L := binding b) (K := []) hall

end CompileM

end ScriptMachine
