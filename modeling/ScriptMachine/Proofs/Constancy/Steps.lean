import ScriptMachine.Proofs.Calls.Parameters
import ScriptMachine.Proofs.Constancy.State

/-!
# Steps that store to other globals

`CompileM.Gives G K m Q` says that `m` stores to no other slots than the guard `G` allows, if it begins where the facts
`K` hold, and that it leaves the facts `Q` behind. There is one lemma for each primitive step of compilation.
-/

namespace ScriptMachine

namespace CompileM

open CompileState

/-- Begun where the facts `K` hold, `m` stores to no other slots than it may. Whatever held before holds afterwards, and
so do the facts `Q` about its result. -/
def Gives {α : Type} (G : Guard) (K : List Fact) (m : CompileM α) (Q : α → List Fact) : Prop :=
  ∀ (σ : CompileState) (a : α) (σ' : CompileState), m σ = .ok a σ' → σ.Fits G → (∀ φ ∈ K, σ.Has G φ) →
    σ.Leads G σ' ∧ ∀ φ ∈ Q a, σ'.Has G φ

/-- `m` stores to no other slots than it may. -/
abbrev Keeps {α : Type} (G : Guard) (K : List Fact) (m : CompileM α) : Prop := Gives G K m fun _ => []

section

variable {α β : Type} {G : Guard} {K : List Fact} {Q : α → List Fact} {R : β → List Fact} {m : CompileM α}
  {span : Span} {op : Opcode} {xs places : List Nat} {place : Nat} {x : Symbol}

theorem Gives.bind {f : α → CompileM β} (hm : Gives G K m Q) (hf : ∀ a, Gives G (K ++ Q a) (f a) R) :
    Gives G K (m >>= f) R := by
  intro σ b σ' hrun hσ hK
  obtain ⟨a, σ₁, hfirst, hrest⟩ := bind_ok hrun
  obtain ⟨hleads, hQ⟩ := hm σ a σ₁ hfirst hσ hK
  obtain ⟨hleads', hR⟩ := hf a σ₁ b σ' hrest hleads.fits fun φ hφ =>
    (List.mem_append.mp hφ).elim (fun h => hleads.has φ (hK φ h)) (hQ φ)
  exact ⟨hleads.trans hleads', hR⟩

/-- What comes first gives nothing that is needed later. -/
theorem Gives.seq {f : α → CompileM β} (hm : Gives G K m Q) (hf : ∀ a, Gives G K (f a) R) :
    Gives G K (m >>= f) R := by
  refine hm.bind fun a σ b σ' hrun hσ hK => ?_
  exact hf a σ b σ' hrun hσ fun φ hφ => hK φ (List.mem_append_left _ hφ)

theorem gives_pure {a : α} (h : ∀ φ ∈ Q a, φ ∈ K) : Gives G K (pure a) Q := by
  intro σ b σ' hrun hσ hK
  obtain ⟨rfl, rfl⟩ := pure_ok hrun
  exact ⟨hσ.refl, fun φ hφ => hK φ (h φ hφ)⟩

theorem keeps_pure (a : α) : Keeps G K (pure a) := gives_pure nofun

theorem gives_fail (cause : CompileCause) : Gives G K (fail cause span : CompileM α) Q :=
  fun _ _ _ hrun => (fail_ok hrun).elim

/-- The state is looked at. -/
theorem Gives.withState {f : CompileState → CompileM β} (h : ∀ σ, Gives G K (f σ) R) : Gives G K (get >>= f) R := by
  intro σ b σ' hrun hσ hK
  exact h σ σ b σ' hrun hσ hK

/-! ### Instructions -/

theorem keeps_put (hsized : xs.length = op.widths.length) (hop : op ≠ .setGlobal) : Keeps G K (put op xs span) := by
  intro σ _ σ' hrun hσ _
  obtain rfl := put_ok hrun
  exact ⟨(hσ.emit op xs span hsized fun h => absurd h hop).1, nofun⟩

/-- A jump waits at the place that is answered. -/
theorem gives_emit (hsized : xs.length = op.widths.length) (hset : op ≠ .setGlobal) (hpop : op ≠ .pop) :
    Gives G K (emit op xs span) fun place => [.jump place] := by
  intro σ place σ' hrun hσ _
  obtain ⟨rfl, rfl⟩ := emit_ok hrun
  obtain ⟨hleads, hjumps⟩ := hσ.emit op xs span hsized fun h => absurd h hset
  refine ⟨hleads, fun φ hφ => ?_⟩
  rw [List.mem_singleton.mp hφ]
  exact hjumps hset hpop

theorem keeps_patch (hplace : .jump place ∈ K) (k target : Nat) : Keeps G K (patch place k target span) := by
  intro σ _ σ' hrun hσ hK
  obtain ⟨-, rfl⟩ := patch_ok hrun
  exact ⟨hσ.patch (hK _ hplace) k target, nofun⟩

theorem keeps_emitJumpTo {target : Nat} (hsized : op.widths.length = 1) (hop : op ≠ .setGlobal) :
    Keeps G K (emitJumpTo op target span) := by
  intro σ _ σ' hrun hσ _
  obtain ⟨-, rfl⟩ := emitJumpTo_ok hrun
  exact ⟨(hσ.emit op [target] span hsized.symm fun h => absurd h hop).1, nofun⟩

/-! ### Constants -/

theorem keeps_addConstant {c : Constant} (hc : ∀ f ∈ c.functions, .code f.code ∈ K) :
    Keeps G K (addConstant c span) := by
  intro σ _ σ' hrun hσ hK
  obtain ⟨rfl, -, -⟩ := addConstant_ok hrun
  refine ⟨hσ.withPool fun d hd => ?_, nofun⟩
  rcases Array.mem_push.mp hd with hd | rfl
  · exact .inl hd
  · exact .inr fun f hf => hK _ (hc f hf)

/-! ### Names -/

/-- What is declared may be stored to. -/
theorem gives_define {name : String} {constant : Bool} (h : G.Allows [(name, constant)]) :
    Gives G K (define name constant span) fun x => [.store x] := by
  intro σ x σ' hrun hσ _
  obtain ⟨rfl, rfl, -, hroom⟩ := define_ok hrun
  by_cases hglobal : σ.symbols.outer = []
  · have hdepth : G.depth = 0 := by rw [← hσ.depth, hglobal, List.length_nil]
    have hst : (σ.symbols.define name constant).1.storage = .global := by
      rw [SymbolTable.define, SymbolTable.isGlobal, hglobal]
      exact Scope.storage_define _ .global _ _
    have hallowed : name = G.name → constant = true ∧ G.Free := h _ List.mem_cons_self hdepth
    obtain ⟨hfixed, hspares⟩ := hσ.fixes.define_global hglobal (fun heq => (hallowed heq).1) (hroom hst)
    refine ⟨hσ.withSymbols hfixed rfl, fun φ hφ => ?_⟩
    rw [List.mem_singleton.mp hφ]
    by_cases hname : name = G.name
    · exact .inl (hallowed hname).2
    · refine .inr fun _ => ?_
      rw [show Emitted.cut 2 _ = _ from Nat.mod_eq_of_lt (hroom hst)]
      exact hspares hname
  · obtain ⟨hfixed, hst⟩ := hσ.fixes.define_local hglobal name constant
    refine ⟨hσ.withSymbols hfixed rfl, fun φ hφ => ?_⟩
    rw [List.mem_singleton.mp hφ]
    refine .inr fun h => ?_
    rw [hst] at h
    cases h

/-- What is resolved may be stored to, if it can be assigned to. -/
theorem gives_resolve (name : String) :
    Gives G K (resolve name span) fun x => if x.isAssignable then [.store x] else [] := by
  intro σ x σ' hrun hσ _
  obtain ⟨found, σ₁, hmod, hcheck⟩ := bind_ok hrun
  obtain ⟨hfound, hσ₁⟩ := modifyGet_ok hmod
  obtain ⟨hfixed, hlength, hspares⟩ := hσ.fixes.resolve name
  cases found with
  | none => exact (fail_ok hcheck).elim
  | some y =>
    obtain ⟨rfl, rfl⟩ := pure_ok hcheck
    subst hσ₁
    refine ⟨hσ.withSymbols hfixed hlength, fun φ hφ => ?_⟩
    dsimp only at hφ
    split at hφ
    · next hassignable =>
      rw [List.mem_singleton.mp hφ]
      refine .inr fun hst => ?_
      have hvariable : y.constant = false := by
        rw [Symbol.isAssignable, Bool.and_eq_true] at hassignable
        simpa using hassignable.1
      have hslot := hspares y hfound.symm hst hvariable
      have hroom := Nat.lt_of_lt_of_le hslot.defined hfixed.fixes.outermost.room
      rw [show Emitted.cut 2 _ = _ from Nat.mod_eq_of_lt hroom]
      exact hslot
    · cases hφ

theorem keeps_load : Keeps G K (load x span) := by
  unfold load
  cases x.storage <;> exact keeps_put rfl nofun

theorem keeps_store (h : .store x ∈ K) : Keeps G K (store x span) := by
  unfold store
  cases hst : x.storage with
  | global =>
    intro σ _ σ' hrun hσ hK
    obtain rfl := put_ok hrun
    have hx : σ.Has G (.store x) := hK _ h
    exact ⟨(hσ.emit _ [x.index] _ rfl fun _ => hx.imp_right fun hspares => hspares hst).1, nofun⟩
  | «local» => exact keeps_put rfl nofun
  | free => exact keeps_put rfl nofun
  | builtin => exact gives_fail _
  | functionSelf => exact gives_fail _

theorem keeps_capture : Keeps G K (capture x span) := by
  unfold capture
  cases x.storage with
  | global => exact keeps_pure ()
  | builtin => exact keeps_pure ()
  | «local» => exact keeps_put rfl nofun
  | free => exact keeps_put rfl nofun
  | functionSelf => exact keeps_put rfl nofun

theorem keeps_captureAll (symbols : List Symbol) : Keeps G K (captureAll span symbols) := by
  induction symbols with
  | nil => exact keeps_pure ()
  | cons x rest ih => exact keeps_capture.seq fun _ => ih

theorem keeps_nameFunction (own : Option String) : Keeps G K (nameFunction own) := by
  cases own with
  | none => exact keeps_pure ()
  | some name =>
    intro σ _ σ' hrun hσ _
    obtain rfl := modify_ok hrun
    exact ⟨hσ.withSymbols (hσ.fixes.bind nofun) rfl, nofun⟩

/-! ### Single expressions -/

theorem keeps_superClass : Keeps G K (superClass span) := by
  refine .withState fun σ => ?_
  split
  · split
    · exact keeps_pure _
    · exact gives_fail _
  · exact gives_fail _

theorem keeps_checkArgs (count : Nat) : Keeps G K (checkArgs count span) := by
  unfold checkArgs
  split
  · exact gives_fail _
  · exact keeps_pure ()

/-! ### Bodies -/

theorem keeps_dropPop : Keeps G K (modifyBlock CodeBlock.dropPop) := by
  intro σ _ σ' hrun hσ _
  obtain rfl := modifyBlock_ok hrun
  exact ⟨hσ.dropPop, nofun⟩

theorem keeps_returnPop : Keeps G K (modifyBlock CodeBlock.returnPop) := by
  intro σ _ σ' hrun hσ _
  obtain rfl := modifyBlock_ok hrun
  exact ⟨hσ.returnPop, nofun⟩

/-- What a function body declares are locals, and what it stores to is in its code. -/
theorem gives_inFunction {m : CompileM Unit} (h : Keeps G.inside [] m) :
    Gives G K (inFunction m) fun body => [.code body.block.code] := by
  intro σ body σ' hrun hσ _
  obtain ⟨σ₁, hbody, hblock, -, -, rfl⟩ := inFunction_ok hrun
  have henter := hσ.fixes.enclose
  have hinside : (inside σ).Fits G.inside := by
    refine ⟨?_, henter.fixes, nofun, nofun, ?_, nofun⟩
    · exact congrArg Nat.succ hσ.depth
    · intro c hc f hf k hk
      exact henter.spares k (hσ.pool c hc f hf k hk)
  obtain ⟨hleads, -⟩ := h _ () σ₁ hbody hinside nofun
  have hdepth : σ₁.symbols.outer.length = G.depth + 1 := hleads.fits.depth
  cases houter : σ₁.symbols.outer with
  | nil =>
    rw [houter] at hdepth
    cases hdepth
  | cons s rest =>
    obtain ⟨hleave, hfixed⟩ := hleads.fits.fixes.leave houter
    have hlength : rest.length = G.depth := by
      rw [houter, List.length_cons] at hdepth
      exact Nat.succ.inj hdepth
    have hspares (k : Nat) (hk : σ.symbols.Spares G.name k) : (⟨s, rest⟩ : SymbolTable).Spares G.name k :=
      hfixed.spares k (hleads.spares k (henter.spares k hk))
    rw [hleave, Option.getD_some]
    refine ⟨⟨⟨hlength, hfixed.fixes, hσ.sized, ?_, ?_, hσ.waiting⟩, hspares, fun _ hp => hp⟩, fun φ hφ => ?_⟩
    · intro place i hi hop hexempt
      exact hspares _ (hσ.stores place i hi hop hexempt)
    · intro c hc f hf k hk
      exact hfixed.spares k (hleads.fits.pool c hc f hf k hk)
    · rw [List.mem_singleton.mp hφ]
      intro k hk
      rw [hblock] at hk
      obtain ⟨before, behind, i, hitems, -, hop, rfl⟩ := CodeBlock.item_of_storesFrom hleads.fits.sized hk
      have hi : σ₁.items[before.length]? = some i := by
        rw [show σ₁.items = _ from hitems]
        simp
      exact hfixed.spares _ (hleads.fits.stores _ i hi hop id)

theorem keeps_makeClosure {f : FunctionLiteral} {name : Option String} {body : Body}
    (h : .code body.block.code ∈ K) : Keeps G K (makeClosure f name body) := by
  refine (keeps_captureAll _).seq fun _ => (keeps_addConstant ?_).seq fun _ => keeps_put rfl nofun
  intro g hg
  rw [List.mem_singleton.mp hg]
  exact h

theorem gives_makeMethod {cls name : String} {f : FunctionLiteral} {body : Body} (h : .code body.block.code ∈ K) :
    Gives G K (makeMethod cls f name body) fun m => [.code m.code] := by
  unfold makeMethod
  split
  · exact gives_fail _
  · refine gives_pure fun φ hφ => ?_
    rw [List.mem_singleton.mp hφ]
    exact h

/-! ### Classes -/

/-- What is known of the methods of a class. -/
def methodFacts (methods : List (String × Function)) : List Fact := methods.map fun m => .code m.2.code

theorem gives_beginClass {id : Ident} {hasParent : Bool} (h : G.Allows [(id.name, false)]) :
    Gives G K (beginClass id hasParent span) fun found => [.store found.1] := by
  refine (gives_define h).bind fun x => Gives.seq (keeps_addConstant (c := .null) nofun) fun place => ?_
  refine Gives.seq (m := modify _) (Q := fun _ => []) ?_ fun _ => gives_pure fun φ hφ => List.mem_append_right _ hφ
  intro σ _ σ' hrun hσ _
  obtain rfl := modify_ok hrun
  exact ⟨hσ.withClasses _ _, nofun⟩

theorem keeps_endClass {c : ClassConstant} (hx : .store x ∈ K) (hc : methodFacts c.methods ⊆ K) :
    Keeps G K (endClass x place c span) := by
  have hfill : Keeps G K (modify fun s : CompileState =>
      { s with classes := s.classes.tail, pool := s.pool.setIfInBounds place (.cls c) }) := by
    intro σ _ σ' hrun hσ hK
    obtain rfl := modify_ok hrun
    have hpool := hσ.withPool (p := σ.pool.setIfInBounds place (.cls c)) fun d hd => ?_
    · exact ⟨hpool.trans (hpool.fits.withClasses _ _), nofun⟩
    · rcases Array.mem_or_eq_of_mem_setIfInBounds hd with hd | rfl
      · exact .inl hd
      · refine .inr fun f hf => hK _ (hc ?_)
        obtain ⟨m, hm, rfl⟩ := List.mem_map.mp hf
        exact List.mem_map_of_mem hm
  exact hfill.seq fun _ => Gives.seq (keeps_put rfl nofun) fun _ => (keeps_store hx).seq fun _ => keeps_put rfl nofun

/-! ### Loops -/

theorem keeps_enterLoop (target : Option Nat) (depth : Nat) : Keeps G K (enterLoop target depth) := by
  intro σ _ σ' hrun hσ _
  obtain rfl := enterLoop_ok hrun
  refine ⟨hσ.withLoops _ fun c hc => ?_, nofun⟩
  rcases List.mem_cons.mp hc with rfl | hc
  · exact nofun
  · exact hσ.waiting c hc

theorem keeps_leaveLoop : Keeps G K (leaveLoop span) := by
  intro σ _ σ' hrun hσ _
  cases hcs : σ.function.loops with
  | nil =>
    obtain ⟨_, σ₁, hget, hrest⟩ := bind_ok hrun
    obtain ⟨rfl, rfl⟩ := get_ok hget
    rw [hcs] at hrest
    obtain ⟨-, rfl⟩ := pure_ok hrest
    exact ⟨hσ.refl, nofun⟩
  | cons c cs =>
    obtain ⟨-, rfl⟩ := leaveLoop_ok hcs hrun
    have hleads := hσ.withLoops cs fun d hd => hσ.waiting d (hcs ▸ List.mem_cons_of_mem _ hd)
    refine ⟨hleads.trans (hleads.fits.patchAll (fun place hplace => ?_) _), nofun⟩
    exact hσ.waiting c (hcs ▸ List.mem_cons_self) place (List.mem_append_right _ hplace)

theorem keeps_placeContinues : Keeps G K (placeContinues span) := by
  intro σ _ σ' hrun hσ _
  cases hcs : σ.function.loops with
  | nil =>
    obtain ⟨_, σ₁, hget, hrest⟩ := bind_ok hrun
    obtain ⟨rfl, rfl⟩ := get_ok hget
    rw [hcs] at hrest
    obtain ⟨-, rfl⟩ := pure_ok hrest
    exact ⟨hσ.refl, nofun⟩
  | cons c cs =>
    obtain ⟨-, rfl⟩ := placeContinues_ok hcs hrun
    have hloop : ∀ place ∈ c.continueJumps ++ c.breakJumps, σ.Jumps place :=
      hσ.waiting c (hcs ▸ List.mem_cons_self)
    have hleads := hσ.withLoops ({ c with continueJumps := [] } :: cs) fun d hd => ?_
    · refine ⟨hleads.trans (hleads.fits.patchAll (fun place hplace => ?_) _), nofun⟩
      exact hloop place (List.mem_append_left _ hplace)
    · rcases List.mem_cons.mp hd with rfl | hd
      · exact fun place hplace => hloop place (List.mem_append_right _ hplace)
      · exact hσ.waiting d (hcs ▸ List.mem_cons_of_mem _ hd)

/-- Another jump waits with the innermost loop. -/
theorem keeps_modifyLoop {f : LoopContext → LoopContext} (hplace : .jump place ∈ K)
    (h : ∀ c, ∀ p ∈ (f c).continueJumps ++ (f c).breakJumps, p ∈ c.continueJumps ++ c.breakJumps ∨ p = place) :
    Keeps G K (modifyLoop f) := by
  intro σ _ σ' hrun hσ hK
  cases hcs : σ.function.loops with
  | nil =>
    have hσ' := modify_ok hrun
    simp only [hcs] at hσ'
    rw [hσ']
    exact ⟨hσ.refl, nofun⟩
  | cons c cs =>
    obtain rfl := modifyLoop_ok hcs hrun
    refine ⟨hσ.withLoops _ fun d hd => ?_, nofun⟩
    rcases List.mem_cons.mp hd with rfl | hd
    · intro p hp
      rcases h c p hp with hold | rfl
      · exact hσ.waiting c (hcs ▸ List.mem_cons_self) p hold
      · exact hK _ hplace
    · exact hσ.waiting d (hcs ▸ List.mem_cons_of_mem _ hd)

end

end CompileM

end ScriptMachine
