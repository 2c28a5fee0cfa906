import ScriptMachine.Proofs.Constancy.Steps
import ScriptMachine.Proofs.Rules.Forms

/-!
# What pieces of the source store to

The steps of compilation store to no other slots than the guard allows, so pieces of the source do not either, if the
guard allows what is declared in them.
-/

namespace ScriptMachine

namespace CompileM

/-- What matters to stores. -/
def Known.fact? : Known → Option Fact
  | .jump k => some (.jump k)
  | .store x => some (.store x)
  | .body b => some (.code b.block.code)
  | .method f => some (.code f.code)
  | _ => none

theorem Known.mem_facts {K : List Known} {φ : Known} {ψ : Fact} (h : φ ∈ K) (hφ : φ.fact? = some ψ) :
    ψ ∈ K.filterMap fact? := List.mem_filterMap.mpr ⟨φ, h, hφ⟩

theorem Known.facts_methods (ms : List (String × Function)) : (methods ms).filterMap fact? = methodFacts ms := by
  rw [methods, methodFacts, List.filterMap_map]
  exact congrFun (List.filterMap_eq_map (f := fun m : String × Function => Fact.code m.2.code)) ms

theorem Gives.weaken {α : Type} {G : Guard} {K K' : List Fact} {Q : α → List Fact} {m : CompileM α}
    (h : Gives G K m Q) (hK : K ⊆ K') : Gives G K' m Q :=
  fun σ a σ' hrun hσ hfacts => h σ a σ' hrun hσ fun φ hφ => hfacts φ (hK hφ)

theorem Gives.imp {α : Type} {G : Guard} {K : List Fact} {Q R : α → List Fact} {m : CompileM α}
    (h : Gives G K m Q) (hQ : ∀ a, R a ⊆ Q a) : Gives G K m R := by
  intro σ a σ' hrun hσ hK
  obtain ⟨hleads, hfacts⟩ := h σ a σ' hrun hσ hK
  exact ⟨hleads, fun φ hφ => hfacts φ (hQ a hφ)⟩

/-- Nothing that is emitted on its own stores to a global. -/
theorem Known.Emits.keeps {K : List Known} {op : Opcode} {xs : List Nat} (h : Known.Emits K op xs) {G : Guard}
    {K' : List Fact} {span : Span} : Keeps G K' (put op xs span) := by
  cases h with
  | plain hop => exact keeps_put (congrArg List.length hop).symm fun hset => by rw [hset] at hop; cases hop
  | channel => exact keeps_put rfl nofun
  | count n hop => rcases hop with rfl | rfl | rfl <;> exact keeps_put rfl nofun
  | call hop => rcases hop with rfl | rfl <;> exact keeps_put rfl nofun
  | constant hop => rcases hop with rfl | rfl | rfl <;> exact keeps_put rfl nofun
  | invoke hop => rcases hop with rfl | rfl <;> exact keeps_put rfl nofun

/-- Stores to other slots, as a judgement about steps. -/
def storing : Logic where
  Level := Guard
  inside := Guard.inside
  Allows G d := G.Allows [d]
  allows_inside G d := G.allows_inside [d]
  Gives G K m Q := Gives G (K.filterMap Known.fact?) m fun a => (Q a).filterMap Known.fact?
  weaken h hK := h.weaken (List.filterMap_subset _ hK)
  bind hm hf := hm.bind fun a => by
    have h := hf a
    rwa [List.filterMap_append] at h
  pure h := gives_pure (List.filterMap_subset _ h)
  fail := gives_fail
  withState := Gives.withState
  put h := h.keeps
  emit h := by
    cases h with
    | jump hop => rcases hop with rfl | rfl | rfl <;> exact gives_emit rfl (by decide) (by decide)
    | tryEnter => exact gives_emit rfl (by decide) (by decide)
  emitJumpTo hop := by rcases hop with rfl | rfl <;> exact keeps_emitJumpTo rfl nofun
  patch hplace := keeps_patch (Known.mem_facts hplace rfl)
  dropPop := keeps_dropPop
  returnPop := keeps_returnPop
  addConstant hc := keeps_addConstant (by rw [hc]; exact nofun)
  define := gives_define
  resolve name := by
    refine (gives_resolve name).imp fun x => ?_
    dsimp only
    split
    · exact List.Subset.refl [Fact.store x]
    · exact List.Subset.refl []
  load _ := keeps_load
  store hx := keeps_store (Known.mem_facts hx rfl)
  checkArgs := keeps_checkArgs
  superClass := keeps_superClass
  nameFunction := keeps_nameFunction
  inFunction _ := gives_inFunction
  makeClosure hb := keeps_makeClosure (Known.mem_facts hb rfl)
  makeMethod hb := gives_makeMethod (Known.mem_facts hb rfl)
  beginClass := gives_beginClass
  endClass hx _ hmethods := keeps_endClass (Known.mem_facts hx rfl)
    (Known.facts_methods _ ▸ List.filterMap_subset _ hmethods)
  enterLoop := keeps_enterLoop
  leaveLoop := keeps_leaveLoop
  placeContinues := keeps_placeContinues
  modifyLoop hplace := keeps_modifyLoop (Known.mem_facts hplace rfl)

/-- Statements store to no other slots than the guard allows, if it allows what they declare. -/
theorem keeps_stmts {G : Guard} {K : List Fact} {ss : List Stmt} (hss : G.Allows (Stmt.declaredAll ss)) :
    Keeps G K (stmts [] ss) := by
  have hall : storing.AllowsAll (G : Guard) (Stmt.declaredAll ss) := by
    intro d hd
    exact List.forall_mem_singleton.mpr (hss d hd)
  have hkeeps : Keeps G [] (stmts [] ss) := Logic.keeps_stmts (L := storing) (K := []) hall
  exact hkeeps.weaken (List.nil_subset K)

end CompileM

end ScriptMachine
