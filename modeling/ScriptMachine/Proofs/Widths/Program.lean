import ScriptMachine.Proofs.Frames.Program
import ScriptMachine.Proofs.Widths.Steps

/-!
# What a unit makes of its numbers

A new compiler accepts a unit only if all numbers fit their operands, apart from those that it never checks: how many
values a literal has, how many cells a closure gets, and the cells beyond the first 256. So the blocks of the unit decode
to the instructions that were emitted for it, and an operand is another one than was emitted only where it is one of
these numbers (`Compiler.Fresh.operands_read_back`).
-/

namespace ScriptMachine

open Point

/-- The block decodes to its instructions, and an operand is another one only where it spills. -/
def CodeBlock.ReadsBack (b : CodeBlock) (cells : Nat) : Prop :=
  ∃ is, decode b.code = .ok is ∧ List.Forall₂ (fun (i : Instruction) (e : Emitted) =>
    i.opcode = e.opcode ∧ (i.operands = e.operands ↔ ¬e.Spills cells)) is b.items.toList

theorem CodeBlock.readsBack {b : CodeBlock} {cells : Nat} (h : ∀ i ∈ b.items.toList, i.Fits ∨ i.Spills cells) :
    b.ReadsBack cells := by
  have hsized : ∀ i ∈ b.items.toList, i.Sized := fun i hi => (h i hi).elim Emitted.Fits.sized Emitted.Spills.sized
  refine ⟨_, decode_eq hsized, ?_⟩
  have hrow {is : List Emitted} (his : ∀ i ∈ is, i.Fits ∨ i.Spills cells) (u : Setup) (o height : Nat) :
      List.Forall₂ (fun (i : Instruction) (e : Emitted) =>
        i.opcode = e.opcode ∧ (i.operands = e.operands ↔ ¬e.Spills cells))
        ((rowFrom u [] o height is).map Point.instruction) is := by
    induction is generalizing u o height with
    | nil => exact .nil
    | cons i is ih =>
      refine .cons ⟨rfl, ?_⟩ (ih (fun j hj => his j (List.mem_cons_of_mem _ hj)) _ _ _)
      show i.read = i.operands ↔ _
      rcases his i List.mem_cons_self with hfits | hspills
      · exact ⟨fun _ hspills => hspills.read_ne hfits.read_eq, fun _ => hfits.read_eq⟩
      · exact ⟨fun heq => absurd heq hspills.read_ne, fun hnot => absurd hspills hnot⟩
  exact hrow h _ _ _

/-- The function has the code of a body that was compiled, and the code reads back. -/
def Function.ReadsBack (f : Function) : Prop :=
  ∃ m σ body σ' name params, CompileM.Opens m ∧ CompileM.inFunction m σ = .ok body σ' ∧
    f = body.block.toFunction name body.locals params ∧ body.block.ReadsBack body.free.length

theorem Function.Checked.readsBack {f : Function} (h : f.Checked) : f.ReadsBack := by
  obtain ⟨body, name, params, hbody, hf⟩ := h
  obtain ⟨m, σ, σ', hopens, hrun⟩ := hbody.compiled
  exact ⟨m, σ, body, σ', name, params, hopens, hrun, hf, CodeBlock.readsBack hbody.items⟩

theorem CompileM.unit_eq {first : Nat} {ss : List Stmt} {σ₀ σ : CompileState} {pool : Pool}
    (hrun : stmts [] ss σ₀ = .ok () σ) (hlink : σ.pool.link σ.classSpans first = .ok pool) :
    (unit first ss).run σ₀ =
      .ok (σ.function.block.emit .halt [] .dummy) ({ σ with pool }.emit .halt [] .dummy) := by
  have hlinked : linkClasses first σ = .ok () { σ with pool } := by
    rw [linkClasses_eq, hlink]
  exact (bind_eq hrun).trans ((bind_eq hlinked).trans rfl)

namespace Compiler

/-- The functions of a registry have numbers that fit. -/
theorem small_symbolsOf (r : Registry) : (symbolsOf r).Small := by
  unfold symbolsOf
  suffices ∀ (es : List (String × Nat)) (t : SymbolTable), t.Small →
      (es.foldl (fun t e => (t.defineBuiltin e.2 e.1).2) t).Small from
    this _ _ fun s hs => List.mem_singleton.mp hs ▸ Scope.small_empty
  intro es
  induction es with
  | nil => exact fun t ht => ht
  | cons e es ih => exact fun t ht => ih _ (ht.bind trivial)

/-- A new compiler, with a registry that is not too large and a pool without functions. -/
inductive Fresh : Compiler → Prop where
  | new {r : Registry} (hr : r.size ≤ Registry.capacity) (nulls : Nat) (optimize : Bool) :
    Fresh (.new r (Array.replicate nulls .null) optimize)

/-- Nothing has been emitted when a new compiler starts. -/
theorem Fresh.checked {c : Compiler} (h : c.Fresh) : c.start.Checked := by
  cases h with
  | @new r hr nulls optimize =>
    have hnumbers : ∀ i < r.names.length, i < Registry.capacity := by
      intro i hi
      refine Nat.lt_of_lt_of_le hi (Nat.le_trans (Nat.le_of_eq ?_) hr)
      simp [Registry.names, Registry.size]
    refine ⟨(symbolsOf_ok r hnumbers).2, small_symbolsOf r, List.forall_mem_nil _, List.forall_mem_nil _, ?_,
      List.forall_mem_nil _⟩
    intro c hc f hf
    obtain ⟨-, rfl⟩ := Array.mem_replicate.mp hc
    cases hf

theorem Fresh.isGlobal {c : Compiler} (h : c.Fresh) : c.symbols.isGlobal = true := by
  cases h with
  | @new r => exact (@symbolsOf_ok (fun _ => True) r fun _ _ => trivial).1

/-- All blocks of an accepted unit decode to the instructions that were emitted, with their operands but for those that
nobody checks. At the top level there are no cells. -/
theorem Fresh.operands_read_back {c c' : Compiler} (hc : c.Fresh) {p : Program} {unit : UnitCode}
    (h : c.compile p = .ok (unit, c')) :
    (∃ top σ, (CompileM.unit c.pool.size (c.statements p)).run c.start = .ok top σ ∧
      unit = ⟨top.code, top.debug⟩ ∧ top.ReadsBack 0) ∧
    ∀ k ∈ c'.pool, ∀ f ∈ k.functions, f.ReadsBack := by
  obtain ⟨σ, pool, hrun, hlink, rfl, rfl⟩ := compile_ok h
  obtain ⟨hadvances, -⟩ := CompileM.checks_stmts _ c.start () σ hrun hc.checked (List.forall_mem_nil _)
  have hhalt := hadvances.checked.emit .dummy (.inl (@Emitted.fits_plain .halt _ rfl))
  constructor
  · refine ⟨σ.function.block.emit .halt [] .dummy, _, CompileM.unit_eq hrun hlink, rfl, CodeBlock.readsBack fun i hi => ?_⟩
    -- the outermost scope captures nothing
    have hfree := hadvances.checked.symbols.free_eq (hadvances.symbols.isGlobal hc.isGlobal)
    have hitem := hhalt.checked.items i hi
    rwa [show (σ.emit .halt [] .dummy).symbols.current.free = #[] from hfree] at hitem
  · intro k hk f hf
    obtain ⟨k', hk', hf⟩ := (Pool.links_of_link hlink).functions hk hf
    exact (hadvances.checked.functions k' hk' f hf).readsBack

end Compiler

open calledLiteral in
/-- The unit `fn() { true }()` and its function. -/
theorem calledLiteral_operands_read_back : ∃ c', Compiler.Fresh (.new .empty #[] false) ∧
    (Compiler.new .empty #[] false).compile ⟨[calledLiteral]⟩ = .ok (unit, c') ∧
    (∃ top : CodeBlock, unit = ⟨top.code, top.debug⟩ ∧ top.ReadsBack 0) ∧ function.ReadsBack := by
  obtain ⟨c', hcompile, hpool⟩ := compile_calledLiteral
  have hfresh : Compiler.Fresh (.new .empty #[] false) := .new (by decide) 0 false
  obtain ⟨⟨top, -, -, hunit, htop⟩, hfunctions⟩ := hfresh.operands_read_back hcompile
  refine ⟨c', hfresh, hcompile, ⟨top, hunit, htop⟩, hfunctions (.function function) ?_ _ List.mem_cons_self⟩
  rw [hpool]
  exact List.mem_toArray.mpr List.mem_cons_self

end ScriptMachine
