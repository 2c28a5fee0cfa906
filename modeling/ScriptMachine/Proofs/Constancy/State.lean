import ScriptMachine.Proofs.Constancy.Declared
import ScriptMachine.Proofs.Constancy.Table
import ScriptMachine.Proofs.Layout.Lowering

/-!
# Stores to globals

Instructions that store to a global come from declarations and from assignments. An assignment is only compiled to a
name that is not a constant, and such a name never has the slot of a certain global that is declared as a constant only.
So all stores go to other slots, apart from those that declare the constant itself.

1. **Code**: which slots finished code stores to.
2. **Guards**: what is watched over, and which declarations are allowed.
3. **States**: `CompileState.Fits`, all stores so far go to other slots, but for the part of the block at hand that may
   declare the constant. What is known of a state (`Fact`) is known of all states that it leads to.
-/

namespace ScriptMachine

open Point

/-! ## Code -/

/-- From the offset `o` on the code stores to the global slot `k`. -/
def StoresFrom (code : Array UInt8) (o k : Nat) : Prop :=
  ∃ is, decode code = .ok is ∧ ∃ i ∈ is, o ≤ i.offset ∧ i.opcode = .setGlobal ∧ i.operands.head? = some k

theorem StoresFrom.mono {code : Array UInt8} {o o' k : Nat} (h : StoresFrom code o k) (ho : o' ≤ o) :
    StoresFrom code o' k := by
  obtain ⟨is, hdecode, i, hi, hle, hstores⟩ := h
  exact ⟨is, hdecode, i, hi, Nat.le_trans ho hle, hstores⟩

/-- The length of instructions in bytes. -/
def Emitted.lengths : List Emitted → Nat
  | [] => 0
  | i :: is => i.opcode.length + lengths is

@[simp] theorem Emitted.lengths_cons (i : Emitted) (is : List Emitted) :
    lengths (i :: is) = i.opcode.length + lengths is := rfl

@[simp] theorem Emitted.lengths_append (is js : List Emitted) : lengths (is ++ js) = lengths is + lengths js := by
  induction is with
  | nil => simp [lengths]
  | cons i is ih => rw [List.cons_append, lengths_cons, lengths_cons, ih, Nat.add_assoc]

/-- A proper part of the code is shorter. -/
theorem Emitted.lengths_lt {is tail before behind : List Emitted} {i : Emitted}
    (h : before ++ i :: behind = is ++ tail) (hlt : before.length < is.length) : lengths before < lengths is := by
  rcases List.append_eq_append_iff.mp h with ⟨rest, rfl, hrest⟩ | ⟨rest, rfl, -⟩
  · cases rest with
    | nil => simp at hlt
    | cons j rest =>
      have hpos := j.opcode.length_pos
      rw [lengths_append, lengths_cons]
      omega
  · rw [List.length_append] at hlt
    omega

theorem Point.size_eq_lengths (code : List Point) : size code = Emitted.lengths (items code) := by
  induction code with
  | nil => rfl
  | cons p code ih =>
    show _ = Emitted.lengths (p.item :: items code)
    rw [Emitted.lengths_cons, ← ih]
    rfl

/-- Jumps that wait are as long as others. -/
theorem Point.lengths_raw (w : Leap → Bool) (n : Nat) (code : List Point) :
    Emitted.lengths (code.map (raw w n)) = size code := by
  induction code with
  | nil => rfl
  | cons p code ih =>
    have hop : (p.raw w n).opcode = p.item.opcode := by
      unfold raw
      split <;> rfl
    rw [List.map_cons, Emitted.lengths_cons, ih, hop]
    rfl

/-- What code stores to is stored to by one of the instructions that the code was made of. -/
theorem CodeBlock.item_of_storesFrom {b : CodeBlock} (hsized : ∀ i ∈ b.items.toList, i.Sized) {o k : Nat}
    (h : StoresFrom b.code o k) : ∃ (before behind : List Emitted) (i : Emitted),
      b.items.toList = before ++ i :: behind ∧ o ≤ Emitted.lengths before ∧ i.opcode = .setGlobal ∧
      i.operand 0 = k := by
  let code : List Point := row [] 0 0 b.items.toList
  have hitems : Point.items code = b.items.toList := items_rowFrom _ _ _ _ _
  have hneat : Neat 0 code := neat_rowFrom hsized _ _ _ _
  obtain ⟨is, hdecode, i, hi, hle, hop, hk⟩ := h
  rw [CodeBlock.decode_eq hsized] at hdecode
  cases hdecode
  obtain ⟨p, hp, rfl⟩ := List.mem_map.mp hi
  obtain ⟨before, behind, hsplit, hoffset, -, hp⟩ := hneat.split hp
  refine ⟨Point.items before, Point.items behind, p.item, ?_, ?_, hop, ?_⟩
  · rw [← hitems, hsplit]
    simp [Point.items]
  · rw [← size_eq_lengths]
    exact Nat.le_trans hle (Nat.le_of_eq (hoffset.trans (Nat.zero_add _)))
  · have hread : p.item.read = [p.item.operand 0] := Emitted.read_one hp (by rw [show p.item.opcode = _ from hop]; rfl)
    rw [show p.instruction.operands = _ from hread] at hk
    exact Option.some.inj hk

/-! ## Guards -/

/-- What is watched over: the global `name`. -/
structure Guard where
  name : String
  /-- The places of the block at hand that may store to the global. -/
  exempt : Nat → Prop
  /-- The number of function bodies around the code at hand. -/
  depth : Nat

namespace Guard

variable {G : Guard}

/-- Everything that is compiled now may store to the global. -/
def Free (G : Guard) : Prop := ∀ place, G.exempt place

/-- In a function body nothing may. -/
def inside (G : Guard) : Guard := ⟨G.name, fun _ => False, G.depth + 1⟩

/-- If the global is among the names that are declared, it is a constant, and it may be stored to. A function body
declares locals. -/
def Allows (G : Guard) (ds : List Declaration) : Prop :=
  ∀ d ∈ ds, G.depth = 0 → d.1 = G.name → d.2 = true ∧ G.Free

@[simp] theorem allows_nil : G.Allows [] := List.forall_mem_nil _

@[simp] theorem allows_append {ds ds' : List Declaration} : G.Allows (ds ++ ds') ↔ G.Allows ds ∧ G.Allows ds' :=
  List.forall_mem_append

@[simp] theorem allows_cons {d : Declaration} {ds : List Declaration} :
    G.Allows (d :: ds) ↔ G.Allows [d] ∧ G.Allows ds := @allows_append G [d] ds

theorem allows_inside (ds : List Declaration) : G.inside.Allows ds := fun _ _ h => absurd h (Nat.succ_ne_zero G.depth)

end Guard

/-! ## States -/

/-- Something that stays true once it is true. -/
inductive Fact where
  /-- There is a jump at the place, or another instruction that no store takes the place of. -/
  | jump (place : Nat)
  /-- The code at hand may store to the binding. -/
  | store (x : Symbol)
  /-- Finished code does not store to the global. -/
  | code (code : Array UInt8)

namespace CompileState

/-- An instruction whose operands may be changed. -/
def Jumps (σ : CompileState) (place : Nat) : Prop :=
  ∃ i, σ.items[place]? = some i ∧ i.opcode ≠ .setGlobal ∧ i.opcode ≠ .pop

def Has (G : Guard) (σ : CompileState) : Fact → Prop
  | .jump place => σ.Jumps place
  | .store x => G.Free ∨ (x.storage = .global → σ.symbols.Spares G.name (Emitted.cut 2 x.index))
  | .code code => ∀ k, StoresFrom code 0 k → σ.symbols.Spares G.name k

/-- The global is a constant, and all stores so far go to other globals, apart from exempt places. -/
structure Fits (G : Guard) (σ : CompileState) : Prop where
  depth : σ.symbols.outer.length = G.depth
  fixes : σ.symbols.Fixes G.name
  sized : ∀ i ∈ σ.items, i.Sized
  stores : ∀ place i, σ.items[place]? = some i → i.opcode = .setGlobal → ¬G.exempt place →
    σ.symbols.Spares G.name (i.operand 0)
  pool : ∀ c ∈ σ.pool, ∀ f ∈ c.functions, σ.Has G (.code f.code)
  waiting : ∀ c ∈ σ.function.loops, ∀ place ∈ c.continueJumps ++ c.breakJumps, σ.Jumps place

/-- What is true of a state is true of the next one. -/
structure Leads (G : Guard) (σ σ' : CompileState) : Prop where
  fits : σ'.Fits G
  spares : ∀ k, σ.symbols.Spares G.name k → σ'.symbols.Spares G.name k
  jumps : ∀ place, σ.Jumps place → σ'.Jumps place

section

variable {G : Guard} {σ σ₁ σ₂ : CompileState}

theorem Leads.has (h : σ.Leads G σ₁) : ∀ φ, σ.Has G φ → σ₁.Has G φ
  | .jump place, hφ => h.jumps place hφ
  | .store _, hφ => hφ.imp_right fun hx hst => h.spares _ (hx hst)
  | .code _, hφ => fun k hk => h.spares k (hφ k hk)

theorem Leads.trans (h : σ.Leads G σ₁) (h' : σ₁.Leads G σ₂) : σ.Leads G σ₂ :=
  ⟨h'.fits, fun k hk => h'.spares k (h.spares k hk), fun place hp => h'.jumps place (h.jumps place hp)⟩

namespace Fits

variable (h : σ.Fits G)

include h

theorem refl : σ.Leads G σ := ⟨h, fun _ hk => hk, fun _ hp => hp⟩

/-- Names are declared or resolved. -/
theorem withSymbols {t : SymbolTable} (hfixed : σ.symbols.Fixed G.name t)
    (hdepth : t.outer.length = σ.symbols.outer.length) : σ.Leads G { σ with symbols := t } := by
  refine ⟨⟨hdepth.trans h.depth, hfixed.fixes, h.sized, ?_, ?_, h.waiting⟩, hfixed.spares, fun _ hp => hp⟩
  · intro place i hi hop hexempt
    exact hfixed.spares _ (h.stores place i hi hop hexempt)
  · intro c hc f hf k hk
    exact hfixed.spares _ (h.pool c hc f hf k hk)

/-- The block at hand is extended or changed. -/
theorem withBlock {b : CodeBlock} (hsized : ∀ i ∈ b.items.toList, i.Sized)
    (hstores : ∀ place i, b.items.toList[place]? = some i → i.opcode = .setGlobal →
      σ.items[place]? = some i ∨ G.exempt place ∨ σ.symbols.Spares G.name (i.operand 0))
    (hjumps : ∀ place, σ.Jumps place → (σ.withBlock b).Jumps place) : σ.Leads G (σ.withBlock b) := by
  refine ⟨⟨h.depth, h.fixes, hsized, ?_, h.pool, fun c hc place hp => hjumps place (h.waiting c hc place hp)⟩,
    fun _ hk => hk, hjumps⟩
  intro place i hi hop hexempt
  rcases hstores place i hi hop with hold | hnew | hspares
  · exact h.stores place i hold hop hexempt
  · exact absurd hnew hexempt
  · exact hspares

/-- The pool is extended or changed. -/
theorem withPool {p : Pool} (hp : ∀ c ∈ p, c ∈ σ.pool ∨ ∀ f ∈ c.functions, σ.Has G (.code f.code)) :
    σ.Leads G { σ with pool := p } := by
  refine ⟨⟨h.depth, h.fixes, h.sized, h.stores, fun c hc => ?_, h.waiting⟩, fun _ hk => hk, fun _ hp => hp⟩
  exact (hp c hc).elim (h.pool c) id

theorem withLoops (cs : List LoopContext)
    (hcs : ∀ c ∈ cs, ∀ place ∈ c.continueJumps ++ c.breakJumps, σ.Jumps place) : σ.Leads G (σ.withLoops cs) :=
  ⟨⟨h.depth, h.fixes, h.sized, h.stores, h.pool, hcs⟩, fun _ hk => hk, fun _ hp => hp⟩

/-- Classes have no part in it. -/
theorem withClasses (cs : List ClassContext) (spans : List (String × Span)) :
    σ.Leads G { σ with classes := cs, classSpans := spans } :=
  ⟨⟨h.depth, h.fixes, h.sized, h.stores, h.pool, h.waiting⟩, fun _ hk => hk, fun _ hp => hp⟩

theorem emit (op : Opcode) (xs : List Nat) (span : Span) (hsized : xs.length = op.widths.length)
    (hop : op = .setGlobal → G.Free ∨ σ.symbols.Spares G.name (Emitted.operand ⟨op, xs, span⟩ 0)) :
    σ.Leads G (σ.emit op xs span) ∧
      (op ≠ .setGlobal → op ≠ .pop → (σ.emit op xs span).Jumps σ.items.length) := by
  have hitems : (σ.emit op xs span).items = σ.items ++ [⟨op, xs, span⟩] := σ.emit_items op xs span
  have hlast : (σ.emit op xs span).items[σ.items.length]? = some ⟨op, xs, span⟩ := by simp
  refine ⟨h.withBlock (b := σ.function.block.emit op xs span) ?_ ?_ ?_, fun hset hpop => ⟨_, hlast, hset, hpop⟩⟩
  · intro i hi
    rcases List.mem_append.mp (hitems ▸ hi : i ∈ σ.items ++ [⟨op, xs, span⟩]) with hi | hi
    · exact h.sized i hi
    · rw [List.mem_singleton.mp hi]
      exact hsized
  · intro place i hi hset
    have hi : (σ.items ++ [⟨op, xs, span⟩])[place]? = some i := hitems ▸ hi
    rw [List.getElem?_append] at hi
    split at hi
    · exact .inl hi
    · rcases List.mem_singleton.mp (List.mem_of_getElem? hi) with rfl
      exact .inr ((hop hset).imp_left fun hfree => hfree place)
  · rintro place ⟨i, hi, hkind⟩
    refine ⟨i, ?_, hkind⟩
    show (σ.emit op xs span).items[place]? = some i
    rw [hitems, List.getElem?_append_left (List.getElem?_eq_some_iff.mp hi).1]
    exact hi

/-- The operands of a jump are changed. -/
theorem patch {place : Nat} (hplace : σ.Jumps place) (k target : Nat) : σ.Leads G (σ.patch place k target) := by
  refine h.withBlock (b := σ.function.block.patch place k target) ?_ ?_ ?_
  · intro i hi
    obtain ⟨j, hj⟩ := List.mem_iff_getElem?.mp hi
    obtain ⟨i', hi', rfl⟩ := Option.map_eq_some_iff.mp ((σ.getElem?_patch place k target j).symm.trans hj)
    have hsized := h.sized i' (List.mem_of_getElem? hi')
    split
    · exact (List.length_set).trans hsized
    · exact hsized
  · intro j i hj hop
    obtain ⟨i', hi', rfl⟩ := Option.map_eq_some_iff.mp ((σ.getElem?_patch place k target j).symm.trans hj)
    by_cases heq : place = j
    · subst heq
      obtain ⟨i, hi, hset, -⟩ := hplace
      rw [hi, Option.some.injEq] at hi'
      subst hi'
      rw [if_pos rfl] at hop
      exact absurd hop hset
    · exact .inl (hi'.trans (by rw [if_neg heq]))
  · rintro j ⟨i, hi, hkind⟩
    refine ⟨if place = j then i.withOperand k target else i, (σ.getElem?_patch place k target j).trans (by rw [hi]; rfl), ?_⟩
    split <;> exact hkind

theorem patchAll {places : List Nat} (hplaces : ∀ place ∈ places, σ.Jumps place) (target : Nat) :
    σ.Leads G (σ.patchAll target places) := by
  induction places generalizing σ with
  | nil => exact h.refl
  | cons place rest ih =>
    have hfirst := h.patch (hplaces place List.mem_cons_self) 0 target
    exact hfirst.trans (ih hfirst.fits fun p hp => hfirst.jumps p (hplaces p (List.mem_cons_of_mem _ hp)))

/-- A `pop` at the end is replaced by something that does not store to globals. -/
theorem replacePop {before : List Emitted} (tail : List Emitted) {last : Emitted} {b : CodeBlock}
    (hitems : σ.items = before ++ [last]) (hlast : last.opcode = .pop) (hb : b.items.toList = before ++ tail)
    (htail : ∀ i ∈ tail, i.Sized ∧ i.opcode ≠ .setGlobal) : σ.Leads G (σ.withBlock b) := by
  have hkept {place : Nat} {i : Emitted} (hi : before[place]? = some i) : σ.items[place]? = some i := by
    rw [hitems, List.getElem?_append_left (List.getElem?_eq_some_iff.mp hi).1]
    exact hi
  refine h.withBlock ?_ ?_ ?_
  · intro i hi
    rcases List.mem_append.mp (hb ▸ hi) with hi | hi
    · exact h.sized i (hitems ▸ List.mem_append_left _ hi)
    · exact (htail i hi).1
  · intro place i hi hset
    rw [hb, List.getElem?_append] at hi
    split at hi
    · exact .inl (hkept hi)
    · exact absurd hset (htail i (List.mem_of_getElem? hi)).2
  · rintro place ⟨i, hi, hkind⟩
    refine ⟨i, ?_, hkind⟩
    show b.items.toList[place]? = some i
    rw [hitems, List.getElem?_append] at hi
    split at hi
    · next hlt => rw [hb, List.getElem?_append_left hlt, hi]
    · -- the last instruction is a `pop`
      rcases List.mem_singleton.mp (List.mem_of_getElem? hi) with rfl
      exact absurd hlast hkind.2

/-- A branch leaves its value on the stack. -/
theorem dropPop : σ.Leads G (σ.withBlock σ.function.block.dropPop) := by
  cases hends : σ.function.block.endsWith .pop with
  | true =>
    obtain ⟨before, last, hitems, hlast⟩ := ends_of_endsWith hends
    refine h.replacePop [] hitems hlast ?_ nofun
    rw [List.append_nil]
    exact items_dropPop hitems hlast
  | false =>
    rw [CodeBlock.dropPop, dif_neg (by simp [hends])]
    exact h.refl

/-- A function body returns its value. -/
theorem returnPop : σ.Leads G (σ.withBlock σ.function.block.returnPop) := by
  cases hends : σ.function.block.endsWith .pop with
  | true =>
    obtain ⟨before, last, hitems, hlast⟩ := ends_of_endsWith hends
    have hsized := h.sized last (by simp [hitems])
    refine h.replacePop [{ last with opcode := .returnValue }] hitems hlast (items_returnPop hitems hlast) ?_
    intro i hi
    rw [List.mem_singleton.mp hi]
    unfold Emitted.Sized at hsized ⊢
    rw [hlast] at hsized
    exact ⟨hsized, show Opcode.returnValue ≠ Opcode.setGlobal by decide⟩
  | false =>
    rw [CodeBlock.returnPop, dif_neg (by simp [hends])]
    exact h.refl

end Fits

end

end CompileState

end ScriptMachine
