import ScriptMachine.Proofs.Layout.Bytes

/-!
# Steps of compilation

What a successful run of each primitive step says about the states before and after it. `bind_ok`
takes a run apart into its steps. `Emits` is the growth by instructions in a row, whatever lies
around them; it serves the steps that load, store and capture bindings.
-/

namespace ScriptMachine

open Point

namespace CompileM

variable {α β : Type} {σ σ' : CompileState} {span : Span} {place k target : Nat} {op : Opcode}
  {xs places : List Nat}

/-! ## Taking runs apart -/

theorem bind_ok {m : CompileM α} {f : α → CompileM β} {b : β} (h : (m >>= f) σ = .ok b σ') :
    ∃ a σ₁, m σ = .ok a σ₁ ∧ f a σ₁ = .ok b σ' := by
  simp only [bind, EStateM.bind] at h
  cases hm : m σ with
  | error e σ₁ =>
    rw [hm] at h
    cases h
  | ok a σ₁ =>
    rw [hm] at h
    exact ⟨a, σ₁, rfl, h⟩

theorem pure_ok {a b : α} (h : (pure a : CompileM α) σ = .ok b σ') : a = b ∧ σ = σ' := by
  cases h
  exact ⟨rfl, rfl⟩

theorem fail_ok {c : CompileCause} {a : α} (h : (fail c span : CompileM α) σ = .ok a σ') :
    False := by cases h

theorem get_ok {a : CompileState} (h : (get : CompileM CompileState) σ = .ok a σ') :
    σ = a ∧ σ = σ' := by
  cases h
  exact ⟨rfl, rfl⟩

theorem modify_ok {f : CompileState → CompileState} {u : PUnit}
    (h : (modify f : CompileM PUnit) σ = .ok u σ') : σ' = f σ := by
  cases h
  rfl

theorem modifyGet_ok {f : CompileState → α × CompileState} {a : α}
    (h : (modifyGet f : CompileM α) σ = .ok a σ') : a = (f σ).1 ∧ σ' = (f σ).2 := by
  cases h
  exact ⟨rfl, rfl⟩

theorem discard_ok {m : CompileM α} (h : discard m σ = .ok () σ') : ∃ a, m σ = .ok a σ' := by
  obtain ⟨a, σ₁, hm, hdone⟩ := bind_ok (f := fun _ => pure ()) h
  obtain ⟨-, rfl⟩ := pure_ok hdone
  exact ⟨a, hm⟩

theorem offset_ok (h : offset σ = .ok k σ') : k = σ.size ∧ σ = σ' := by
  cases h
  exact ⟨rfl, rfl⟩

theorem emit_ok (h : emit op xs span σ = .ok place σ') :
    place = σ.items.length ∧ σ' = σ.emit op xs span := by
  cases h
  exact ⟨rfl, rfl⟩

theorem put_ok (h : put op xs span σ = .ok () σ') : σ' = σ.emit op xs span := by
  cases h
  rfl

theorem checkTarget_ok (h : checkTarget target span σ = .ok () σ') :
    target < Opcode.noTarget ∧ σ = σ' := by
  unfold checkTarget at h
  split at h
  · cases h
  · next hlt =>
    cases h
    exact ⟨Nat.lt_of_not_le hlt, rfl⟩

theorem patch_ok (h : patch place k target span σ = .ok () σ') :
    target < Opcode.noTarget ∧ σ' = σ.patch place k target := by
  obtain ⟨_, σ₁, hcheck, hmod⟩ := bind_ok h
  obtain ⟨hlt, rfl⟩ := checkTarget_ok hcheck
  cases hmod
  exact ⟨hlt, rfl⟩

theorem patchHere_ok (h : patchHere place span σ = .ok () σ') :
    σ.size < Opcode.noTarget ∧ σ' = σ.patch place 0 σ.size := by
  obtain ⟨t, σ₁, hoff, hpatch⟩ := bind_ok h
  obtain ⟨rfl, rfl⟩ := offset_ok hoff
  exact patch_ok hpatch

theorem patchAllHere_ok (h : patchAllHere span places σ = .ok () σ') :
    (places ≠ [] → σ.size < Opcode.noTarget) ∧ σ' = σ.patchAll σ.size places := by
  induction places generalizing σ with
  | nil =>
    cases h
    exact ⟨fun h => absurd rfl h, rfl⟩
  | cons place rest ih =>
    obtain ⟨_, σ₁, hpatch, hrest⟩ := bind_ok h
    obtain ⟨hlt, rfl⟩ := patchHere_ok hpatch
    obtain ⟨-, rfl⟩ := ih hrest
    exact ⟨fun _ => hlt, rfl⟩

theorem emitJumpTo_ok (h : emitJumpTo op target span σ = .ok () σ') :
    target < Opcode.noTarget ∧ σ' = σ.emit op [target] span := by
  obtain ⟨_, σ₁, hcheck, hput⟩ := bind_ok h
  obtain ⟨hlt, rfl⟩ := checkTarget_ok hcheck
  exact ⟨hlt, put_ok hput⟩

theorem addConstant_ok {c : Constant} (h : addConstant c span σ = .ok place σ') :
    σ' = { σ with pool := σ.pool.push c } ∧ place = σ.pool.size ∧ place < Pool.capacity := by
  obtain ⟨_, σ₁, hget, hrest⟩ := bind_ok h
  obtain ⟨rfl, rfl⟩ := get_ok hget
  dsimp only at hrest
  split at hrest
  · exact (fail_ok hrest).elim
  · next hlt =>
    cases hrest
    exact ⟨rfl, rfl, Nat.lt_of_not_le hlt⟩

theorem enterLoop_ok {t : Option Nat} {depth : Nat} (h : enterLoop t depth σ = .ok () σ') :
    σ' = σ.withLoops (⟨t, [], [], depth⟩ :: σ.function.loops) := by
  cases h
  rfl

theorem placeContinues_ok {c : LoopContext} {cs : List LoopContext} (hcs : σ.function.loops = c :: cs)
    (h : placeContinues span σ = .ok () σ') :
    (c.continueJumps ≠ [] → σ.size < Opcode.noTarget) ∧
      σ' = (σ.withLoops ({ c with continueJumps := [] } :: cs)).patchAll σ.size c.continueJumps := by
  obtain ⟨_, σ₁, hget, hrest⟩ := bind_ok h
  obtain ⟨rfl, rfl⟩ := get_ok hget
  simp only [hcs] at hrest
  obtain ⟨_, σ₂, hmod, hpatch⟩ := bind_ok hrest
  have hσ₂ := modify_ok hmod
  simp only [hcs] at hσ₂
  subst hσ₂
  exact patchAllHere_ok hpatch

theorem leaveLoop_ok {c : LoopContext} {cs : List LoopContext} (hcs : σ.function.loops = c :: cs)
    (h : leaveLoop span σ = .ok () σ') :
    (c.breakJumps ≠ [] → σ.size < Opcode.noTarget) ∧
      σ' = (σ.withLoops cs).patchAll σ.size c.breakJumps := by
  obtain ⟨_, σ₁, hget, hrest⟩ := bind_ok h
  obtain ⟨rfl, rfl⟩ := get_ok hget
  simp only [hcs] at hrest
  obtain ⟨_, σ₂, hmod, hpatch⟩ := bind_ok hrest
  have hσ₂ := modify_ok hmod
  subst hσ₂
  exact patchAllHere_ok hpatch

theorem innermostLoop_ok {m : Misplaced} {c : LoopContext}
    (h : innermostLoop m span σ = .ok c σ') : ∃ cs, σ.function.loops = c :: cs ∧ σ = σ' := by
  obtain ⟨_, σ₁, hget, hrest⟩ := bind_ok h
  obtain ⟨rfl, rfl⟩ := get_ok hget
  cases hcs : σ.function.loops with
  | nil =>
    simp only [hcs] at hrest
    exact (fail_ok hrest).elim
  | cons c' cs =>
    simp only [hcs] at hrest
    obtain ⟨rfl, rfl⟩ := pure_ok hrest
    exact ⟨cs, rfl, rfl⟩

/-- A jump is appended and listed with the innermost loop. -/
theorem modifyLoop_ok {f : LoopContext → LoopContext} {c : LoopContext} {cs : List LoopContext}
    (hcs : σ.function.loops = c :: cs) (h : modifyLoop f σ = .ok () σ') :
    σ' = σ.withLoops (f c :: cs) := by
  have hσ' := modify_ok h
  simp only [hcs] at hσ'
  exact hσ'

theorem checkArgs_ok {count : Nat} (h : checkArgs count span σ = .ok () σ') :
    count < 256 ∧ σ = σ' := by
  unfold checkArgs at h
  split at h
  · cases h
  · next hlt =>
    cases h
    exact ⟨by unfold maxArgs at hlt; omega, rfl⟩

end CompileM

/-! ## Instructions in a row -/

theorem Emitted.Balance.append {s t : List Emitted} {k j m : Nat} (hs : Balance s k j)
    (ht : Balance t j m) : Balance (s ++ t) k m := by
  induction s generalizing k with
  | nil =>
    cases hs
    exact ht
  | cons i s ih => exact ⟨hs.1, ih hs.2⟩

theorem Emitted.Enough.mono {t : List Emitted} {k j m : Nat} (h : Enough t j m) (hle : j ≤ k) :
    Enough t k m := by
  induction t generalizing k j with
  | nil => exact Nat.le_trans h hle
  | cons i t ih =>
    refine ⟨Nat.le_trans h.1 hle, ih h.2 ?_⟩
    unfold after
    omega

theorem Emitted.Enough.append {s t : List Emitted} {k j m : Nat} (hs : Enough s k j)
    (ht : Enough t j m) : Enough (s ++ t) k m := by
  induction s generalizing k with
  | nil => exact ht.mono hs
  | cons i s ih => exact ⟨hs.1, ih hs.2⟩

theorem Emitted.Balance.enough {t : List Emitted} {k m : Nat} (h : Balance t k m) : Enough t k m := by
  induction t generalizing k with
  | nil => exact Nat.le_of_eq h.symm
  | cons i t ih => exact ⟨h.1, ih h.2⟩

theorem Straight.nil (c : Prop) (k : Nat) : Straight c k k [] :=
  ⟨by simp, by simp, Nat.le_refl k, fun _ => rfl⟩

theorem Straight.append {c : Prop} {s t : List Emitted} {k j m : Nat} (hs : Straight c k j s)
    (ht : Straight c j m t) : Straight c k m (s ++ t) where
  plain := by
    intro i hi
    exact (List.mem_append.mp hi).elim (hs.plain i) (ht.plain i)
  sized := by
    intro i hi
    exact (List.mem_append.mp hi).elim (hs.sized i) (ht.sized i)
  enough := hs.enough.append ht.enough
  balance := fun hc => (hs.balance hc).append (ht.balance hc)

theorem Tail.append_left {c : Prop} {s t : List Emitted} {k j m : Nat} (hs : Straight c k j s)
    (ht : Tail c j m t) : Tail c k m (s ++ t) :=
  ⟨hs.append ht.toStraight, fun h => ht.nonempty (List.append_eq_nil_iff.mp h).2⟩

/-- One instruction with the given effect, if operands were counted right. -/
theorem Tail.counted {c : Prop} {i : Emitted} {k m : Nat} (hplain : i.opcode.isPlain = true)
    (hsized : i.operands.length = i.opcode.widths.length) (htakes : i.takes ≤ k)
    (henough : m ≤ i.after k) (hbalance : c → i.after k = m) : Tail c k m [i] where
  plain := by simpa using hplain
  sized := by simpa using hsized
  enough := ⟨htakes, henough⟩
  balance := fun hc => ⟨htakes, hbalance hc⟩
  nonempty := by simp

/-- One instruction with the given effect. -/
theorem Tail.single {c : Prop} {i : Emitted} {k m : Nat} (hplain : i.opcode.isPlain = true)
    (hsized : i.operands.length = i.opcode.widths.length) (htakes : i.takes ≤ k)
    (hleaves : k - i.takes + i.leaves = m) : Tail c k m [i] :=
  .counted hplain hsized htakes (Nat.le_of_eq hleaves.symm) fun _ => hleaves

theorem Tail.of_counted {c : Prop} {t : List Emitted} {k m : Nat} (h : Tail True k m t) : Tail c k m t :=
  ⟨⟨h.plain, h.sized, h.enough, fun _ => h.balance trivial⟩, h.nonempty⟩

/-- What instructions in a row set up for the next one. -/
def Setup.afterAll (u : Setup) (is : List Emitted) : Setup := is.foldl Setup.after u

theorem Point.rowFrom_append (u : Setup) (regions : List Region) (o h : Nat) (s t : List Emitted) :
    ∃ o' h', rowFrom u regions o h (s ++ t) =
      rowFrom u regions o h s ++ rowFrom (u.afterAll s) regions o' h' t := by
  induction s generalizing u o h with
  | nil => exact ⟨o, h, rfl⟩
  | cons i s ih =>
    obtain ⟨o', h', heq⟩ := ih (u.after i) (o + i.opcode.length) (i.after h)
    exact ⟨o', h', by rw [List.cons_append, rowFrom, heq]; rfl⟩

namespace CompileState

/-- From `σ` to `σ'` the block at hand grew by instructions in a row, whatever was set up for the
first one. -/
def Emits (Src : Source) (σ σ' : CompileState) (tail : List Emitted) : Prop :=
  ∀ loops u regions o h, Extends Src loops σ σ' (rowFrom u regions o h tail)

namespace Emits

variable {Src : Source} {σ σ₁ σ₂ : CompileState} {s t : List Emitted}

/-- The growth without instructions. -/
theorem nil (h : Emits Src σ σ₁ []) (loops : List Loop) : Extends Src loops σ σ₁ [] :=
  h loops .nothing [] 0 0

theorem ok (h : Emits Src σ σ₁ t) : σ₁.Ok Src := (h [] .nothing [] 0 0).ok

theorem symbols (h : Emits Src σ σ₁ t) : σ.symbols.Grows σ₁.symbols := (h [] .nothing [] 0 0).symbols

theorem pool (h : Emits Src σ σ₁ t) : σ.pool.Grows σ₁.pool := (h [] .nothing [] 0 0).pool

theorem classes (h : Emits Src σ σ₁ t) : σ₁.classes = σ.classes := (h [] .nothing [] 0 0).classes

/-- Without instructions the function at hand stays as it was. -/
theorem function (h : Emits Src σ σ₁ []) : σ₁.function = σ.function := by
  have hext := h.nil []
  have hblock : σ₁.function.block = σ.function.block := by
    have heq : σ₁.items = σ.items := by simpa using hext.items
    exact CodeBlock.eq_of_items (Array.ext' heq)
  have hloops : σ₁.function.loops = σ.function.loops := by
    rw [hext.listed, LoopContext.listed_eq_self]
    rintro l ⟨p, hp, -⟩
    cases hp
  have hfun := hext.isFunction
  obtain ⟨pool, symbols, ⟨block, loops, isFunction⟩, classes, spans⟩ := σ
  obtain ⟨pool', symbols', ⟨block', loops', isFunction'⟩, classes', spans'⟩ := σ₁
  cases hblock
  cases hloops
  cases hfun
  rfl

theorem env (hf : σ₁.function = σ.function) (hs : σ.symbols.Grows σ₁.symbols)
    (hp : σ.pool.Grows σ₁.pool) (hc : σ₁.classes = σ.classes) (h : σ₁.Ok Src) : Emits Src σ σ₁ [] :=
  fun _ _ _ _ _ => Extends.env hf hs hp hc h

theorem refl (h : σ.Ok Src) : Emits Src σ σ [] := fun _ _ _ _ _ => Extends.refl h

/-- Only bindings change. -/
theorem bind {symbols : SymbolTable} (h : σ.Ok Src) (hok : symbols.Ok Src.builtin)
    (hgrow : σ.symbols.Grows symbols) : Emits Src σ { σ with symbols } [] :=
  env rfl hgrow (.refl _) rfl ⟨hok, h.pool, h.classes, h.blanks⟩

theorem put (h : σ.Ok Src) {i : Emitted} (hrefers : ∀ u, i.Refers (σ.supply Src) u) :
    Emits Src σ (σ.emit i.opcode i.operands i.span) [i] :=
  fun _ u regions o height => Extends.emit (p := ⟨o, i, regions, height, u, none⟩) h rfl (hrefers u)

theorem trans (h : Emits Src σ σ₁ s) (h' : Emits Src σ₁ σ₂ t) : Emits Src σ σ₂ (s ++ t) := by
  intro loops u regions o height
  obtain ⟨o', height', heq⟩ := rowFrom_append u regions o height s t
  rw [heq]
  exact (h loops u regions o height).trans (h' loops _ regions o' height')

/-- One more instruction, which may rely on what was set up for it. -/
theorem concat (h : Emits Src σ σ₁ s) {i : Emitted}
    (hrefers : ∀ u : Setup, i.Refers (σ₁.supply Src) (u.afterAll s)) :
    Emits Src σ (σ₁.emit i.opcode i.operands i.span) (s ++ [i]) := by
  intro loops u regions o height
  obtain ⟨o', height', heq⟩ := rowFrom_append u regions o height s [i]
  rw [heq]
  refine (h loops u regions o height).trans ?_
  exact Extends.emit (p := ⟨o', i, regions, height', u.afterAll s, none⟩) h.ok rfl (hrefers u)

/-- A step that leaves the block alone, and instructions after it. -/
theorem after (h : Emits Src σ σ₁ []) (h' : Emits Src σ₁ σ₂ t) : Emits Src σ σ₂ t := h.trans h'

end Emits

end CompileState

/-! ## Names and constants -/

namespace CompileM

open CompileState

variable {Src : Source} {σ σ' : CompileState} {symbol : Symbol} {name : String}
  {constant : Bool} {span : Span}

/-- A constant is added to the pool. -/
theorem addConstant_emits {c : Constant} {place : Nat} (hσ : σ.Ok Src) (hc : c.From Src σ.pool)
    (hnull : c ≠ .null) (h : addConstant c span σ = .ok place σ') :
    Emits Src σ σ' [] ∧ σ'.pool[place]? = some c ∧ place < Pool.capacity := by
  obtain ⟨rfl, rfl, hlt⟩ := addConstant_ok h
  have hgrow := Pool.grows_push σ.pool c
  refine ⟨Emits.env rfl (.refl _) hgrow rfl ⟨hσ.symbols, ?_, ?_, ?_⟩, by simp, hlt⟩
  · intro d hd
    rcases Array.mem_push.mp hd with hd | rfl
    · exact (hσ.pool d hd).mono hgrow
    · exact hc.mono hgrow
  · exact fun k hk => ⟨(hσ.classes k hk).1, (hσ.classes k hk).2.mono hgrow⟩
  · intro place hplace
    rw [Array.getElem?_push] at hplace
    split at hplace
    · exact (hnull (Option.some.inj hplace)).elim
    · exact hσ.blanks place hplace

/-- A binding is declared. -/
theorem define_emits (hσ : σ.Ok Src) (h : define name constant span σ = .ok symbol σ') :
    Emits Src σ σ' [] ∧ σ'.symbols.Knows Src.builtin symbol := by
  obtain ⟨found, σ₁, hmod, hcheck⟩ := bind_ok h
  obtain ⟨hok, hgrow, hknows⟩ := SymbolTable.define_ok hσ.symbols name constant
  obtain ⟨hfound, hσ₁⟩ := modifyGet_ok hmod
  have hdone : found = symbol ∧ σ₁ = σ' := by
    cases hst : found.storage
    all_goals simp only [hst] at hcheck
    case «local» | global =>
      split at hcheck
      · exact (fail_ok hcheck).elim
      · exact pure_ok hcheck
    all_goals exact pure_ok hcheck
  obtain ⟨rfl, rfl⟩ := hdone
  subst hfound hσ₁
  exact ⟨Emits.bind hσ hok hgrow, hknows⟩

/-- A name is resolved, and captured on the way. -/
theorem resolve_emits (hσ : σ.Ok Src) (h : resolve name span σ = .ok symbol σ') :
    Emits Src σ σ' [] ∧ σ'.symbols.Knows Src.builtin symbol := by
  obtain ⟨found, σ₁, hmod, hcheck⟩ := bind_ok h
  obtain ⟨hok, hgrow, hknows⟩ := SymbolTable.resolve_ok hσ.symbols name
  obtain ⟨hfound, hσ₁⟩ := modifyGet_ok hmod
  cases found with
  | none => exact (fail_ok hcheck).elim
  | some s =>
    obtain ⟨rfl, rfl⟩ := pure_ok hcheck
    subst hσ₁
    exact ⟨Emits.bind hσ hok hgrow, hknows s hfound.symm⟩

/-- One instruction, with what it refers to. -/
theorem refer_emits {op : Opcode} {xs : List Nat} (hσ : σ.Ok Src)
    (hrefers : ∀ u, Emitted.Refers (σ.supply Src) u ⟨op, xs, span⟩)
    (h : put op xs span σ = .ok () σ') : Emits Src σ σ' [⟨op, xs, span⟩] := by
  obtain rfl := put_ok h
  exact Emits.put (i := ⟨op, xs, span⟩) hσ hrefers

/-- One instruction that refers to nothing. -/
theorem put_emits {op : Opcode} {xs : List Nat} (hσ : σ.Ok Src) (hop : op.refers = false)
    (h : put op xs span σ = .ok () σ') : Emits Src σ σ' [⟨op, xs, span⟩] :=
  refer_emits hσ (fun _ => Emitted.refers_of_not hop) h

/-- Instructions in a row that leave `m` values where there were `k`. -/
def Makes (Src : Source) (k m : Nat) (σ σ' : CompileState) : Prop :=
  ∃ tail, Tail True k m tail ∧ Emits Src σ σ' tail

/-- One instruction with a given effect on the height, and with what it refers to. -/
theorem refer_makes {op : Opcode} {xs : List Nat} {k m : Nat} (hσ : σ.Ok Src)
    (h : put op xs span σ = .ok () σ')
    (hrefers : ∀ u, Emitted.Refers (σ.supply Src) u ⟨op, xs, span⟩)
    (hplain : op.isPlain = true) (hsized : xs.length = op.widths.length)
    (htakes : Emitted.takes ⟨op, xs, span⟩ ≤ k)
    (hleaves : k - Emitted.takes ⟨op, xs, span⟩ + Emitted.leaves ⟨op, xs, span⟩ = m) :
    Makes Src k m σ σ' :=
  ⟨_, Tail.single hplain hsized htakes hleaves, refer_emits hσ hrefers h⟩

/-- One instruction with a given effect on the height that refers to nothing. -/
theorem put_makes {op : Opcode} {xs : List Nat} {k m : Nat} (hσ : σ.Ok Src)
    (h : put op xs span σ = .ok () σ') (hop : op.refers = false)
    (hplain : op.isPlain = true) (hsized : xs.length = op.widths.length)
    (htakes : Emitted.takes ⟨op, xs, span⟩ ≤ k)
    (hleaves : k - Emitted.takes ⟨op, xs, span⟩ + Emitted.leaves ⟨op, xs, span⟩ = m) :
    Makes Src k m σ σ' :=
  refer_makes hσ h (fun _ => Emitted.refers_of_not hop) hplain hsized htakes hleaves

theorem Makes.trans {k j m : Nat} {σ₁ σ₂ : CompileState} (h : Makes Src k j σ σ₁)
    (h' : Makes Src j m σ₁ σ₂) : Makes Src k m σ σ₂ := by
  obtain ⟨s, hs, hemits⟩ := h
  obtain ⟨t, ht, hemits'⟩ := h'
  exact ⟨s ++ t, ht.append_left hs.toStraight, hemits.trans hemits'⟩

theorem Makes.after {k m : Nat} {σ₁ σ₂ : CompileState} (h : Emits Src σ σ₁ [])
    (h' : Makes Src k m σ₁ σ₂) : Makes Src k m σ σ₂ := by
  obtain ⟨t, ht, hemits⟩ := h'
  exact ⟨t, ht, h.after hemits⟩

/-- An operand that is cut is not larger than the number that was written. -/
theorem operand_lt {op : Opcode} {n k : Nat} (h : n < k) : Emitted.operand ⟨op, [n], span⟩ 0 < k := by
  refine Nat.lt_of_le_of_lt ?_ h
  unfold Emitted.operand Emitted.cut
  split <;> exact Nat.mod_le _ _

/-- The place of a constant fits its operand. -/
theorem operand_place {op : Opcode} {place : Nat} {xs : List Nat} (hop : op.widths.getD 0 0 = 2)
    (h : place < Pool.capacity) : Emitted.operand ⟨op, place :: xs, span⟩ 0 = place := by
  unfold Emitted.operand Emitted.cut
  rw [if_pos hop]
  exact Nat.mod_eq_of_lt h

theorem load_makes (hσ : σ.Ok Src) (hknows : σ.symbols.Knows Src.builtin symbol)
    (h : load symbol span σ = .ok () σ') : Makes Src 0 1 σ σ' := by
  unfold load at h
  unfold SymbolTable.Knows Symbol.Valid at hknows
  cases hst : symbol.storage <;> simp only [hst] at h hknows
  case global | functionSelf => exact put_makes hσ h rfl rfl rfl (Nat.le_refl _) rfl
  case builtin =>
    exact refer_makes hσ h (fun _ => ⟨_, Nat.mod_le _ _, hknows⟩) rfl rfl (Nat.le_refl _) rfl
  case «local» | free =>
    exact refer_makes hσ h (fun _ => operand_lt hknows) rfl rfl (Nat.le_refl _) rfl

/-- A value is stored into a binding by one instruction. -/
theorem store_emits (hσ : σ.Ok Src) (hknows : σ.symbols.Knows Src.builtin symbol)
    (h : store symbol span σ = .ok () σ') :
    ∃ i : Emitted, i.opcode.isSure = true ∧ Tail True 1 1 [i] ∧ Emits Src σ σ' [i] := by
  unfold store at h
  unfold SymbolTable.Knows Symbol.Valid at hknows
  cases hst : symbol.storage <;> simp only [hst] at h hknows
  case «local» | free =>
    refine ⟨_, ?_, ?_, refer_emits hσ (fun _ => ?_) h⟩
    · rfl
    · exact Tail.single rfl rfl (Nat.le_refl _) rfl
    · exact operand_lt hknows
  case global =>
    exact ⟨_, rfl, Tail.single rfl rfl (Nat.le_refl _) rfl,
      refer_emits hσ (fun _ => Emitted.refers_of_not rfl) h⟩
  all_goals exact (fail_ok h).elim

theorem store_makes (hσ : σ.Ok Src) (hknows : σ.symbols.Knows Src.builtin symbol)
    (h : store symbol span σ = .ok () σ') : Makes Src 1 1 σ σ' := by
  obtain ⟨i, -, htail, hemits⟩ := store_emits hσ hknows h
  exact ⟨[i], htail, hemits⟩

theorem Makes.ok {k m : Nat} (h : Makes Src k m σ σ') : σ'.Ok Src := by
  obtain ⟨t, -, hemits⟩ := h
  exact hemits.ok

/-- The value on top of the stack is dropped. -/
theorem pop_binds (hσ : σ.Ok Src) (h : put .pop [] span σ = .ok () σ') :
    ∃ tail, Binding tail ∧ Emits Src σ σ' tail :=
  ⟨_, ⟨Tail.single rfl rfl (Nat.le_refl _) rfl, List.forall_mem_singleton.mpr rfl⟩,
    refer_emits hσ (fun _ => Emitted.refers_of_not rfl) h⟩

/-- A value is stored into a binding and dropped. -/
theorem storePop_binds (hσ : σ.Ok Src) (hknows : σ.symbols.Knows Src.builtin symbol) {span' : Span}
    (h : (store symbol span >>= fun _ => put .pop [] span') σ = .ok () σ') :
    ∃ tail, Binding tail ∧ Emits Src σ σ' tail := by
  obtain ⟨_, σ₁, hstore, hput⟩ := bind_ok h
  obtain ⟨i, hi, htail, hemits⟩ := store_emits hσ hknows hstore
  obtain ⟨tail, hbinding, hemits'⟩ := pop_binds hemits.ok hput
  exact ⟨_, ⟨hbinding.toTail.append_left htail.toStraight, List.forall_mem_append.mpr
    ⟨List.forall_mem_singleton.mpr hi, hbinding.sure⟩⟩, hemits.trans hemits'⟩

/-- A value is bound to a new variable and dropped. -/
theorem bindPop_binds (hσ : σ.Ok Src) {span' span'' : Span}
    (h : (define name constant span >>= fun symbol => store symbol span' >>= fun _ =>
      put .pop [] span'') σ = .ok () σ') : ∃ tail, Binding tail ∧ Emits Src σ σ' tail := by
  obtain ⟨symbol, σ₁, hdefine, hrest⟩ := bind_ok h
  obtain ⟨hemits, hknows⟩ := define_emits hσ hdefine
  obtain ⟨tail, hbinding, hemits'⟩ := storePop_binds hemits.ok hknows hrest
  exact ⟨tail, hbinding, hemits.trans hemits'⟩

theorem storePop_makes (hσ : σ.Ok Src) (hknows : σ.symbols.Knows Src.builtin symbol) {span' : Span}
    (h : (store symbol span >>= fun _ => put .pop [] span') σ = .ok () σ') :
    Makes Src 1 0 σ σ' := by
  obtain ⟨tail, hbinding, hemits⟩ := storePop_binds hσ hknows h
  exact ⟨tail, hbinding.toTail, hemits⟩

theorem bindPop_makes (hσ : σ.Ok Src) {span' span'' : Span}
    (h : (define name constant span >>= fun symbol => store symbol span' >>= fun _ =>
      put .pop [] span'') σ = .ok () σ') : Makes Src 1 0 σ σ' := by
  obtain ⟨tail, hbinding, hemits⟩ := bindPop_binds hσ h
  exact ⟨tail, hbinding.toTail, hemits⟩

theorem bindThrown_binds {param : Option Ident} (hσ : σ.Ok Src)
    (h : bindThrown param span σ = .ok () σ') : ∃ tail, Binding tail ∧ Emits Src σ σ' tail := by
  unfold bindThrown at h
  cases param with
  | none => exact pop_binds hσ h
  | some p => exact bindPop_binds hσ h

/-- A place of the pool can be loaded. -/
theorem constant_refers {place : Nat} {c : Constant} (h : σ.pool[place]? = some c) (u : Setup) :
    Emitted.Refers (σ.supply Src) u ⟨.constant, [place], span⟩ :=
  operand_lt (Array.getElem?_eq_some_iff.mp h).1

theorem emitConstant_makes {c : Constant} (hσ : σ.Ok Src) (hc : c.From Src σ.pool) (hnull : c ≠ .null)
    (h : emitConstant c span σ = .ok () σ') : Makes Src 0 1 σ σ' := by
  obtain ⟨place, σ₁, hadd, hput⟩ := bind_ok h
  obtain ⟨hemits, hplace, -⟩ := addConstant_emits hσ hc hnull hadd
  exact (refer_makes hemits.ok hput (constant_refers hplace) rfl rfl (Nat.le_refl _) rfl).after hemits

theorem literal_makes {l : Literal} (hσ : σ.Ok Src) (h : literal l span σ = .ok () σ') :
    Makes Src 0 1 σ σ' := by
  unfold literal at h
  cases l with
  | int n => exact emitConstant_makes hσ (by trivial) (by simp) h
  | float x => exact emitConstant_makes hσ (by trivial) (by simp) h
  | str s => exact emitConstant_makes hσ (by trivial) (by simp) h
  | bool b => cases b <;> exact put_makes hσ h rfl rfl rfl (Nat.le_refl _) rfl
  | null => exact put_makes hσ h rfl rfl rfl (Nat.le_refl _) rfl

/-- The value of a name. -/
theorem loadName_makes (hσ : σ.Ok Src) {span' : Span}
    (h : (resolve name span >>= fun symbol => load symbol span') σ = .ok () σ') :
    Makes Src 0 1 σ σ' := by
  obtain ⟨symbol, σ₁, hresolve, hload⟩ := bind_ok h
  obtain ⟨hemits, hknows⟩ := resolve_emits hσ hresolve
  exact (load_makes hemits.ok hknows hload).after hemits

theorem this_makes (hσ : σ.Ok Src) (h : this span σ = .ok () σ') : Makes Src 0 1 σ σ' := by
  obtain ⟨s, σ₁, hget, hrest⟩ := bind_ok h
  obtain ⟨rfl, rfl⟩ := get_ok hget
  split at hrest
  · exact (fail_ok hrest).elim
  · exact loadName_makes hσ hrest

theorem superClass_ok {c : ClassContext} (h : superClass span σ = .ok c σ') :
    c ∈ σ.classes ∧ σ = σ' := by
  obtain ⟨s, σ₁, hget, hrest⟩ := bind_ok h
  obtain ⟨rfl, rfl⟩ := get_ok hget
  cases hc : σ.classes with
  | nil =>
    simp only [hc] at hrest
    exact (fail_ok hrest).elim
  | cons ctx rest =>
    simp only [hc] at hrest
    split at hrest
    · obtain ⟨rfl, rfl⟩ := pure_ok hrest
      exact ⟨by simp, rfl⟩
    · exact (fail_ok hrest).elim

theorem unaryOpcode_ok {op : String} {opcode : Opcode} (h : unaryOpcode op span σ = .ok opcode σ') :
    (opcode = .negate ∨ opcode = .not) ∧ σ = σ' := by
  unfold unaryOpcode at h
  split at h
  · obtain ⟨rfl, rfl⟩ := pure_ok h
    exact ⟨.inl rfl, rfl⟩
  · obtain ⟨rfl, rfl⟩ := pure_ok h
    exact ⟨.inr rfl, rfl⟩
  · exact (fail_ok h).elim

/-! ## Functions and classes -/

/-- The cell of one binding is queued. -/
theorem capture_emits (hσ : σ.Ok Src) (hknows : σ.symbols.Knows Src.builtin symbol)
    (hcaptured : symbol.IsCaptured) (h : capture symbol span σ = .ok () σ') :
    ∃ i, Straight True 0 0 [i] ∧ Emits Src σ σ' [i] ∧ ∀ u : Setup, (u.after i).queued = u.queued + 1 := by
  unfold capture at h
  unfold SymbolTable.Knows Symbol.Valid at hknows
  cases hst : symbol.storage <;> simp only [hst] at h hknows
  case global => exact (hcaptured.1 hst).elim
  case builtin => exact (hcaptured.2 hst).elim
  case functionSelf =>
    refine ⟨_, Tail.toStraight ?_, put_emits hσ rfl h, fun _ => rfl⟩
    exact Tail.single rfl rfl (Nat.le_refl _) rfl
  all_goals
    refine ⟨⟨_, [symbol.index], span⟩, Tail.toStraight ?_, refer_emits hσ (fun _ => ?_) h, fun _ => rfl⟩
    · exact Tail.single rfl rfl (Nat.le_refl _) rfl
    · exact operand_lt hknows

/-- The cells of all bindings are queued. -/
theorem captureAll_emits {symbols : List Symbol} (hσ : σ.Ok Src)
    (hsymbols : ∀ s ∈ symbols, σ.symbols.Knows Src.builtin s ∧ s.IsCaptured)
    (h : captureAll span symbols σ = .ok () σ') :
    ∃ tail, Straight True 0 0 tail ∧ Emits Src σ σ' tail ∧
      ∀ u : Setup, (u.afterAll tail).queued = u.queued + symbols.length := by
  induction symbols generalizing σ with
  | nil =>
    obtain ⟨-, rfl⟩ := pure_ok h
    exact ⟨[], .nil _ _, Emits.refl hσ, fun _ => rfl⟩
  | cons s rest ih =>
    obtain ⟨_, σ₁, hone, hrest⟩ := bind_ok h
    obtain ⟨hknows, hcaptured⟩ := hsymbols s List.mem_cons_self
    obtain ⟨i, hi, he₁, hqueued₁⟩ := capture_emits hσ hknows hcaptured hone
    obtain ⟨t, ht, he₂, hqueued₂⟩ := ih he₁.ok (fun r hr =>
      ⟨(hsymbols r (List.mem_cons_of_mem _ hr)).1.mono he₁.symbols,
        (hsymbols r (List.mem_cons_of_mem _ hr)).2⟩) hrest
    refine ⟨[i] ++ t, hi.append ht, he₁.trans he₂, fun u => ?_⟩
    show ((u.after i).afterAll t).queued = _
    rw [hqueued₂, hqueued₁, List.length_cons]
    omega

/-- Capturing the free variables of a function and making its closure. -/
theorem makeClosure_makes {f : FunctionLiteral} {name : Option String} {body : Body} (hσ : σ.Ok Src)
    (hbody : (body.block.toFunction name body.locals f.params.length).From Src σ.pool body.free.length)
    (hfree : ∀ s ∈ body.free, σ.symbols.Knows Src.builtin s ∧ s.IsCaptured)
    (h : makeClosure f name body σ = .ok () σ') : Makes Src 0 1 σ σ' := by
  obtain ⟨_, σ₁, hcapture, hrest⟩ := bind_ok h
  obtain ⟨place, σ₂, hadd, hput⟩ := bind_ok hrest
  obtain ⟨s, hs, hemits, hqueued⟩ := captureAll_emits hσ hfree hcapture
  obtain ⟨hconst, hplace, hlt⟩ :=
    addConstant_emits (c := .function _) hemits.ok ⟨_, hbody.mono hemits.pool⟩ (by simp) hadd
  obtain rfl := put_ok hput
  have hclosure : Tail True 0 1 [⟨.closure, [place, body.free.length], f.span⟩] :=
    Tail.single rfl rfl (Nat.le_refl _) rfl
  refine ⟨s ++ [_], hclosure.append_left hs, ?_⟩
  rw [← List.append_nil s, List.append_assoc, List.nil_append]
  refine (List.append_nil s ▸ hemits.trans hconst).concat
    (i := ⟨.closure, [place, body.free.length], f.span⟩) fun u => ?_
  refine ⟨_, body.free.length, ?_, hbody.frees, ?_, fun h256 => Nat.mod_eq_of_lt h256⟩
  · rw [operand_place rfl hlt]
    exact hplace
  · rw [hqueued]
    exact Nat.le_add_left _ _

theorem defineParams_emits {params : List Ident} (hσ : σ.Ok Src)
    (h : defineParams params σ = .ok () σ') : Emits Src σ σ' [] := by
  induction params generalizing σ with
  | nil =>
    obtain ⟨-, rfl⟩ := pure_ok h
    exact Emits.refl hσ
  | cons p ps ih =>
    obtain ⟨_, σ₁, hone, hrest⟩ := bind_ok h
    obtain ⟨symbol, hdefine⟩ := discard_ok hone
    have hemits := (define_emits hσ hdefine).1
    exact hemits.after (ih hemits.ok hrest)

/-- A function body is compiled from a fresh block in a scope of its own. -/
theorem inFunction_ok {m : CompileM Unit} {body : Body} (h : inFunction m σ = .ok body σ') :
    ∃ σ₁, m { σ with function := .body, symbols := σ.symbols.enclose } = .ok () σ₁ ∧
      body.block = σ₁.function.block ∧ body.locals = σ₁.symbols.current.definitions ∧
      body.free = σ₁.symbols.current.free.toList ∧
      σ' = { σ₁ with function := σ.function, symbols := (σ₁.symbols.leave?).getD .empty } := by
  obtain ⟨outside, σ₂, hget, h₁⟩ := bind_ok h
  obtain ⟨rfl, rfl⟩ := get_ok hget
  obtain ⟨_, σ₃, henter, h₂⟩ := bind_ok h₁
  have hσ₃ := modify_ok henter
  subst hσ₃
  obtain ⟨_, σ₁, hbody, h₃⟩ := bind_ok h₂
  obtain ⟨inner, σ₄, hget', h₄⟩ := bind_ok h₃
  obtain ⟨rfl, rfl⟩ := get_ok hget'
  obtain ⟨_, σ₅, hleave, h₅⟩ := bind_ok h₄
  have hσ₅ := modify_ok hleave
  subst hσ₅
  obtain ⟨rfl, rfl⟩ := pure_ok h₅
  exact ⟨_, hbody, rfl, rfl, rfl, rfl⟩

theorem inside_ok (hσ : σ.Ok Src) :
    CompileState.Ok Src { σ with function := .body, symbols := σ.symbols.enclose } :=
  ⟨SymbolTable.enclose_ok hσ.symbols, hσ.pool, hσ.classes, hσ.blanks⟩

/-- Around a function body the block at hand stays as it was, and there is everything that the body
captures. -/
theorem inFunction_emits {m : CompileM Unit} {body : Body} (h : inFunction m σ = .ok body σ')
    (hinner : ∀ σ₁, m { σ with function := .body, symbols := σ.symbols.enclose } = .ok () σ₁ →
      ∃ code, CompileState.Keeps Src { σ with function := .body, symbols := σ.symbols.enclose } σ₁ code) :
    Emits Src σ σ' [] ∧ ∀ s ∈ body.free, σ'.symbols.Knows Src.builtin s ∧ s.IsCaptured := by
  obtain ⟨σ₁, hrun, -, -, hfree, rfl⟩ := inFunction_ok h
  obtain ⟨code, hkeeps⟩ := hinner σ₁ hrun
  obtain ⟨hsymbols, hgrows, hsupplies⟩ := SymbolTable.leave_ok hkeeps.ok.symbols hkeeps.symbols
  refine ⟨Emits.env rfl hgrows hkeeps.pool hkeeps.classes
    ⟨hsymbols, hkeeps.ok.pool, hkeeps.ok.classes, hkeeps.ok.blanks⟩, fun s hs => ?_⟩
  rw [hfree, Array.mem_toList_iff] at hs
  exact hsupplies s hs

/-- A class is declared: its name is bound and its place in the pool is reserved. -/
theorem beginClass_ok {id : Ident} {hasParent : Bool} {place : Nat} (hσ : σ.Ok Src)
    (h : beginClass id hasParent span σ = .ok (symbol, place) σ') :
    σ'.Ok Src ∧ σ'.function = σ.function ∧ σ.symbols.Grows σ'.symbols ∧ σ.pool.Grows σ'.pool ∧
      σ'.classes = ⟨place, hasParent⟩ :: σ.classes ∧ σ'.symbols.Knows Src.builtin symbol := by
  obtain ⟨s, σ₁, hdefine, h₁⟩ := bind_ok h
  obtain ⟨p, σ₂, hadd, h₂⟩ := bind_ok h₁
  obtain ⟨_, σ₃, hmod, h₃⟩ := bind_ok h₂
  obtain rfl := modify_ok hmod
  obtain ⟨hpair, rfl⟩ := pure_ok h₃
  obtain ⟨rfl, rfl⟩ := Prod.mk.inj hpair
  obtain ⟨hemits, hknows⟩ := define_emits hσ hdefine
  obtain ⟨rfl, rfl, hlt⟩ := addConstant_ok hadd
  have hok := hemits.ok
  have hgrow := Pool.grows_push σ₁.pool .null
  have hclasses := hemits.classes
  refine ⟨⟨hok.symbols, ?_, ?_, ?_⟩, hemits.function, hemits.symbols, hemits.pool.trans hgrow,
    congrArg _ hclasses, hknows⟩
  · intro d hd
    rcases Array.mem_push.mp hd with hd | rfl
    · exact (hok.pool d hd).mono hgrow
    · trivial
  · intro c hc
    rcases List.mem_cons.mp hc with rfl | hc
    · exact ⟨hlt, .inl (by simp)⟩
    · exact ⟨(hok.classes c hc).1, (hok.classes c hc).2.mono hgrow⟩
  · intro place hplace
    rw [Array.getElem?_push] at hplace
    split at hplace
    · next heq => exact .inr ⟨_, List.mem_cons_self, heq.symm⟩
    · rcases hok.blanks place hplace with hblank | ⟨c, hc, hcp⟩
      · exact .inl hblank
      · exact .inr ⟨c, List.mem_cons_of_mem _ hc, hcp⟩

/-- The place of a class is filled once its members are compiled, and its name is bound to it. -/
theorem classDecl_makes {σ₁ σ₂ : CompileState} {id : Ident} {hasParent : Bool} {place : Nat}
    {c : ClassConstant} (hσ : σ.Ok Src)
    (hbegin : beginClass id hasParent span σ = .ok (symbol, place) σ₁) (hmembers : Emits Src σ₁ σ₂ [])
    (hc : ∀ m ∈ c.methods, m.2.From Src σ₂.pool 0)
    (hend : endClass symbol place c span σ₂ = .ok () σ') : Makes Src 0 0 σ σ' := by
  obtain ⟨hok₁, hfun, hsymbols, hpool, hclasses, hknows⟩ := beginClass_ok hσ hbegin
  have hok₂ := hmembers.ok
  have hopen : σ₂.classes = ⟨place, hasParent⟩ :: σ.classes := hmembers.classes.trans hclasses
  obtain ⟨hlt, hplace⟩ : place < Pool.capacity ∧ σ₂.pool.IsClass place :=
    hok₂.classes ⟨place, hasParent⟩ (by simp [hopen])
  have hgrow := Pool.grows_setClass hplace c
  obtain ⟨_, σ₃, hmod, h₁⟩ := bind_ok hend
  obtain rfl := modify_ok hmod
  obtain ⟨_, σ₄, hput, h₂⟩ := bind_ok h₁
  have hfill : Emits Src σ
      { σ₂ with classes := σ₂.classes.tail, pool := σ₂.pool.setIfInBounds place (.cls c) } [] := by
    refine Emits.env (hmembers.function.trans hfun) (hsymbols.trans hmembers.symbols)
      ((hpool.trans hmembers.pool).trans hgrow) (by simp [hopen]) ⟨hok₂.symbols, ?_, ?_, ?_⟩
    · intro d hd
      rcases Array.mem_or_eq_of_mem_setIfInBounds hd with hd | rfl
      · exact (hok₂.pool d hd).mono hgrow
      · exact fun m hm => (hc m hm).mono hgrow
    · intro k hk
      have hk' := hok₂.classes k (List.mem_of_mem_tail hk)
      exact ⟨hk'.1, hk'.2.mono hgrow⟩
    · -- whatever is left of the reserved places belongs to the classes around
      intro i hi
      have hne : place ≠ i := by
        rintro rfl
        obtain ⟨hsize, -⟩ := Array.getElem?_eq_some_iff.mp hi
        rw [Array.size_setIfInBounds] at hsize
        rw [Array.getElem?_setIfInBounds_self_of_lt hsize] at hi
        cases hi
      rw [Array.getElem?_setIfInBounds_ne hne] at hi
      rcases hok₂.blanks i hi with hblank | ⟨k, hk, hki⟩
      · exact .inl hblank
      · rw [hopen] at hk
        rcases List.mem_cons.mp hk with rfl | hk
        · exact (hne hki).elim
        · exact .inr ⟨k, by simpa [hopen] using hk, hki⟩
  have hthere : ∃ d, (σ₂.pool.setIfInBounds place (.cls c))[place]? = some d := by
    rcases hplace.mono hgrow with h | ⟨k, h⟩
    · exact ⟨_, h⟩
    · exact ⟨_, h⟩
  obtain ⟨d, hd⟩ := hthere
  have hvalue : Makes Src 0 1 σ σ₄ :=
    (refer_makes hfill.ok hput (constant_refers hd) rfl rfl (Nat.le_refl _) rfl).after hfill
  obtain rfl := put_ok hput
  have hknown : σ₂.symbols.Knows Src.builtin symbol := hknows.mono hmembers.symbols
  exact hvalue.trans (storePop_makes hvalue.ok hknown h₂)

end CompileM

end ScriptMachine
