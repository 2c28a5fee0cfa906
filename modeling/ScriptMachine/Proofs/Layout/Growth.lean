import ScriptMachine.Proofs.Layout.Supply

/-!
# Growing blocks

How a step of compilation changes the block at hand: it appends the code of a piece, except that
jumps of the innermost loop still wait for their targets and are listed with that loop.
`Extends` states this, together with what compilation keeps of the symbol table and of the pool, and
with the references of the code.
The lemmas follow the primitive steps:

* `Extends.emit`, `Extends.leap` — an instruction is appended;
* `Extends.trans` — one piece after the other;
* `Extends.patch` — a jump inside the piece gets its target;
* `InLoop` — the same for the code of a loop, until `InLoop.leave` closes it.
-/

namespace ScriptMachine

open Point

/-! ## Waiting jumps -/

/-- An instruction with another operand. -/
def Emitted.withOperand (i : Emitted) (k target : Nat) : Emitted :=
  { i with operands := i.operands.set k target }

theorem Emitted.with_operands_eq {i : Emitted} {xs : List Nat} (h : i.operands = xs) :
    ({ i with operands := xs } : Emitted) = i := by
  subst h
  rfl

namespace Point

/-- An instruction with another operand. -/
def withOperand (p : Point) (k target : Nat) : Point :=
  { p with item := p.item.withOperand k target }

@[simp] theorem point_withOperand (Γ : Context) (o k j t : Nat) (op : Opcode) (xs : List Nat)
    (span : Span) :
    (Γ.point o k op xs span).withOperand j t = Γ.point o k op (xs.set j t) span := rfl

/-- An instruction as it stands while the jumps of loop number `n` wait, those of the kinds `w`. -/
def raw (w : Leap → Bool) (n : Nat) (p : Point) : Emitted :=
  if p.leap.any fun l => w l.1 && l.2 == n then { p.item with operands := [Opcode.noTarget] }
  else p.item

theorem raw_of_leap_none {p : Point} (h : p.leap = none) (w : Leap → Bool) (n : Nat) :
    p.raw w n = p.item := by simp [raw, h]

/-- Places of the jumps of a kind that wait for loop number `n`, the first instruction being at
place `base`. -/
def waiting (l : Leap) (n base : Nat) : List Point → List Nat
  | [] => []
  | p :: ps => (if p.leap = some (l, n) then [base] else []) ++ waiting l n (base + 1) ps

theorem waiting_append (l : Leap) (n base : Nat) (a b : List Point) :
    waiting l n base (a ++ b) = waiting l n base a ++ waiting l n (base + a.length) b := by
  induction a generalizing base with
  | nil => simp [waiting]
  | cons p a ih =>
    simp only [List.cons_append, waiting, ih, List.append_assoc, List.length_cons]
    rw [Nat.add_right_comm, Nat.add_assoc]

theorem waiting_eq_nil {l : Leap} {n : Nat} {code : List Point} (h : ¬ Waits l n code) (base : Nat) :
    waiting l n base code = [] := by
  induction code generalizing base with
  | nil => rfl
  | cons p code ih =>
    have hp : p.leap ≠ some (l, n) := fun hp => h ⟨p, List.mem_cons_self, hp⟩
    have hcode : ¬ Waits l n code := by
      rintro ⟨q, hq, hql⟩
      exact h ⟨q, List.mem_cons_of_mem _ hq, hql⟩
    simp [waiting, hp, ih hcode]

theorem not_waits_of_waiting {l : Leap} {n base : Nat} {code : List Point}
    (h : waiting l n base code = []) : ¬ Waits l n code := by
  induction code generalizing base with
  | nil => rintro ⟨p, hp, -⟩; simp at hp
  | cons p code ih =>
    simp only [waiting, List.append_eq_nil_iff] at h
    rintro ⟨q, hq, hql⟩
    rcases List.mem_cons.mp hq with rfl | hq
    · simp [hql] at h
    · exact ih h.2 ⟨q, hq, hql⟩

/-- An instruction has the target that a loop gives to jumps of a kind. -/
def Aims (loop : Loop) (p : Point) : Leap → Prop
  | .brk => p.item.operands = [loop.breakTo]
  | .cont => loop.waits = true ∧ p.item.operands = [loop.continueTo.getD Opcode.noTarget]

/-- A jump that waited belongs to one of the inner loops, and has the target that its loop gives
it. -/
def Settled (loops : List Loop) (p : Point) : Prop :=
  ∀ l n, p.leap = some (l, n) → loops.length ≤ n ∧
    (n = loops.length → ∃ loop rest, loops = loop :: rest ∧ p.Aims loop l)

theorem settled_of_leap_none {p : Point} (h : p.leap = none) (loops : List Loop) :
    p.Settled loops := by
  intro l n hl
  rw [h] at hl
  cases hl

end Point

/-- Give all listed jumps one target. -/
def placeAll (target : Nat) (places : List Nat) (items : List Emitted) : List Emitted :=
  places.foldl (fun items place => items.modify place (·.withOperand 0 target)) items

theorem modify_append_cons {α : Type} (a : List α) (x : α) (b : List α) (f : α → α) :
    (a ++ x :: b).modify a.length f = a ++ f x :: b := by
  simp [List.modify_eq_set_getElem?]

/-- Placing the waiting jumps of a kind completes them and changes nothing else. -/
theorem placeAll_waiting {l : Leap} {n target : Nat} {code : List Point} {g g' : Point → Emitted}
    (hwait : ∀ p ∈ code, p.leap = some (l, n) → (g p).withOperand 0 target = g' p)
    (hrest : ∀ p ∈ code, p.leap ≠ some (l, n) → g p = g' p) (pre post : List Emitted) :
    placeAll target (waiting l n pre.length code) (pre ++ (code.map g ++ post)) =
      pre ++ (code.map g' ++ post) := by
  induction code generalizing pre with
  | nil => simp [waiting, placeAll]
  | cons p code ih =>
    have step := ih (fun q hq => hwait q (List.mem_cons_of_mem _ hq))
      (fun q hq => hrest q (List.mem_cons_of_mem _ hq)) (pre ++ [g' p])
    simp only [List.length_append, List.length_singleton, List.append_assoc, List.singleton_append]
      at step
    by_cases hp : p.leap = some (l, n)
    · have hgp := hwait p List.mem_cons_self hp
      simp only [waiting, if_pos hp, placeAll, List.foldl_append, List.foldl_cons, List.foldl_nil,
        List.map_cons, List.cons_append, modify_append_cons, hgp]
      exact step
    · have hgp := hrest p List.mem_cons_self hp
      simp only [waiting, if_neg hp, List.nil_append, List.map_cons, List.cons_append, hgp]
      exact step

/-! ## States of compilation -/

/-- The innermost loop after a piece of code that starts at place `base`: the jumps that wait for it,
as loop number `n`, are listed. -/
def LoopContext.listed (n base : Nat) (code : List Point) : List LoopContext → List LoopContext
  | [] => []
  | c :: cs =>
    { c with
      breakJumps := c.breakJumps ++ waiting .brk n base code
      continueJumps := c.continueJumps ++ waiting .cont n base code } :: cs

/-- A piece without waiting jumps lists nothing. -/
theorem LoopContext.listed_eq_self {n : Nat} {code : List Point} (h : ∀ l, ¬ Waits l n code)
    (base : Nat) (cs : List LoopContext) : listed n base code cs = cs := by
  cases cs with
  | nil => rfl
  | cons c cs => simp [listed, waiting_eq_nil (h _)]

theorem LoopContext.listed_append (n base : Nat) (a b : List Point) (cs : List LoopContext) :
    listed n (base + a.length) b (listed n base a cs) = listed n base (a ++ b) cs := by
  cases cs with
  | nil => rfl
  | cons c cs => simp [listed, waiting_append]

namespace CompileState

/-- The instructions of the block at hand. -/
def items (σ : CompileState) : List Emitted := σ.function.block.items.toList

/-- Length of the block at hand in bytes. -/
def size (σ : CompileState) : Nat := σ.function.block.size

/-- What the code at hand can use. -/
def supply (Src : Source) (σ : CompileState) : Supply :=
  ⟨σ.pool, σ.symbols.slots, σ.symbols.current.free.size, Src.builtin⟩

/-- Bindings and functions are in order, and so are the places that are reserved for classes: the
operand of an instruction can name them, and they alone hold null. -/
structure Ok (Src : Source) (σ : CompileState) : Prop where
  symbols : σ.symbols.Ok Src.builtin
  pool : σ.pool.From Src
  classes : ∀ c ∈ σ.classes, c.constant < Pool.capacity ∧ σ.pool.IsClass c.constant
  blanks : ∀ place, σ.pool[place]? = some .null →
    Src.blank place ∨ ∃ c ∈ σ.classes, c.constant = place

/-- The block at hand has no part in it. -/
theorem Ok.congr {Src : Source} {σ σ' : CompileState} (h : σ.Ok Src) (hpool : σ'.pool = σ.pool)
    (hsymbols : σ'.symbols = σ.symbols) (hclasses : σ'.classes = σ.classes) : σ'.Ok Src := by
  obtain ⟨pool, symbols, function, classes, spans⟩ := σ
  obtain ⟨pool', symbols', function', classes', spans'⟩ := σ'
  cases hpool
  cases hsymbols
  cases hclasses
  exact ⟨h.symbols, h.pool, h.classes, h.blanks⟩

/-- The block at hand grew by a piece of code, in which jumps of loop number `n` still wait. -/
structure Writes (w : Leap → Bool) (n : Nat) (σ σ' : CompileState) (code : List Point) : Prop where
  items : σ'.items = σ.items ++ code.map (raw w n)
  size : σ'.size = σ.size + Point.size code

/-- What compiling a piece of code keeps of everything around the block. -/
structure Keeps (Src : Source) (σ σ' : CompileState) (code : List Point) : Prop where
  isFunction : σ'.function.isFunction = σ.function.isFunction
  refers : ∀ p ∈ code, p.Refers (σ'.supply Src)
  symbols : σ.symbols.Grows σ'.symbols
  pool : σ.pool.Grows σ'.pool
  classes : σ'.classes = σ.classes
  ok : σ'.Ok Src

/-- From `σ` to `σ'` the block at hand grew by a piece of code inside the given loops. -/
structure Extends (Src : Source) (loops : List Loop) (σ σ' : CompileState)
    (code : List Point) : Prop extends
    Writes (fun _ => true) loops.length σ σ' code, Keeps Src σ σ' code where
  listed : σ'.function.loops = LoopContext.listed loops.length σ.items.length code σ.function.loops
  settled : ∀ p ∈ code, p.Settled loops

/-- From `σ`, before a loop, to `σ'` the block at hand grew by code of the loop, whose `break` jumps
go to `breakTo` and still wait. -/
structure InLoop (Src : Source) (loops : List Loop) (breakTo : Nat) (σ σ' : CompileState)
    (code : List Point) : Prop extends
    Writes (· == .brk) (loops.length + 1) σ σ' code, Keeps Src σ σ' code where
  listed : ∃ c, σ'.function.loops = c :: σ.function.loops ∧
    c.breakJumps = waiting .brk (loops.length + 1) σ.items.length code
  settled : ∀ p ∈ code, ∀ l n, p.leap = some (l, n) → loops.length < n ∧
    (n = loops.length + 1 → l = .brk → p.item.operands = [breakTo])

/-! ### Primitive steps -/

/-- The state after an instruction was appended. -/
def emit (σ : CompileState) (op : Opcode) (operands : List Nat) (span : Span) : CompileState :=
  { σ with function := { σ.function with block := σ.function.block.emit op operands span } }

@[simp] theorem emit_items (σ : CompileState) (op : Opcode) (xs : List Nat) (span : Span) :
    (σ.emit op xs span).items = σ.items ++ [⟨op, xs, span⟩] := by
  simp [emit, items, CodeBlock.emit]

@[simp] theorem emit_size (σ : CompileState) (op : Opcode) (xs : List Nat) (span : Span) :
    (σ.emit op xs span).size = σ.size + op.length := rfl

@[simp] theorem emit_loops (σ : CompileState) (op : Opcode) (xs : List Nat) (span : Span) :
    (σ.emit op xs span).function.loops = σ.function.loops := rfl

@[simp] theorem emit_symbols (σ : CompileState) (op : Opcode) (xs : List Nat) (span : Span) :
    (σ.emit op xs span).symbols = σ.symbols := rfl

/-- The state after an operand of an earlier instruction was changed. -/
def patch (σ : CompileState) (place k target : Nat) : CompileState :=
  { σ with function := { σ.function with block := σ.function.block.patch place k target } }

@[simp] theorem patch_items (σ : CompileState) (place k target : Nat) :
    (σ.patch place k target).items = σ.items.modify place (·.withOperand k target) := by
  simp only [patch, items, CodeBlock.patch, CodeBlock.revise_items, Array.toList_modify]
  rfl

@[simp] theorem patch_size (σ : CompileState) (place k target : Nat) :
    (σ.patch place k target).size = σ.size := rfl

theorem getElem?_patch (σ : CompileState) (place k target j : Nat) :
    (σ.patch place k target).items[j]? =
      σ.items[j]?.map fun i => if place = j then i.withOperand k target else i := by
  rw [patch_items, List.getElem?_modify]
  rfl

/-- The state after several earlier jumps got one target. -/
def patchAll (σ : CompileState) (target : Nat) : List Nat → CompileState
  | [] => σ
  | place :: rest => (σ.patch place 0 target).patchAll target rest

theorem patchAll_spec (σ : CompileState) (target : Nat) (places : List Nat) :
    (σ.patchAll target places).items = placeAll target places σ.items ∧
      (σ.patchAll target places).size = σ.size ∧
      (σ.patchAll target places).function.loops = σ.function.loops ∧
      (σ.patchAll target places).function.isFunction = σ.function.isFunction ∧
      (σ.patchAll target places).symbols = σ.symbols ∧
      (σ.patchAll target places).pool = σ.pool ∧
      (σ.patchAll target places).classes = σ.classes := by
  induction places generalizing σ with
  | nil => exact ⟨rfl, rfl, rfl, rfl, rfl, rfl, rfl⟩
  | cons place rest ih =>
    obtain ⟨hitems, hrest⟩ := ih (σ.patch place 0 target)
    refine ⟨?_, hrest⟩
    rw [patchAll, hitems, patch_items]
    rfl

/-! ### Appending code -/

section

variable {Src : Source} {w : Leap → Bool} {n : Nat} {σ σ₁ σ₂ : CompileState}
  {a b : List Point} {p : Point}

theorem Writes.length_items (h : Writes w n σ σ₁ a) :
    σ₁.items.length = σ.items.length + a.length := by simp [h.items]

theorem Writes.trans (h : Writes w n σ σ₁ a) (h' : Writes w n σ₁ σ₂ b) :
    Writes w n σ σ₂ (a ++ b) where
  items := by rw [h'.items, h.items, List.map_append, List.append_assoc]
  size := by
    rw [h'.size, h.size, Point.size_append]
    omega

/-- Completing an instruction that waits for no loop. -/
theorem Writes.patch (h : Writes w n σ σ₁ (a ++ p :: b)) (hp : p.leap = none) {place k t : Nat}
    (hplace : place = σ.items.length + a.length) :
    Writes w n σ (σ₁.patch place k t) (a ++ p.withOperand k t :: b) where
  items := by
    have split : σ₁.items =
        (σ.items ++ a.map (raw w n)) ++ p.item :: b.map (raw w n) := by
      rw [h.items, List.map_append, List.map_cons, raw_of_leap_none hp, List.append_assoc]
    have len : place = (σ.items ++ a.map (raw w n)).length := by simp [hplace]
    have done : (p.withOperand k t).raw w n = p.item.withOperand k t :=
      raw_of_leap_none (p := p.withOperand k t) hp w n
    rw [patch_items, split, len, modify_append_cons, List.map_append, List.map_cons, done,
      List.append_assoc]
  size := by
    rw [patch_size, h.size]
    simp [Point.withOperand, Emitted.withOperand]

theorem Keeps.supply {code : List Point} (h : Keeps Src σ σ₁ code) :
    (σ.supply Src).Grows (σ₁.supply Src) :=
  ⟨h.pool, h.symbols.slots, h.symbols.free, fun _ hn => hn⟩

/-- A step that leaves pool, bindings and classes alone keeps everything. -/
theorem Keeps.refl (h : σ.Ok Src) : Keeps Src σ σ [] where
  isFunction := rfl
  refers := by simp
  symbols := .refl _
  pool := .refl _
  classes := rfl
  ok := h

theorem Keeps.trans (h : Keeps Src σ σ₁ a) (h' : Keeps Src σ₁ σ₂ b) : Keeps Src σ σ₂ (a ++ b) where
  isFunction := h'.isFunction.trans h.isFunction
  refers := by
    intro p hp
    rcases List.mem_append.mp hp with hp | hp
    · exact (h.refers p hp).mono h'.supply
    · exact h'.refers p hp
  symbols := h.symbols.trans h'.symbols
  pool := h.pool.trans h'.pool
  classes := h'.classes.trans h.classes
  ok := h'.ok

/-- Only the block at hand is changed. -/
theorem Keeps.congr {code : List Point} (h : Keeps Src σ σ₁ a)
    (hfun : σ₂.function.isFunction = σ₁.function.isFunction) (hsymbols : σ₂.symbols = σ₁.symbols)
    (hpool : σ₂.pool = σ₁.pool) (hclasses : σ₂.classes = σ₁.classes)
    (hcode : ∀ p ∈ code, p.Refers (σ₁.supply Src)) : Keeps Src σ σ₂ code where
  isFunction := hfun.trans h.isFunction
  refers := by
    simp only [CompileState.supply, hsymbols, hpool]
    exact hcode
  symbols := hsymbols ▸ h.symbols
  pool := hpool ▸ h.pool
  classes := hclasses.trans h.classes
  ok := h.ok.congr hpool hsymbols hclasses

/-- A jump refers to nothing but its target. -/
theorem Keeps.patch (h : Keeps Src σ σ₁ (a ++ p :: b)) {place k t : Nat}
    (hp : p.item.opcode.refers = false) :
    Keeps Src σ (σ₁.patch place k t) (a ++ p.withOperand k t :: b) := by
  refine h.congr rfl rfl rfl rfl fun q hq => ?_
  rcases List.mem_append.mp hq with hq | hq
  · exact h.refers q (List.mem_append_left _ hq)
  · rcases List.mem_cons.mp hq with rfl | hq
    · exact Emitted.refers_of_not hp
    · exact h.refers q (List.mem_append_right _ (List.mem_cons_of_mem _ hq))

/-- Placing several jumps changes nothing around the block. -/
theorem Keeps.patchAll (h : Keeps Src σ σ₁ a) (target : Nat) (places : List Nat) :
    Keeps Src σ (σ₁.patchAll target places) a := by
  obtain ⟨-, -, -, hfun, hsym, hpool, hclasses⟩ := patchAll_spec σ₁ target places
  exact h.congr hfun hsym hpool hclasses h.refers

end

namespace Extends

variable {Src : Source} {loops : List Loop} {σ σ₁ σ₂ : CompileState} {a b : List Point}
  {p : Point}

/-- A step that leaves the block alone. -/
theorem env (hf : σ₁.function = σ.function) (hs : σ.symbols.Grows σ₁.symbols)
    (hp : σ.pool.Grows σ₁.pool) (hc : σ₁.classes = σ.classes) (h : σ₁.Ok Src) :
    Extends Src loops σ σ₁ [] where
  items := by simp [CompileState.items, hf]
  size := by simp [CompileState.size, hf]
  listed := by
    rw [hf, LoopContext.listed_eq_self]
    rintro l ⟨p, hp, -⟩
    cases hp
  settled := by simp
  isFunction := by rw [hf]
  refers := by simp
  symbols := hs
  pool := hp
  classes := hc
  ok := h

theorem refl (h : σ.Ok Src) : Extends Src loops σ σ [] := env rfl (.refl _) (.refl _) rfl h

theorem trans (h : Extends Src loops σ σ₁ a) (h' : Extends Src loops σ₁ σ₂ b) :
    Extends Src loops σ σ₂ (a ++ b) where
  toWrites := h.toWrites.trans h'.toWrites
  toKeeps := h.toKeeps.trans h'.toKeeps
  listed := by rw [h'.listed, h.listed, h.length_items, LoopContext.listed_append]
  settled := by
    intro p hp
    rcases List.mem_append.mp hp with hp | hp
    · exact h.settled p hp
    · exact h'.settled p hp

/-- An instruction that is complete at once. -/
theorem emit (h : σ.Ok Src) (hp : p.leap = none) (hrefers : p.Refers (σ.supply Src)) :
    Extends Src loops σ (σ.emit p.item.opcode p.item.operands p.item.span) [p] where
  items := by simp [raw_of_leap_none hp]
  size := by simp
  listed := by
    rw [emit_loops, LoopContext.listed_eq_self]
    rintro l ⟨q, hq, hl⟩
    rw [List.mem_singleton.mp hq, hp] at hl
    cases hl
  settled := by
    intro q hq
    rw [List.mem_singleton.mp hq]
    exact settled_of_leap_none hp loops
  toKeeps := (Keeps.refl h).congr rfl rfl rfl rfl (by simpa using hrefers)

/-- A jump inside the piece gets its target. -/
theorem patch (h : Extends Src loops σ σ₁ (a ++ p :: b)) (hp : p.leap = none)
    {place k t : Nat} (hplace : place = σ.items.length + a.length)
    (hrefers : p.item.opcode.refers = false) :
    Extends Src loops σ (σ₁.patch place k t) (a ++ p.withOperand k t :: b) where
  toWrites := h.toWrites.patch hp hplace
  toKeeps := h.toKeeps.patch hrefers
  listed := by
    have same (l : Leap) (base : Nat) : waiting l loops.length base (a ++ p.withOperand k t :: b)
        = waiting l loops.length base (a ++ p :: b) := by
      simp only [waiting_append, waiting, Point.withOperand]
    show σ₁.function.loops = _
    rw [h.listed]
    cases σ.function.loops with
    | nil => rfl
    | cons c cs => simp only [LoopContext.listed, same]
  settled := by
    intro q hq
    rcases List.mem_append.mp hq with hq | hq
    · exact h.settled q (List.mem_append_left _ hq)
    · rcases List.mem_cons.mp hq with rfl | hq
      · exact settled_of_leap_none (p := p.withOperand k t) hp loops
      · exact h.settled q (List.mem_append_right _ (List.mem_cons_of_mem _ hq))

end Extends

/-! ### The last instruction -/

/-- The state with another block at hand. -/
def withBlock (σ : CompileState) (block : CodeBlock) : CompileState :=
  { σ with function := { σ.function with block } }

section

variable {Src : Source} {loops : List Loop} {σ σ₁ : CompileState} {a : List Point} {p : Point}

theorem endsWith_eq (σ : CompileState) (op : Opcode) :
    σ.function.block.endsWith op = (σ.items.getLast?.map Emitted.opcode == some op) := by
  unfold CodeBlock.endsWith items
  rw [← Array.getLast?_toList]
  cases σ.function.block.items.toList.getLast? <;> simp

theorem ends_of_endsWith {op : Opcode} (hends : σ.function.block.endsWith op = true) :
    ∃ before last, σ.items = before ++ [last] ∧ last.opcode = op := by
  rw [endsWith_eq, beq_iff_eq] at hends
  obtain ⟨last, hlast, hop⟩ := Option.map_eq_some_iff.mp hends
  obtain ⟨before, hitems⟩ := List.getLast?_eq_some_iff.mp hlast
  exact ⟨before, last, hitems, hop⟩

theorem endsWith_of_items {before : List Emitted} {last : Emitted} (hitems : σ.items = before ++ [last]) (op : Opcode) :
    σ.function.block.endsWith op = (last.opcode == op) := by
  rw [endsWith_eq, hitems, List.getLast?_concat]
  rfl

/-- The `pop` at the end is dropped. -/
theorem items_dropPop {before : List Emitted} {last : Emitted} (hitems : σ.items = before ++ [last])
    (hlast : last.opcode = .pop) : (σ.withBlock σ.function.block.dropPop).items = before := by
  have hends : σ.function.block.endsWith .pop = true := (endsWith_of_items hitems .pop).trans (beq_iff_eq.mpr hlast)
  unfold CodeBlock.dropPop
  rw [dif_pos hends]
  show σ.function.block.items.pop.toList = before
  rw [Array.toList_pop, show σ.function.block.items.toList = _ from hitems, List.dropLast_concat]

/-- The `pop` at the end becomes a return. -/
theorem items_returnPop {before : List Emitted} {last : Emitted} (hitems : σ.items = before ++ [last])
    (hlast : last.opcode = .pop) :
    (σ.withBlock σ.function.block.returnPop).items = before ++ [{ last with opcode := .returnValue }] := by
  have hends : σ.function.block.endsWith .pop = true := (endsWith_of_items hitems .pop).trans (beq_iff_eq.mpr hlast)
  have hsize : σ.function.block.items.size = before.length + 1 := by
    have hlength := congrArg List.length hitems
    simpa [items] using hlength
  unfold CodeBlock.returnPop
  rw [dif_pos hends]
  show (σ.function.block.items.modify _ _).toList = _
  rw [Array.toList_modify, hsize, Nat.add_sub_cancel, show σ.function.block.items.toList = _ from hitems]
  exact modify_append_cons before last [] _

/-- Whether code that is not empty ends with an instruction. -/
theorem Extends.endsWith (h : Extends Src loops σ σ₁ (a ++ [p])) (op : Opcode) :
    σ₁.function.block.endsWith op = (p.item.opcode == op) := by
  have hraw : (p.raw (fun _ => true) loops.length).opcode = p.item.opcode := by
    unfold raw
    split <;> rfl
  rw [endsWith_eq, h.items, List.map_append, List.map_singleton, ← List.append_assoc,
    List.getLast?_concat, Option.map_some, hraw]
  rfl

/-- The last instruction of a piece is replaced by others in a row of the same length. -/
theorem Extends.replaceLast (h : Extends Src loops σ σ₁ (a ++ [p])) (hp : p.leap = none)
    {b : List Point} {block : CodeBlock} (hb : ∀ q ∈ b, q.leap = none)
    (hrefers : ∀ q ∈ b, q.item.opcode.refers = false)
    (hitems : block.items.toList = σ₁.items.dropLast ++ b.map Point.item)
    (hsize : block.size + p.item.opcode.length = σ₁.size + Point.size b) :
    Extends Src loops σ (σ₁.withBlock block) (a ++ b) where
  items := by
    have hraw : b.map (raw (fun _ => true) loops.length) = b.map Point.item :=
      List.map_congr_left fun q hq => raw_of_leap_none (hb q hq) _ _
    have hlast : σ₁.items.dropLast = σ.items ++ a.map (raw (fun _ => true) loops.length) := by
      rw [h.items, List.map_append, List.map_singleton, ← List.append_assoc, List.dropLast_concat]
    show block.items.toList = _
    rw [hitems, hlast, List.map_append, hraw, List.append_assoc]
  size := by
    have hold := h.size
    simp only [Point.size_append, Point.size_cons, Point.size_nil] at hold ⊢
    show block.size = _
    omega
  listed := by
    have hwaits (l : Leap) (base : Nat) (c : List Point) (hc : ∀ q ∈ c, q.leap = none) :
        waiting l loops.length base c = [] := by
      refine waiting_eq_nil ?_ base
      rintro ⟨q, hq, hql⟩
      rw [hc q hq] at hql
      cases hql
    have hsame (l : Leap) (base : Nat) :
        waiting l loops.length base (a ++ [p]) = waiting l loops.length base (a ++ b) := by
      rw [waiting_append, waiting_append, hwaits l _ b hb, hwaits l _ [p] (by simpa using hp)]
    show σ₁.function.loops = _
    rw [h.listed]
    cases σ.function.loops with
    | nil => rfl
    | cons c cs => simp only [LoopContext.listed, hsame]
  settled := by
    intro q hq
    rcases List.mem_append.mp hq with hq | hq
    · exact h.settled q (List.mem_append_left _ hq)
    · exact settled_of_leap_none (hb q hq) loops
  toKeeps := by
    refine h.toKeeps.congr rfl rfl rfl rfl fun q hq => ?_
    rcases List.mem_append.mp hq with hq | hq
    · exact h.refers q (List.mem_append_left _ hq)
    · exact Emitted.refers_of_not (hrefers q hq)

/-- Without a `pop` at its end a piece keeps its last value. -/
theorem Extends.dropPop (h : Extends Src loops σ σ₁ (a ++ [p])) (hp : p.leap = none)
    (hpop : p.item.opcode = .pop) :
    Extends Src loops σ (σ₁.withBlock σ₁.function.block.dropPop) a := by
  have hends : σ₁.function.block.endsWith .pop = true := by
    rw [h.endsWith, hpop]
    rfl
  have hsize : 1 ≤ σ₁.size := by
    rw [h.size, Point.size_append, Point.size_cons, hpop]
    have : Opcode.length .pop = 1 := rfl
    omega
  have hblock : σ₁.function.block.dropPop.items.toList = σ₁.items.dropLast ++ [] := by
    simp [CodeBlock.dropPop, hends, CompileState.items]
  have hlength : σ₁.function.block.dropPop.size + p.item.opcode.length = σ₁.size + Point.size [] := by
    rw [hpop, CodeBlock.dropPop, dif_pos hends]
    show σ₁.size - 1 + 1 = σ₁.size
    omega
  simpa using h.replaceLast hp (b := []) (by simp) (by simp) hblock hlength

/-- A `pop` at the end of a piece becomes a return. -/
theorem Extends.returnPop (h : Extends Src loops σ σ₁ (a ++ [p])) (hp : p.leap = none)
    (hpop : p.item.opcode = .pop) :
    Extends Src loops σ (σ₁.withBlock σ₁.function.block.returnPop)
      (a ++ [{ p with item := { p.item with opcode := .returnValue } }]) := by
  have hends : σ₁.function.block.endsWith .pop = true := by
    rw [h.endsWith, hpop]
    rfl
  have hitems : σ₁.items = (σ.items ++ a.map (raw (fun _ => true) loops.length)) ++ [p.item] := by
    rw [h.items, List.map_append, List.map_singleton, raw_of_leap_none hp, List.append_assoc]
  refine h.replaceLast hp (by simpa using hp) (by simp [Opcode.refers]) ?_ ?_
  · rw [CodeBlock.returnPop, dif_pos hends]
    simp only [CodeBlock.revise_items, Array.toList_modify]
    have hlen : σ₁.function.block.items.size - 1 =
        (σ.items ++ a.map (raw (fun _ => true) loops.length)).length := by
      have := congrArg List.length hitems
      simp only [CompileState.items, Array.length_toList, List.length_append, List.length_singleton]
        at this ⊢
      omega
    show σ₁.items.modify _ _ = _
    rw [hitems, hlen, modify_append_cons, List.dropLast_concat]
    rfl
  · rw [CodeBlock.returnPop, dif_pos hends, hpop]
    rfl

end

/-! ### Loops -/

/-- The state with other loops around the code at hand. -/
def withLoops (σ : CompileState) (loops : List LoopContext) : CompileState :=
  { σ with function := { σ.function with loops } }

@[simp] theorem withLoops_size (σ : CompileState) (loops : List LoopContext) :
    (σ.withLoops loops).size = σ.size := rfl

@[simp] theorem withLoops_items (σ : CompileState) (loops : List LoopContext) :
    (σ.withLoops loops).items = σ.items := rfl

/-- A jump that waits for the innermost loop. -/
theorem Extends.leap {Src : Source} {loops rest : List Loop} {loop : Loop} {σ : CompileState}
    {p : Point} {l : Leap} {span : Span} (h : σ.Ok Src) (hloops : loops = loop :: rest)
    (hp : p.leap = some (l, loops.length)) (hop : p.item.opcode = .jump) (hspan : p.item.span = span)
    (htarget : p.Aims loop l) :
    Extends Src loops σ ((σ.emit .jump [Opcode.noTarget] span).withLoops
      (LoopContext.listed loops.length σ.items.length [p] σ.function.loops)) [p] where
  items := by
    have h := emit_items σ .jump [Opcode.noTarget] span
    have hraw : p.raw (fun _ => true) loops.length = ⟨.jump, [Opcode.noTarget], span⟩ := by
      simp [raw, hp, hop, hspan]
    simpa [withLoops, CompileState.items, hraw] using h
  size := by
    have h := emit_size σ .jump [Opcode.noTarget] span
    simpa [withLoops, CompileState.size, hop] using h
  listed := rfl
  settled := by
    intro q hq l' n hl'
    rw [List.mem_singleton.mp hq] at hl' ⊢
    rw [hp] at hl'
    cases hl'
    exact ⟨Nat.le_refl _, fun _ => ⟨loop, rest, hloops, htarget⟩⟩
  toKeeps := by
    refine (Keeps.refl h).congr rfl rfl rfl rfl fun q hq => ?_
    rw [List.mem_singleton.mp hq]
    exact Emitted.refers_of_not (by rw [hop]; rfl)

/-- While only `break` jumps wait, `continue` jumps stand as they are: either there are none, or they
wait in vain. -/
theorem raw_brk_of_settled {loops : List Loop} {loop : Loop} {p : Point}
    (hp : p.Settled (loop :: loops)) (hcont : loop.waits = true → loop.continueTo = none) :
    p.raw (· == .brk) (loops.length + 1) = p.raw (fun _ => true) (loops.length + 1) := by
  rcases hl : p.leap with _ | ⟨l, n⟩
  · simp [raw, hl]
  · cases l with
    | brk => simp [raw, hl]
    | cont =>
      by_cases hn : n = loops.length + 1
      · obtain ⟨-, hset⟩ := hp .cont n hl
        obtain ⟨found, rest, heq, hwaits, hops⟩ := hset hn
        cases heq
        rw [hcont hwaits, Option.getD_none] at hops
        simp [raw, hl, Emitted.with_operands_eq hops]
      · simp [raw, hl, hn]

namespace InLoop

variable {Src : Source} {loops : List Loop} {loop : Loop} {breakTo : Nat}
  {σ σ₁ σ₂ : CompileState} {a b : List Point} {p : Point}

/-- At the start of the loop. -/
theorem enter (h : σ.Ok Src) (target : Option Nat) (depth : Nat) :
    InLoop Src loops breakTo σ (σ.withLoops (⟨target, [], [], depth⟩ :: σ.function.loops)) [] where
  items := by simp [withLoops, CompileState.items]
  size := by simp [withLoops, CompileState.size]
  listed := ⟨_, rfl, rfl⟩
  settled := by simp
  toKeeps := (Keeps.refl h).congr rfl rfl rfl rfl (by simp)

/-- More code of the loop, once no `continue` jump can be placed any more. -/
theorem extend (h : InLoop Src loops breakTo σ σ₁ a) (h' : Extends Src (loop :: loops) σ₁ σ₂ b)
    (hbreak : loop.breakTo = breakTo) (hcont : loop.waits = true → loop.continueTo = none) :
    InLoop Src loops breakTo σ σ₂ (a ++ b) where
  toWrites := h.toWrites.trans
    { items := by
        rw [h'.items]
        congr 1
        refine List.map_congr_left fun p hp => ?_
        exact (raw_brk_of_settled (h'.settled p hp) hcont).symm
      size := h'.size }
  toKeeps := h.toKeeps.trans h'.toKeeps
  listed := by
    obtain ⟨c, hloops, hjumps⟩ := h.listed
    have hlisted := h'.listed
    rw [hloops] at hlisted
    refine ⟨_, hlisted, ?_⟩
    simp [hjumps, waiting_append, h.length_items]
  settled := by
    intro p hp l n hl
    rcases List.mem_append.mp hp with hp | hp
    · exact h.settled p hp l n hl
    · obtain ⟨hn, hset⟩ := h'.settled p hp l n hl
      refine ⟨hn, ?_⟩
      rintro hn' rfl
      obtain ⟨found, rest, heq, hops⟩ := hset hn'
      cases heq
      rw [← hbreak]
      exact hops

/-- The waiting `continue` jumps of a piece are placed. -/
theorem place {depth next : Nat}
    (h : Extends Src (loop :: loops) (σ.withLoops (⟨none, [], [], depth⟩ :: σ.function.loops)) σ₁ a)
    (hbreak : loop.breakTo = breakTo) (hcont : loop.continueTo = some next) {c : LoopContext}
    {cs : List LoopContext} (hcs : σ₁.function.loops = c :: cs) :
    InLoop Src loops breakTo σ
      ((σ₁.withLoops ({ c with continueJumps := [] } :: cs)).patchAll next c.continueJumps) a := by
  have hlisted := h.listed
  rw [hcs] at hlisted
  obtain ⟨hc, hrest⟩ := List.cons.inj hlisted
  have hconts : c.continueJumps = waiting .cont (loops.length + 1) σ.items.length a := by
    rw [hc]
    exact List.nil_append _
  have hbreaks : c.breakJumps = waiting .brk (loops.length + 1) σ.items.length a := by
    rw [hc]
    exact List.nil_append _
  obtain ⟨hitems, hsize, hloops, -⟩ := patchAll_spec
    (σ₁.withLoops ({ c with continueJumps := [] } :: cs)) next c.continueJumps
  -- only the waiting `continue` jumps change, and they get their final target
  have hwait : ∀ p ∈ a, p.leap = some (.cont, loops.length + 1) →
      (p.raw (fun _ => true) (loops.length + 1)).withOperand 0 next =
        p.raw (· == .brk) (loops.length + 1) := by
    intro p hp hl
    obtain ⟨-, hset⟩ := h.settled p hp _ _ hl
    obtain ⟨found, rest, heq, -, hops⟩ := hset rfl
    cases heq
    rw [hcont, Option.getD_some] at hops
    simp [raw, hl, Emitted.withOperand, Emitted.with_operands_eq hops]
  have hrest' : ∀ p ∈ a, p.leap ≠ some (.cont, loops.length + 1) →
      p.raw (fun _ => true) (loops.length + 1) = p.raw (· == .brk) (loops.length + 1) := by
    intro p hp hl
    rcases hleap : p.leap with _ | ⟨l, n⟩
    · simp [raw, hleap]
    · cases l with
      | brk => simp [raw, hleap]
      | cont =>
        have hn : n ≠ loops.length + 1 := fun hn => hl (by rw [hleap, hn])
        simp [raw, hleap, hn]
  have hkeeps : Keeps Src σ (σ₁.withLoops ({ c with continueJumps := [] } :: cs)) a :=
    ⟨h.isFunction, h.refers, h.symbols, h.pool, h.classes, h.ok.congr rfl rfl rfl⟩
  have hplaced := placeAll_waiting hwait hrest' σ.items []
  simp only [List.append_nil] at hplaced
  exact
    { items := by
        rw [hitems, hconts, ← hplaced]
        exact congrArg (placeAll next _) h.items
      size := by
        rw [hsize]
        exact h.size
      listed := by
        refine ⟨{ c with continueJumps := [] }, ?_, hbreaks⟩
        rw [hloops]
        exact congrArg _ hrest
      settled := by
        intro p hp l n hl
        obtain ⟨hn, hset⟩ := h.settled p hp l n hl
        refine ⟨hn, ?_⟩
        rintro hn' rfl
        obtain ⟨found, rest, heq, hops⟩ := hset hn'
        cases heq
        rw [← hbreak]
        exact hops
      toKeeps := hkeeps.patchAll _ _ }

/-- A jump inside the loop gets its target. -/
theorem patch (h : InLoop Src loops breakTo σ σ₁ (a ++ p :: b)) (hp : p.leap = none)
    {place k t : Nat} (hplace : place = σ.items.length + a.length)
    (hrefers : p.item.opcode.refers = false) :
    InLoop Src loops breakTo σ (σ₁.patch place k t) (a ++ p.withOperand k t :: b) where
  toWrites := h.toWrites.patch hp hplace
  toKeeps := h.toKeeps.patch hrefers
  listed := by
    have same : waiting .brk (loops.length + 1) σ.items.length (a ++ p.withOperand k t :: b)
        = waiting .brk (loops.length + 1) σ.items.length (a ++ p :: b) := by
      simp only [waiting_append, waiting, Point.withOperand]
    rw [same]
    exact h.listed
  settled := by
    intro q hq l n hl
    rcases List.mem_append.mp hq with hq | hq
    · exact h.settled q (List.mem_append_left _ hq) l n hl
    · rcases List.mem_cons.mp hq with rfl | hq
      · rw [show (p.withOperand k t).leap = none from hp] at hl
        cases hl
      · exact h.settled q (List.mem_append_right _ (List.mem_cons_of_mem _ hq)) l n hl

/-- At the end of the loop its `break` jumps are placed, and all of its code is complete. -/
theorem leave (h : InLoop Src loops breakTo σ σ₁ a) {c : LoopContext} {cs : List LoopContext}
    (hcs : σ₁.function.loops = c :: cs) :
    Extends Src loops σ ((σ₁.withLoops cs).patchAll breakTo c.breakJumps) a ∧
      c.breakJumps = waiting .brk (loops.length + 1) σ.items.length a := by
  obtain ⟨c', hlisted, hbreaks⟩ := h.listed
  rw [hcs] at hlisted
  obtain ⟨rfl, rfl⟩ := List.cons.inj hlisted
  refine ⟨?_, hbreaks⟩
  obtain ⟨hitems, hsize, hloops, -⟩ :=
    patchAll_spec (σ₁.withLoops σ.function.loops) breakTo c.breakJumps
  -- no jump of this piece waits for a loop further out
  have hraw : ∀ p ∈ a, p.raw (fun _ => true) loops.length = p.item := by
    intro p hp
    rcases hleap : p.leap with _ | ⟨l, n⟩
    · simp [raw, hleap]
    · obtain ⟨hn, -⟩ := h.settled p hp l n hleap
      simp [raw, hleap, (Nat.ne_of_lt hn).symm]
  have hwait : ∀ p ∈ a, p.leap = some (.brk, loops.length + 1) →
      (p.raw (· == .brk) (loops.length + 1)).withOperand 0 breakTo =
        p.raw (fun _ => true) loops.length := by
    intro p hp hl
    obtain ⟨-, hset⟩ := h.settled p hp _ _ hl
    have hops := hset rfl rfl
    rw [hraw p hp]
    simp [raw, hl, Emitted.withOperand, Emitted.with_operands_eq hops]
  have hrest : ∀ p ∈ a, p.leap ≠ some (.brk, loops.length + 1) →
      p.raw (· == .brk) (loops.length + 1) = p.raw (fun _ => true) loops.length := by
    intro p hp hl
    rw [hraw p hp]
    rcases hleap : p.leap with _ | ⟨l, n⟩
    · simp [raw, hleap]
    · cases l with
      | cont => simp [raw, hleap]
      | brk =>
        have hn : n ≠ loops.length + 1 := fun hn => hl (by rw [hleap, hn])
        simp [raw, hleap, hn]
  have hkeeps : Keeps Src σ (σ₁.withLoops σ.function.loops) a :=
    h.toKeeps.congr rfl rfl rfl rfl h.refers
  have hplaced := placeAll_waiting hwait hrest σ.items []
  simp only [List.append_nil] at hplaced
  exact
    { items := by
        rw [hitems, hbreaks, ← hplaced]
        exact congrArg (placeAll breakTo _) h.items
      size := by
        rw [hsize]
        exact h.size
      listed := by
        rw [hloops, LoopContext.listed_eq_self]
        · rfl
        · rintro l ⟨p, hp, hl⟩
          exact Nat.lt_irrefl _ (h.settled p hp l _ hl).1
      settled := by
        intro p hp l n hl
        obtain ⟨hn, -⟩ := h.settled p hp l n hl
        exact ⟨Nat.le_of_lt hn, fun hn' => absurd hn' (Nat.ne_of_lt hn).symm⟩
      toKeeps := hkeeps.patchAll _ _ }

end InLoop

end CompileState

end ScriptMachine
