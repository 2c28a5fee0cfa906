import ScriptMachine.Proofs.Codec
import ScriptMachine.Proofs.Rules.Logic

/-!
# Numbers that fit their operands

A block has one or two bytes for a number, and whatever does not fit is cut when the block is written. Nearly all
numbers have been checked before they are emitted: a jump target when it is set, a constant when it is added, a variable
when it is declared, the number of arguments of a call. Two numbers are never checked. They are the values that a literal
counts, and the cells that a closure is given.

1. **Instructions**: those whose operands fit, and those with a number that nobody checks (`Emitted.Spills`).
2. **Bindings**: variables with slots that operands can address.
3. **States**: all instructions so far fit, or they spill (`CompileState.Checked`).
-/

namespace ScriptMachine

/-! ## Instructions -/

namespace Emitted

/-- As many operands as the opcode has widths, each below the bound that its width sets. -/
def Fits (i : Emitted) : Prop := List.Forall₂ (fun w n => n < 256 ^ w) i.opcode.widths i.operands

/-- An instruction with a number too large for its operand. The closure at hand has `cells` cells. -/
inductive Spills (cells : Nat) : Emitted → Prop where
  /-- The values of a literal. -/
  | literal {op : Opcode} {n : Nat} {span : Span} : op = .array ∨ op = .hash ∨ op = .orderedMap → 256 ^ 2 ≤ n →
    Spills cells ⟨op, [n], span⟩
  /-- The cells of a new closure. -/
  | closure {k n : Nat} {span : Span} : k < 256 ^ 2 → 256 ≤ n → Spills cells ⟨.closure, [k, n], span⟩
  /-- A cell of the closure at hand. -/
  | cell {op : Opcode} {n : Nat} {span : Span} : op = .getFree ∨ op = .setFree ∨ op = .captureFree → 256 ≤ n →
    n < cells → Spills cells ⟨op, [n], span⟩

variable {i : Emitted} {cells : Nat} {op : Opcode} {span : Span}

theorem Fits.sized (h : i.Fits) : i.Sized := (List.Forall₂.length_eq h).symm

theorem Fits.read_eq (h : i.Fits) : i.read = i.operands := zipWith_cut i.opcode.widths_le h

/-- An operand that is cut is another number. -/
theorem cut_lt (w n : Nat) : cut w n < 256 ^ 2 ∧ (w = 1 → cut w n < 256) := by
  unfold cut
  split <;> omega

theorem Spills.sized (h : i.Spills cells) : i.Sized := by
  cases h with
  | literal hop => rcases hop with rfl | rfl | rfl <;> rfl
  | closure => rfl
  | cell hop => rcases hop with rfl | rfl | rfl <;> rfl

theorem Spills.read_ne (h : i.Spills cells) : i.read ≠ i.operands := by
  intro heq
  cases h with
  | @literal op n span hop hn =>
    have hread : read ⟨op, [n], span⟩ = [cut 2 n] := by rcases hop with rfl | rfl | rfl <;> rfl
    have hcut : cut 2 n = n := List.head_eq_of_cons_eq (hread.symm.trans heq)
    have hlt := (cut_lt 2 n).1
    omega
  | @closure k n span hk hn =>
    have hread : read ⟨.closure, [k, n], span⟩ = [cut 2 k, cut 1 n] := rfl
    have hcut : cut 1 n = n := List.head_eq_of_cons_eq (List.tail_eq_of_cons_eq (hread.symm.trans heq))
    have hlt := (cut_lt 1 n).2 rfl
    omega
  | @cell op n span hop hn =>
    have hread : read ⟨op, [n], span⟩ = [cut 1 n] := by rcases hop with rfl | rfl | rfl <;> rfl
    have hcut : cut 1 n = n := List.head_eq_of_cons_eq (hread.symm.trans heq)
    have hlt := (cut_lt 1 n).2 rfl
    omega

/-- A jump does not spill, and nothing without operands. -/
theorem Spills.opcode (h : i.Spills cells) : i.opcode.jumpOperands = [] ∧ i.opcode.widths ≠ [] := by
  cases h with
  | literal hop => rcases hop with rfl | rfl | rfl <;> exact ⟨rfl, List.cons_ne_nil _ _⟩
  | closure => exact ⟨rfl, List.cons_ne_nil _ _⟩
  | cell hop => rcases hop with rfl | rfl | rfl <;> exact ⟨rfl, List.cons_ne_nil _ _⟩

/-- With more cells no more fits. -/
theorem Spills.mono (h : i.Spills cells) {more : Nat} (hle : cells ≤ more) : i.Spills more := by
  cases h with
  | literal hop hn => exact .literal hop hn
  | closure hk hn => exact .closure hk hn
  | cell hop hn hlt => exact .cell hop hn (Nat.lt_of_lt_of_le hlt hle)

theorem fits_plain (hop : op.widths = []) : Fits ⟨op, [], span⟩ := by
  unfold Fits
  rw [show Emitted.opcode ⟨op, [], span⟩ = op from rfl, hop]
  exact .nil

/-- A jump with another target. -/
theorem Fits.withOperand (h : i.Fits) (hop : i.opcode.jumpOperands ≠ []) {target : Nat} (htarget : target < 256 ^ 2)
    (k : Nat) : (i.withOperand k target).Fits := by
  have hwidths : ∀ w ∈ i.opcode.widths, w = 2 := by
    revert hop
    cases i.opcode <;> decide
  have hset {ws ns : List Nat} (hws : ∀ w ∈ ws, w = 2) (hns : List.Forall₂ (fun w n => n < 256 ^ w) ws ns) :
      ∀ k, List.Forall₂ (fun w n => n < 256 ^ w) ws (ns.set k target) := by
    induction hns with
    | nil => exact fun _ => .nil
    | @cons w n ws ns hn hrest ih =>
      intro k
      have hw : w = 2 := hws w List.mem_cons_self
      cases k with
      | zero => exact .cons (hw ▸ htarget) hrest
      | succ k => exact .cons hn (ih (fun v hv => hws v (List.mem_cons_of_mem _ hv)) k)
  exact hset hwidths h k

end Emitted

/-! ## Bindings -/

/-- The slot of a variable is one that operands can address. -/
def Symbol.Small (x : Symbol) : Prop :=
  match x.storage with
  | .global => x.index < CompileM.maxGlobals
  | .local => x.index < CompileM.maxLocals
  | .free | .builtin | .functionSelf => True

theorem Symbol.small_of_ne {x : Symbol} (hglobal : x.storage ≠ .global) (hlocal : x.storage ≠ .local) : x.Small := by
  unfold Symbol.Small
  split
  · exact absurd ‹_› hglobal
  · exact absurd ‹_› hlocal
  all_goals trivial

/-- The variables of a scope, and those that it captures. -/
structure Scope.Small (s : Scope) : Prop where
  bound : ∀ (name : String) (x : Symbol), s.store[name]? = some x → x.Small
  free : ∀ x ∈ s.free, x.Small

namespace Scope

variable {s : Scope}

theorem small_empty : Scope.empty.Small := ⟨by simp [Scope.empty], by simp [Scope.empty]⟩

theorem Small.insert (h : s.Small) {x : Symbol} (hx : x.Small) : (s.insert x).Small := by
  refine ⟨fun name y hy => ?_, h.free⟩
  simp only [Scope.insert, Std.HashMap.getElem?_insert] at hy
  split at hy
  · cases hy
    exact hx
  · exact h.bound name y hy

/-- What is declared must have a small slot itself. -/
theorem Small.define (h : s.Small) {storage : Storage} {name : String} {constant : Bool}
    (hx : (s.define storage name constant).1.Small) : (s.define storage name constant).2.Small := by
  have hmore : Small { s with definitions := s.definitions + 1 } := ⟨h.bound, h.free⟩
  unfold Scope.define at hx ⊢
  dsimp only at hx ⊢
  split
  · next hold =>
    simp only [hold] at hx
    exact h.insert hx
  · next hold =>
    simp only [hold] at hx
    exact hmore.insert hx

theorem Small.defineFree (h : s.Small) {x : Symbol} (hx : x.Small) : (s.defineFree x).2.Small := by
  have hpushed : Small { s with free := s.free.push x } := by
    refine ⟨h.bound, fun y hy => ?_⟩
    rcases Array.mem_push.mp hy with hy | rfl
    · exact h.free y hy
    · exact hx
  exact hpushed.insert (Symbol.small_of_ne nofun nofun)

end Scope

namespace SymbolTable

/-- The variables of all scopes. -/
def Small (t : SymbolTable) : Prop := ∀ s ∈ t.chain, s.Small

variable {t : SymbolTable}

theorem Small.current (h : t.Small) {s : Scope} (hs : s.Small) : Small ⟨s, t.outer⟩ := by
  intro s' hs'
  rcases List.mem_cons.mp hs' with rfl | hs'
  · exact hs
  · exact h s' (List.mem_cons_of_mem _ hs')

theorem Small.define (h : t.Small) {name : String} {constant : Bool} (hx : (t.define name constant).1.Small) :
    (t.define name constant).2.Small :=
  h.current (Scope.Small.define (h t.current List.mem_cons_self) hx)

theorem Small.bind (h : t.Small) {x : Symbol} (hx : x.Small) : (t.bind x).Small :=
  h.current ((h t.current List.mem_cons_self).insert hx)

theorem Small.enclose (h : t.Small) : t.enclose.Small := by
  intro s hs
  rcases List.mem_cons.mp hs with rfl | hs
  · exact Scope.small_empty
  · exact h s hs

theorem Small.leave (h : t.Small) : (t.leave?.getD .empty).Small := by
  obtain ⟨current, outer⟩ := t
  cases outer with
  | nil =>
    intro s hs
    rw [List.mem_singleton.mp hs]
    exact Scope.small_empty
  | cons s rest => exact fun s' hs' => h s' (List.mem_cons_of_mem _ hs')

/-- Capturing a variable on the way outward keeps all slots small. -/
theorem small_resolveFrom (name : String) {scope : Scope} {outer : List Scope} (h : Small ⟨scope, outer⟩) :
    Small ⟨(resolveFrom name scope outer).2.1, (resolveFrom name scope outer).2.2⟩ ∧
      ∀ x, (resolveFrom name scope outer).1 = some x → x.Small := by
  have hscope : scope.Small := h scope List.mem_cons_self
  induction outer generalizing scope with
  | nil =>
    cases hbound : scope.store[name]? with
    | none =>
      rw [resolveFrom_nil hbound]
      refine ⟨h, fun y hy => ?_⟩
      cases hy
    | some x =>
      rw [resolveFrom_of_bound hbound]
      refine ⟨h, fun y hy => ?_⟩
      cases hy
      exact hscope.bound name x hbound
  | cons next rest ih =>
    have houter : Small ⟨next, rest⟩ := fun s hs => h s (List.mem_cons_of_mem _ hs)
    obtain ⟨hsmall, hanswer⟩ := ih houter (houter next List.mem_cons_self)
    have hkept {s : Scope} (hs : s.Small) :
        Small ⟨s, (resolveFrom name next rest).2.1 :: (resolveFrom name next rest).2.2⟩ := by
      intro s' hs'
      rcases List.mem_cons.mp hs' with rfl | hs'
      · exact hs
      · exact hsmall s' hs'
    cases hbound : scope.store[name]? with
    | some x =>
      rw [resolveFrom_of_bound hbound]
      refine ⟨h, fun y hy => ?_⟩
      cases hy
      exact hscope.bound name x hbound
    | none =>
      rcases hr : resolveFrom name next rest with ⟨found, next', rest'⟩
      rw [hr] at hkept hanswer
      unfold resolveFrom
      simp only [hbound, hr]
      cases found with
      | none =>
        refine ⟨hkept hscope, fun y hy => ?_⟩
        cases hy
      | some x =>
        have hx : x.Small := hanswer x rfl
        cases hst : x.storage <;> simp only [hst]
        case global | builtin =>
          refine ⟨hkept hscope, fun y hy => ?_⟩
          cases hy
          exact hx
        all_goals
          refine ⟨hkept (hscope.defineFree hx), fun y hy => ?_⟩
          cases hy
          refine Symbol.small_of_ne ?_ ?_
          · intro hglobal
            cases hglobal
          · intro hlocal
            cases hlocal

theorem Small.resolve (h : t.Small) (name : String) :
    (t.resolve name).2.Small ∧ ∀ x, (t.resolve name).1 = some x → x.Small := small_resolveFrom name h

end SymbolTable

/-! ## States -/

/-- A function body as it was compiled, with instructions that fit or spill. -/
structure CompileM.Body.Checked (b : CompileM.Body) : Prop where
  compiled : ∃ m σ σ', CompileM.Opens m ∧ CompileM.inFunction m σ = .ok b σ'
  items : ∀ i ∈ b.block.items.toList, i.Fits ∨ i.Spills b.free.length

/-- The function of such a body. -/
def Function.Checked (f : Function) : Prop :=
  ∃ (b : CompileM.Body) (name : Option String) (params : Nat), b.Checked ∧ f = b.block.toFunction name b.locals params

namespace CompileState

/-- A jump stands at the place. -/
def Leaps (σ : CompileState) (place : Nat) : Prop := ∃ i, σ.items[place]? = some i ∧ i.opcode.jumpOperands ≠ []

/-- An instruction of the code at hand can address the binding. -/
structure Reaches (σ : CompileState) (x : Symbol) : Prop where
  small : x.Small
  known : σ.symbols.Knows (· < Registry.capacity) x

/-- What is known stays true, once it is true. -/
def Knows (σ : CompileState) : CompileM.Known → Prop
  | .jump place => σ.Leaps place
  | .load x | .store x => σ.Reaches x
  | .place k | .reserved k => k < Pool.capacity
  | .args n => n ≤ CompileM.maxArgs
  | .body b => b.Checked ∧ ∀ x ∈ b.free, σ.Reaches x
  | .method f => f.Checked

/-- All instructions so far fit, or they spill, and so will those that are emitted for bindings and classes. -/
structure Checked (σ : CompileState) : Prop where
  symbols : σ.symbols.Ok (· < Registry.capacity)
  small : σ.symbols.Small
  items : ∀ i ∈ σ.items, i.Fits ∨ i.Spills σ.symbols.current.free.size
  classes : ∀ c ∈ σ.classes, c.constant < Pool.capacity
  functions : ∀ c ∈ σ.pool, ∀ f ∈ c.functions, f.Checked
  waiting : ∀ c ∈ σ.function.loops, ∀ place ∈ c.continueJumps ++ c.breakJumps, σ.Leaps place

/-- From a state to a later one of the same function. -/
structure Advances (σ σ' : CompileState) : Prop where
  checked : σ'.Checked
  symbols : σ.symbols.Grows σ'.symbols
  leaps : ∀ place, σ.Leaps place → σ'.Leaps place

section

variable {σ σ₁ σ₂ : CompileState} {x : Symbol}

theorem Reaches.of_grows (h : σ.Reaches x) (hgrows : σ.symbols.Grows σ₁.symbols) : σ₁.Reaches x :=
  ⟨h.small, h.known.mono hgrows⟩

/-- What an instruction names fits, or it is a cell that spills. -/
theorem Reaches.names (h : σ.Reaches x) :
    match x.storage with
    | .global => x.index < 256 ^ 2
    | .free => x.index < σ.symbols.current.free.size
    | .local | .builtin => x.index < 256
    | .functionSelf => True := by
  obtain ⟨hsmall, hknown⟩ := h
  unfold Symbol.Small at hsmall
  unfold SymbolTable.Knows Symbol.Valid at hknown
  cases hst : x.storage with
  | global => rwa [hst] at hsmall
  | «local» => rwa [hst] at hsmall
  | free => rwa [hst] at hknown
  | builtin => rwa [hst] at hknown
  | functionSelf => trivial

theorem Advances.knows (h : σ.Advances σ₁) : ∀ φ, σ.Knows φ → σ₁.Knows φ
  | .jump place, hφ => h.leaps place hφ
  | .load _, hφ | .store _, hφ => Reaches.of_grows hφ h.symbols
  | .place _, hφ | .reserved _, hφ | .args _, hφ | .method _, hφ => hφ
  | .body _, hφ => ⟨hφ.1, fun x hx => (hφ.2 x hx).of_grows h.symbols⟩

theorem Advances.trans (h : σ.Advances σ₁) (h' : σ₁.Advances σ₂) : σ.Advances σ₂ :=
  ⟨h'.checked, h.symbols.trans h'.symbols, fun place hp => h'.leaps place (h.leaps place hp)⟩

namespace Checked

variable (h : σ.Checked)

include h

theorem refl : σ.Advances σ := ⟨h, .refl _, fun _ hp => hp⟩

/-- Names are declared or resolved. -/
theorem withSymbols {t : SymbolTable} (hok : t.Ok (· < Registry.capacity)) (hsmall : t.Small)
    (hgrows : σ.symbols.Grows t) : σ.Advances { σ with symbols := t } := by
  refine ⟨⟨hok, hsmall, fun i hi => ?_, h.classes, h.functions, h.waiting⟩, hgrows, fun _ hp => hp⟩
  exact (h.items i hi).imp_right fun hspills => hspills.mono hgrows.free

/-- The block at hand is extended or changed. -/
theorem withBlock {b : CodeBlock}
    (hitems : ∀ i ∈ b.items.toList, i ∈ σ.items ∨ i.Fits ∨ i.Spills σ.symbols.current.free.size)
    (hleaps : ∀ place, σ.Leaps place → (σ.withBlock b).Leaps place) : σ.Advances (σ.withBlock b) := by
  refine ⟨⟨h.symbols, h.small, fun i hi => ?_, h.classes, h.functions, fun c hc place hp => ?_⟩, .refl _, hleaps⟩
  · exact (hitems i hi).elim (h.items i) id
  · exact hleaps place (h.waiting c hc place hp)

/-- The pool is extended or changed. -/
theorem withPool {p : Pool} (hp : ∀ c ∈ p, c ∈ σ.pool ∨ ∀ f ∈ c.functions, f.Checked) :
    σ.Advances { σ with pool := p } := by
  refine ⟨⟨h.symbols, h.small, h.items, h.classes, fun c hc => ?_, h.waiting⟩, .refl _, fun _ hp => hp⟩
  exact (hp c hc).elim (h.functions c) id

theorem withLoops (cs : List LoopContext)
    (hcs : ∀ c ∈ cs, ∀ place ∈ c.continueJumps ++ c.breakJumps, σ.Leaps place) : σ.Advances (σ.withLoops cs) :=
  ⟨⟨h.symbols, h.small, h.items, h.classes, h.functions, hcs⟩, .refl _, fun _ hp => hp⟩

theorem withClasses (cs : List ClassContext) (spans : List (String × Span))
    (hcs : ∀ c ∈ cs, c.constant < Pool.capacity) : σ.Advances { σ with classes := cs, classSpans := spans } :=
  ⟨⟨h.symbols, h.small, h.items, hcs, h.functions, h.waiting⟩, .refl _, fun _ hp => hp⟩

theorem emit {op : Opcode} {xs : List Nat} (span : Span)
    (hi : Emitted.Fits ⟨op, xs, span⟩ ∨ Emitted.Spills σ.symbols.current.free.size ⟨op, xs, span⟩) :
    σ.Advances (σ.emit op xs span) := by
  have hitems : (σ.emit op xs span).items = σ.items ++ [⟨op, xs, span⟩] := σ.emit_items op xs span
  refine h.withBlock (b := σ.function.block.emit op xs span) (fun i hmem => ?_) fun place hp => ?_
  · rcases List.mem_append.mp (hitems ▸ hmem : i ∈ σ.items ++ [⟨op, xs, span⟩]) with hmem | hmem
    · exact .inl hmem
    · rw [List.mem_singleton.mp hmem]
      exact .inr hi
  · obtain ⟨i, hget, hop⟩ := hp
    refine ⟨i, ?_, hop⟩
    show (σ.emit op xs span).items[place]? = some i
    rw [hitems, List.getElem?_append_left (List.getElem?_eq_some_iff.mp hget).1]
    exact hget

/-- A jump gets its target. -/
theorem patch {place : Nat} (hplace : σ.Leaps place) (k : Nat) {target : Nat} (htarget : target < Opcode.noTarget) :
    σ.Advances (σ.patch place k target) := by
  have hlt : target < 256 ^ 2 := Nat.lt_trans htarget (by decide)
  refine h.withBlock (b := σ.function.block.patch place k target) (fun i hi => ?_) fun j hj => ?_
  · obtain ⟨j, hj⟩ := List.mem_iff_getElem?.mp hi
    obtain ⟨i', hi', rfl⟩ := Option.map_eq_some_iff.mp ((σ.getElem?_patch place k target j).symm.trans hj)
    split
    · next heq =>
      subst heq
      obtain ⟨i, hget, hop⟩ := hplace
      have hsame : i = i' := Option.some.inj (hget.symm.trans hi')
      subst hsame
      rcases h.items i (List.mem_of_getElem? hget) with hfits | hspills
      · exact .inr (.inl (hfits.withOperand hop hlt k))
      · exact absurd hspills.opcode.1 hop
    · exact .inl (List.mem_of_getElem? hi')
  · obtain ⟨i, hget, hop⟩ := hj
    refine ⟨if place = j then i.withOperand k target else i, (σ.getElem?_patch place k target j).trans ?_, ?_⟩
    · rw [hget]
      rfl
    · split <;> exact hop

theorem patchAll {places : List Nat} (hplaces : ∀ place ∈ places, σ.Leaps place) {target : Nat}
    (htarget : places ≠ [] → target < Opcode.noTarget) : σ.Advances (σ.patchAll target places) := by
  induction places generalizing σ with
  | nil => exact h.refl
  | cons place rest ih =>
    have hlt := htarget (List.cons_ne_nil _ _)
    have hfirst := h.patch (hplaces place List.mem_cons_self) 0 hlt
    exact hfirst.trans (ih hfirst.checked
      (fun p hp => hfirst.leaps p (hplaces p (List.mem_cons_of_mem _ hp))) fun _ => hlt)

/-- A `pop` at the end is replaced by something that fits. -/
theorem replacePop {before : List Emitted} (tail : List Emitted) {last : Emitted} {b : CodeBlock}
    (hitems : σ.items = before ++ [last]) (hlast : last.opcode = .pop) (hb : b.items.toList = before ++ tail)
    (htail : ∀ i ∈ tail, i.Fits) : σ.Advances (σ.withBlock b) := by
  refine h.withBlock (fun i hi => ?_) fun place hp => ?_
  · rcases List.mem_append.mp (hb ▸ hi) with hi | hi
    · rw [hitems]
      exact .inl (List.mem_append_left _ hi)
    · exact .inr (.inl (htail i hi))
  · obtain ⟨i, hget, hop⟩ := hp
    refine ⟨i, ?_, hop⟩
    show b.items.toList[place]? = some i
    rw [hitems, List.getElem?_append] at hget
    split at hget
    · next hlt => rw [hb, List.getElem?_append_left hlt, hget]
    · rcases List.mem_singleton.mp (List.mem_of_getElem? hget) with rfl
      rw [hlast] at hop
      exact absurd rfl hop

/-- A branch leaves its value on the stack. -/
theorem dropPop : σ.Advances (σ.withBlock σ.function.block.dropPop) := by
  cases hends : σ.function.block.endsWith .pop with
  | true =>
    obtain ⟨before, last, hitems, hlast⟩ := ends_of_endsWith hends
    refine h.replacePop [] hitems hlast ?_ nofun
    rw [List.append_nil]
    exact items_dropPop hitems hlast
  | false =>
    rw [CodeBlock.dropPop, dif_neg (by simp [hends])]
    exact h.refl

/-- A function body returns its value. -/
theorem returnPop : σ.Advances (σ.withBlock σ.function.block.returnPop) := by
  cases hends : σ.function.block.endsWith .pop with
  | true =>
    obtain ⟨before, last, hitems, hlast⟩ := ends_of_endsWith hends
    refine h.replacePop [{ last with opcode := .returnValue }] hitems hlast (items_returnPop hitems hlast) ?_
    intro i hi
    have hold : last ∈ σ.items := by
      rw [hitems]
      exact List.mem_concat_self
    rw [List.mem_singleton.mp hi]
    rcases h.items last hold with hfits | hspills
    · have hfits : List.Forall₂ _ last.opcode.widths last.operands := hfits
      rw [hlast] at hfits
      exact hfits
    · exact absurd (congrArg Opcode.widths hlast) hspills.opcode.2
  | false =>
    rw [CodeBlock.returnPop, dif_neg (by simp [hends])]
    exact h.refl

end Checked

end

end CompileState

end ScriptMachine
