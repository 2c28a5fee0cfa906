import ScriptMachine.Proofs.Expression.Run
import ScriptMachine.Proofs.Layout.Lowering
import ScriptMachine.Proofs.Refusal

/-!
# What compilation emits for an expression

`Realizes` says of a step of compilation that the code it appends carries out a computation of the
reference evaluator, wherever that code stands. It has a rule for each way in which compilation puts code
together: one piece after the other, a piece on top of pending values, and the jumps of `&&`, `||` and of
the two branches, whose targets are filled in afterwards.
-/

namespace ScriptMachine

open CompileM

/-! ## Names of globals -/

/-- The slot of a global, as seen from the code at hand. -/
def SymbolTable.globalSlot? (t : SymbolTable) (name : String) : Option Nat :=
  match (t.resolve name).1 with
  | some symbol => if symbol.storage = .global then some symbol.index else none
  | none => none

/-- Finding a global captures nothing. -/
theorem SymbolTable.resolveFrom_global {name : String} {scope : Scope} {outer : List Scope}
    {symbol : Symbol} (h : (resolveFrom name scope outer).1 = some symbol)
    (hglobal : symbol.storage = .global) :
    (resolveFrom name scope outer).2 = (scope, outer) := by
  induction outer generalizing scope with
  | nil =>
    unfold resolveFrom
    cases scope.store[name]? <;> rfl
  | cons next rest ih =>
    unfold resolveFrom at h ⊢
    cases hfound : scope.store[name]? with
    | some _ => rfl
    | none =>
      simp only [hfound] at h ⊢
      cases hinner : resolveFrom name next rest with
      | mk found scopes =>
        obtain ⟨next', rest'⟩ := scopes
        have hsame := @ih next
        rw [hinner] at h hsame
        cases found with
        | none => cases h
        | some inner =>
          -- what is not global further out is captured, and so free here
          cases hstorage : inner.storage with
          | global | builtin =>
            simp only [hstorage] at h ⊢
            cases h
            cases hsame rfl
            rfl
          | «local» | free | functionSelf =>
            simp only [hstorage] at h
            cases h
            cases hglobal

theorem SymbolTable.resolve_of_lookup? {t : SymbolTable} {name : String} {x : Symbol}
    (h : t.lookup? name = some x) : t.resolve name = (some x, t) := by
  have hfrom : resolveFrom name t.current t.outer = (some x, t.current, t.outer) := by
    unfold resolveFrom
    rw [show t.current.store[name]? = some x from h]
  unfold resolve
  rw [hfrom]

theorem SymbolTable.resolve_of_globalSlot {t : SymbolTable} {name : String} {k : Nat}
    (h : t.globalSlot? name = some k) :
    ∃ symbol, t.resolve name = (some symbol, t) ∧ symbol.storage = .global ∧ symbol.index = k := by
  unfold globalSlot? at h
  split at h
  · next symbol hfound =>
    split at h
    · next hglobal =>
      refine ⟨symbol, ?_, hglobal, Option.some.inj h⟩
      refine Prod.ext hfound ?_
      show (⟨(resolveFrom name t.current t.outer).2.1, (resolveFrom name t.current t.outer).2.2⟩ :
        SymbolTable) = t
      rw [resolveFrom_global hfound hglobal]
    · cases h
  · cases h

/-! ## Code that is appended -/

/-- The value of a constant that is a literal. -/
def Constant.literalValue? : Constant → Option Value
  | .int n => some (.int n)
  | .float x => some (.float x)
  | .str s => some (.str s)
  | _ => none

/-- The literals of a pool are among the values of a machine. -/
def Pool.Loads (p : Pool) (values : Array Value) : Prop :=
  ∀ (place : Nat) (c : Constant) (v : Value), p[place]? = some c → c.literalValue? = some v →
    values[place]? = some v

/-- From `σ` to `σ'` the instructions `seg` were appended to the block at hand, and perhaps constants to
the pool. -/
structure CompileState.Appends (σ σ' : CompileState) (seg : List Emitted) : Prop where
  items : σ'.items = σ.items ++ seg
  size : σ'.size = σ.size + Emitted.extent seg
  sized : ∀ i ∈ seg, i.Sized
  symbols : σ'.symbols = σ.symbols
  pool : σ.pool.Begins σ'.pool

namespace CompileState.Appends

variable {σ σ₁ σ₂ : CompileState} {a b : List Emitted}

theorem refl (σ : CompileState) : σ.Appends σ [] :=
  ⟨by simp, by simp, by simp, rfl, .refl _⟩

theorem trans (h : σ.Appends σ₁ a) (h' : σ₁.Appends σ₂ b) : σ.Appends σ₂ (a ++ b) where
  items := by rw [h'.items, h.items, List.append_assoc]
  size := by rw [h'.size, h.size, Emitted.extent_append, Nat.add_assoc]
  sized := by
    intro i hi
    exact (List.mem_append.mp hi).elim (h.sized i) (h'.sized i)
  symbols := h'.symbols.trans h.symbols
  pool := by
    have hle := h.pool.size
    refine ⟨Nat.le_trans hle h'.pool.size, fun place hlt => ?_⟩
    rw [h'.pool.same place (by omega), h.pool.same place hlt]

theorem emit (h : σ.Appends σ₁ a) (op : Opcode) (xs : List Nat) (span : Span)
    (hsized : xs.length = op.widths.length) :
    σ.Appends (σ₁.emit op xs span) (a ++ [⟨op, xs, span⟩]) :=
  h.trans ⟨emit_items .., rfl, by simpa [Emitted.Sized] using hsized, rfl, .refl _⟩

/-- Filling in the target of a jump. -/
theorem patch {op : Opcode} {t₀ : Nat} {span : Span}
    (h : σ.Appends σ₁ (a ++ ⟨op, [t₀], span⟩ :: b)) {place : Nat}
    (hplace : place = (σ.items ++ a).length) (t : Nat) :
    σ.Appends (σ₁.patch place 0 t) (a ++ ⟨op, [t], span⟩ :: b) where
  items := by
    rw [patch_items, h.items, ← List.append_assoc, hplace, modify_append_cons, List.append_assoc]
    rfl
  size := by rw [patch_size, h.size]; simp
  sized := by
    intro i hi
    have hold := h.sized
    simp only [List.mem_append, List.mem_cons] at hi hold
    rcases hi with hi | rfl | hi
    · exact hold i (.inl hi)
    · exact hold ⟨op, [t₀], span⟩ (.inr (.inl rfl))
    · exact hold i (.inr (.inr hi))
  symbols := h.symbols
  pool := h.pool

theorem loads (h : σ.Appends σ₁ a) {values : Array Value} (hloads : σ₁.pool.Loads values) :
    σ.pool.Loads values := by
  intro place c v hc hv
  have hlt := (Array.getElem?_eq_some_iff.mp hc).1
  exact hloads place c v (by rw [h.pool.same place hlt, hc]) hv

end CompileState.Appends

/-! ## Realizing a computation -/

section

variable {α β : Type}

/-- The instructions `seg` at offset `o` carry out `y`, up to the offset `o'`: they find `ins` on top of
the stack and leave what belongs to the result, with at most `room` values at a time. -/
def Performs (p : Pool) (o : Nat) (seg : List Emitted) (room : Nat) (ins : List Value) (y : Eval α)
    (o' : Nat) (outs : α → List Value) : Prop :=
  ∀ C : Stage, C.frame.closure.function.HasAt o seg → p.Loads C.start.machine.constants →
    ∀ vs, C.start.machine.sp + vs.length + room ≤ C.start.machine.stack.size →
      C.Carries o (vs ++ ins) y o' fun a => vs ++ outs a

/-- Within the bindings `t`, compiling with `x` appends code that carries out `y`. -/
def Realizes (t : SymbolTable) (room : Nat) (ins : List Value) (x : CompileM Unit) (y : Eval α)
    (outs : α → List Value) : Prop :=
  ∀ σ σ', σ.symbols = t → x.run σ = .ok () σ' → ∃ seg, σ.Appends σ' seg ∧
    Performs σ'.pool σ.size seg room ins y σ'.size outs

variable {t : SymbolTable} {m n : Nat} {ins : List Value} {x : CompileM Unit} {y : Eval α}
  {outs : α → List Value}

theorem Performs.mono {p : Pool} {o o' : Nat} {seg : List Emitted} (h : Performs p o seg m ins y o' outs)
    (hle : m ≤ n) : Performs p o seg n ins y o' outs :=
  fun C hat hloads vs hroom => h C hat hloads vs (by omega)

theorem Realizes.mono (h : Realizes t m ins x y outs) (hle : m ≤ n) : Realizes t n ins x y outs := by
  intro σ σ' hσ hrun
  obtain ⟨seg, happends, hperforms⟩ := h σ σ' hσ hrun
  exact ⟨seg, happends, hperforms.mono hle⟩

/-- A piece of code on top of pending values. -/
theorem Realizes.above (h : Realizes t m ins x y outs) (us : List Value) :
    Realizes t (us.length + m) (us ++ ins) x y fun a => us ++ outs a := by
  intro σ σ' hσ hrun
  obtain ⟨seg, happends, hperforms⟩ := h σ σ' hσ hrun
  refine ⟨seg, happends, fun C hat hloads vs hroom => ?_⟩
  have hcarries := hperforms C hat hloads (vs ++ us) (by rw [List.length_append]; omega)
  simpa only [List.append_assoc] using hcarries

theorem CompileState.Appends.unique {σ σ' : CompileState} {a b : List Emitted}
    (ha : σ.Appends σ' a) (hb : σ.Appends σ' b) : a = b :=
  List.append_cancel_left (ha.items.symm.trans hb.items)

theorem Performs.loads {p q : Pool} {o o' : Nat} {seg : List Emitted}
    (h : Performs p o seg m ins y o' outs)
    (hle : ∀ values, q.Loads values → p.Loads values) : Performs q o seg m ins y o' outs :=
  fun C hat hloads vs hroom => h C hat (hle _ hloads) vs hroom

/-- One piece of code after the other. -/
theorem Performs.seq {p : Pool} {o o₁ o₂ : Nat} {a b : List Emitted} {f : α → Eval β}
    {outs' : β → List Value} (h : Performs p o a m ins y o₁ outs) (ho : o₁ = o + Emitted.extent a)
    (h' : ∀ v, Performs p o₁ b m (outs v) (f v) o₂ outs') :
    Performs p o (a ++ b) m ins (y >>= f) o₂ outs' := by
  intro C hat hloads vs hroom
  refine (h C hat.left hloads vs hroom).bind fun v => ?_
  exact h' v C (ho ▸ hat.right) hloads vs hroom

theorem Realizes.seq [Inhabited α] {x' : Unit → CompileM Unit} {f : α → Eval β}
    {outs' : β → List Value} (h : Realizes t m ins x y outs)
    (h' : ∀ a, Realizes t m (outs a) (x' ()) (f a) outs') :
    Realizes t m ins (x >>= x') (y >>= f) outs' := by
  intro σ σ' hσ hrun
  obtain ⟨_, σ₁, h₁, h₂⟩ := bind_ok hrun
  obtain ⟨a, ha, hfirst⟩ := h σ σ₁ hσ h₁
  have hσ₁ : σ₁.symbols = t := ha.symbols.trans hσ
  obtain ⟨b, hb, -⟩ := h' default σ₁ σ' hσ₁ h₂
  refine ⟨a ++ b, ha.trans hb, (hfirst.loads fun _ => hb.loads).seq ha.size fun v => ?_⟩
  -- the code does not depend on the result of the first piece
  obtain ⟨c, hc, hsecond⟩ := h' v σ₁ σ' hσ₁ h₂
  rwa [hb.unique hc]

/-- A piece of code that only prepares the stack for what comes next. -/
theorem Realizes.andThen {x' : CompileM Unit} {y' : Eval β} {outs' : β → List Value} {a₀ : α}
    (h : Realizes t m ins x (pure a₀) outs) (h' : Realizes t m (outs a₀) x' y' outs') :
    Realizes t m ins (x >>= fun _ => x') y' outs' := by
  intro σ σ' hσ hrun
  obtain ⟨_, σ₁, h₁, h₂⟩ := bind_ok hrun
  obtain ⟨a, ha, hfirst⟩ := h σ σ₁ hσ h₁
  obtain ⟨b, hb, hsecond⟩ := h' σ₁ σ' (ha.symbols.trans hσ) h₂
  refine ⟨a ++ b, ha.trans hb, fun C hat hloads vs hroom => ?_⟩
  have hgo : C.Goes σ.size (vs ++ ins) σ₁.size (vs ++ outs a₀) :=
    fun st s hs => hfirst C hat.left (hb.loads hloads) vs hroom st s hs
  exact hgo.carries (hsecond C (ha.size ▸ hat.right) hloads vs hroom)

/-- The result in another form. -/
theorem Realizes.map {g : α → β} {outs' : β → List Value} (h : Realizes t m ins x y outs)
    (houts : ∀ a, outs' (g a) = outs a) : Realizes t m ins x (y >>= fun a => pure (g a)) outs' := by
  intro σ σ' hσ hrun
  obtain ⟨seg, happends, hperforms⟩ := h σ σ' hσ hrun
  refine ⟨seg, happends, fun C hat hloads vs hroom => ?_⟩
  refine (hperforms C hat hloads vs hroom).bind fun a => Stage.Goes.pure ?_
  rw [houts]
  exact Stage.Goes.refl C _ _

/-- A single instruction. -/
theorem realizes_put {op : Opcode} {xs : List Nat} {span : Span}
    (hsized : xs.length = op.widths.length)
    (h : ∀ (C : Stage) (o : Nat), C.frame.closure.function.HasAt o [⟨op, xs, span⟩] →
      ∀ vs, C.start.machine.sp + vs.length + m ≤ C.start.machine.stack.size →
        C.Carries o (vs ++ ins) y (o + op.length) fun a => vs ++ outs a) :
    Realizes t m ins (put op xs span) y outs := by
  intro σ σ' hσ hrun
  obtain rfl := put_ok hrun
  refine ⟨[⟨op, xs, span⟩], (CompileState.Appends.refl σ).emit op xs span hsized, ?_⟩
  exact fun C hat _ vs hroom => h C _ hat vs hroom

/-! ## Leaves -/

theorem Stage.hasRoom {C : Stage} {vs : List Value}
    (h : C.start.machine.sp + vs.length + 1 ≤ C.start.machine.stack.size) : C.HasRoom vs := h

theorem realizes_constant {c : Constant} {v : Value} {span : Span} (hv : c.literalValue? = some v) :
    Realizes t 1 [] (emitConstant c span) (pure v) fun v => [v] := by
  intro σ σ' hσ hrun
  obtain ⟨place, σ₁, h₁, h₂⟩ := bind_ok hrun
  obtain ⟨rfl, rfl, hlt⟩ := addConstant_ok h₁
  obtain rfl := put_ok h₂
  have hpool : σ.Appends { σ with pool := σ.pool.push c } [] :=
    ⟨by simp [CompileState.items], rfl, by simp, rfl, (Pool.Begins.refl _).push c⟩
  refine ⟨_, hpool.emit .constant _ span rfl, fun C hat hloads vs hroom => ?_⟩
  have hvalue : C.start.machine.constants[σ.pool.size]? = some v :=
    hloads σ.pool.size c v (by simp [CompileState.emit]) hv
  rw [List.append_nil]
  exact (Stage.goes_constant hat hlt hvalue hroom).pure

theorem realizes_push {op : Opcode} {v : Value} {span : Span} (hwidths : op.widths = [])
    (hop : Exec.perform op = (do Exec.push v; return .next)) :
    Realizes t 1 [] (put op [] span) (pure v) fun v => [v] := by
  refine realizes_put (by rw [hwidths]) fun C o hat vs hroom => ?_
  have hlength : op.length = 1 := by simp [Opcode.length, hwidths]
  rw [List.append_nil, hlength]
  exact (Stage.goes_push hat hop hroom).pure

theorem realizes_literal (l : Literal) (span : Span) :
    Realizes t 1 [] (literal l span) (pure l.value) fun v => [v] := by
  cases l with
  | int n => exact realizes_constant rfl
  | float x => exact realizes_constant rfl
  | str s => exact realizes_constant rfl
  | bool b =>
    cases b with
    | true => exact realizes_push rfl rfl
    | false => exact realizes_push rfl rfl
  | null => exact realizes_push rfl rfl

/-- Names that stand for globals are resolved without a trace. -/
theorem Realizes.resolve {name : String} {span : Span} {k : Nat} {x' : Symbol → CompileM Unit}
    (hname : t.globalSlot? name = some k)
    (h : ∀ symbol : Symbol, symbol.storage = .global → symbol.index = k →
      Realizes t m ins (x' symbol) y outs) :
    Realizes t m ins (resolve name span >>= x') y outs := by
  intro σ σ' hσ hrun
  obtain ⟨symbol, hresolve, hglobal, hindex⟩ := SymbolTable.resolve_of_globalSlot hname
  obtain ⟨symbol', σ₁, h₁, h₂⟩ := bind_ok hrun
  obtain ⟨found, σ₂, h₃, h₄⟩ := bind_ok h₁
  obtain ⟨rfl, rfl⟩ := modifyGet_ok h₃
  subst hσ
  simp only [hresolve] at h₄
  obtain ⟨rfl, rfl⟩ := pure_ok h₄
  exact h symbol hglobal hindex σ σ' rfl h₂

theorem realizes_load {symbol : Symbol} {span : Span} (hglobal : symbol.storage = .global)
    (hlt : symbol.index < 65536) :
    Realizes t 1 [] (load symbol span) (Eval.readGlobal symbol.index) fun v => [v] := by
  unfold load
  rw [hglobal]
  refine realizes_put rfl fun C o hat vs hroom => ?_
  rw [List.append_nil]
  exact Stage.carries_getGlobal hat hlt hroom

theorem realizes_store {symbol : Symbol} {span : Span} {v : Value}
    (hglobal : symbol.storage = .global) (hlt : symbol.index < 65536) :
    Realizes t 1 [v] (store symbol span) (Eval.writeGlobal symbol.index v) fun w => [w] := by
  unfold store
  rw [hglobal]
  exact realizes_put rfl fun C o hat vs _ => Stage.carries_setGlobal hat hlt

/-! ## Operators -/

theorem realizes_unary {x : CompileM Unit} {y : Eval Value} {op : Opcode} {span : Span}
    {f : Value → Eval Value} (hx : Realizes t m [] x y fun v => [v]) (hm : 1 ≤ m)
    (hput : ∀ v, Realizes t 1 [v] (put op [] span) (f v) fun w => [w]) :
    Realizes t m [] (x >>= fun _ => put op [] span) (y >>= f) fun w => [w] :=
  hx.seq fun v => (hput v).mono hm

/-- Two operands, the second on top of the first, and an instruction on both. -/
theorem realizes_two {x x' : CompileM Unit} {y y' : Eval Value} {op : Opcode} {span : Span}
    {f : Value → Value → Eval Value} (hx : Realizes t m [] x y fun v => [v])
    (hx' : Realizes t n [] x' y' fun v => [v])
    (hput : ∀ a b, Realizes t 1 [a, b] (put op [] span) (f a b) fun w => [w]) :
    Realizes t (max m (n + 1)) [] (x >>= fun _ => x' >>= fun _ => put op [] span)
      (y >>= fun a => y' >>= fun b => f a b) fun w => [w] := by
  refine (hx.mono (Nat.le_max_left _ _)).seq fun a => ?_
  have habove : Realizes t (max m (n + 1)) [a] x' y' fun b => [a, b] :=
    (hx'.above [a]).mono (by simp only [List.length_singleton]; omega)
  exact habove.seq fun b => (hput a b).mono (by omega)

theorem realizes_negate {span : Span} (v : Value) :
    Realizes t 1 [v] (put .negate [] span) (Eval.ofExcept span v.negate) fun w => [w] :=
  realizes_put rfl fun _ _ hat _ hroom => Stage.carries_negate hat hroom

theorem realizes_not {span : Span} (v : Value) :
    Realizes t 1 [v] (put .not [] span) (pure v.logicalNot) fun w => [w] :=
  realizes_put rfl fun _ _ hat _ hroom => (Stage.goes_not hat hroom).pure

theorem realizes_binary {span : Span} (op : BinaryOp) (a b : Value) :
    Realizes t 1 [a, b] (put op.opcode [] span) (Eval.binary op span a b) fun w => [w] := by
  refine realizes_put (by cases op <;> rfl) fun C o hat vs hroom => ?_
  rw [show op.opcode.length = 1 by cases op <;> rfl, List.append_cons]
  exact Stage.carries_binary hat hroom

theorem realizes_item {span : Span} (target index : Value) :
    Realizes t 1 [target, index] (put .getIndex [] span) (Eval.item span target index) fun w => [w] := by
  refine realizes_put rfl fun C o hat vs hroom => ?_
  rw [List.append_cons]
  exact Stage.carries_getIndex hat hroom

/-! ## Jumps -/

theorem realizes_dup {span : Span} (v : Value) :
    Realizes t 2 [v] (put .dup [] span) (pure ()) fun _ => [v, v] := by
  refine realizes_put rfl fun C o hat vs hroom => ?_
  have htop : C.HasRoom (vs ++ [v]) := by
    unfold Stage.HasRoom
    rw [List.length_append, List.length_singleton]
    omega
  have hgo := Stage.goes_dup hat htop
  rw [List.append_assoc] at hgo
  exact Stage.Goes.pure hgo

theorem realizes_pop {span : Span} (v : Value) :
    Realizes t 0 [v] (put .pop [] span) (pure ()) fun _ => [] := by
  refine realizes_put rfl fun C o hat vs _ => ?_
  refine Stage.Goes.pure ?_
  rw [List.append_nil]
  exact Stage.goes_pop hat

/-- A jump over a piece of code, taken if the condition is false. -/
theorem realizes_skip {ws : List Value} {a₀ : α} (h : Realizes t m ws x y outs)
    (houts : outs a₀ = ws) (v : Value) (span : Span) :
    Realizes t m (ws ++ [v])
      (do
        let skip ← emitJump .jumpIfFalse span
        x
        patchHere skip span)
      (if v.isTruthy then y else pure a₀) outs := by
  intro σ σ' hσ hrun
  obtain ⟨place, σ₁, h₁, hrun⟩ := bind_ok hrun
  obtain ⟨rfl, rfl⟩ := emit_ok h₁
  obtain ⟨_, σ₂, h₂, h₃⟩ := bind_ok hrun
  have hjump := (CompileState.Appends.refl σ).emit .jumpIfFalse [Opcode.noTarget] span rfl
  obtain ⟨a, ha, hcode⟩ := h _ σ₂ (by exact hσ) h₂
  obtain ⟨hlt, rfl⟩ := patchHere_ok h₃
  -- the jump as it was emitted, and then with its target filled in
  have hall : σ.Appends σ₂ ([] ++ ⟨.jumpIfFalse, [Opcode.noTarget], span⟩ :: a) := by
    simpa using hjump.trans ha
  have hdone := hall.patch (by rw [List.append_nil]) σ₂.size
  refine ⟨_, hdone, fun C hat hloads vs hroom => ?_⟩
  have hgo : C.Goes σ.size (vs ++ (ws ++ [v])) (if v.isTruthy then σ.size + 3 else σ₂.size)
      (vs ++ ws) := by
    rw [← List.append_assoc]
    exact Stage.goes_jumpIfFalse hat.head (Nat.lt_trans hlt (by decide))
  cases hv : v.isTruthy with
  | true =>
    rw [hv] at hgo
    exact hgo.carries (hcode C hat.tail hloads vs hroom)
  | false =>
    rw [hv] at hgo
    rw [← houts] at hgo ⊢
    exact hgo.pure

/-- Two branches, of which the condition selects one. -/
theorem realizes_choice {ws : List Value} {x' : CompileM Unit} {y' : Eval α}
    (h : Realizes t m ws x y outs) (h' : Realizes t m ws x' y' outs) (v : Value) (span : Span) :
    Realizes t m (ws ++ [v])
      (do
        let skip ← emitJump .jumpIfFalse span
        x
        let done ← emitJump .jump span
        patchHere skip span
        x'
        patchHere done span)
      (if v.isTruthy then y else y') outs := by
  intro σ σ' hσ hrun
  obtain ⟨place, σ₁, h₁, hrun⟩ := bind_ok hrun
  obtain ⟨rfl, rfl⟩ := emit_ok h₁
  obtain ⟨_, σ₂, h₂, hrun⟩ := bind_ok hrun
  have hjump := (CompileState.Appends.refl σ).emit .jumpIfFalse [Opcode.noTarget] span rfl
  obtain ⟨a, ha, hyes⟩ := h _ σ₂ (by exact hσ) h₂
  obtain ⟨place', σ₃, h₃, hrun⟩ := bind_ok hrun
  obtain ⟨rfl, rfl⟩ := emit_ok h₃
  obtain ⟨_, σ₄, h₄, hrun⟩ := bind_ok hrun
  obtain ⟨hlt, rfl⟩ := patchHere_ok h₄
  -- the first branch is complete, and its jump to the second one knows its target
  have hfirst : σ.Appends (σ₂.emit .jump [Opcode.noTarget] span) ([] ++
      ⟨.jumpIfFalse, [Opcode.noTarget], span⟩ :: (a ++ [⟨.jump, [Opcode.noTarget], span⟩])) := by
    simpa using (hjump.trans ha).emit .jump [Opcode.noTarget] span rfl
  have hskip := hfirst.patch (by rw [List.append_nil]) (σ₂.size + 3)
  obtain ⟨_, σ₅, h₅, h₆⟩ := bind_ok hrun
  obtain ⟨b, hb, hno⟩ := h' _ σ₅ (by exact hskip.symbols.trans hσ) h₅
  obtain ⟨hlt', rfl⟩ := patchHere_ok h₆
  have hall : σ.Appends σ₅ ((⟨.jumpIfFalse, [σ₂.size + 3], span⟩ :: a) ++
      ⟨.jump, [Opcode.noTarget], span⟩ :: b) := by
    simpa using hskip.trans hb
  have hplace : σ₂.items.length = (σ.items ++ (⟨.jumpIfFalse, [σ₂.size + 3], span⟩ :: a)).length := by
    simp [ha.items]
  have hdone := hall.patch hplace σ₅.size
  refine ⟨_, hdone, fun C hat hloads vs hroom => ?_⟩
  have hrest := hat.right
  have hsize : σ₂.size = σ.size + 3 + Emitted.extent a := ha.size
  rw [Emitted.extent_cons, Opcode.lengths.2.1, ← Nat.add_assoc, ← hsize] at hrest
  have hgo : C.Goes σ.size (vs ++ (ws ++ [v])) (if v.isTruthy then σ.size + 3 else σ₂.size + 3)
      (vs ++ ws) := by
    rw [← List.append_assoc]
    exact Stage.goes_jumpIfFalse hat.left.head (Nat.lt_trans hlt (by decide))
  cases hv : v.isTruthy with
  | true =>
    rw [hv] at hgo
    have hcarries := hyes C hat.left.tail (hb.loads hloads) vs hroom
    exact hgo.carries (hcarries.goes fun _ =>
      Stage.goes_jump hrest.head (Nat.lt_trans hlt' (by decide)))
  | false =>
    rw [hv] at hgo
    exact hgo.carries (hno C hrest.tail hloads vs hroom)

/-- No code at all. -/
theorem realizes_nothing {a₀ : α} (houts : outs a₀ = ins) :
    Realizes t m ins (pure ()) (pure a₀) outs := by
  intro σ σ' hσ hrun
  obtain ⟨-, rfl⟩ := pure_ok hrun
  refine ⟨[], .refl σ, fun C _ _ vs _ => ?_⟩
  refine Stage.Goes.pure ?_
  rw [houts]
  exact Stage.Goes.refl C _ _

/-- An operand in place of another one. -/
theorem realizes_replace {x : CompileM Unit} {y : Eval Value} {span : Span} (v : Value)
    (h : Realizes t m [] x y fun w => [w]) (hle : m ≤ n) :
    Realizes t n [v] (put .pop [] span >>= fun _ => x) y fun w => [w] := by
  have hpop : Realizes t n [v] (put .pop [] span) (pure ()) fun _ => [] :=
    (realizes_pop v).mono (Nat.zero_le _)
  exact hpop.andThen (h.mono hle)

theorem realizes_and {x x' : CompileM Unit} {y y' : Eval Value} {span : Span}
    (hx : Realizes t m [] x y fun v => [v]) (hx' : Realizes t n [] x' y' fun v => [v]) :
    Realizes t (max (max 2 m) n) []
      (do
        x
        put .dup [] span
        let done ← emitJump .jumpIfFalse span
        put .pop [] span
        x'
        patchHere done span)
      (do
        let v ← y
        if v.isTruthy then y' else return v) fun v => [v] := by
  refine (hx.mono (by omega)).seq fun v => ?_
  have hdup : Realizes t (max (max 2 m) n) [v] (put .dup [] span) (pure ()) fun _ => [v, v] :=
    (realizes_dup v).mono (by omega)
  have hsecond : Realizes t (max (max 2 m) n) [v] (put .pop [] span >>= fun _ => x') y'
      fun w => [w] := realizes_replace v hx' (Nat.le_max_right _ _)
  have hskip := hdup.andThen (realizes_skip hsecond rfl v span)
  simpa only [bind_assoc] using hskip

theorem realizes_or {x x' : CompileM Unit} {y y' : Eval Value} {span : Span}
    (hx : Realizes t m [] x y fun v => [v]) (hx' : Realizes t n [] x' y' fun v => [v]) :
    Realizes t (max (max 2 m) n) []
      (do
        x
        put .dup [] span
        let rest ← emitJump .jumpIfFalse span
        let done ← emitJump .jump span
        patchHere rest span
        put .pop [] span
        x'
        patchHere done span)
      (do
        let v ← y
        if v.isTruthy then return v else y') fun v => [v] := by
  refine (hx.mono (by omega)).seq fun v => ?_
  have hdup : Realizes t (max (max 2 m) n) [v] (put .dup [] span) (pure ()) fun _ => [v, v] :=
    (realizes_dup v).mono (by omega)
  -- nothing is to be done if the first operand decides
  have hstay : Realizes t (max (max 2 m) n) [v] (pure ()) (pure v) fun w => [w] :=
    realizes_nothing rfl
  have hsecond : Realizes t (max (max 2 m) n) [v] (put .pop [] span >>= fun _ => x') y'
      fun w => [w] := realizes_replace v hx' (Nat.le_max_right _ _)
  have hchoice := hdup.andThen (realizes_choice hstay hsecond v span)
  simpa only [pure_bind, bind_assoc] using hchoice

/-- The condition selects one of two pieces of code. -/
theorem realizes_branches {x x₁ x₂ : CompileM Unit} {y y₁ y₂ : Eval Value} {k : Nat} {span : Span}
    (hx : Realizes t k [] x y fun v => [v]) (h₁ : Realizes t m [] x₁ y₁ fun v => [v])
    (h₂ : Realizes t n [] x₂ y₂ fun v => [v]) :
    Realizes t (max k (max m n)) []
      (do
        x
        let skip ← emitJump .jumpIfFalse span
        x₁
        let done ← emitJump .jump span
        patchHere skip span
        x₂
        patchHere done span)
      (do if (← y).isTruthy then y₁ else y₂) fun v => [v] := by
  refine (hx.mono (by omega)).seq fun v => ?_
  exact realizes_choice (h₁.mono (by omega)) (h₂.mono (by omega)) v span

/-! ## Arrays -/

theorem realizes_element {x x' : CompileM Unit} {y : Eval Value} {y' : Eval (List Value)}
    (hx : Realizes t m [] x y fun v => [v]) (hx' : Realizes t n [] x' y' fun vs => vs) :
    Realizes t (max m (n + 1)) [] (x >>= fun _ => x')
      (do
        let v ← y
        let vs ← y'
        return v :: vs) fun vs => vs := by
  refine (hx.mono (by omega)).seq fun v => ?_
  have habove : Realizes t (max m (n + 1)) [v] x' y' fun vs => v :: vs :=
    (hx'.above [v]).mono (by simp only [List.length_singleton]; omega)
  exact habove.map fun _ => rfl

theorem realizes_array {x : CompileM Unit} {y : Eval (List Value)} {k : Nat} {span : Span}
    (hx : Realizes t m [] x y fun vs => vs)
    (hlength : ∀ st vs st', y.run st = .ok vs st' → vs.length = k) (hle : k ≤ m) (hk : k < 65536) :
    Realizes t (max 1 m) [] (x >>= fun _ => put .array [k] span) (y >>= Eval.array)
      fun v => [v] := by
  intro σ σ' hσ hrun
  obtain ⟨_, σ₁, h₁, h₂⟩ := bind_ok hrun
  obtain rfl := put_ok h₂
  obtain ⟨a, ha, hitems⟩ := hx σ σ₁ hσ h₁
  refine ⟨_, ha.emit .array [k] span rfl, fun C hat hloads vs hroom => ?_⟩
  refine (hitems C hat.left hloads vs (by omega)).bindRun fun ws st st' hws => ?_
  have hlen := hlength st ws st' hws
  have harray := hat.right
  rw [← ha.size, ← hlen] at harray
  have hfits : C.start.machine.sp + (vs ++ ws).length ≤ C.start.machine.stack.size := by
    rw [List.length_append]
    omega
  exact Stage.carries_array harray (hlen ▸ hk) (Stage.hasRoom (by omega)) hfits

/-! ## Branches -/

/-- Compiling with `x` appends code that carries out `y`, and then a `pop` of the value. -/
def RealizesBeforePop (t : SymbolTable) (room : Nat) (x : CompileM Unit) (y : Eval Value) : Prop :=
  ∀ σ σ', σ.symbols = t → x.run σ = .ok () σ' → ∃ seg span,
    σ.Appends σ' (seg ++ [⟨.pop, [], span⟩]) ∧
      Performs σ'.pool σ.size seg room [] y (σ.size + Emitted.extent seg) fun v => [v]

theorem RealizesBeforePop.mono {x : CompileM Unit} {y : Eval Value} (h : RealizesBeforePop t m x y)
    (hle : m ≤ n) : RealizesBeforePop t n x y := by
  intro σ σ' hσ hrun
  obtain ⟨seg, span, happends, hperforms⟩ := h σ σ' hσ hrun
  exact ⟨seg, span, happends, hperforms.mono hle⟩

theorem realizesBeforePop_last {x : CompileM Unit} {y : Eval Value} {span : Span}
    (hx : Realizes t m [] x y fun v => [v]) :
    RealizesBeforePop t m (x >>= fun _ => put .pop [] span) y := by
  intro σ σ' hσ hrun
  obtain ⟨_, σ₁, h₁, h₂⟩ := bind_ok hrun
  obtain rfl := put_ok h₂
  obtain ⟨a, ha, hcode⟩ := hx σ σ₁ hσ h₁
  rw [ha.size] at hcode
  exact ⟨a, span, ha.emit .pop [] span rfl, hcode⟩

theorem realizesBeforePop_cons {x x' : CompileM Unit} {y y' : Eval Value} {span : Span}
    (hx : Realizes t m [] x y fun v => [v]) (hx' : RealizesBeforePop t n x' y') :
    RealizesBeforePop t (max m n) ((x >>= fun _ => put .pop [] span) >>= fun _ => x')
      (do
        discard y
        y') := by
  intro σ σ' hσ hrun
  obtain ⟨_, σ₁, h₁, h₂⟩ := bind_ok hrun
  have hfirst : Realizes t (max m n) [] (x >>= fun _ => put .pop [] span) (discard y) fun _ => [] :=
    (hx.mono (by omega)).seq fun v => (realizes_pop v).mono (Nat.zero_le _)
  obtain ⟨a, ha, hcode⟩ := hfirst σ σ₁ hσ h₁
  obtain ⟨b, s, hb, hlast⟩ := hx' σ₁ σ' (ha.symbols.trans hσ) h₂
  refine ⟨a ++ b, s, by simpa using ha.trans hb, ?_⟩
  have hend : σ₁.size + Emitted.extent b = σ.size + Emitted.extent (a ++ b) := by
    rw [ha.size, Emitted.extent_append, Nat.add_assoc]
  rw [hend] at hlast
  exact (hcode.loads fun _ => hb.loads).seq ha.size fun _ => hlast.mono (by omega)

theorem CompileState.Appends.endsWith_pop {σ σ₁ : CompileState} {a : List Emitted} {span : Span}
    (h : σ.Appends σ₁ (a ++ [⟨.pop, [], span⟩])) : σ₁.function.block.endsWith .pop = true := by
  rw [endsWith_eq, h.items, ← List.append_assoc, List.getLast?_concat]
  rfl

theorem CompileState.Appends.dropPop {σ σ₁ : CompileState} {a : List Emitted} {span : Span}
    (h : σ.Appends σ₁ (a ++ [⟨.pop, [], span⟩])) :
    σ.Appends (σ₁.withBlock σ₁.function.block.dropPop) a where
  items := by
    have hends := h.endsWith_pop
    have hdrop : (σ₁.withBlock σ₁.function.block.dropPop).items = σ₁.items.dropLast := by
      simp [CompileState.withBlock, CodeBlock.dropPop, hends, CompileState.items]
    rw [hdrop, h.items, ← List.append_assoc, List.dropLast_concat]
  size := by
    have hsize := h.size
    rw [Emitted.extent_append] at hsize
    simp only [Emitted.extent_cons, Emitted.extent_nil, Opcode.lengths] at hsize
    have hdrop : (σ₁.withBlock σ₁.function.block.dropPop).size = σ₁.size - 1 := by
      simp only [CompileState.withBlock, CodeBlock.dropPop, h.endsWith_pop, CompileState.size]
      rfl
    rw [hdrop]
    omega
  sized := fun i hi => h.sized i (List.mem_append_left _ hi)
  symbols := h.symbols
  pool := h.pool

theorem realizes_branch_cons {R : Regions} {ss : List Stmt} {span : Span} {y : Eval Value}
    (hends : endsWithExpr ss = true) (h : RealizesBeforePop t m (stmts R ss) y) :
    Realizes t m [] (branch R ⟨ss, span⟩) y fun v => [v] := by
  intro σ σ' hσ hrun
  rw [branch] at hrun
  obtain ⟨_, σ₁, h₁, h₂⟩ := bind_ok hrun
  obtain ⟨a, s, ha, hcode⟩ := h σ σ₁ hσ h₁
  obtain ⟨block, σ₂, hblock, h₃⟩ := bind_ok h₂
  obtain ⟨rfl, rfl⟩ := getBlock_ok hblock
  rw [hends, ha.endsWith_pop] at h₃
  obtain rfl := modifyBlock_ok h₃
  have hdone := ha.dropPop
  refine ⟨a, hdone, ?_⟩
  rw [hdone.size]
  exact hcode

theorem realizes_branch_nil {R : Regions} {span : Span} :
    Realizes t 1 [] (branch R ⟨[], span⟩) (pure .null) fun v => [v] := by
  have hnull : Realizes t 1 [] (put .null [] span) (pure .null) fun v => [v] := realizes_push rfl rfl
  intro σ σ' hσ hrun
  rw [branch, stmts] at hrun
  exact hnull σ σ' hσ hrun

end

end ScriptMachine
