import ScriptMachine.Fold
import ScriptMachine.Proofs.Expression.Compile
import ScriptMachine.Proofs.Machine.Equations

/-!
# Division of integers

The quotient of two integers is truncated toward zero and wraps; the remainder has the sign of the dividend
(`Divided`). That is what `/` and `%` give, whether they are folded or executed, and division by zero is refused in
both ways: folding leaves it for the machine, and the machine raises a fault.

* `Expr.ComesTo` — what is compiled for an expression pushes a value, or it raises a fault at a given place.
* `BinaryOp.comesTo_folded` — operators on integer literals, after folding.
* `BinaryOp.comesTo_variables` — operators on variables: globals, locals, captured ones.
* `BinaryOp.divides_integers` — the result.
-/

namespace ScriptMachine

open CompileM Exec

/-! ## Quotients and remainders -/

/-- `q` and `r` are the quotient and the remainder of `a` by `b`. The quotient is truncated toward zero and
reduced to 64 bits. -/
structure Divided (a b q r : Int64) : Prop where
  quotient : q = Int64.ofInt (a.toInt.tdiv b.toInt)
  small : r.toInt.natAbs < b.toInt.natAbs
  sign : r = 0 ∨ r.toInt.sign = a.toInt.sign
  whole : q * b + r = a

/-- Only the quotient of the least integer by `-1` is not what it is among all integers. -/
theorem div_eq_ofInt (a b : Int64) : a / b = Int64.ofInt (a.toInt.tdiv b.toInt) := by
  apply Int64.toInt_inj.mp
  rw [Int64.toInt_div, Int64.toInt_ofInt]

theorem mod_eq_ofInt (a b : Int64) : a % b = Int64.ofInt (a.toInt.tmod b.toInt) := by
  rw [← Int64.toInt_mod, Int64.ofInt_toInt]

theorem divided_div_mod {a b : Int64} (hb : b ≠ 0) : Divided a b (a / b) (a % b) where
  quotient := div_eq_ofInt a b
  small := by
    have hb' : b.toInt ≠ 0 := fun h => hb (Int64.toInt_inj.mp h)
    rw [Int64.toInt_mod, Int.natAbs_tmod]
    exact Nat.mod_lt _ (Int.natAbs_pos.mpr hb')
  sign := by
    by_cases hdvd : b.toInt ∣ a.toInt
    · left
      rw [mod_eq_ofInt, Int.tmod_eq_zero_of_dvd hdvd]
      rfl
    · right
      rw [Int64.toInt_mod, Int.sign_tmod, if_neg hdvd]
  whole := by
    have hexact : a.toInt.tdiv b.toInt * b.toInt + a.toInt.tmod b.toInt = a.toInt :=
      Int.tdiv_mul_add_tmod a.toInt b.toInt
    -- reducing to 64 bits respects sums and products
    calc a / b * b + a % b
        = Int64.ofInt (a.toInt.tdiv b.toInt) * Int64.ofInt b.toInt + Int64.ofInt (a.toInt.tmod b.toInt) := by
          rw [div_eq_ofInt, mod_eq_ofInt, Int64.ofInt_toInt]
      _ = Int64.ofInt (a.toInt.tdiv b.toInt * b.toInt + a.toInt.tmod b.toInt) := by
          rw [Int64.ofInt_add, Int64.ofInt_mul]
      _ = a := by rw [hexact, Int64.ofInt_toInt]

/-! ## Variables -/

/-- The instruction that pushes what a symbol stands for. -/
def Symbol.loading (u : Symbol) (span : Span) : Emitted :=
  match u.storage with
  | .global => ⟨.getGlobal, [u.index], span⟩
  | .local => ⟨.getLocal, [u.index], span⟩
  | .free => ⟨.getFree, [u.index], span⟩
  | .builtin => ⟨.getBuiltin, [u.index], span⟩
  | .functionSelf => ⟨.currentClosure, [], span⟩

theorem Symbol.load_eq (u : Symbol) (span : Span) (σ : CompileState) :
    load u span σ = .ok () (σ.emit (u.loading span).opcode (u.loading span).operands (u.loading span).span) := by
  unfold load loading
  cases u.storage <;> rfl

/-- The symbol is a variable that the running frame has and that an instruction can address. -/
def Stage.Addresses (C : Stage) (u : Symbol) : Prop :=
  match u.storage with
  | .global => u.index < 65536
  | .local => u.index < 256 ∧ C.frame.base + u.index < C.start.machine.sp
  | .free => u.index < 256 ∧ u.index < C.frame.closure.free.size
  | .builtin | .functionSelf => False

/-- What a variable of the running frame holds. -/
def Stage.valueOf (C : Stage) (u : Symbol) (st : Store) : Value :=
  match u.storage with
  | .global => Globals.get st.globals u.index
  | .local =>
    match C.frame.cell? u.index with
    | some ref => st.heap.cell ref
    | none => C.start.machine.stack[C.frame.base + u.index]?.getD .null
  | .free => (C.frame.closure.free[u.index]?.map st.heap.cell).getD .null
  | .builtin | .functionSelf => .null

/-- Read a variable of the running frame. -/
def Stage.read (C : Stage) (u : Symbol) : Eval Value := do return C.valueOf u (← get)

/-- A variable of the running frame that can be addressed holds a value. -/
def Stage.Holds (C : Stage) (u : Symbol) (v : Value) : Prop := C.Addresses u ∧ C.valueOf u C.store = v

/-- The operand of an instruction with a single one of one byte. -/
theorem Function.HasAt.single {f : Function} {o n : Nat} {op : Opcode} {span : Span}
    (h : f.HasAt o [⟨op, [n], span⟩]) (hop : op.widths = [1]) (hn : n < 256) :
    operandAt? f.code (o + 1) 1 = some n := by
  rw [Exec.operandAt?_one h.operands h.sized hop]
  simp [Emitted.operand, Emitted.cut, hop, Nat.mod_eq_of_lt hn]

namespace Stage

variable {C : Stage} {o ip k : Nat} {vs : List Value} {st : Store} {span : Span} {u : Symbol}

theorem Inside.freeCell {A : Abort → State → Prop} {ref : Ref} (hk : C.frame.closure.free[k]? = some ref) :
    Triple (C.Inside o ip vs st) (freeCell k) (fun r s => r = ref ∧ C.Inside o ip vs st s) A := by
  refine Triple.bindValue Inside.currentFrame ?_
  rw [show ({ C.frame with ip } : Frame).closure.free[k]? = some ref from hk]
  exact triple_pure fun s hs => ⟨rfl, hs⟩

theorem Inside.localOperand {A : Abort → State → Prop} (hk : operandAt? C.frame.code ip 1 = some k)
    (hslot : C.frame.base + k < C.start.machine.stack.size) :
    Triple (C.Inside o ip vs st) Exec.localOperand
      (fun p s => p = (k, C.frame.base + k) ∧ C.Inside o (ip + 1) vs st s) A := by
  refine Triple.bindValue (Inside.operand hk) (Triple.bindValue Inside.currentFrame ?_)
  refine Triple.withMachine fun m => Triple.assume (p := m.stack.size = C.start.machine.stack.size) ?_ fun hsize => ?_
  · rintro s ⟨hs, rfl⟩
    exact hs.size
  rw [if_neg (by rw [hsize]; exact Nat.not_le.mpr hslot)]
  exact triple_pure fun s hs => ⟨rfl, hs.1⟩

theorem carries_load (hi : C.frame.closure.function.HasAt ip [u.loading span]) (hu : C.Addresses u)
    (hroom : C.HasRoom vs) :
    C.Carries ip vs (C.read u) (ip + (u.loading span).opcode.length) fun v => vs ++ [v] := by
  have hpush (st : Store) (ip' : Nat) (v : Value) (hv : C.valueOf u st = v) :
      Triple (C.Inside ip ip' vs st) (Exec.push v)
        (fun _ s => ∃ a st', (C.read u).run st = .ok a st' ∧ C.At ip' (vs ++ [a]) st' s)
        fun e _ => (C.read u).run st = .error e st := by
    subst hv
    exact (Inside.push hroom _).mono (fun _ hs => hs) (fun _ s hs => ⟨_, st, rfl, ip, hs⟩) fun _ _ he => he
  unfold Addresses at hu
  unfold valueOf at hpush
  unfold Symbol.loading at hi ⊢
  cases hstorage : u.storage with
  | global =>
    simp only [hstorage] at hi hu hpush ⊢
    refine carries_of_step hi getGlobal rfl fun st => ?_
    refine Triple.bindValue (Inside.operand (hi.word rfl hu)) ?_
    refine Triple.bind (Q := fun t s => t.world.globals = st.globals ∧ C.Inside ip (ip + 3) vs st s)
      (triple_get fun s hs => ⟨by rw [hs.world], hs⟩) fun t => Triple.assume (fun _ hs => hs.1) fun hglobals => ?_
    rw [hglobals]
    exact (hpush st (ip + 3) _ rfl).pre fun _ hs => hs.2
  | «local» =>
    simp only [hstorage] at hi hu hpush ⊢
    have hsize : C.frame.base + u.index < C.start.machine.stack.size := by
      unfold HasRoom at hroom
      omega
    refine carries_of_step hi getLocal rfl fun st => ?_
    refine Triple.bindValue (Inside.localOperand (hi.single rfl hu.1) hsize)
      (Triple.bindValue Inside.currentFrame ?_)
    have hcell : ({ C.frame with ip := ip + 1 + 1 } : Frame).cell? u.index = C.frame.cell? u.index := rfl
    rw [hcell]
    have hvalue := hpush st (ip + 2)
    cases hfound : C.frame.cell? u.index with
    | some ref =>
      simp only [hfound] at hvalue ⊢
      exact Triple.bindValue Inside.getHeap (hvalue _ rfl)
    | none =>
      simp only [hfound] at hvalue ⊢
      refine Triple.bindValue (triple_getSlot fun s hs => ?_) (hvalue _ rfl)
      rw [hs.kept _ hu.2, Array.getElem?_eq_getElem hsize]
      rfl
  | free =>
    simp only [hstorage] at hi hu hpush ⊢
    refine carries_of_step hi getFree rfl fun st => ?_
    refine Triple.bindValue (Inside.operand (hi.single rfl hu.1)) ?_
    have hfound : C.frame.closure.free[u.index]? = some C.frame.closure.free[u.index] := Array.getElem?_eq_getElem hu.2
    refine Triple.bindValue (Inside.freeCell hfound) (Triple.bindValue Inside.getHeap ?_)
    refine hpush st (ip + 2) _ ?_
    rw [hfound]
    rfl
  | builtin | functionSelf =>
    rw [hstorage] at hu
    exact hu.elim

end Stage

/-! ## Coming to a result -/

/-- The machine is about to run `seg`, which was compiled from `σ` to `σ'`, and has room for two values. -/
structure Stage.AboutTo (C : Stage) (σ σ' : CompileState) (seg : List Emitted) : Prop where
  ready : C.Ready
  ip : C.frame.ip = σ.size
  code : C.frame.closure.function.HasAt σ.size seg
  constants : σ'.pool.Loads C.start.machine.constants
  room : C.start.machine.sp + 2 ≤ C.start.machine.stack.size

/-- An expression compiles if there is room in the pool, and where `P` holds its code comes to the result: it
pushes the value, or one of its instructions raises the cause at `span`. -/
structure Expr.ComesTo (e : Expr) (σ : CompileState) (P : Stage → Prop) (span : Span)
    (result : Except Cause Value) : Prop where
  compiles : σ.pool.size + 2 ≤ Pool.capacity → ∀ R, ∃ σ', (CompileM.expr R e).run σ = .ok () σ'
  runs : ∀ R σ', (CompileM.expr R e).run σ = .ok () σ' → ∃ seg, σ'.items = σ.items ++ seg ∧
    ∀ C : Stage, C.AboutTo σ σ' seg → P C →
      C.Ends σ'.size (fun v => [v]) C.start ((Eval.ofExcept span result).run C.store)

/-- What folding makes of an operator on literals that has a given result: the literal of the result, or the
operator as it stands. -/
def Fold.outcome (result : Except Cause Value) (span : Span) (node : Expr) : Expr :=
  match result with
  | .ok v => (replace (literal? v) span node).val
  | .error _ => node

namespace BinaryOp

variable {op : BinaryOp} {a b : Int64} {span : Span}

theorem ofText?_symbol (op : BinaryOp) : ofText? op.symbol = some (op, false) := by cases op <;> rfl

theorem symbol_strict (op : BinaryOp) : (op.symbol == "&&") = false ∧ (op.symbol == "||") = false := by
  cases op <;> decide

theorem compile_symbol (R : Regions) (op : BinaryOp) (l r : Expr) (span : Span) :
    CompileM.expr R (.binary op.symbol l r span) = (do
      CompileM.expr R l
      CompileM.expr R r
      put op.opcode [] span) := by
  rw [CompileM.expr]
  simp [symbol_strict, ofText?_symbol]

theorem eval_symbol (slot : String → Option Nat) (op : BinaryOp) (l r : Expr) (span : Span) :
    (Expr.binary op.symbol l r span).eval slot = (do
      let a ← l.eval slot
      let b ← r.eval slot
      Eval.binary op span a b) := by
  rw [Expr.eval]
  simp [symbol_strict, ofText?_symbol]

theorem room_symbol (op : BinaryOp) (l r : Expr) (span : Span) :
    (Expr.binary op.symbol l r span).room = max l.room (r.room + 1) := by
  rw [Expr.room]
  simp [symbol_strict, ofText?_symbol]

theorem fold_symbol {l r : Expr} {s s' : Span} (hl : (Fold.expr l).val = .literal (.int a) s)
    (hr : (Fold.expr r).val = .literal (.int b) s') :
    (Fold.expr (.binary op.symbol l r span)).val =
      Fold.outcome (op.onInts a b) span (.binary op.symbol (.literal (.int a) s) (.literal (.int b) s') span) := by
  have hnode : (Fold.expr (.binary op.symbol l r span)).val =
      (Fold.replace (Fold.binary? op.symbol (.literal (.int a) s) (.literal (.int b) s')) span
        (.binary op.symbol (.literal (.int a) s) (.literal (.int b) s') span)).val := by
    rw [Fold.expr, Counted.bind_val, Counted.bind_val, hl, hr]
  have hbinary : Fold.binary? op.symbol (.literal (.int a) s) (.literal (.int b) s') =
      match op.onInts a b with
      | .ok v => Fold.literal? v
      | .error _ => none := by
    cases op <;> rfl
  rw [hnode, hbinary]
  unfold Fold.outcome
  cases op.onInts a b <;> rfl

theorem literal_of_onInts {v : Value} (h : op.onInts a b = .ok v) :
    ∃ l, Fold.literal? v = some l ∧ l.value = v := by
  cases v with
  | int n => exact ⟨.int n, rfl, rfl⟩
  | bool c => exact ⟨.bool c, rfl, rfl⟩
  | _ =>
    -- no operator on integers has another value
    cases op with
    | div | mod =>
      simp only [onInts] at h
      split at h <;> cases h
    | _ => cases h

end BinaryOp

theorem CompileM.compile_literal (l : Literal) (span : Span) {σ : CompileState}
    (hpool : σ.pool.size + 1 ≤ Pool.capacity) :
    ∃ σ', literal l span σ = .ok () σ' ∧ σ'.pool.size ≤ σ.pool.size + 1 := by
  have hconstant (c : Constant) : ∃ σ', emitConstant c span σ = .ok () σ' ∧ σ'.pool.size ≤ σ.pool.size + 1 := by
    refine ⟨({ σ with pool := σ.pool.push c } : CompileState).emit .constant [σ.pool.size] span, ?_, ?_⟩
    · have hget : (get : CompileM CompileState) σ = .ok σ σ := rfl
      simp only [emitConstant, addConstant, bind, EStateM.bind, hget]
      rw [if_neg (by omega)]
      rfl
    · simp [CompileState.emit]
  have hput (op : Opcode) : ∃ σ', put op [] span σ = .ok () σ' ∧ σ'.pool.size ≤ σ.pool.size + 1 :=
    ⟨σ.emit op [] span, rfl, Nat.le_succ _⟩
  cases l with
  | int | float | str => exact hconstant _
  | bool c => cases c <;> exact hput _
  | null => exact hput _

/-- The state of compilation after a variable was resolved and loaded. -/
def CompileState.reading (σ : CompileState) (i : Emitted) (t : SymbolTable) : CompileState :=
  ({ σ with symbols := t } : CompileState).emit i.opcode i.operands i.span

@[simp] theorem CompileState.reading_items (σ : CompileState) (i : Emitted) (t : SymbolTable) :
    (σ.reading i t).items = σ.items ++ [i] := emit_items { σ with symbols := t } _ _ _

theorem CompileM.compile_ident (R : Regions) {id : Ident} {σ : CompileState} {u : Symbol} {t : SymbolTable}
    (h : σ.symbols.resolve id.name = (some u, t)) :
    CompileM.expr R (.ident id) σ = .ok () (σ.reading (u.loading id.span) t) := by
  have hresolve : CompileM.resolve id.name id.span σ = .ok u { σ with symbols := t } := by
    have hfound : (modifyGet fun s : CompileState => ((s.symbols.resolve id.name).1,
        { s with symbols := (s.symbols.resolve id.name).2 }) : CompileM (Option Symbol)) σ =
        .ok (some u) { σ with symbols := t } := by
      show EStateM.Result.ok (σ.symbols.resolve id.name).1 _ = _
      rw [h]
    unfold CompileM.resolve
    simp only [bind, EStateM.bind]
    rw [show (modifyGet _ : CompileM (Option Symbol)) σ = _ from hfound]
    rfl
  rw [CompileM.expr]
  simp only [bind, EStateM.bind, hresolve]
  exact u.load_eq id.span _

/-- An expression without names, whatever the stage is. -/
theorem Expr.comesTo_of_eval {e : Expr} {σ : CompileState} {span : Span} {result : Except Cause Value}
    (hsimple : e.Simple σ.symbols.globalSlot?) (hroom : e.room ≤ 2)
    (heval : ∀ st, (e.eval σ.symbols.globalSlot?).run st = (Eval.ofExcept span result).run st)
    (hcompiles : σ.pool.size + 2 ≤ Pool.capacity → ∀ R, ∃ σ', (CompileM.expr R e).run σ = .ok () σ') :
    e.ComesTo σ (fun _ => True) span result where
  compiles := hcompiles
  runs R σ' hrun := by
    obtain ⟨seg, happends, hperforms⟩ := realizes_expr R e hsimple σ σ' rfl hrun
    refine ⟨seg, happends.items, fun C hC _ => ?_⟩
    have hstart : C.At σ.size [] C.store C.start := hC.ip ▸ hC.ready.at_start
    have hfits : C.start.machine.sp + e.room ≤ C.start.machine.stack.size := by
      have := hC.room
      omega
    rw [← heval]
    exact hperforms C hC.code hC.constants [] hfits C.store C.start hstart

namespace BinaryOp

variable {op : BinaryOp} {a b : Int64} {span : Span}

theorem comesTo_folded (op : BinaryOp) {l r : Expr} {s s' : Span} (span : Span)
    (hl : (Fold.expr l).val = .literal (.int a) s) (hr : (Fold.expr r).val = .literal (.int b) s')
    (σ : CompileState) :
    (Fold.expr (.binary op.symbol l r span)).val.ComesTo σ (fun _ => True) span (op.onInts a b) := by
  rw [fold_symbol hl hr]
  cases hresult : op.onInts a b with
  | ok v =>
    obtain ⟨lit, hlit, rfl⟩ := literal_of_onInts hresult
    simp only [Fold.outcome, Fold.replace, hlit]
    refine Expr.comesTo_of_eval trivial (Nat.le_succ 1) (fun st => rfl) fun hpool R => ?_
    obtain ⟨σ', hσ', -⟩ := compile_literal lit span (σ := σ) (by omega)
    exact ⟨σ', by rwa [CompileM.expr]⟩
  | error c =>
    have hroom := Nat.le_of_eq (room_symbol op (.literal (.int a) s) (.literal (.int b) s') span)
    refine Expr.comesTo_of_eval ⟨trivial, trivial⟩ hroom (fun st => ?_) fun hpool R => ?_
    · rw [Fold.outcome, eval_symbol, ← hresult]
      rfl
    · obtain ⟨σ₁, h₁, hpool₁⟩ := compile_literal (.int a) s (σ := σ) (by omega)
      obtain ⟨σ₂, h₂, -⟩ := compile_literal (.int b) s' (σ := σ₁) (by omega)
      refine ⟨σ₂.emit op.opcode [] span, ?_⟩
      rw [Fold.outcome, compile_symbol, CompileM.expr, CompileM.expr]
      show (literal _ _ >>= fun _ => literal _ _ >>= fun _ => put op.opcode [] span) σ = _
      simp only [bind, EStateM.bind, h₁, h₂]
      rfl

theorem compile_variables (R : Regions) (op : BinaryOp) {x y : Ident} (span : Span) {σ : CompileState} {u v : Symbol}
    {t t' : SymbolTable} (hx : σ.symbols.resolve x.name = (some u, t)) (hy : t.resolve y.name = (some v, t')) :
    CompileM.expr R (.binary op.symbol (.ident x) (.ident y) span) σ =
      .ok () (((σ.reading (u.loading x.span) t).reading (v.loading y.span) t').emit op.opcode [] span) := by
  have h₁ := compile_ident R hx
  have h₂ := compile_ident R (σ := σ.reading (u.loading x.span) t) hy
  rw [compile_symbol]
  simp only [bind, EStateM.bind, h₁, h₂]
  rfl

theorem comesTo_variables (op : BinaryOp) {x y : Ident} (span : Span) {σ : CompileState} {u v : Symbol}
    {t t' : SymbolTable} (hx : σ.symbols.resolve x.name = (some u, t)) (hy : t.resolve y.name = (some v, t')) :
    (Expr.binary op.symbol (.ident x) (.ident y) span).ComesTo σ
      (fun C => C.Holds u (.int a) ∧ C.Holds v (.int b)) span (op.onInts a b) := by
  let lu := u.loading x.span
  let lv := v.loading y.span
  let σ₁ := σ.reading lu t
  let σ₂ := σ₁.reading lv t'
  have hrun (R : Regions) := compile_variables R op span hx hy
  refine ⟨fun _ R => ⟨_, hrun R⟩, fun R σ' hσ' => ?_⟩
  obtain rfl : σ₂.emit op.opcode [] span = σ' := by
    rw [EStateM.run, hrun R] at hσ'
    cases hσ'
    rfl
  have hitems : (σ₂.emit op.opcode [] span).items = σ.items ++ [lu, lv, ⟨op.opcode, [], span⟩] := by
    simp [σ₁, σ₂]
  refine ⟨[lu, lv, ⟨op.opcode, [], span⟩], hitems, fun C hC hholds => ?_⟩
  obtain ⟨⟨hu, hua⟩, hv, hvb⟩ := hholds
  have hcode := hC.code
  have hroom (vs : List Value) (hvs : vs.length < 2) : C.HasRoom vs := by
    have := hC.room
    unfold Stage.HasRoom
    omega
  -- the two operands are loaded one after the other, and the operator takes them from the stack
  have hleft : C.Carries σ.size [] (C.read u) σ₁.size fun a => [a] :=
    Stage.carries_load hcode.head hu (hroom [] Nat.two_pos)
  have hright (a : Value) : C.Carries σ₁.size [a] (C.read v) σ₂.size fun b => [a, b] :=
    Stage.carries_load hcode.tail.head hv (hroom [a] Nat.one_lt_two)
  have hop (a b : Value) : C.Carries σ₂.size [a, b] (Eval.binary op span a b)
      (σ₂.emit op.opcode [] span).size fun w => [w] := by
    have h : C.Carries σ₂.size [a, b] (Eval.binary op span a b) (σ₂.size + 1) fun w => [w] :=
      Stage.carries_binary hcode.tail.tail.head (hroom [] Nat.two_pos)
    rwa [show (σ₂.emit op.opcode [] span).size = σ₂.size + 1 by cases op <;> rfl]
  have hall := (hleft.bind fun a => (hright a).bind fun b => hop a b) C.store C.start (hC.ip ▸ hC.ready.at_start)
  have hvalue : (do
      let a ← C.read u
      let b ← C.read v
      Eval.binary op span a b : Eval Value).run C.store = (Eval.ofExcept span (op.onInts a b)).run C.store := by
    show (Eval.binary op span (C.valueOf u C.store) (C.valueOf v C.store)).run C.store = _
    rw [hua, hvb]
    rfl
  rwa [hvalue] at hall

end BinaryOp

/-! ## The instruction -/

/-- The machine is about to apply an operator to the two integers on top of its stack. -/
structure State.Faces (s : State) (f : Frame) (op : BinaryOp) (a b : Int64) : Prop where
  frame : s.machine.frames.back? = some f
  waiting : s.machine.waiting = none
  byte : f.code[f.ip]? = some op.opcode.toByte
  depth : 2 ≤ s.machine.sp
  left : s.machine.stack[s.machine.sp - 2]? = some (.int a)
  right : s.machine.stack[s.machine.sp - 1]? = some (.int b)

/-- One turn of a machine comes to the result: a value in place of the two operands, or a fault at the instruction
of the running frame. -/
def State.Answers (s : State) (f : Frame) : Except Cause Value → Prop
  | .ok v => ∃ t, advance.run s = .ok .next t ∧ t.machine.sp = s.machine.sp - 1 ∧
      t.machine.stack[t.machine.sp - 1]? = some v
  | .error c => ∃ t, advance.run s = .error (.fault (c.placed ((f.closure.function.spanAt? f.ip).getD .dummy))) t

theorem State.Faces.answers {s : State} {f : Frame} {op : BinaryOp} {a b : Int64} (h : s.Faces f op a b) :
    s.Answers f (op.onInts a b) := by
  obtain ⟨fs, hframes⟩ := Array.back?_eq_some_iff.mp h.frame
  obtain ⟨sp, hsp⟩ := Nat.exists_eq_add_of_le' h.depth
  have hleft : s.machine.stack[sp]? = some (.int a) := by simpa [hsp] using h.left
  have hright : s.machine.stack[sp + 1]? = some (.int b) := by simpa [hsp] using h.right
  have hsize : sp + 1 < s.machine.stack.size := (Array.getElem?_eq_some_iff.mp hright).1
  -- the instruction is read, and its operands are popped
  let m₀ : Machine := { s.machine with frames := fs.push { f with ip := f.ip + 1 }, opOffset := f.ip }
  let m₁ : Machine := { m₀ with stack := m₀.stack.setIfInBounds (sp + 1) .null, sp := sp + 1 }
  let m₂ : Machine := { m₁ with stack := m₁.stack.setIfInBounds sp .null, sp }
  have hperform : perform op.opcode = (do binary op; return .next) := by cases op <;> rfl
  have hpop₁ : pop ⟨s.world, m₀⟩ = .ok (.int b) ⟨s.world, m₁⟩ := by
    refine (pop_eq (v := .int b) ?_ ?_).trans ?_ <;> simp [m₀, m₁, hsp, hright]
  have hpop₂ : pop ⟨s.world, m₁⟩ = .ok (.int a) ⟨s.world, m₂⟩ := by
    refine (pop_eq (v := .int a) ?_ ?_).trans ?_ <;> simp [m₀, m₁, m₂, hleft, Array.getElem?_setIfInBounds_ne]
  have hbinary : binary op ⟨s.world, m₀⟩ = (Exec.ofExcept (op.onInts a b) >>= push) ⟨s.world, m₂⟩ :=
    (Exec.bind_eq hpop₁).trans (Exec.bind_eq hpop₂)
  have hadvance : advance s = (do binary op; return .next : Exec Signal) ⟨s.world, m₀⟩ := by
    rw [advance_eq hframes h.waiting h.byte, hperform]
  cases hresult : op.onInts a b with
  | ok v =>
    rw [hresult] at hbinary
    have hpush := push_eq (s := ⟨s.world, m₂⟩) (by simp [m₀, m₁, m₂]; omega) v
    refine ⟨_, hadvance.trans (Exec.bind_eq (hbinary.trans hpush)), ?_, ?_⟩
    · simp [m₂, hsp]
    · simp only [m₂, Nat.add_sub_cancel]
      exact Array.getElem?_setIfInBounds_self_of_lt (by simp [m₀, m₁]; omega)
  | error c =>
    rw [hresult] at hbinary
    have hspan : m₂.span = (f.closure.function.spanAt? f.ip).getD .dummy := by
      show ((fs.push { f with ip := f.ip + 1 }).back?.bind fun g => g.closure.function.spanAt? f.ip).getD _ = _
      rw [Array.back?_push]
      rfl
    refine ⟨⟨s.world, m₂⟩, hadvance.trans ?_⟩
    rw [← hspan]
    show EStateM.bind (binary op) _ _ = _
    unfold EStateM.bind
    rw [hbinary]
    rfl

/-! ## Results -/

/-- The operator has a result on two integers, however it is evaluated. -/
structure BinaryOp.Evaluates (op : BinaryOp) (a b : Int64) (result : Except Cause Value) : Prop where
  /-- Operands that fold to literals fold further, unless the machine is to refuse them. -/
  folds : ∀ {l r : Expr} {s s' : Span} (span : Span), (Fold.expr l).val = .literal (.int a) s →
    (Fold.expr r).val = .literal (.int b) s' → (Fold.expr (.binary op.symbol l r span)).val =
      Fold.outcome result span (.binary op.symbol (.literal (.int a) s) (.literal (.int b) s') span)
  /-- What folding gives comes to the result. -/
  folded : ∀ {l r : Expr} {s s' : Span} (span : Span), (Fold.expr l).val = .literal (.int a) s →
    (Fold.expr r).val = .literal (.int b) s' → ∀ σ,
      (Fold.expr (.binary op.symbol l r span)).val.ComesTo σ (fun _ => True) span result
  /-- Variables that hold the integers come to the result. -/
  executed : ∀ {x y : Ident} (span : Span) {σ : CompileState} {u v : Symbol} {t t' : SymbolTable},
    σ.symbols.resolve x.name = (some u, t) → t.resolve y.name = (some v, t') →
      (Fold.expr (.binary op.symbol (.ident x) (.ident y) span)).val.ComesTo σ
        (fun C => C.Holds u (.int a) ∧ C.Holds v (.int b)) span result
  /-- The instruction comes to the result in every state that has the integers on its stack. -/
  applied : ∀ {s : State} {f : Frame}, s.Faces f op a b → s.Answers f result

namespace BinaryOp

theorem evaluates_onInts (op : BinaryOp) (a b : Int64) : op.Evaluates a b (op.onInts a b) where
  folds _ hl hr := fold_symbol hl hr
  folded span hl hr σ := comesTo_folded op span hl hr σ
  executed span _ _ _ _ _ hx hy := comesTo_variables op span hx hy
  applied h := h.answers

/-- Division and remainder of integers, folded or executed: division by zero is refused, and nothing else is. -/
theorem divides_integers (a b : Int64) :
    (b = 0 → div.Evaluates a b (.error .divideByZero) ∧ mod.Evaluates a b (.error .divideByZero)) ∧
    (b ≠ 0 → ∃ q r, Divided a b q r ∧ div.Evaluates a b (.ok (.int q)) ∧ mod.Evaluates a b (.ok (.int r))) := by
  have hdiv := evaluates_onInts div a b
  have hmod := evaluates_onInts mod a b
  constructor
  · rintro rfl
    exact ⟨hdiv, hmod⟩
  · intro hb
    simp only [onInts, beq_iff_eq, if_neg hb] at hdiv hmod
    exact ⟨a / b, a % b, divided_div_mod hb, hdiv, hmod⟩

/-- The scope of two globals. -/
def twoGlobals : SymbolTable := (SymbolTable.empty.bind ⟨"a", .global, 0, false⟩).bind ⟨"b", .global, 1, false⟩

/-- The code of `a / b`. -/
def leastDivided.code : List Emitted :=
  [⟨.getGlobal, [0], .dummy⟩, ⟨.getGlobal, [1], .dummy⟩, ⟨.div, [], .dummy⟩]

/-- A machine at the beginning of it, with the least integer in the one global and `b` in the other. -/
def leastDivided (b : Int64) : Stage :=
  let C := Stage.atBlock #[] leastDivided.code 2
  { C with start := { C.start with world := { C.start.world with globals := #[.int Int64.minValue, .int b] } } }

theorem leastDivided_comes {b : Int64} {result : Except Cause Value} (h : div.Evaluates Int64.minValue b result) :
    (leastDivided b).Ends 7 (fun v => [v]) (leastDivided b).start
      ((Eval.ofExcept .dummy result).run (leastDivided b).store) := by
  let σ : CompileState := { CompileState.ofCode #[] [] with symbols := twoGlobals }
  have hx : σ.symbols.resolve (Build.ident "a").name = (some ⟨"a", .global, 0, false⟩, twoGlobals) :=
    SymbolTable.resolve_of_lookup? (by
      simp [σ, twoGlobals, SymbolTable.lookup?, SymbolTable.bind, Scope.insert, Build.ident,
        Std.HashMap.getElem_insert])
  have hy : twoGlobals.resolve (Build.ident "b").name = (some ⟨"b", .global, 1, false⟩, twoGlobals) :=
    SymbolTable.resolve_of_lookup? (by
      simp [twoGlobals, SymbolTable.lookup?, SymbolTable.bind, Scope.insert, Build.ident])
  obtain ⟨seg, hseg, hends⟩ := (h.executed .dummy hx hy).runs [] _ (compile_variables [] div .dummy hx hy)
  obtain rfl : leastDivided.code = seg := hseg
  have hholds : (leastDivided b).Holds ⟨"a", .global, 0, false⟩ (.int Int64.minValue) ∧
      (leastDivided b).Holds ⟨"b", .global, 1, false⟩ (.int b) :=
    ⟨⟨Nat.zero_lt_succ _, rfl⟩, Nat.succ_lt_succ (Nat.zero_lt_succ _), rfl⟩
  refine hends (leastDivided b) ⟨⟨rfl, rfl⟩, rfl, ?_, ?_, Nat.le_refl 2⟩ hholds
  · have hsized : ∀ i ∈ leastDivided.code, i.Sized := by simp [leastDivided.code, Emitted.Sized, Opcode.widths]
    have hat : (Stage.atBlock #[] leastDivided.code 2).frame.closure.function.HasAt 0 leastDivided.code :=
      Stage.hasAt_atBlock hsized
    exact hat
  · exact Pool.loads_load #[] Heap.empty (by simp)

/-- The least integer by `-1` is the least integer again, and by zero it is refused. -/
theorem leastDivided_evaluates :
    (Fold.expr (Build.binary "/" (Build.int Int64.minValue) (Build.unary "-" (Build.int 1)))).val =
      Build.int Int64.minValue ∧
    (∃ t, (leastDivided (-1)).start.Reaches t ∧
      (leastDivided (-1)).At 7 [.int Int64.minValue] (leastDivided (-1)).store t) ∧
    ∃ t t', (leastDivided 0).start.Reaches t ∧
      advance.run t = .error (.fault (Cause.divideByZero.placed .dummy)) t' := by
  obtain ⟨q, r, hdivided, hdiv, -⟩ := (divides_integers Int64.minValue (-1)).2 (by decide)
  obtain rfl : q = Int64.minValue := hdivided.quotient
  have hzero := ((divides_integers Int64.minValue 0).1 rfl).1
  refine ⟨hdiv.folds .dummy rfl rfl, leastDivided_comes hdiv, ?_⟩
  obtain ⟨-, -, t, t', hreach, -, hfault⟩ := leastDivided_comes hzero
  exact ⟨t, t', hreach, hfault⟩

end BinaryOp

end ScriptMachine
