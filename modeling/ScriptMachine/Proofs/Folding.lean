import ScriptMachine.Proofs.Expression.Compile
import ScriptMachine.Proofs.Finally.Source

/-!
# What folding keeps

Folding goes over a program once, from the leaves up. What it leaves behind cannot be folded any further,
has the shape of what it was made from, and still has every operation that the machine may refuse.

1. **Values**: an expression that is folded to a literal evaluates to it, whatever the heap and the globals
   are (`Fold.yields`). This is what allows a node to be replaced.
2. **Shape**: `Expr.Folds` and its companions relate a tree to its folded form, one rule per kind of node;
   `Fold.stmts_fold` is the induction over all kinds of nodes.
3. **Fixed point**: the folded tree is folded to itself, and nothing is counted (`Fold.stmts_fixed`).
4. **Refusals**: a node that is not replaced stands in the folded program in its place, since a node above it
   could be replaced only if it were a literal (`Fold.program_contains`).
-/

namespace ScriptMachine

/-! ## Values -/

/-- The evaluation of an expression ends with a literal, in every store, and leaves the store as it is. -/
def Expr.Yields (e : Expr) (l : Literal) : Prop :=
  ∀ slot store, (e.eval slot).run store = .ok l.value store

/-- The literals that count as zero: the integer, and the float of either sign. -/
def Literal.IsZero : Literal → Prop
  | .int n => n = 0
  | .float x => (x == 0.0) = true
  | _ => False

theorem Eval.bind_eq {α β : Type} {x : Eval α} {f : α → Eval β} {a : α} {store store' : Store}
    (h : x.run store = .ok a store') : (x >>= f).run store = (f a).run store' := by
  change EStateM.bind x f store = _
  unfold EStateM.bind
  change x store = _ at h
  rw [h]
  rfl

theorem Eval.binary_eq {op : BinaryOp} {span : Span} {a b v : Value} {store : Store}
    (h : op.apply store.heap a b = .ok v) : (Eval.binary op span a b).run store = .ok v store := by
  change (Eval.ofExcept span (op.apply store.heap a b)).run store = _
  rw [h]
  rfl

namespace Fold

theorem value_of_literal? {v : Value} {l : Literal} (h : literal? v = some l) : l.value = v := by
  cases v with
  | int | float | str | bool =>
    cases h
    rfl
  | _ => cases h

/-- Folding takes up literals at their values. -/
theorem exists_of_foldable? {e : Expr} {v : Value} (h : foldable? e = some v) :
    ∃ l s, e = .literal l s ∧ l.value = v := by
  cases e with
  | literal l s =>
    cases l with
    | null => cases h
    | _ =>
      cases h
      exact ⟨_, s, rfl, rfl⟩
  | _ => cases h

/-- Comparing literals does not take the heap. -/
theorem equal_value (h : Heap) (a b : Literal) : h.equal a.value b.value = Heap.empty.equal a.value b.value := by
  cases a <;> cases b <;> rfl

/-- Operators on literals do not look at the heap. -/
theorem apply_value (h : Heap) (op : BinaryOp) (a b : Literal) :
    op.apply h a.value b.value = op.apply .empty a.value b.value := by
  have heq := equal_value h a b
  cases a <;> cases b <;> cases op <;> simp only [BinaryOp.apply, Literal.value] at heq ⊢ <;> rw [heq]

/-- Nothing is divided by a literal that is zero: a number is refused, and so is what is no number. -/
theorem apply_zero (h : Heap) {op : BinaryOp} (hop : op = .div ∨ op = .mod) (a : Value) {z : Literal}
    (hz : z.IsZero) (v : Value) : op.apply h a z.value ≠ .ok v := by
  have hfloats : ∀ x y : Float, (y == 0.0) = true → op.onFloats x y = .error .divideByZero := by
    intro x y hy
    rcases hop with rfl | rfl <;> exact if_pos hy
  cases z with
  | int n =>
    subst hz
    have hints : ∀ x : Int64, op.onInts x 0 = .error .divideByZero := by
      intro x
      rcases hop with rfl | rfl <;> rfl
    -- next to a float the integer becomes a float that is zero too
    have hzero : (Float.ofInt 0 == 0.0) = true := by decide +kernel
    cases a with
    | int x => simp [BinaryOp.apply, Literal.value, hints]
    | float x =>
      have herror := hfloats x (Float.ofInt 0) hzero
      rcases hop with rfl | rfl <;> simp [BinaryOp.apply, BinaryOp.float?, Literal.value, herror]
    | _ => rcases hop with rfl | rfl <;> simp [BinaryOp.apply, BinaryOp.float?, Literal.value]
  | float y =>
    have herror := fun x => hfloats x y hz
    cases a with
    | int | float => rcases hop with rfl | rfl <;> simp [BinaryOp.apply, BinaryOp.float?, Literal.value, herror]
    | _ => rcases hop with rfl | rfl <;> simp [BinaryOp.apply, BinaryOp.float?, Literal.value]
  | _ => cases hz

/-- A unary operator that is folded evaluates to the literal. -/
theorem yields_unary {op : String} {x : Expr} {a l : Literal} (hx : x.Yields a)
    {sx span : Span} (h : unary? op (.literal a sx) = some l) : (Expr.unary op x span).Yields l := by
  intro slot store
  rcases Option.bind_eq_some_iff.mp h with ⟨v, hv, hresult⟩
  rcases exists_of_foldable? hv with ⟨_, _, ⟨⟩, rfl⟩
  rw [Expr.eval, Eval.bind_eq (hx slot store)]
  split at hresult
  · split at hresult
    · next r hnegate =>
      rw [hnegate, value_of_literal? hresult]
      rfl
    · cases hresult
  · rw [value_of_literal? hresult]
    rfl
  · cases hresult

/-- A binary operator that is folded evaluates to the literal. -/
theorem yields_binary {op : String} {x y : Expr} {a b l : Literal} (hx : x.Yields a) (hy : y.Yields b)
    {sx sy span : Span} (h : binary? op (.literal a sx) (.literal b sy) = some l) :
    (Expr.binary op x y span).Yields l := by
  intro slot store
  have hxs := hx slot store
  have hys := hy slot store
  rcases Option.bind_eq_some_iff.mp h with ⟨v, hv, h'⟩
  rcases Option.bind_eq_some_iff.mp h' with ⟨w, hw, hresult⟩
  rcases exists_of_foldable? hv with ⟨_, _, ⟨⟩, rfl⟩
  rcases exists_of_foldable? hw with ⟨_, _, ⟨⟩, rfl⟩
  rw [Expr.eval]
  split at hresult
  · -- the right operand is evaluated if the left one does not decide
    have hl := value_of_literal? hresult
    rw [if_pos (beq_self_eq_true _), Eval.bind_eq hxs, hl]
    split
    · exact hys
    · rfl
  · have hl := value_of_literal? hresult
    rw [if_neg (by decide), if_pos (beq_self_eq_true _), Eval.bind_eq hxs, hl]
    split
    · rfl
    · exact hys
  · next hand hor =>
    rcases Option.bind_eq_some_iff.mp hresult with ⟨⟨op', swap⟩, hop, happly⟩
    rw [if_neg (by simpa using hand), if_neg (by simpa using hor), hop]
    dsimp only at happly
    split at happly
    · next r hr =>
      rw [value_of_literal? happly]
      cases swap with
      | false =>
        change (x.eval slot >>= _).run store = _
        rw [Eval.bind_eq hxs, Eval.bind_eq hys]
        exact Eval.binary_eq ((apply_value _ _ _ _).trans hr)
      | true =>
        change (y.eval slot >>= _).run store = _
        rw [Eval.bind_eq hys, Eval.bind_eq hxs]
        exact Eval.binary_eq ((apply_value _ _ _ _).trans hr)
    · cases happly

/-- A node stays, or the literal that takes its place comes from its operands. -/
theorem literal_of_replace {r : Option Literal} {s : Span} {e : Expr} {l : Literal} {span : Span}
    (he : e.literal? = none) (h : (replace r s e).val = .literal l span) : r = some l ∧ s = span := by
  cases r with
  | none =>
    have hnode : e = .literal l span := h
    rw [hnode] at he
    cases he
  | some l' =>
    cases h
    exact ⟨rfl, rfl⟩

theorem literal_of_unary? {op : String} {x : Expr} {l : Literal} (h : unary? op x = some l) :
    ∃ a s, x = .literal a s := by
  rcases Option.bind_eq_some_iff.mp h with ⟨v, hv, -⟩
  rcases exists_of_foldable? hv with ⟨a, s, hx, -⟩
  exact ⟨a, s, hx⟩

theorem literals_of_binary? {op : String} {x y : Expr} {l : Literal} (h : binary? op x y = some l) :
    (∃ a s, x = .literal a s) ∧ ∃ b s, y = .literal b s := by
  rcases Option.bind_eq_some_iff.mp h with ⟨v, hv, h'⟩
  rcases Option.bind_eq_some_iff.mp h' with ⟨w, hw, -⟩
  rcases exists_of_foldable? hv with ⟨a, s, hx, -⟩
  rcases exists_of_foldable? hw with ⟨b, s', hy, -⟩
  exact ⟨⟨a, s, hx⟩, b, s', hy⟩

/-- What a literal takes the place of evaluates to the literal. -/
theorem yields : ∀ {e : Expr} {l : Literal} {span : Span}, (expr e).val = .literal l span → e.Yields l
  | .literal l s, _, _, h => by
    cases h
    intro slot store
    rfl
  | .unary op x s, l, span, h => by
    have hfold := (literal_of_replace rfl h).1
    rcases literal_of_unary? hfold with ⟨a, sx, hx⟩
    rw [hx] at hfold
    exact yields_unary (yields hx) hfold
  | .binary op x y s, l, span, h => by
    have hfold := (literal_of_replace rfl h).1
    rcases literals_of_binary? hfold with ⟨⟨a, sx, hx⟩, b, sy, hy⟩
    rw [hx, hy] at hfold
    exact yields_binary (yields hx) (yields hy) hfold

end Fold

/-! ## Shape -/

mutual

/-- A folded expression is of the same kind, with the same span and with its parts folded in their places;
or it was an operator on literals, and the literal that it evaluates to has its span. -/
inductive Expr.Folds : Expr → Expr → Prop
  | literal {l : Literal} {s : Span} : Expr.Folds (.literal l s) (.literal l s)
  | ident {id : Ident} : Expr.Folds (.ident id) (.ident id)
  | this {s : Span} : Expr.Folds (.this s) (.this s)
  | super {m : Ident} {s : Span} : Expr.Folds (.super m s) (.super m s)
  | unary {op : String} {x x' : Expr} {s : Span} (hx : x.Folds x') : Expr.Folds (.unary op x s) (.unary op x' s)
  | unaryReplaced {op : String} {x : Expr} {a l : Literal} {s sx : Span} (hx : x.Folds (.literal a sx))
      (hl : (Expr.unary op x s).Yields l) : Expr.Folds (.unary op x s) (.literal l s)
  | binary {op : String} {x x' y y' : Expr} {s : Span} (hx : x.Folds x') (hy : y.Folds y') :
      Expr.Folds (.binary op x y s) (.binary op x' y' s)
  | binaryReplaced {op : String} {x y : Expr} {a b l : Literal} {s sx sy : Span} (hx : x.Folds (.literal a sx))
      (hy : y.Folds (.literal b sy)) (hl : (Expr.binary op x y s).Yields l) :
      Expr.Folds (.binary op x y s) (.literal l s)
  | ternary {c c' y y' n n' : Expr} {s : Span} (hc : c.Folds c') (hy : y.Folds y') (hn : n.Folds n') :
      Expr.Folds (.ternary c y n s) (.ternary c' y' n' s)
  | cond {c c' : Expr} {y y' : Block} {n n' : Option Block} {s : Span} (hc : c.Folds c') (hy : y.Folds y')
      (hn : Option.Rel Block.Folds n n') : Expr.Folds (.cond c y n s) (.cond c' y' n' s)
  | function {f f' : FunctionLiteral} (hf : f.Folds f') : Expr.Folds (.function f) (.function f')
  | call {f f' : Expr} {args args' : List Expr} {s : Span} (hf : f.Folds f')
      (hargs : List.Forall₂ Expr.Folds args args') : Expr.Folds (.call f args s) (.call f' args' s)
  | array {es es' : List Element} {ordered : Bool} {s : Span} (hes : List.Forall₂ Element.Folds es es') :
      Expr.Folds (.array es ordered s) (.array es' ordered s)
  | index {t t' i i' : Expr} {s : Span} (ht : t.Folds t') (hi : i.Folds i') : Expr.Folds (.index t i s) (.index t' i' s)
  | hash {ps ps' : List (Expr × Expr)} {s : Span} (hps : List.Forall₂ PairFolds ps ps') :
      Expr.Folds (.hash ps s) (.hash ps' s)
  | assign {t : Ident} {v v' : Expr} {s : Span} (hv : v.Folds v') : Expr.Folds (.assign t v s) (.assign t v' s)
  | indexAssign {t t' i i' v v' : Expr} {s : Span} (ht : t.Folds t') (hi : i.Folds i') (hv : v.Folds v') :
      Expr.Folds (.indexAssign t i v s) (.indexAssign t' i' v' s)
  | member {t t' : Expr} {m : Ident} {s : Span} (ht : t.Folds t') : Expr.Folds (.member t m s) (.member t' m s)
  | memberAssign {t t' v v' : Expr} {m : Ident} {s : Span} (ht : t.Folds t') (hv : v.Folds v') :
      Expr.Folds (.memberAssign t m v s) (.memberAssign t' m v' s)
  | spawn {f f' : Expr} {args args' : List Expr} {s : Span} (hf : f.Folds f')
      (hargs : List.Forall₂ Expr.Folds args args') : Expr.Folds (.spawn f args s) (.spawn f' args' s)
  | channel {c c' : Option Expr} {s : Span} (hc : Option.Rel Expr.Folds c c') :
      Expr.Folds (.channel c s) (.channel c' s)
  | send {c c' v v' : Expr} {s : Span} (hc : c.Folds c') (hv : v.Folds v') : Expr.Folds (.send c v s) (.send c' v' s)
  | receive {c c' : Expr} {s : Span} (hc : c.Folds c') : Expr.Folds (.receive c s) (.receive c' s)

inductive Element.Folds : Element → Element → Prop
  | mk {k k' : Option Expr} {v v' : Expr} (hk : Option.Rel Expr.Folds k k') (hv : v.Folds v') :
      Element.Folds ⟨k, v⟩ ⟨k', v'⟩

inductive PairFolds : Expr × Expr → Expr × Expr → Prop
  | mk {k k' v v' : Expr} (hk : k.Folds k') (hv : v.Folds v') : PairFolds (k, v) (k', v')

/-- A block keeps its statements in their order. -/
inductive Block.Folds : Block → Block → Prop
  | mk {ss ss' : List Stmt} {s : Span} (hss : List.Forall₂ Stmt.Folds ss ss') : Block.Folds ⟨ss, s⟩ ⟨ss', s⟩

inductive FunctionLiteral.Folds : FunctionLiteral → FunctionLiteral → Prop
  | mk {name : Option String} {params : List Ident} {b b' : Block} {s : Span} (hb : b.Folds b') :
      FunctionLiteral.Folds ⟨name, params, b, s⟩ ⟨name, params, b', s⟩

inductive CatchClause.Folds : CatchClause → CatchClause → Prop
  | mk {param : Option Ident} {b b' : Block} (hb : b.Folds b') : CatchClause.Folds ⟨param, b⟩ ⟨param, b'⟩

/-- A folded statement is of the same kind, with the same span and with its parts folded in their places. -/
inductive Stmt.Folds : Stmt → Stmt → Prop
  | bind {name : Ident} {v v' : Expr} {constant : Bool} {s : Span} (hv : v.Folds v') :
      Stmt.Folds (.bind name v constant s) (.bind name v' constant s)
  | expr {e e' : Expr} {s : Span} (he : e.Folds e') : Stmt.Folds (.expr e s) (.expr e' s)
  | block {b b' : Block} (hb : b.Folds b') : Stmt.Folds (.block b) (.block b')
  | ret {v v' : Option Expr} {s : Span} (hv : Option.Rel Expr.Folds v v') : Stmt.Folds (.ret v s) (.ret v' s)
  | forLoop {i i' : Option Stmt} {c c' u u' : Option Expr} {b b' : Block} {s : Span} (hi : Option.Rel Stmt.Folds i i')
      (hc : Option.Rel Expr.Folds c c') (hu : Option.Rel Expr.Folds u u') (hb : b.Folds b') :
      Stmt.Folds (.forLoop i c u b s) (.forLoop i' c' u' b' s)
  | whileLoop {c c' : Expr} {b b' : Block} {s : Span} (hc : c.Folds c') (hb : b.Folds b') :
      Stmt.Folds (.whileLoop c b s) (.whileLoop c' b' s)
  | breakLoop {s : Span} : Stmt.Folds (.breakLoop s) (.breakLoop s)
  | continueLoop {s : Span} : Stmt.Folds (.continueLoop s) (.continueLoop s)
  | classDecl {name : Ident} {parent : Option Ident} {ss ss' : List Stmt} {s : Span}
      (hss : List.Forall₂ Stmt.Folds ss ss') : Stmt.Folds (.classDecl name parent ss s) (.classDecl name parent ss' s)
  | tryCatch {b b' : Block} {c c' : Option CatchClause} {f f' : Option Block} {s : Span} (hb : b.Folds b')
      (hc : Option.Rel CatchClause.Folds c c') (hf : Option.Rel Block.Folds f f') :
      Stmt.Folds (.tryCatch b c f s) (.tryCatch b' c' f' s)
  | throw {v v' : Expr} {s : Span} (hv : v.Folds v') : Stmt.Folds (.throw v s) (.throw v' s)

end

/-- A folded program keeps its statements in their order. -/
def Program.Folds (p q : Program) : Prop := List.Forall₂ Stmt.Folds p.statements q.statements

namespace Fold

mutual

theorem expr_folds : ∀ e : Expr, e.Folds (expr e).val
  | .literal _ _ => .literal
  | .ident _ => .ident
  | .this _ => .this
  | .super _ _ => .super
  | .unary op x s => by
    have hx := expr_folds x
    change Expr.Folds _ (replace (unary? op (expr x).val) s (.unary op (expr x).val s)).val
    cases hl : unary? op (expr x).val with
    | none => exact .unary hx
    | some l =>
      -- the operand was a literal, or there would be nothing to compute
      rcases literal_of_unary? hl with ⟨a, sx, ha⟩
      have hyields : (Expr.unary op x s).Yields l := yields (by rw [expr, Counted.bind_val, hl]; rfl)
      rw [ha] at hx
      exact .unaryReplaced hx hyields
  | .binary op x y s => by
    have hx := expr_folds x
    have hy := expr_folds y
    change Expr.Folds _ (replace (binary? op (expr x).val (expr y).val) s
      (.binary op (expr x).val (expr y).val s)).val
    cases hl : binary? op (expr x).val (expr y).val with
    | none => exact .binary hx hy
    | some l =>
      rcases literals_of_binary? hl with ⟨⟨a, sx, ha⟩, b, sy, hb⟩
      have hyields : (Expr.binary op x y s).Yields l :=
        yields (by rw [expr, Counted.bind_val, Counted.bind_val, hl]; rfl)
      rw [ha] at hx
      rw [hb] at hy
      exact .binaryReplaced hx hy hyields
  | .ternary c y n _ => .ternary (expr_folds c) (expr_folds y) (expr_folds n)
  | .cond c y n _ => .cond (expr_folds c) (block_folds y) (optBlock_folds n)
  | .function f => .function (functionLiteral_folds f)
  | .call f args _ => .call (expr_folds f) (exprs_fold args)
  | .array es _ _ => .array (elements_fold es)
  | .index t i _ => .index (expr_folds t) (expr_folds i)
  | .hash ps _ => .hash (pairs_fold ps)
  | .assign _ v _ => .assign (expr_folds v)
  | .indexAssign t i v _ => .indexAssign (expr_folds t) (expr_folds i) (expr_folds v)
  | .member t _ _ => .member (expr_folds t)
  | .memberAssign t _ v _ => .memberAssign (expr_folds t) (expr_folds v)
  | .spawn f args _ => .spawn (expr_folds f) (exprs_fold args)
  | .channel c _ => .channel (optExpr_folds c)
  | .send c v _ => .send (expr_folds c) (expr_folds v)
  | .receive c _ => .receive (expr_folds c)
termination_by structural e => e

theorem exprs_fold : ∀ es : List Expr, List.Forall₂ Expr.Folds es (exprs es).val
  | [] => .nil
  | e :: es => .cons (expr_folds e) (exprs_fold es)
termination_by structural es => es

theorem optExpr_folds : ∀ e : Option Expr, Option.Rel Expr.Folds e (optExpr e).val
  | none => .none
  | some e => .some (expr_folds e)
termination_by structural e => e

theorem elements_fold : ∀ es : List Element, List.Forall₂ Element.Folds es (elements es).val
  | [] => .nil
  | e :: es => .cons (element_folds e) (elements_fold es)
termination_by structural es => es

theorem element_folds : ∀ e : Element, e.Folds (element e).val
  | ⟨k, v⟩ => .mk (optExpr_folds k) (expr_folds v)
termination_by structural e => e

theorem pairs_fold : ∀ ps : List (Expr × Expr), List.Forall₂ PairFolds ps (pairs ps).val
  | [] => .nil
  | (k, v) :: ps => .cons (.mk (expr_folds k) (expr_folds v)) (pairs_fold ps)
termination_by structural ps => ps

theorem block_folds : ∀ b : Block, b.Folds (block b).val
  | ⟨ss, _⟩ => .mk (stmts_fold ss)
termination_by structural b => b

theorem optBlock_folds : ∀ b : Option Block, Option.Rel Block.Folds b (optBlock b).val
  | none => .none
  | some b => .some (block_folds b)
termination_by structural b => b

theorem functionLiteral_folds : ∀ f : FunctionLiteral, f.Folds (functionLiteral f).val
  | ⟨_, _, body, _⟩ => .mk (block_folds body)
termination_by structural f => f

theorem optCatch_folds : ∀ c : Option CatchClause, Option.Rel CatchClause.Folds c (optCatch c).val
  | none => .none
  | some c => .some (catchClause_folds c)
termination_by structural c => c

theorem catchClause_folds : ∀ c : CatchClause, c.Folds (catchClause c).val
  | ⟨_, body⟩ => .mk (block_folds body)
termination_by structural c => c

theorem stmt_folds : ∀ s : Stmt, s.Folds (stmt s).val
  | .bind _ v _ _ => .bind (expr_folds v)
  | .expr e _ => .expr (expr_folds e)
  | .block b => .block (block_folds b)
  | .ret v _ => .ret (optExpr_folds v)
  | .forLoop i c u b _ => .forLoop (optStmt_folds i) (optExpr_folds c) (optExpr_folds u) (block_folds b)
  | .whileLoop c b _ => .whileLoop (expr_folds c) (block_folds b)
  | .breakLoop _ => .breakLoop
  | .continueLoop _ => .continueLoop
  | .classDecl _ _ ss _ => .classDecl (stmts_fold ss)
  | .tryCatch b c f _ => .tryCatch (block_folds b) (optCatch_folds c) (optBlock_folds f)
  | .throw v _ => .throw (expr_folds v)
termination_by structural s => s

theorem optStmt_folds : ∀ s : Option Stmt, Option.Rel Stmt.Folds s (optStmt s).val
  | none => .none
  | some s => .some (stmt_folds s)
termination_by structural s => s

theorem stmts_fold : ∀ ss : List Stmt, List.Forall₂ Stmt.Folds ss (stmts ss).val
  | [] => .nil
  | s :: ss => .cons (stmt_folds s) (stmts_fold ss)
termination_by structural ss => ss

end

end Fold

/-! ## Fixed point -/

theorem Counted.pure_bind {α β : Type} (a : α) (f : α → Counted β) : (pure a >>= f) = f a := by
  change Counted.mk (f a).val (0 + (f a).count) = f a
  rw [Nat.zero_add]

namespace Fold

mutual

theorem expr_fixed : ∀ e : Expr, expr (expr e).val = pure (expr e).val
  | .literal _ _ | .ident _ | .this _ | .super _ _ => rfl
  | .unary op x s => by
    have hx := expr_fixed x
    change expr (replace (unary? op (expr x).val) s (.unary op (expr x).val s)).val = _
    -- what could not be computed from the folded operand still cannot
    cases hl : unary? op (expr x).val with
    | none =>
      change expr (.unary op (expr x).val s) = _
      rw [expr, hx, Counted.pure_bind, hl]
      simp only [expr, Counted.bind_val, hl]
      rfl
    | some l =>
      simp only [expr, Counted.bind_val, hl]
      rfl
  | .binary op x y s => by
    have hx := expr_fixed x
    have hy := expr_fixed y
    change expr (replace (binary? op (expr x).val (expr y).val) s (.binary op (expr x).val (expr y).val s)).val = _
    cases hl : binary? op (expr x).val (expr y).val with
    | none =>
      change expr (.binary op (expr x).val (expr y).val s) = _
      rw [expr, hx, Counted.pure_bind, hy, Counted.pure_bind, hl]
      simp only [expr, Counted.bind_val, hl]
      rfl
    | some l =>
      simp only [expr, Counted.bind_val, hl]
      rfl
  | .ternary c y n _ => by
    simp only [expr, Counted.bind_val, Counted.pure_val, Counted.pure_bind, expr_fixed c, expr_fixed y, expr_fixed n]
  | .cond c y n _ => by
    simp only [expr, Counted.bind_val, Counted.pure_val, Counted.pure_bind, expr_fixed c, block_fixed y,
      optBlock_fixed n]
  | .function f => by
    simp only [expr, Counted.bind_val, Counted.pure_val, Counted.pure_bind, functionLiteral_fixed f]
  | .call f args _ => by
    simp only [expr, Counted.bind_val, Counted.pure_val, Counted.pure_bind, expr_fixed f, exprs_fixed args]
  | .array es _ _ => by
    simp only [expr, Counted.bind_val, Counted.pure_val, Counted.pure_bind, elements_fixed es]
  | .index t i _ => by
    simp only [expr, Counted.bind_val, Counted.pure_val, Counted.pure_bind, expr_fixed t, expr_fixed i]
  | .hash ps _ => by
    simp only [expr, Counted.bind_val, Counted.pure_val, Counted.pure_bind, pairs_fixed ps]
  | .assign _ v _ => by
    simp only [expr, Counted.bind_val, Counted.pure_val, Counted.pure_bind, expr_fixed v]
  | .indexAssign t i v _ => by
    simp only [expr, Counted.bind_val, Counted.pure_val, Counted.pure_bind, expr_fixed t, expr_fixed i, expr_fixed v]
  | .member t _ _ => by
    simp only [expr, Counted.bind_val, Counted.pure_val, Counted.pure_bind, expr_fixed t]
  | .memberAssign t _ v _ => by
    simp only [expr, Counted.bind_val, Counted.pure_val, Counted.pure_bind, expr_fixed t, expr_fixed v]
  | .spawn f args _ => by
    simp only [expr, Counted.bind_val, Counted.pure_val, Counted.pure_bind, expr_fixed f, exprs_fixed args]
  | .channel c _ => by
    simp only [expr, Counted.bind_val, Counted.pure_val, Counted.pure_bind, optExpr_fixed c]
  | .send c v _ => by
    simp only [expr, Counted.bind_val, Counted.pure_val, Counted.pure_bind, expr_fixed c, expr_fixed v]
  | .receive c _ => by
    simp only [expr, Counted.bind_val, Counted.pure_val, Counted.pure_bind, expr_fixed c]
termination_by structural e => e

theorem exprs_fixed : ∀ es : List Expr, exprs (exprs es).val = pure (exprs es).val
  | [] => rfl
  | e :: es => by
    simp only [exprs, Counted.bind_val, Counted.pure_val, Counted.pure_bind, expr_fixed e, exprs_fixed es]
termination_by structural es => es

theorem optExpr_fixed : ∀ e : Option Expr, optExpr (optExpr e).val = pure (optExpr e).val
  | none => rfl
  | some e => by
    simp only [optExpr, Counted.bind_val, Counted.pure_val, Counted.pure_bind, expr_fixed e]
termination_by structural e => e

theorem elements_fixed : ∀ es : List Element, elements (elements es).val = pure (elements es).val
  | [] => rfl
  | e :: es => by
    simp only [elements, Counted.bind_val, Counted.pure_val, Counted.pure_bind, element_fixed e, elements_fixed es]
termination_by structural es => es

theorem element_fixed : ∀ e : Element, element (element e).val = pure (element e).val
  | ⟨k, v⟩ => by
    simp only [element, Counted.bind_val, Counted.pure_val, Counted.pure_bind, optExpr_fixed k, expr_fixed v]
termination_by structural e => e

theorem pairs_fixed : ∀ ps : List (Expr × Expr), pairs (pairs ps).val = pure (pairs ps).val
  | [] => rfl
  | (k, v) :: ps => by
    simp only [pairs, Counted.bind_val, Counted.pure_val, Counted.pure_bind, expr_fixed k, expr_fixed v,
      pairs_fixed ps]
termination_by structural ps => ps

theorem block_fixed : ∀ b : Block, block (block b).val = pure (block b).val
  | ⟨ss, _⟩ => by
    simp only [block, Counted.bind_val, Counted.pure_val, Counted.pure_bind, stmts_fixed ss]
termination_by structural b => b

theorem optBlock_fixed : ∀ b : Option Block, optBlock (optBlock b).val = pure (optBlock b).val
  | none => rfl
  | some b => by
    simp only [optBlock, Counted.bind_val, Counted.pure_val, Counted.pure_bind, block_fixed b]
termination_by structural b => b

theorem functionLiteral_fixed : ∀ f : FunctionLiteral,
    functionLiteral (functionLiteral f).val = pure (functionLiteral f).val
  | ⟨_, _, body, _⟩ => by
    simp only [functionLiteral, Counted.bind_val, Counted.pure_val, Counted.pure_bind, block_fixed body]
termination_by structural f => f

theorem optCatch_fixed : ∀ c : Option CatchClause, optCatch (optCatch c).val = pure (optCatch c).val
  | none => rfl
  | some c => by
    simp only [optCatch, Counted.bind_val, Counted.pure_val, Counted.pure_bind, catchClause_fixed c]
termination_by structural c => c

theorem catchClause_fixed : ∀ c : CatchClause, catchClause (catchClause c).val = pure (catchClause c).val
  | ⟨_, body⟩ => by
    simp only [catchClause, Counted.bind_val, Counted.pure_val, Counted.pure_bind, block_fixed body]
termination_by structural c => c

theorem stmt_fixed : ∀ s : Stmt, stmt (stmt s).val = pure (stmt s).val
  | .breakLoop _ | .continueLoop _ => rfl
  | .bind _ v _ _ => by
    simp only [stmt, Counted.bind_val, Counted.pure_val, Counted.pure_bind, expr_fixed v]
  | .expr e _ => by
    simp only [stmt, Counted.bind_val, Counted.pure_val, Counted.pure_bind, expr_fixed e]
  | .block b => by
    simp only [stmt, Counted.bind_val, Counted.pure_val, Counted.pure_bind, block_fixed b]
  | .ret v _ => by
    simp only [stmt, Counted.bind_val, Counted.pure_val, Counted.pure_bind, optExpr_fixed v]
  | .forLoop i c u b _ => by
    simp only [stmt, Counted.bind_val, Counted.pure_val, Counted.pure_bind, optStmt_fixed i, optExpr_fixed c,
      optExpr_fixed u, block_fixed b]
  | .whileLoop c b _ => by
    simp only [stmt, Counted.bind_val, Counted.pure_val, Counted.pure_bind, expr_fixed c, block_fixed b]
  | .classDecl _ _ ss _ => by
    simp only [stmt, Counted.bind_val, Counted.pure_val, Counted.pure_bind, stmts_fixed ss]
  | .tryCatch b c f _ => by
    simp only [stmt, Counted.bind_val, Counted.pure_val, Counted.pure_bind, block_fixed b, optCatch_fixed c,
      optBlock_fixed f]
  | .throw v _ => by
    simp only [stmt, Counted.bind_val, Counted.pure_val, Counted.pure_bind, expr_fixed v]
termination_by structural s => s

theorem optStmt_fixed : ∀ s : Option Stmt, optStmt (optStmt s).val = pure (optStmt s).val
  | none => rfl
  | some s => by
    simp only [optStmt, Counted.bind_val, Counted.pure_val, Counted.pure_bind, stmt_fixed s]
termination_by structural s => s

theorem stmts_fixed : ∀ ss : List Stmt, stmts (stmts ss).val = pure (stmts ss).val
  | [] => rfl
  | s :: ss => by
    simp only [stmts, Counted.bind_val, Counted.pure_val, Counted.pure_bind, stmt_fixed s, stmts_fixed ss]
termination_by structural ss => ss

end

end Fold

/-! ## Refusals -/

namespace Term

/-- All terms right below a term, in the bodies of its functions and of its class too. -/
def below : Term → List Term
  | .expr (.function f) => f.body.terms
  | .stmt (.classDecl _ _ body _) => body.map .stmt
  | t => t.parts

/-- A term stands anywhere in another one. -/
def Contains : Term → Term → Prop := Relation.ReflTransGen fun t u => u ∈ t.below

/-- The term is a literal. -/
def IsLiteral (t : Term) : Prop := ∃ l s, t = .expr (.literal l s)

/-- What stands right below a term is folded in its place, unless a literal takes the place of the term, and then
literals have taken the places of all of it. -/
theorem below_fold (t : Term) :
    t.fold.below = t.below.map fold ∨ t.fold.IsLiteral ∧ ∀ u ∈ t.below, u.fold.IsLiteral := by
  cases t with
  | expr e =>
    cases e with
    | unary op x s =>
      cases hl : Fold.unary? op (Fold.expr x).val with
      | none =>
        left
        simp [Fold.expr, Fold.replace, hl, below, parts, ofExpr]
      | some l =>
        right
        rcases Fold.literal_of_unary? hl with ⟨a, sx, ha⟩
        constructor
        · exact ⟨l, s, by simp [Fold.expr, Fold.replace, hl]⟩
        · intro u hu
          rcases List.mem_singleton.mp hu with rfl
          exact ⟨a, sx, congrArg Term.expr ha⟩
    | binary op x y s =>
      cases hl : Fold.binary? op (Fold.expr x).val (Fold.expr y).val with
      | none =>
        left
        simp [Fold.expr, Fold.replace, hl, below, parts, ofExpr]
      | some l =>
        right
        rcases Fold.literals_of_binary? hl with ⟨⟨a, sx, ha⟩, b, sy, hb⟩
        constructor
        · exact ⟨l, s, by simp [Fold.expr, Fold.replace, hl]⟩
        · intro u hu
          rcases List.mem_pair.mp hu with rfl | rfl
          · exact ⟨a, sx, congrArg Term.expr ha⟩
          · exact ⟨b, sy, congrArg Term.expr hb⟩
    | cond c y n span => cases n <;> simp [Fold.expr, below, parts, ofExpr]
    | _ =>
      left
      simp [Fold.expr, below, parts, ofExpr, Function.comp_def, List.flatMap_map, List.map_flatMap, Option.toList_map]
  | stmt s =>
    left
    cases s with
    | tryCatch b c f span => cases c <;> cases f <;> simp [Fold.stmt, below, parts, ofStmt]
    | _ => simp [Fold.stmt, below, parts, ofStmt, Function.comp_def, Option.toList_map]

/-- Nothing else stands in a literal. -/
theorem Contains.eq_of_isLiteral {t u : Term} (h : t.Contains u) (ht : t.IsLiteral) : u = t := by
  rcases ht with ⟨l, s, rfl⟩
  cases h.cases_head with
  | inl heq => exact heq.symm
  | inr hstep =>
    rcases hstep with ⟨v, hv, -⟩
    cases hv

/-- What is not replaced stands in the folded term. -/
theorem Contains.fold {t u : Term} (h : t.Contains u) (hu : ¬ u.fold.IsLiteral) : t.fold.Contains u.fold := by
  induction h using Relation.ReflTransGen.head_induction_on with
  | refl => exact .refl
  | @head t v hstep htail ih =>
    cases t.below_fold with
    | inl hbelow =>
      have hv : v.fold ∈ t.fold.below := by
        rw [hbelow]
        exact List.mem_map_of_mem hstep
      exact .head hv ih
    | inr hreplaced =>
      -- the term below on the way down is a literal now, and so there is nothing further down
      have hv := hreplaced.2 v hstep
      rw [Contains.eq_of_isLiteral ih hv] at hu
      exact absurd hv hu

end Term

/-- An expression stands anywhere in a program. -/
def Program.Contains (p : Program) (e : Expr) : Prop := ∃ s ∈ p.statements, (Term.stmt s).Contains (.expr e)

/-- An operation that the machine refuses, in some store at least: of an unknown operator, a division or a remainder
by what is folded to zero, or anything else that does not evaluate. -/
inductive Expr.Refused : Expr → Prop
  | unknownUnary {op : String} {x : Expr} {s : Span} (hneg : op ≠ "-") (hnot : op ≠ "!") : Refused (.unary op x s)
  | unknownBinary {op : String} {x y : Expr} {s : Span} (hand : op ≠ "&&") (hor : op ≠ "||")
      (hop : BinaryOp.ofText? op = none) : Refused (.binary op x y s)
  | byZero {op : String} {x y : Expr} {z : Literal} {s sz : Span} (hop : op = "/" ∨ op = "%")
      (hy : y.Folds (.literal z sz)) (hz : z.IsZero) : Refused (.binary op x y s)
  | fails {e : Expr} (slot : String → Option Nat) (store : Store)
      (he : ∀ v store', (e.eval slot).run store ≠ .ok v store') : Refused e

/-- What is folded to a literal evaluates to it. -/
theorem Expr.Folds.yields {e : Expr} {l : Literal} {s : Span} (h : e.Folds (.literal l s)) : e.Yields l := by
  cases h with
  | literal =>
    intro slot store
    rfl
  | unaryReplaced _ hl => exact hl
  | binaryReplaced _ _ hl => exact hl

/-- What is refused does not evaluate. -/
theorem Expr.Refused.not_ok {e : Expr} (h : e.Refused) :
    ∃ slot store, ∀ v store', (e.eval slot).run store ≠ .ok v store' := by
  cases h with
  | @unknownUnary op x s hneg hnot =>
    refine ⟨fun _ => none, ⟨.empty, #[]⟩, ?_⟩
    intro v store' heval
    rw [Expr.eval] at heval
    obtain ⟨a, store₁, -, hresult⟩ := Eval.bind_ok heval
    split at hresult
    · exact hneg rfl
    · exact hnot rfl
    · cases hresult
  | @unknownBinary op x y s hand hor hop =>
    refine ⟨fun _ => none, ⟨.empty, #[]⟩, ?_⟩
    intro v store' heval
    rw [Expr.eval, if_neg (by simpa using hand), if_neg (by simpa using hor), hop] at heval
    cases heval
  | @byZero op x y z s sz hop hy hz =>
    refine ⟨fun _ => none, ⟨.empty, #[]⟩, ?_⟩
    intro v store' heval
    -- whatever the left operand is, the right one is zero
    have hzero : ∀ {op' : BinaryOp}, op' = .div ∨ op' = .mod → BinaryOp.ofText? op = some (op', false) → False := by
      intro op' hdiv htext
      have hand : op ≠ "&&" := by rcases hop with rfl | rfl <;> decide
      have hor : op ≠ "||" := by rcases hop with rfl | rfl <;> decide
      rw [Expr.eval, if_neg (by simpa using hand), if_neg (by simpa using hor), htext] at heval
      obtain ⟨a, store₁, -, hright⟩ := Eval.bind_ok heval
      rw [Eval.bind_eq (hy.yields _ _)] at hright
      change (Eval.ofExcept s (op'.apply store₁.heap a z.value)).run store₁ = _ at hright
      cases hresult : op'.apply store₁.heap a z.value with
      | ok w => exact Fold.apply_zero _ hdiv a hz w hresult
      | error c =>
        rw [hresult] at hright
        cases hright
    rcases hop with rfl | rfl
    · exact hzero (.inl rfl) rfl
    · exact hzero (.inr rfl) rfl
  | fails slot store he => exact ⟨slot, store, he⟩

/-- No literal takes the place of what is refused. -/
theorem Expr.Refused.not_isLiteral {e : Expr} (h : e.Refused) : ¬ (Term.expr e).fold.IsLiteral := by
  intro hliteral
  rcases hliteral with ⟨l, s, heq⟩
  rcases h.not_ok with ⟨slot, store, hfails⟩
  have hyields : e.Yields l := Fold.yields (Term.expr.inj heq)
  exact hfails _ _ (hyields slot store)

namespace Fold

/-- What is refused stands in the folded program. -/
theorem program_contains {p : Program} {e : Expr} (h : p.Contains e) (he : e.Refused) :
    (program p).val.Contains (expr e).val := by
  rcases h with ⟨s, hs, hcontains⟩
  refine ⟨(stmt s).val, ?_, hcontains.fold he.not_isLiteral⟩
  change _ ∈ (stmts p.statements).val
  rw [stmts_val]
  exact List.mem_map_of_mem hs

/-- **Folding** reaches its fixed point in one pass, keeps the shape of the program, and keeps what the machine may
refuse. -/
theorem program_settles (p : Program) :
    program (program p).val = ⟨(program p).val, 0⟩ ∧
      p.Folds (program p).val ∧
      ∀ e : Expr, p.Contains e → e.Refused →
        ∃ e', (program p).val.Contains e' ∧ e.Folds e' ∧ e'.literal? = none := by
  constructor
  · change (stmts (stmts p.statements).val >>= fun ss => pure (Program.mk ss)) = _
    rw [stmts_fixed, Counted.pure_bind]
    rfl
  constructor
  · exact stmts_fold p.statements
  · intro e hcontains hrefused
    refine ⟨(expr e).val, program_contains hcontains hrefused, expr_folds e, ?_⟩
    cases hval : (expr e).val with
    | literal l s => exact absurd ⟨l, s, congrArg Term.expr hval⟩ hrefused.not_isLiteral
    | _ => rfl

end Fold

end ScriptMachine
