import ScriptMachine.Proofs.Finally.Laid
import ScriptMachine.Proofs.History

/-!
# Rules for programs

A program keeps to the rules if its finally bodies have no `return`, `break` or `continue`, its update
clauses have no `continue`, and its literals do not have more operands than an instruction can count.
`Regular` says so of the tree of a program, before and after folding, and whatever is compiled from a regular
program is tidy (`Regular.tidy`).

1. **Terms**: what stands in what.
2. **Rules**: what is asked of each term.
3. **Folding**: a folded program keeps to the rules.
4. **Sites**: the pieces that are compiled stand in the program, or in a finally body of it.
-/

namespace ScriptMachine

/-! ## Terms -/

/-- An expression or a statement in a program. -/
inductive Term where
  | expr (e : Expr)
  | stmt (s : Stmt)

def Block.terms (b : Block) : List Term := b.statements.map .stmt

namespace Term

/-- The terms right below an expression, in the same function. -/
def ofExpr : Expr → List Term
  | .literal _ _ | .ident _ | .function _ | .this _ => []
  /- The receiver is an operand of such a call. -/
  | .super _ s => [.expr (.this s)]
  | .unary _ e _ | .member e _ _ | .receive e _ | .assign _ e _ => [.expr e]
  | .binary _ l r _ => [.expr l, .expr r]
  | .ternary c y n _ => [.expr c, .expr y, .expr n]
  | .cond c y n _ => .expr c :: (y.terms ++ n.elim [] Block.terms)
  | .call f args _ | .spawn f args _ => .expr f :: args.map .expr
  | .array es _ _ => es.flatMap fun e => e.key.toList.map .expr ++ [.expr e.value]
  | .index t i _ => [.expr t, .expr i]
  | .hash ps _ => ps.flatMap fun p => [.expr p.1, .expr p.2]
  | .indexAssign t i v _ => [.expr t, .expr i, .expr v]
  | .memberAssign t _ v _ => [.expr t, .expr v]
  | .channel c _ => c.toList.map .expr
  | .send c v _ => [.expr c, .expr v]

/-- The terms right below a statement, in the same function. -/
def ofStmt : Stmt → List Term
  | .bind _ e _ _ | .expr e _ | .throw e _ => [.expr e]
  | .block b => b.terms
  | .ret e _ => e.toList.map .expr
  | .forLoop init c u b _ => init.toList.map .stmt ++ (c.toList.map .expr ++ (u.toList.map .expr ++ b.terms))
  | .whileLoop c b _ => .expr c :: b.terms
  | .breakLoop _ | .continueLoop _ | .classDecl _ _ _ _ => []
  | .tryCatch b c f _ => b.terms ++ (c.elim [] (fun c => c.body.terms) ++ f.elim [] Block.terms)

def parts : Term → List Term
  | .expr e => ofExpr e
  | .stmt s => ofStmt s

/-- The terms of the functions that a term declares. -/
def inner : Term → List Term
  | .expr (.function f) => f.body.terms
  | .stmt (.classDecl _ _ body _) => (Site.methodBodies body).flatMap Block.terms
  | _ => []

/-- A term stands in another one. If it stands in the body of a function there, then `D`. -/
def Has (D : Prop) : Term → Term → Prop := Relation.ReflTransGen fun t u => u ∈ t.parts ∨ D ∧ u ∈ t.inner

/-- The statements that leave regions and loops early. -/
def isExit : Term → Bool
  | .stmt (.ret _ _) | .stmt (.breakLoop _) | .stmt (.continueLoop _) => true
  | _ => false

section

variable {D D' : Prop} {t u v : Term}

theorem Has.refl (t : Term) : t.Has D t := Relation.ReflTransGen.refl

theorem Has.trans (h : t.Has D u) (h' : u.Has D v) : t.Has D v := Relation.ReflTransGen.trans h h'

theorem has_of_parts (h : u ∈ t.parts) : t.Has D u := .single (.inl h)

theorem has_of_inner (hD : D) (h : u ∈ t.inner) : t.Has D u := .single (.inr ⟨hD, h⟩)

theorem Has.mono (h : t.Has D u) (hD : D → D') : t.Has D' u :=
  Relation.ReflTransGen.mono (fun _ _ hstep => hstep.imp_right fun hinner => ⟨hD hinner.1, hinner.2⟩) _ _ h

/-- A list that has all that stands right below its members has all that stands in them. -/
theorem Has.mem (h : t.Has D u) {ts : List Term} (hts : ∀ v ∈ ts, ∀ w, w ∈ v.parts ∨ w ∈ v.inner → w ∈ ts)
    (ht : t ∈ ts) : u ∈ ts := by
  induction h with
  | refl => exact ht
  | tail _ hstep ih => exact hts _ ih _ (hstep.imp_right And.right)

theorem mem_ofElements {span : Span} {next : Int64} {es : List Element} {x : Expr}
    (h : .expr x ∈ Operand.ofElements span next es) : ∃ e ∈ es, e.key = some x ∨ e.value = x := by
  induction es generalizing next with
  | nil => cases h
  | cons e es ih =>
    have later : ∀ {next}, .expr x ∈ Operand.ofElements span next es →
        ∃ e' ∈ e :: es, e'.key = some x ∨ e'.value = x := by
      intro next hmem
      rcases ih hmem with ⟨e', he', hx⟩
      exact ⟨e', List.mem_cons_of_mem _ he', hx⟩
    rcases e with ⟨_ | key, value⟩
    · simp only [Operand.ofElements, List.mem_cons, Operand.expr.injEq, reduceCtorEq, false_or] at h
      rcases h with rfl | hmem
      · exact ⟨_, List.mem_cons_self, .inr rfl⟩
      · exact later hmem
    · simp only [Operand.ofElements, List.mem_cons, Operand.expr.injEq] at h
      rcases h with rfl | rfl | hmem
      · exact ⟨_, List.mem_cons_self, .inl rfl⟩
      · exact ⟨_, List.mem_cons_self, .inr rfl⟩
      · exact later hmem

theorem mem_ofPairs {ps : List (Expr × Expr)} {x : Expr} (h : .expr x ∈ Operand.ofPairs ps) :
    ∃ p ∈ ps, p.1 = x ∨ p.2 = x := by
  induction ps with
  | nil => cases h
  | cons p ps ih =>
    simp only [Operand.ofPairs, List.mem_cons, Operand.expr.injEq] at h
    rcases h with rfl | rfl | hmem
    · exact ⟨p, List.mem_cons_self, .inl rfl⟩
    · exact ⟨p, List.mem_cons_self, .inr rfl⟩
    · rcases ih hmem with ⟨p', hp', hx⟩
      exact ⟨p', List.mem_cons_of_mem _ hp', hx⟩

/-- The operands of an expression stand in it. -/
theorem has_of_operands {e x : Expr} {es : List Operand} (h : e.operands? = some es) (hx : .expr x ∈ es) :
    (expr e).Has D (.expr x) := by
  have below : ∀ {e : Expr}, .expr x ∈ ofExpr e → (expr e).Has D (.expr x) := fun hpart => has_of_parts hpart
  cases e with
  | call f args span =>
    have hargs : .expr x ∈ args.map Operand.expr → (expr (.call f args span)).Has D (.expr x) := by
      intro hmem
      rcases List.mem_map.mp hmem with ⟨y, hy, ⟨⟩⟩
      exact below (by simp [ofExpr, hy])
    have hcallee : (expr (.call f args span)).Has D (.expr f) := has_of_parts (by simp [parts, ofExpr])
    -- a method is called on the target of its callee
    cases f with
    | member t m s =>
      cases h
      rcases List.mem_cons.mp hx with heq | hmem
      · cases heq
        exact hcallee.trans (below (by simp [ofExpr]))
      · exact hargs hmem
    | super m s =>
      cases h
      rcases List.mem_cons.mp hx with heq | hmem
      · cases heq
        exact hcallee.trans (below (by simp [ofExpr]))
      · exact hargs hmem
    | _ =>
      cases h
      rcases List.mem_cons.mp hx with heq | hmem
      · cases heq
        exact hcallee
      · exact hargs hmem
  | array elements ordered span =>
    simp only [Expr.operands?] at h
    split at h
    · cases h
      rcases mem_ofElements hx with ⟨e, he, hxe⟩
      refine below (List.mem_flatMap.mpr ⟨e, he, ?_⟩)
      rcases hxe with hkey | rfl
      · simp [hkey]
      · simp
    · cases h
      rcases List.mem_map.mp hx with ⟨e, he, ⟨⟩⟩
      exact below (List.mem_flatMap.mpr ⟨e, he, by simp⟩)
  | hash pairs span =>
    cases h
    rcases mem_ofPairs hx with ⟨p, hp, hxp⟩
    refine below (List.mem_flatMap.mpr ⟨p, hp, ?_⟩)
    rcases hxp with rfl | rfl <;> simp
  | binary op l r span =>
    simp only [Expr.operands?] at h
    split at h
    · cases h
    · split at h
      · cases h
        exact below (by simpa [ofExpr, or_comm] using hx)
      · cases h
        exact below (by simpa [ofExpr] using hx)
      · cases h
  | channel c span =>
    cases c with
    | none =>
      cases h
      cases hx
    | some c =>
      cases h
      exact below (by simpa [ofExpr] using hx)
  | ternary | cond | super => cases h
  | literal | ident | function | this =>
    cases h
    cases hx
  | _ =>
    cases h
    exact below (by simpa [ofExpr] using hx)

end

end Term

/-! ## Rules -/

/-- What is asked of a term. -/
structure Term.Regular (t : Term) : Prop where
  counted : ∀ e, t = .expr e → e.Counted
  cleanup : ∀ b c f span, t = .stmt (.tryCatch b c (some f) span) → ∀ u ∈ f.terms, ∀ v, u.Has False v →
    v.isExit = false
  update : ∀ init c u b span, t = .stmt (.forLoop init c (some u) b span) → ∀ span',
    ¬ (Term.expr u).Has False (.stmt (.continueLoop span'))

/-- All terms in the statements of a program are as they should be. -/
def Regular (ss : List Stmt) : Prop := ∀ s ∈ ss, ∀ t, (Term.stmt s).Has True t → t.Regular

/-! ## Folding -/

def Term.fold : Term → Term
  | .expr e => .expr (Fold.expr e).val
  | .stmt s => .stmt (Fold.stmt s).val

@[simp] theorem Term.fold_expr (e : Expr) : (Term.expr e).fold = .expr (Fold.expr e).val := rfl

@[simp] theorem Term.fold_stmt (s : Stmt) : (Term.stmt s).fold = .stmt (Fold.stmt s).val := rfl

namespace Fold

@[simp] theorem exprs_val (es : List Expr) : (exprs es).val = es.map fun e => (expr e).val := by
  induction es with
  | nil => rfl
  | cons e es ih => simp [exprs, ih]

@[simp] theorem stmts_val (ss : List Stmt) : (stmts ss).val = ss.map fun s => (stmt s).val := by
  induction ss with
  | nil => rfl
  | cons s ss ih => simp [stmts, ih]

@[simp] theorem optExpr_val (e : Option Expr) : (optExpr e).val = e.map fun e => (expr e).val := by
  cases e <;> rfl

@[simp] theorem optStmt_val (s : Option Stmt) : (optStmt s).val = s.map fun s => (stmt s).val := by
  cases s <;> rfl

@[simp] theorem elements_val (es : List Element) :
    (elements es).val = es.map fun e => ⟨e.key.map fun k => (expr k).val, (expr e.value).val⟩ := by
  induction es with
  | nil => rfl
  | cons e es ih =>
    cases e
    simp [elements, element, ih]

@[simp] theorem pairs_val (ps : List (Expr × Expr)) :
    (pairs ps).val = ps.map fun p => ((expr p.1).val, (expr p.2).val) := by
  induction ps with
  | nil => rfl
  | cons p ps ih => simp [pairs, ih]

@[simp] theorem optBlock_val (b : Option Block) : (optBlock b).val = b.map fun b => (block b).val := by
  cases b <;> rfl

@[simp] theorem optCatch_val (c : Option CatchClause) :
    (optCatch c).val = c.map fun c => (catchClause c).val := by
  cases c <;> rfl

@[simp] theorem terms_block (b : Block) : (block b).val.terms = b.terms.map Term.fold := by
  cases b
  simp [block, Block.terms]

@[simp] theorem body_catchClause (c : CatchClause) : (catchClause c).val.body = (block c.body).val := by
  cases c
  rfl

@[simp] theorem body_functionLiteral (f : FunctionLiteral) :
    (functionLiteral f).val.body = (block f.body).val := by
  cases f
  rfl

/-- An operator stays, or a literal takes its place. -/
theorem replace_val (l : Option Literal) (span : Span) (e : Expr) :
    (replace l span e).val = e ∨ ∃ l', (replace l span e).val = .literal l' span := by
  cases l with
  | none => exact .inl rfl
  | some l => exact .inr ⟨l, rfl⟩

end Fold

namespace Term

/-- What stands right below a folded term is folded, and stood there before. -/
theorem parts_fold (t : Term) : t.fold.parts ⊆ t.parts.map fold := by
  have replaced : ∀ {l : Option Literal} {span : Span} {e : Expr} {ts : List Term}, ofExpr e ⊆ ts →
      (expr (Fold.replace l span e).val).parts ⊆ ts := by
    intro l span e ts h
    rcases Fold.replace_val l span e with heq | ⟨l', heq⟩
    · rw [heq]
      exact h
    · rw [heq]
      exact List.nil_subset ts
  cases t with
  | expr e =>
    cases e with
    | unary op e span => exact replaced (by simp [ofExpr, parts])
    | binary op l r span => exact replaced (by simp [ofExpr, parts])
    | cond c y n span => cases n <;> simp [Fold.expr, parts, ofExpr]
    | _ => simp [Fold.expr, parts, ofExpr, Function.comp_def, List.flatMap_map, List.map_flatMap, Option.toList_map]
  | stmt s =>
    cases s with
    | tryCatch b c f span => cases c <;> cases f <;> simp [Fold.stmt, parts, ofStmt]
    | _ => simp [Fold.stmt, parts, ofStmt, Function.comp_def, Option.toList_map]

end Term

/-- The body of a function literal. -/
def Expr.body? : Expr → Option Block
  | .function f => some f.body
  | _ => none

theorem Fold.body?_expr (e : Expr) : (expr e).val.body? = e.body?.map fun b => (block b).val := by
  cases e with
  | function f => simp [expr, Expr.body?]
  | unary op e span =>
    rcases replace_val (unary? op (expr e).val) span (.unary op (expr e).val span) with heq | ⟨l, heq⟩
    all_goals
      rw [expr, Counted.bind_val, heq]
      rfl
  | binary op l r span =>
    rcases replace_val (binary? op (expr l).val (expr r).val) span (.binary op (expr l).val (expr r).val span) with
      heq | ⟨l, heq⟩
    all_goals
      rw [expr, Counted.bind_val, Counted.bind_val, heq]
      rfl
  | _ => rfl

/-- The body of the method that a statement of a class declares. -/
def Stmt.method? : Stmt → Option Block
  | .bind _ v _ _ | .expr v _ => v.body?
  | _ => none

theorem Site.methodBodies_eq (body : List Stmt) : methodBodies body = body.filterMap Stmt.method? := by
  unfold methodBodies
  congr 1
  funext s
  cases s with
  | bind _ v | expr v => cases v <;> rfl
  | _ => rfl

theorem Fold.method?_stmt (s : Stmt) : (stmt s).val.method? = s.method?.map fun b => (block b).val := by
  cases s with
  | bind name v constant span => exact body?_expr v
  | expr v span => exact body?_expr v
  | _ => rfl

namespace Term

/-- Functions are folded in their places. -/
theorem inner_fold (t : Term) : t.fold.inner ⊆ t.inner.map fold := by
  have replaced : ∀ {l : Option Literal} {span : Span} {e : Expr} {ts : List Term}, inner (.expr e) ⊆ ts →
      (expr (Fold.replace l span e).val).inner ⊆ ts := by
    intro l span e ts h
    rcases Fold.replace_val l span e with heq | ⟨l', heq⟩
    · rw [heq]
      exact h
    · rw [heq]
      exact List.nil_subset ts
  cases t with
  | expr e =>
    cases e with
    | unary op e span => exact replaced (List.nil_subset _)
    | binary op l r span => exact replaced (List.nil_subset _)
    | _ => simp [Fold.expr, inner]
  | stmt s =>
    cases s with
    | classDecl name parent body span =>
      have hbodies : Site.methodBodies (body.map fun s => (Fold.stmt s).val) =
          (Site.methodBodies body).map fun b => (Fold.block b).val := by
        simp only [Site.methodBodies_eq, List.filterMap_map, List.map_filterMap, Function.comp_def, Fold.method?_stmt]
      simp [Fold.stmt, inner, hbodies, List.flatMap_map, List.map_flatMap]
    | _ => simp [Fold.stmt, inner]

/-- What stands in a folded term is folded, and stood there before. -/
theorem Has.of_fold {D : Prop} {t u : Term} (h : t.fold.Has D u) : ∃ v, t.Has D v ∧ u = v.fold := by
  induction h with
  | refl => exact ⟨t, .refl t, rfl⟩
  | tail _ hstep ih =>
    rcases ih with ⟨v, hv, rfl⟩
    rcases hstep with hpart | ⟨hD, hinner⟩
    · rcases List.mem_map.mp (parts_fold v hpart) with ⟨w, hw, rfl⟩
      exact ⟨w, hv.trans (has_of_parts hw), rfl⟩
    · rcases List.mem_map.mp (inner_fold v hinner) with ⟨w, hw, rfl⟩
      exact ⟨w, hv.trans (has_of_inner hD hw), rfl⟩

theorem isExit_fold (t : Term) : t.fold.isExit = t.isExit := by
  cases t with
  | expr e => rfl
  | stmt s => cases s <;> rfl

end Term

/-- Folding does not change the number of operands. -/
theorem Fold.counted {e : Expr} (h : e.Counted) : (expr e).val.Counted := by
  have replaced : ∀ {l : Option Literal} {span : Span} {e : Expr}, e.Counted → (replace l span e).val.Counted := by
    intro l span e he
    rcases replace_val l span e with heq | ⟨l', heq⟩
    · rw [heq]
      exact he
    · rw [heq]
      exact True.intro
  cases e with
  | unary op e span => exact replaced True.intro
  | binary op l r span => exact replaced True.intro
  | array es ordered span =>
    have hordered : Element.makeOrderedMap (elements es).val ordered = Element.makeOrderedMap es ordered := by
      simp [Element.makeOrderedMap, Function.comp_def]
    intro xs hxs
    change (if Element.makeOrderedMap (elements es).val ordered then _ else _) = some xs at hxs
    rw [hordered] at hxs
    split at hxs
    · next hmap =>
      have hlt := h _ (if_pos hmap)
      cases hxs
      simpa [Operand.length_ofElements] using hlt
    · next hmap =>
      have hlt := h _ (if_neg hmap)
      cases hxs
      simpa using hlt
  | hash ps span =>
    intro xs hxs
    replace h := h _ rfl
    cases hxs
    simpa [Operand.length_ofPairs] using h
  | _ => exact True.intro

theorem Term.Regular.fold {t : Term} (h : t.Regular) : t.fold.Regular where
  counted e heq := by
    cases t with
    | stmt s => cases heq
    | expr e' =>
      cases heq
      exact Fold.counted (h.counted e' rfl)
  cleanup b c f span heq u hu v hv := by
    cases t with
    | expr e => cases heq
    | stmt s =>
      cases s with
      | tryCatch b' c' f' span' =>
        cases f' with
        | none => cases heq
        | some f' =>
          cases heq
          rw [Fold.terms_block] at hu
          rcases List.mem_map.mp hu with ⟨u', hu', rfl⟩
          rcases hv.of_fold with ⟨v', hv', rfl⟩
          rw [Term.isExit_fold]
          exact h.cleanup b' c' f' _ rfl u' hu' v' hv'
      | _ => cases heq
  update init c u b span heq span' hhas := by
    cases t with
    | expr e => cases heq
    | stmt s =>
      cases s with
      | forLoop init' c' u' b' span'' =>
        cases u' with
        | none => cases heq
        | some u' =>
          cases heq
          rcases Term.Has.of_fold (t := .expr u') hhas with ⟨v, hv, heq⟩
          cases v with
          | expr e => cases heq
          | stmt s =>
            cases s with
            | continueLoop span => exact h.update init' c' u' b' _ rfl span hv
            | _ => cases heq
      | _ => cases heq

theorem Regular.fold {ss : List Stmt} (h : Regular ss) : Regular (Fold.stmts ss).val := by
  intro s hs t ht
  rw [Fold.stmts_val] at hs
  rcases List.mem_map.mp hs with ⟨s', hs', rfl⟩
  rcases Term.Has.of_fold (t := .stmt s') ht with ⟨t', ht', rfl⟩
  exact (h s' hs' t' ht').fold

/-- A program that keeps to the rules still does so when it is compiled. -/
theorem Regular.statements {p : Program} (h : Regular p.statements) (c : Compiler) :
    Regular (c.statements p) := by
  have repeated : ∀ (n : Nat) (p : Program), Regular p.statements →
      Regular (Optimizer.repeatFold n p).1.statements := by
    intro n
    induction n with
    | zero => exact fun p hp => hp
    | succ n ih => exact fun p hp => ih _ hp.fold
  unfold Compiler.statements Optimizer.run
  split
  · exact repeated _ p h
  · exact h

/-! ## Sites -/

/-- The terms that a piece is made of. -/
def Node.terms : Node → List Term
  | .expr e | .form e => [.expr e]
  | .operands _ _ xs => xs.filterMap fun
    | .expr e => some (.expr e)
    | .index _ _ => none
  | .value b | .body b => b.terms
  | .alternative b _ => b.elim [] Block.terms
  | .stmt s | .action s => [.stmt s]
  | .stmts ss | .unit ss => ss.map .stmt
  | .optStmt s => s.toList.map .stmt
  | .test e _ | .update e _ => e.toList.map .expr
  | .exits _ _ => []

namespace Site

section

variable {S T : Site} {n k : Node} {t : Term}

theorem mem_terms_operands {e : Expr} {j : Nat} {xs : List Operand} (h : t ∈ (Node.operands e j xs).terms) :
    ∃ x, t = .expr x ∧ .expr x ∈ xs := by
  rcases List.mem_filterMap.mp h with ⟨x, hx, heq⟩
  cases x with
  | expr x =>
    cases heq
    exact ⟨x, rfl, hx⟩
  | index n span => cases heq

/-- The statements of a block with a value, and the expression at its end. -/
theorem terms_of_valueParts {b : Block} (h : (T, k) ∈ valueParts S b.statements) (ht : t ∈ k.terms) :
    ∃ u ∈ b.terms, u.Has False t := by
  unfold valueParts at h
  split at h
  · next e span hlast =>
    simp only [List.mem_cons, List.not_mem_nil, or_false, Prod.mk.injEq] at h
    rcases h with ⟨-, rfl⟩ | ⟨-, rfl⟩
    · rcases List.mem_map.mp ht with ⟨s, hs, rfl⟩
      exact ⟨_, List.mem_map_of_mem (List.dropLast_subset _ hs), .refl _⟩
    · rcases List.mem_singleton.mp ht with rfl
      exact ⟨_, List.mem_map_of_mem (List.mem_of_getLast? hlast), Term.has_of_parts List.mem_cons_self⟩
  · simp only [List.mem_singleton, Prod.mk.injEq] at h
    rcases h with ⟨-, rfl⟩
    exact ⟨t, ht, .refl t⟩

/-- Operands, branches and function bodies stand in their expression. -/
theorem terms_of_formParts {e : Expr} (h : (T, k) ∈ formParts S e) (ht : t ∈ k.terms) :
    (Term.expr e).Has (∃ b, k = .body b) t := by
  have operands : k = .operands e 0 (e.operands?.getD []) → (Term.expr e).Has (∃ b, k = .body b) t := by
    rintro rfl
    rcases mem_terms_operands ht with ⟨x, rfl, hx⟩
    cases hes : e.operands? with
    | none =>
      rw [hes] at hx
      cases hx
    | some es =>
      rw [hes] at hx
      exact Term.has_of_operands hes hx
  have below : ∀ {e : Expr}, t ∈ Term.ofExpr e → (Term.expr e).Has (∃ b, k = .body b) t :=
    fun hpart => Term.has_of_parts hpart
  unfold formParts at h
  split at h
  · split at h
    · simp only [List.mem_cons, List.not_mem_nil, or_false, Prod.mk.injEq] at h
      rcases h with ⟨-, rfl⟩ | ⟨-, rfl⟩
      all_goals
        rcases List.mem_singleton.mp ht with rfl
        exact below (by simp [Term.ofExpr])
    · simp only [List.mem_singleton, Prod.mk.injEq] at h
      exact operands h.2
  · simp only [List.mem_cons, List.not_mem_nil, or_false, Prod.mk.injEq] at h
    rcases h with ⟨-, rfl⟩ | ⟨-, rfl⟩ | ⟨-, rfl⟩
    all_goals
      rcases List.mem_singleton.mp ht with rfl
      exact below (by simp [Term.ofExpr])
  · simp only [List.mem_cons, List.not_mem_nil, or_false, Prod.mk.injEq] at h
    rcases h with ⟨-, rfl⟩ | ⟨-, rfl⟩ | ⟨-, rfl⟩
    · rcases List.mem_singleton.mp ht with rfl
      exact below (by simp [Term.ofExpr])
    · exact below (List.mem_cons_of_mem _ (List.mem_append_left _ ht))
    · exact below (List.mem_cons_of_mem _ (List.mem_append_right _ ht))
  · simp only [List.mem_cons, List.not_mem_nil, or_false, Prod.mk.injEq] at h
    rcases h with ⟨-, rfl⟩ | ⟨-, rfl⟩
    · cases ht
    · exact Term.has_of_inner ⟨_, rfl⟩ ht
  · simp only [List.mem_singleton, Prod.mk.injEq] at h
    exact operands h.2

theorem terms_of_actionParts {s : Stmt} (h : (T, k) ∈ actionParts S s) (ht : t ∈ k.terms) :
    (Term.stmt s).Has (∃ b, k = .body b) t := by
  have below : t ∈ Term.ofStmt s → (Term.stmt s).Has (∃ b, k = .body b) t :=
    fun hpart => Term.has_of_parts hpart
  cases s with
  | bind | expr | throw =>
    rcases List.mem_singleton.mp h with ⟨⟩
    exact below ht
  | block b =>
    rcases List.mem_singleton.mp h with ⟨⟩
    exact below ht
  | ret e span =>
    cases e with
    | none =>
      rcases List.mem_singleton.mp h with ⟨⟩
      cases ht
    | some e =>
      simp only [actionParts, List.mem_cons, List.not_mem_nil, or_false, Prod.mk.injEq] at h
      rcases h with ⟨-, rfl⟩ | ⟨-, rfl⟩
      · exact below ht
      · cases ht
  | breakLoop | continueLoop =>
    rcases List.mem_map.mp h with ⟨l, -, ⟨⟩⟩
    cases ht
  | forLoop init c u b span =>
    simp only [actionParts, List.mem_cons, List.not_mem_nil, or_false, Prod.mk.injEq] at h
    rcases h with ⟨-, rfl⟩ | ⟨-, rfl⟩ | ⟨-, rfl⟩ | ⟨-, rfl⟩
    all_goals
      refine below ?_
      simp only [Node.terms] at ht
      simp only [Term.ofStmt, List.mem_append]
    · exact .inl ht
    · exact .inr (.inl ht)
    · exact .inr (.inr (.inr ht))
    · exact .inr (.inr (.inl ht))
  | whileLoop c b span =>
    simp only [actionParts, List.mem_cons, List.not_mem_nil, or_false, Prod.mk.injEq] at h
    rcases h with ⟨-, rfl⟩ | ⟨-, rfl⟩
    · rcases List.mem_singleton.mp ht with rfl
      exact below List.mem_cons_self
    · exact below (List.mem_cons_of_mem _ ht)
  | classDecl name parent body span =>
    rcases List.mem_map.mp h with ⟨b, hb, ⟨⟩⟩
    exact Term.has_of_inner ⟨b, rfl⟩ (List.mem_flatMap.mpr ⟨b, hb, ht⟩)
  | tryCatch b c f span =>
    refine below ?_
    cases c <;> cases f
    all_goals
      simp only [actionParts, List.mem_cons, List.not_mem_nil, or_false, Prod.mk.injEq] at h
      simp only [Term.ofStmt, List.mem_append, Option.elim]
    · rcases h with ⟨-, rfl⟩
      exact .inl ht
    · rcases h with ⟨-, rfl⟩ | ⟨-, rfl⟩
      · exact .inl ht
      · exact .inr (.inr ht)
    · rcases h with ⟨-, rfl⟩ | ⟨-, rfl⟩
      · exact .inl ht
      · exact .inr (.inl ht)
    · rcases h with ⟨-, rfl⟩ | ⟨-, rfl⟩ | ⟨-, rfl⟩
      · exact .inl ht
      · exact .inr (.inl ht)
      · exact .inr (.inr ht)

/-- The terms of a part stand in the terms of the piece. Only an early exit has other parts, the finally bodies of
the regions that it leaves. -/
theorem terms_of_parts (h : (T, k) ∈ S.parts n) (ht : t ∈ k.terms) :
    (∃ u ∈ n.terms, u.Has (∃ b, k = .body b) t) ∨
      ∃ f : Block, n.isExit = true ∧ some f ∈ S.cleanups ∧ t ∈ f.terms := by
  have same : t ∈ n.terms → ∃ u ∈ n.terms, u.Has (∃ b, k = .body b) t := fun hmem => ⟨t, hmem, .refl t⟩
  cases n with
  | expr | stmt | unit =>
    simp only [parts, List.mem_singleton, Prod.mk.injEq] at h
    rcases h with ⟨-, rfl⟩
    exact .inl (same ht)
  | form e => exact .inl ⟨_, List.mem_cons_self, terms_of_formParts h ht⟩
  | action s => exact .inl ⟨_, List.mem_cons_self, terms_of_actionParts h ht⟩
  | value b | body b =>
    rcases terms_of_valueParts h ht with ⟨u, hu, hhas⟩
    exact .inl ⟨u, hu, hhas.mono False.elim⟩
  | operands e j es =>
    rcases es with - | ⟨x | ⟨n, span⟩, xs⟩
    · cases h
    · simp only [parts, List.mem_cons, List.not_mem_nil, or_false, Prod.mk.injEq] at h
      rcases h with ⟨-, rfl⟩ | ⟨-, rfl⟩
      · rcases List.mem_singleton.mp ht with rfl
        exact .inl (same List.mem_cons_self)
      · exact .inl (same (List.mem_cons_of_mem _ ht))
    · simp only [parts, List.mem_singleton, Prod.mk.injEq] at h
      rcases h with ⟨-, rfl⟩
      exact .inl (same ht)
  | alternative b span =>
    cases b with
    | none => cases h
    | some b =>
      simp only [parts, Option.toList_some, List.map_cons, List.map_nil, List.mem_singleton, Prod.mk.injEq] at h
      rcases h with ⟨-, rfl⟩
      exact .inl (same ht)
  | stmts ss =>
    cases ss with
    | nil => cases h
    | cons s ss =>
      simp only [parts, List.mem_cons, List.not_mem_nil, or_false, Prod.mk.injEq] at h
      rcases h with ⟨-, rfl⟩ | ⟨-, rfl⟩
      · rcases List.mem_singleton.mp ht with rfl
        exact .inl (same List.mem_cons_self)
      · exact .inl (same (List.mem_cons_of_mem _ ht))
  | optStmt e | test e span | update e span =>
    cases e with
    | none => cases h
    | some e =>
      simp only [parts, Option.toList_some, List.map_cons, List.map_nil, List.mem_singleton, Prod.mk.injEq] at h
      rcases h with ⟨-, rfl⟩
      exact .inl (same ht)
  | exits depth span =>
    simp only [parts, exitParts] at h
    split at h
    · cases h
    · next cleanup outer hcleanups =>
      split at h
      · rcases List.mem_append.mp h with h | h
        · rcases List.mem_map.mp h with ⟨f, hf, heq⟩
          cases heq
          refine .inr ⟨f, rfl, ?_, ht⟩
          rw [hcleanups, Option.mem_toList.mp hf]
          exact List.mem_cons_self
        · rw [List.mem_singleton] at h
          cases h
          cases ht
      · cases h

/-- A region is opened by a statement that is protected. -/
theorem cleanups_of_parts (h : (T, k) ∈ S.parts n) {f : Block} (hf : some f ∈ T.cleanups) :
    some f ∈ S.cleanups ∨ ∃ b c span, n = .action (.tryCatch b c (some f) span) := by
  by_cases hbody : ∃ b, k = .body b
  · rcases hbody with ⟨b, rfl⟩
    rw [eq_top_of_parts h] at hf
    cases hf
  · cases shift_of_parts h fun b hb => hbody ⟨b, hb⟩ with
    | same _ _ hcleanups => exact .inl (hcleanups ▸ hf)
    | enter =>
      rcases List.mem_cons.mp hf with heq | hf
      · cases heq
        exact .inr ⟨_, _, _, rfl⟩
      · exact .inl hf
    | unprotected =>
      rcases List.mem_cons.mp hf with heq | hf
      · cases heq
      · exact .inl hf
    | loop | update => exact .inl hf
    | exits hcleanups | cleanup hcleanups =>
      rw [hcleanups]
      exact .inl (List.mem_cons_of_mem _ hf)

theorem isExit_of_exits {depth : Nat} {span : Span} (h : (T, .exits depth span) ∈ S.parts n) :
    n.isExit = true := by
  cases n with
  | exits => rfl
  | action s =>
    cases s with
    | ret | breakLoop | continueLoop => rfl
    | tryCatch b c f span' => cases c <;> cases f <;> simp [parts, actionParts] at h
    | _ => simp [parts, actionParts] at h
  | form e =>
    simp only [parts, formParts] at h
    split at h <;> (try split at h) <;> simp at h
  | operands e j xs => rcases xs with - | ⟨x | ⟨m, span'⟩, xs⟩ <;> simp [parts] at h
  | value b | body b =>
    simp only [parts, valueParts] at h
    split at h <;> simp at h
  | stmts ss => cases ss <;> simp [parts] at h
  | _ => simp [parts] at h

/-- An early exit is part of an early exit, or a statement of its own. -/
theorem isExit_of_parts (h : (T, k) ∈ S.parts n) (hk : k.isExit = true) :
    n.isExit = true ∨ ∃ t ∈ k.terms, t.isExit = true := by
  cases k with
  | exits depth span => exact .inl (isExit_of_exits h)
  | action s =>
    refine .inr ⟨.stmt s, List.mem_cons_self, ?_⟩
    cases s with
    | ret | breakLoop | continueLoop => rfl
    | _ => cases hk
  | _ => cases hk

theorem for_of_update {u : Option Expr} {span : Span} (h : (T, .update u span) ∈ S.parts n) :
    ∃ init c b, n = .action (.forLoop init c u b span) := by
  cases n with
  | action s =>
    cases s with
    | forLoop init c u' b span' =>
      simp [parts, actionParts] at h
      rcases h with ⟨-, rfl, rfl⟩
      exact ⟨init, c, b, rfl⟩
    | ret e span' => cases e <;> simp [parts, actionParts] at h
    | tryCatch b c f span' => cases c <;> cases f <;> simp [parts, actionParts] at h
    | _ => simp [parts, actionParts] at h
  | form e =>
    simp only [parts, formParts] at h
    split at h <;> (try split at h) <;> simp at h
  | operands e j xs => rcases xs with - | ⟨x | ⟨m, span'⟩, xs⟩ <;> simp [parts] at h
  | value b | body b =>
    simp only [parts, valueParts] at h
    split at h <;> simp at h
  | stmts ss => cases ss <;> simp [parts] at h
  | exits depth span' =>
    simp only [parts, exitParts] at h
    split at h <;> (try split at h) <;> simp at h
  | _ => simp [parts] at h

/-- The terms of a piece satisfy `P`, and the finally bodies of the regions around it satisfy `C`. -/
structure Obeys (P : Term → Prop) (C : Block → Prop) (b : Site × Node) : Prop where
  terms : ∀ t ∈ b.2.terms, P t
  cleanups : ∀ f, some f ∈ b.1.cleanups → C f

variable {P : Term → Prop} {C : Block → Prop} {D : Prop}

theorem Obeys.part (h : Obeys P C (S, n)) (hP : ∀ t u, P t → t.Has D u → P u)
    (hC : ∀ b c f span, P (.stmt (.tryCatch b c (some f) span)) → C f) (hF : ∀ f, C f → ∀ t ∈ f.terms, P t)
    (hk : (T, k) ∈ S.parts n) (hD : (∃ b, k = .body b) → D) : Obeys P C (T, k) := by
  constructor
  · intro t ht
    rcases terms_of_parts hk ht with ⟨u, hu, hhas⟩ | ⟨f, -, hf, ht⟩
    · exact hP u t (h.terms u hu) (hhas.mono hD)
    · exact hF f (h.cleanups f hf) t ht
  · intro f hf
    rcases cleanups_of_parts hk hf with hf | ⟨b, c, span, rfl⟩
    · exact h.cleanups f hf
    · exact hC b c f span (h.terms _ List.mem_cons_self)

end

end Site

/-- All terms in a term are as they should be. -/
def Term.Proper (t : Term) : Prop := ∀ u, t.Has True u → u.Regular

/-- A finally body as it should be. -/
structure Block.Proper (f : Block) : Prop where
  exits : ∀ t ∈ f.terms, ∀ u, t.Has False u → u.isExit = false
  terms : ∀ t ∈ f.terms, t.Proper

theorem Term.Proper.has {D : Prop} {t u : Term} (h : t.Proper) (hhas : t.Has D u) : u.Proper :=
  fun v hv => h v ((hhas.mono fun _ => trivial).trans hv)

theorem Term.Proper.cleanup {b f : Block} {c : Option CatchClause} {span : Span}
    (h : (Term.stmt (.tryCatch b c (some f) span)).Proper) : f.Proper := by
  constructor
  · exact (h _ (.refl _)).cleanup b c f span rfl
  · intro t ht
    refine h.has (D := False) (Term.has_of_parts ?_)
    exact List.mem_append_right _ (List.mem_append_right _ ht)

/-- No early exit is compiled with a finally body, wherever that is. -/
theorem Block.Proper.quiet {f : Block} (h : f.Proper) : f.Quiet := by
  have inside : ∀ {S b}, Site.Within (S, .stmts f.statements) b →
      b.2.isExit = false ∧ ∀ t ∈ b.2.terms, t.Proper ∧ ∀ u, t.Has False u → u.isExit = false := by
    intro S b hb
    induction hb with
    | refl => exact ⟨rfl, fun t ht => ⟨h.terms t ht, h.exits t ht⟩⟩
    | @tail b k _ hstep ih =>
      rcases hstep with ⟨hpart, hbody⟩
      have hterms : ∀ t ∈ k.2.terms, t.Proper ∧ ∀ u, t.Has False u → u.isExit = false := by
        intro t ht
        rcases Site.terms_of_parts hpart ht with ⟨u, hu, hhas⟩ | ⟨f', hexit, -⟩
        · rcases ih.2 u hu with ⟨hproper, hexits⟩
          have hhas' : u.Has False t := hhas.mono fun ⟨body, hb⟩ => hbody body hb
          exact ⟨hproper.has hhas, fun v hv => hexits v (hhas'.trans hv)⟩
        · rw [ih.1] at hexit
          cases hexit
      refine ⟨?_, hterms⟩
      cases hexit : k.2.isExit with
      | false => rfl
      | true =>
        rcases Site.isExit_of_parts hpart hexit with hn | ⟨t, ht, htrue⟩
        · exact hn.symm.trans ih.1
        · exact htrue.symm.trans ((hterms t ht).2 t (.refl t))
  constructor
  · exact fun S b hb => (inside hb).1
  · intro S T e hb
    exact (((inside hb).2 (.expr e) List.mem_cons_self).1 _ (.refl _)).counted e rfl

/-- Whatever is compiled for a program that keeps to the rules keeps to them, too. -/
theorem Regular.obeys {ss : List Stmt} (h : Regular ss) {b : Site × Node} (hb : Site.Visits (.top, .unit ss) b) :
    Site.Obeys Term.Proper Block.Proper b := by
  induction hb with
  | refl =>
    constructor
    · intro t ht
      rcases List.mem_map.mp ht with ⟨s, hs, rfl⟩
      exact h s hs
    · exact fun f hf => by cases hf
  | tail _ hpart ih =>
    exact ih.part (D := True) (fun t u ht hhas => ht.has hhas) (fun b c f span ht => ht.cleanup)
      (fun f hf => hf.terms) hpart fun _ => trivial

/-- The blocks of a program that keeps to the rules are tidy. -/
theorem Regular.tidy {ss : List Stmt} (h : Regular ss) {S : Site} {n : Node}
    (hn : Site.Visits (.top, .unit ss) (S, n)) : Site.Tidy S n := by
  have visits : ∀ {b}, Site.Within (S, n) b → Site.Visits (.top, .unit ss) b := fun hb =>
    Relation.ReflTransGen.trans hn (Relation.ReflTransGen.mono (fun _ _ hstep => hstep.1) _ _ hb)
  constructor
  · intro T b c f span hb
    exact ((h.obeys (visits hb)).terms _ List.mem_cons_self).cleanup.quiet
  · intro T u span U span' hb hcont
    -- an update clause is part of a loop
    rcases Relation.ReflTransGen.cases_tail (visits hb) with heq | ⟨⟨V, k⟩, hk, hpart⟩
    · cases heq
    · rcases Site.for_of_update hpart with ⟨init, c, b, rfl⟩
      have hfor := (h.obeys hk).terms _ List.mem_cons_self
      have hterms : ∀ t ∈ (Node.update u span).terms, ∀ span, ¬ t.Has False (.stmt (.continueLoop span)) := by
        intro t ht
        rcases List.mem_map.mp ht with ⟨e, he, rfl⟩
        rw [Option.mem_toList.mp he] at hfor
        exact (hfor _ (.refl _)).update init c e b span rfl
      have hcleanups : ∀ f, some f ∈ T.cleanups → ∀ t ∈ f.terms, ∀ span,
          ¬ t.Has False (.stmt (.continueLoop span)) := by
        intro f hf t ht span hhas
        cases ((h.obeys (visits hb)).cleanups f hf).exits t ht _ hhas
      have hobeys : ∀ {k}, Site.Within (T, .update u span) k → Site.Obeys
          (fun t => ∀ span, ¬ t.Has False (.stmt (.continueLoop span)))
          (fun f => ∀ t ∈ f.terms, ∀ span, ¬ t.Has False (.stmt (.continueLoop span))) k := by
        intro k hk
        induction hk with
        | refl => exact ⟨hterms, hcleanups⟩
        | tail _ hstep ih =>
          refine ih.part (D := False) ?_ ?_ (fun f hf => hf) hstep.1 fun ⟨body, hbody⟩ => hstep.2 body hbody
          · exact fun t u ht hhas span hu => ht span (hhas.trans hu)
          · intro b c f span ht t hmem span' hhas
            refine ht span' (.trans (Term.has_of_parts ?_) hhas)
            exact List.mem_append_right _ (List.mem_append_right _ hmem)
      exact (hobeys hcont).terms _ List.mem_cons_self span' (.refl _)

end ScriptMachine
