import ScriptMachine.Compile.Lower

/-!
# Names that are declared in a scope

Blocks open no scope, so whatever a statement declares, however deep inside it, is declared in the scope that the
statement stands in; only a function body has a scope of its own. A `const` declares a constant. A `let`, a class and
the parameter of a handler declare names that can be assigned to.
-/

namespace ScriptMachine

/-- A declared name, with whether it is a constant. -/
abbrev Declaration := String × Bool

mutual

/-- The declarations inside an expression. -/
def Expr.declared : Expr → List Declaration
  | .literal _ _ | .ident _ | .function _ | .this _ | .super _ _ => []
  | .unary _ e _ | .member e _ _ | .receive e _ | .assign _ e _ => e.declared
  | .binary _ l r _ | .index l r _ | .memberAssign l _ r _ | .send l r _ => l.declared ++ r.declared
  | .ternary c y n _ => c.declared ++ (y.declared ++ n.declared)
  | .indexAssign t i v _ => t.declared ++ (i.declared ++ v.declared)
  | .cond c y n _ => c.declared ++ (y.declared ++ Block.declaredIn n)
  | .call f args _ | .spawn f args _ => f.declared ++ Expr.declaredAll args
  | .array es _ _ => Element.declaredAll es
  | .hash ps _ => Expr.declaredPairs ps
  | .channel c _ => Expr.declaredIn c
termination_by structural e => e

def Expr.declaredAll : List Expr → List Declaration
  | [] => []
  | e :: es => e.declared ++ Expr.declaredAll es
termination_by structural es => es

def Expr.declaredIn : Option Expr → List Declaration
  | none => []
  | some e => e.declared
termination_by structural e => e

def Expr.declaredPairs : List (Expr × Expr) → List Declaration
  | [] => []
  | (k, v) :: ps => k.declared ++ (v.declared ++ Expr.declaredPairs ps)
termination_by structural ps => ps

def Element.declared : Element → List Declaration
  | ⟨key, value⟩ => Expr.declaredIn key ++ value.declared
termination_by structural e => e

def Element.declaredAll : List Element → List Declaration
  | [] => []
  | e :: es => e.declared ++ Element.declaredAll es
termination_by structural es => es

def Block.declared : Block → List Declaration
  | ⟨ss, _⟩ => Stmt.declaredAll ss
termination_by structural b => b

def Block.declaredIn : Option Block → List Declaration
  | none => []
  | some b => b.declared
termination_by structural b => b

def CatchClause.declared : CatchClause → List Declaration
  | ⟨param, body⟩ => param.toList.map (fun p => (p.name, false)) ++ body.declared
termination_by structural c => c

def CatchClause.declaredIn : Option CatchClause → List Declaration
  | none => []
  | some c => c.declared
termination_by structural c => c

/-- The declarations of a statement. The members of a class belong to its instances. -/
def Stmt.declared : Stmt → List Declaration
  | .bind name value constant _ => (name.name, constant) :: value.declared
  | .expr e _ | .throw e _ => e.declared
  | .block b => b.declared
  | .ret value _ => Expr.declaredIn value
  | .forLoop init c u body _ =>
    Stmt.declaredIn init ++ (Expr.declaredIn c ++ (Expr.declaredIn u ++ body.declared))
  | .whileLoop c body _ => c.declared ++ body.declared
  | .breakLoop _ | .continueLoop _ => []
  | .classDecl name _ _ _ => [(name.name, false)]
  | .tryCatch body handler cleanup _ =>
    body.declared ++ (CatchClause.declaredIn handler ++ Block.declaredIn cleanup)
termination_by structural s => s

def Stmt.declaredIn : Option Stmt → List Declaration
  | none => []
  | some s => s.declared
termination_by structural s => s

/-- The declarations of statements, in the order in which they stand. -/
def Stmt.declaredAll : List Stmt → List Declaration
  | [] => []
  | s :: ss => s.declared ++ Stmt.declaredAll ss
termination_by structural ss => ss

end

/-- The declarations of the finally bodies around the code at hand. An early exit compiles them anew. -/
def Regions.declared : Regions → List Declaration
  | [] => []
  | cleanup :: outer => Block.declaredIn cleanup ++ Regions.declared outer

/-- `if (true) { const x = 5 }; fn() { let x = 6 }` declares a constant, and the function has an `x` of its own. -/
example (s : Span) : Stmt.declaredAll [
    .expr (.cond (.literal (.bool true) s) ⟨[.bind ⟨"x", s⟩ (.literal (.int 5) s) true s], s⟩ none s) s,
    .expr (.function ⟨none, [], ⟨[.bind ⟨"x", s⟩ (.literal (.int 6) s) false s], s⟩, s⟩) s] = [("x", true)] := rfl

end ScriptMachine
